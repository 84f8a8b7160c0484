import OnePass.Text.Blank
import OnePass.Text.Row
import OnePass.Token

/-!
Token listings: one token a row, written as its line, its class and its value with a
single space between them. The value is all that follows the second space, so it may
hold spaces of its own and may be empty. Blank rows are passed over, but counted.
-/

namespace OnePass

/-- What is wrong with a row of a listing; rows are counted from one. -/
inductive ListingError where
  | missingField (row : Nat)
  | badLineNumber (row : Nat) (found : String)
  | unknownClass (row : Nat) (name : String)
deriving DecidableEq, Repr

namespace ListingError

/-- The text of the error. -/
def message : ListingError → String
  | missingField row => "row " ++ Nat.repr row ++ ": expected `<line> <CLASS> <value>`"
  | badLineNumber row found => "row " ++ Nat.repr row ++ ": `" ++ found ++ "` is not a line number"
  | unknownClass row name => "row " ++ Nat.repr row ++ ": unknown token class `" ++ name ++ "`"

end ListingError

namespace Listing

/-- Reads a row that is not blank. Blanks before the line number do not count. -/
def readRow (number : Nat) (row : List Char) : Except ListingError Token :=
  match Text.cut ' ' (Text.trimStart row) with
  | none => .error (.missingField number)
  | some (lineText, fields) =>
    match Text.unsigned? lineText with
    | none => .error (.badLineNumber number (String.ofList lineText))
    | some line =>
      let (className, value) := (Text.cut ' ' fields).getD (fields, [])
      match TokenKind.ofClassName? (String.ofList className) with
      | none => .error (.unknownClass number (String.ofList className))
      | some kind => .ok { kind, value := String.ofList value, line }

/-- Reads rows of which the first has the given number; the first bad row decides. -/
def readRows (number : Nat) : List (List Char) → Except ListingError (List Token)
  | [] => .ok []
  | row :: rest =>
    if row.all Text.isBlank then readRows (number + 1) rest
    else do
      let token ← readRow number row
      let tokens ← readRows (number + 1) rest
      return token :: tokens

/-- The tokens that a listing holds. -/
def read (listing : String) : Except ListingError (List Token) :=
  readRows 1 (Text.rows listing.toList)

/-- A token's row, with the line feed that ends it. -/
def writeRow (token : Token) : String :=
  Text.wordText token.line ++ " " ++ token.kind.className ++ " " ++ token.value ++ "\n"

/-- The listing of a list of tokens. -/
def write (tokens : List Token) : String :=
  String.join (tokens.map writeRow)

end Listing

end OnePass
