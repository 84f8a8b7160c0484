import OnePass.Token

/-!
The tokens of a program that is written out. What is proved of all programs is shown on some, and
these are given line by line, with a blank between one word and the next.
-/

namespace OnePass

/-- The characters of a text, where each of them is one byte. The bytes of a text that is written
out are found much faster than its characters are. -/
def letters (text : String) : List Char :=
  text.toByteArray.data.toList.map fun byte => .ofNat byte.toNat

/-- The words that stand for a class of their own. -/
def TokenKind.spellings : List (String × TokenKind) :=
  [("const", .kwConst), ("int", .kwInt), ("char", .kwChar), ("void", .kwVoid), ("main", .kwMain),
    ("if", .kwIf), ("else", .kwElse), ("do", .kwDo), ("while", .kwWhile), ("for", .kwFor),
    ("scanf", .kwScanf), ("printf", .kwPrintf), ("return", .kwReturn), ("+", .plus), ("-", .minus),
    ("*", .star), ("/", .slash), ("<", .less), ("<=", .lessEq), (">", .greater), (">=", .greaterEq),
    ("==", .equal), ("!=", .notEqual), ("=", .assign), (";", .semicolon), (",", .comma),
    ("(", .lparen), (")", .rparen), ("[", .lbracket), ("]", .rbracket), ("\x7b", .lbrace),
    ("\x7d", .rbrace)]

/-- The token of a word: a literal is known by its first character, and any other word is a name. -/
def Token.ofWord (line : UInt64) (word : List Char) : Token :=
  match TokenKind.spellings.find? (letters ·.1 == word), word with
  | some (text, kind), _ => ⟨kind, text, line⟩
  | none, '\'' :: text => ⟨.charLit, .ofList text.dropLast, line⟩
  | none, '"' :: text => ⟨.strLit, .ofList text.dropLast, line⟩
  | none, text => ⟨if text.all Char.isDigit then .intLit else .ident, .ofList text, line⟩

/-- The tokens of a program, from a line on. -/
def scan (line : UInt64) : List String → List Token
  | [] => []
  | text :: rest => ((letters text).splitOn ' ').map (Token.ofWord line) ++ scan (line + 1) rest

end OnePass
