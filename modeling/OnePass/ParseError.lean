import OnePass.Token

/-!
Why a compilation stops: the tokens end too early, a token stands where the grammar has
another, a numeral is out of range, or the text of the code cannot be written.
-/

namespace OnePass

/-- What the grammar has at a place. -/
inductive Expected where
  | kind (kind : TokenKind)
  | token
  | typeName
  | declaration
  | statement
  | sign
  | expression
deriving DecidableEq, Repr

def Expected.text : Expected → String
  | .kind k => k.className
  | .token => "a token"
  | .typeName => "INTTK or CHARTK"
  | .declaration => "a declaration or function"
  | .statement => "a statement"
  | .sign => "PLUS or MINU"
  | .expression => "an expression"

/-- The last two causes are guards of the parser's own definitions: a void value has no code
in a signature, and a loop or a nested phrase has to consume a token. -/
inductive ParseError where
  | unexpectedEof (expected : Expected)
  | unexpectedToken (expected : Expected) (found : Token)
  | invalidInteger (numeral : Token)
  | trace
  | voidParameter
  | stalled
deriving DecidableEq, Repr

/-- The text of the error. -/
def ParseError.message : ParseError → String
  | unexpectedEof expected => "token stream ended while expecting " ++ expected.text
  | unexpectedToken expected found =>
    "line " ++ Text.wordText found.line ++ ": expected " ++ expected.text ++ ", found " ++
      found.kind.className ++ " `" ++ found.value ++ "`"
  | invalidInteger numeral =>
    "line " ++ Text.wordText numeral.line ++ ": `" ++ numeral.value ++ "` is not a valid integer"
  | trace => "failed to write midcode trace"
  | voidParameter => "void is not a parameter type"
  | stalled => "no token was consumed"

end OnePass
