import OnePass.Text.Decimal

/-!
Diagnostics: findings about a program that do not stop its compilation. Each has a line
and a kind, and a kind has a one-letter code and a text.
-/

namespace OnePass

inductive DiagnosticKind where
  | redefinition
  | undefined
  | argumentCount
  | argumentType
  | conditionType
  | returnInVoid
  | missingReturn
  | indexType
  | assignToConst
  | missingSemicolon
  | missingParen
  | missingBracket
  | missingWhile
  | constInitialiser
deriving DecidableEq, Repr, Inhabited

namespace DiagnosticKind

/-- The letter of a kind. -/
def code : DiagnosticKind → Char
  | redefinition => 'b'
  | undefined => 'c'
  | argumentCount => 'd'
  | argumentType => 'e'
  | conditionType => 'f'
  | returnInVoid => 'g'
  | missingReturn => 'h'
  | indexType => 'i'
  | assignToConst => 'j'
  | missingSemicolon => 'k'
  | missingParen => 'l'
  | missingBracket => 'm'
  | missingWhile => 'n'
  | constInitialiser => 'o'

/-- The text of a kind. -/
def message : DiagnosticKind → String
  | redefinition => "name redefined in the same scope"
  | undefined => "undefined name"
  | argumentCount => "wrong number of arguments"
  | argumentType => "argument type does not match parameter"
  | conditionType => "condition operand must be int"
  | returnInVoid => "void function returns a value"
  | missingReturn => "missing or mistyped return value"
  | indexType => "array index must be int"
  | assignToConst => "assignment to a constant"
  | missingSemicolon => "missing `;`"
  | missingParen => "missing `)`"
  | missingBracket => "missing `]`"
  | missingWhile => "missing `while` after `do` body"
  | constInitialiser => "constant initialiser has the wrong type"

end DiagnosticKind

structure Diagnostic where
  line : UInt64
  kind : DiagnosticKind
deriving DecidableEq, Repr, Inhabited

/-- A diagnostic's row in a report: its line and its letter. -/
def Diagnostic.render (diagnostic : Diagnostic) : String :=
  Text.wordText diagnostic.line ++ " " ++ String.singleton diagnostic.kind.code

end OnePass
