import OnePass.Text.Decimal

/-!
Tokens of the source language as a scanner hands them over: a class, the text it
was read from and the line it stands on.
-/

namespace OnePass

/-- The classes a scanner sorts tokens into. -/
inductive TokenKind where
  | ident
  | intLit
  | charLit
  | strLit
  | kwConst
  | kwInt
  | kwChar
  | kwVoid
  | kwMain
  | kwIf
  | kwElse
  | kwDo
  | kwWhile
  | kwFor
  | kwScanf
  | kwPrintf
  | kwReturn
  | plus
  | minus
  | star
  | slash
  | less
  | lessEq
  | greater
  | greaterEq
  | equal
  | notEqual
  | assign
  | semicolon
  | comma
  | lparen
  | rparen
  | lbracket
  | rbracket
  | lbrace
  | rbrace
deriving DecidableEq, Repr, Inhabited

namespace TokenKind

/-- The name of the class in a token listing. -/
def className : TokenKind → String
  | ident => "IDENFR"
  | intLit => "INTCON"
  | charLit => "CHARCON"
  | strLit => "STRCON"
  | kwConst => "CONSTTK"
  | kwInt => "INTTK"
  | kwChar => "CHARTK"
  | kwVoid => "VOIDTK"
  | kwMain => "MAINTK"
  | kwIf => "IFTK"
  | kwElse => "ELSETK"
  | kwDo => "DOTK"
  | kwWhile => "WHILETK"
  | kwFor => "FORTK"
  | kwScanf => "SCANFTK"
  | kwPrintf => "PRINTFTK"
  | kwReturn => "RETURNTK"
  | plus => "PLUS"
  | minus => "MINU"
  | star => "MULT"
  | slash => "DIV"
  | less => "LSS"
  | lessEq => "LEQ"
  | greater => "GRE"
  | greaterEq => "GEQ"
  | equal => "EQL"
  | notEqual => "NEQ"
  | assign => "ASSIGN"
  | semicolon => "SEMICN"
  | comma => "COMMA"
  | lparen => "LPARENT"
  | rparen => "RPARENT"
  | lbracket => "LBRACK"
  | rbracket => "RBRACK"
  | lbrace => "LBRACE"
  | rbrace => "RBRACE"

/-- Every class, in the order of the declaration. -/
def all : List TokenKind :=
  [ident, intLit, charLit, strLit, kwConst, kwInt, kwChar, kwVoid, kwMain, kwIf, kwElse,
   kwDo, kwWhile, kwFor, kwScanf, kwPrintf, kwReturn, plus, minus, star, slash, less,
   lessEq, greater, greaterEq, equal, notEqual, assign, semicolon, comma, lparen, rparen,
   lbracket, rbracket, lbrace, rbrace]

/-- The class with a given name. -/
def ofClassName? (name : String) : Option TokenKind :=
  all.find? fun kind => kind.className == name

/-- The comparison operators. -/
def isRelation : TokenKind → Bool
  | less | lessEq | greater | greaterEq | equal | notEqual => true
  | _ => false

/-- The keywords that open a declaration of values. -/
def isTypeName : TokenKind → Bool
  | kwInt | kwChar => true
  | _ => false

/-- The signs of a number. -/
def isSign : TokenKind → Bool
  | plus | minus => true
  | _ => false

/-- A class is found again under its name. -/
@[simp]
theorem ofClassName?_className (kind : TokenKind) : ofClassName? kind.className = some kind := by
  cases kind <;> decide

end TokenKind

/-- A token: its class, its text and its line. -/
structure Token where
  kind : TokenKind
  value : String
  line : UInt64
deriving DecidableEq, Repr, Inhabited

end OnePass
