import OnePass.Token

/-!
Types of the source language. A function's parameter types are kept as a signature, a
text with one code per parameter; void has no code, since nothing is passed as void.
-/

namespace OnePass

inductive Ty where
  | void
  | char
  | int
deriving DecidableEq, Repr, Inhabited

namespace Ty

/-- The type a keyword stands for. -/
def ofKind? : TokenKind → Option Ty
  | .kwInt => some int
  | .kwChar => some char
  | .kwVoid => some void
  | _ => none

/-- The keyword of a type. -/
def keyword : Ty → String
  | void => "void"
  | char => "char"
  | int => "int"

/-- The code of a parameter type in a signature. -/
def signatureCode? : Ty → Option Char
  | int => some '0'
  | char => some '1'
  | void => none

/-- The type that a signature code stands for. -/
def ofSignatureCode? : Char → Option Ty
  | '0' => some int
  | '1' => some char
  | _ => none

/-- The type that a value of a declared type has in an expression: what is declared void
counts as an int there. -/
def asValue : Ty → Ty
  | char => char
  | _ => int

/-- Void is the one type without a code. -/
theorem signatureCode?_eq_none_iff {ty : Ty} : ty.signatureCode? = none ↔ ty = void := by
  cases ty <;> decide

/-- A code stands for the type it was made from. -/
theorem ofSignatureCode?_of_signatureCode? {ty : Ty} {c : Char} (h : ty.signatureCode? = some c) :
    ofSignatureCode? c = some ty := by
  cases ty with
  | void => cases h
  | char => cases h; rfl
  | int => cases h; rfl

theorem asValue_ne_void (ty : Ty) : ty.asValue ≠ void := by
  cases ty <;> decide

end Ty

end OnePass
