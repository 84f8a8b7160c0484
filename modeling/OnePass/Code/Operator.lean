import OnePass.Token

/-!
Arithmetic operators, and the relations on which conditional jumps are taken.
-/

namespace OnePass

inductive ArithOp where
  | add
  | sub
  | mul
  | div
deriving DecidableEq, Repr, Inhabited

namespace ArithOp

def symbol : ArithOp → String
  | add => "+"
  | sub => "-"
  | mul => "*"
  | div => "/"

/-- The operator between the terms of an expression. -/
def additive? : TokenKind → Option ArithOp
  | .plus => some add
  | .minus => some sub
  | _ => none

/-- The operator between the factors of a term. -/
def multiplicative? : TokenKind → Option ArithOp
  | .star => some mul
  | .slash => some div
  | _ => none

/-- The operator that a token stands for. -/
def ofKind? (kind : TokenKind) : Option ArithOp :=
  additive? kind <|> multiplicative? kind

end ArithOp

/-- Whether a conditional jump is taken when its condition holds or when it fails. -/
inductive Sense where
  | onTrue
  | onFalse
deriving DecidableEq, Repr, Inhabited

inductive Relation where
  | eq
  | ne
  | lt
  | ge
  | le
  | gt
deriving DecidableEq, Repr, Inhabited

namespace Relation

def ofKind? : TokenKind → Option Relation
  | .equal => some eq
  | .notEqual => some ne
  | .less => some lt
  | .greaterEq => some ge
  | .lessEq => some le
  | .greater => some gt
  | _ => none

/-- The relation that holds exactly when this one fails. -/
def negate : Relation → Relation
  | eq => ne
  | ne => eq
  | lt => ge
  | ge => lt
  | le => gt
  | gt => le

/-- The relation that a jump of the given sense tests. -/
def tested (relation : Relation) : Sense → Relation
  | .onTrue => relation
  | .onFalse => relation.negate

def opcode : Relation → String
  | eq => "beq"
  | ne => "bne"
  | lt => "blt"
  | ge => "bge"
  | le => "ble"
  | gt => "bgt"

@[simp]
theorem negate_negate (relation : Relation) : relation.negate.negate = relation := by
  cases relation <;> rfl

end Relation

end OnePass
