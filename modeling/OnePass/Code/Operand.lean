import OnePass.Text.Decimal

/-!
Operands of three-address code: virtual registers and texts that stand for themselves, and the
numbering of registers and labels.
-/

namespace OnePass

/-- A virtual register. -/
structure Reg where
  number : Nat
deriving DecidableEq, Repr, Inhabited

/-- A place in the code that jumps can name. -/
structure Label where
  number : Nat
deriving DecidableEq, Repr, Inhabited

def Reg.text (reg : Reg) : String :=
  "#" ++ Nat.repr reg.number

def Label.text (label : Label) : String :=
  "Label_" ++ Nat.repr label.number

/-- A register, or the text of something usable as it stands: a variable's name, a
numeral or a quoted character. -/
inductive Operand where
  | reg (reg : Reg)
  | named (text : String)
deriving DecidableEq, Repr, Inhabited

namespace Operand

def isReg : Operand → Bool
  | reg _ => true
  | named _ => false

def reg? : Operand → Option Reg
  | reg r => some r
  | named _ => none

/-- The number that an operand spells, if its text is a numeral of a signed word. -/
def literal? : Operand → Option Int64
  | reg _ => none
  | named t => Text.signed? t.toList

def text : Operand → String
  | reg r => r.text
  | named t => t

/-- A number as an operand. -/
def ofNumber (n : Int64) : Operand :=
  named (Text.numberText n)

/-- A character literal as an operand, in single quotes. -/
def ofChar (value : String) : Operand :=
  named ("'" ++ value ++ "'")

end Operand

/-- Which operands of an arithmetic instruction are registers. -/
inductive OperandShape where
  | regReg
  | regText
  | textReg
  | textText
deriving DecidableEq, Repr, Inhabited

def OperandShape.of : Operand → Operand → OperandShape
  | .reg _, .reg _ => regReg
  | .reg _, .named _ => regText
  | .named _, .reg _ => textReg
  | .named _, .named _ => textText

/-- The next free register and label. Numbers are given out once in a whole program, and
do not start over with a function. -/
structure Counters where
  regs : Nat := 0
  labels : Nat := 0
deriving DecidableEq, Repr

namespace Counters

def freshReg (counters : Counters) : Reg × Counters :=
  (⟨counters.regs⟩, { counters with regs := counters.regs + 1 })

def freshLabel (counters : Counters) : Label × Counters :=
  (⟨counters.labels⟩, { counters with labels := counters.labels + 1 })

end Counters

end OnePass
