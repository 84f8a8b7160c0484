import OnePass.Code.Operand
import OnePass.Code.Operator
import OnePass.Names.Ty

/-!
Three-address instructions and their text, one line an instruction.
-/

namespace OnePass

inductive Instr where
  | param (ty : Ty) (name : String)
  | var (ty : Ty) (name : String) (length : Option UInt64)
  | funcDeclare (ty : Ty) (name : String)
  | label (label : Label)
  | jump (label : Label)
  | branch (relation : Relation) (lhs rhs : Operand) (label : Label)
  | branchZero (value : Operand) (label : Label)
  | branchNonzero (value : Operand) (label : Label)
  | arith (op : ArithOp) (dst : Reg) (lhs rhs : Operand)
  | neg (dst : Reg) (value : Operand)
  | step (target source : String) (op : ArithOp) (amount : Int64)
  | load (dst : Reg) (name : String)
  | loadElement (dst : Reg) (name : String) (index : Operand)
  | assign (name : String) (value : Operand)
  | assignElement (name : String) (index value : Operand)
  | save (function : String)
  | push (function : String) (value : Operand) (position : Nat)
  | call (function : String)
  | takeResult (dst : Reg)
  | functionEnd
  | scan (ty : Ty) (name : String)
  | printString (index : Nat)
  | printInt (value : Operand)
  | printChar (value : Operand)
  | printEnd
  | ret (value : Operand)
  | retVoid
deriving DecidableEq, Repr, Inhabited

namespace Instr

/-- A jump that compares two operands and is taken in the given sense. -/
def compare (relation : Relation) (lhs rhs : Operand) (label : Label) (sense : Sense) : Instr :=
  branch (relation.tested sense) lhs rhs label

/-- A jump that tests an operand, where zero counts as false, and is taken in the given
sense. -/
def test (value : Operand) (label : Label) : Sense → Instr
  | .onFalse => branchZero value label
  | .onTrue => branchNonzero value label

/-- The register that an instruction writes. -/
def dst? : Instr → Option Reg
  | arith _ dst _ _ => some dst
  | neg dst _ => some dst
  | load dst _ => some dst
  | loadElement dst _ _ => some dst
  | takeResult dst => some dst
  | _ => none

/-- The shape of an arithmetic instruction. -/
def shape? : Instr → Option OperandShape
  | arith _ _ lhs rhs => some (OperandShape.of lhs rhs)
  | _ => none

/-- The line of an instruction, without a line feed. -/
def text : Instr → String
  | param ty name => "parameter " ++ ty.keyword ++ " " ++ name
  | var ty name none => "variable " ++ ty.keyword ++ " " ++ name
  | var ty name (some length) =>
    "variable " ++ ty.keyword ++ " " ++ name ++ "[" ++ Text.wordText length ++ "]"
  | funcDeclare ty name => ty.keyword ++ " " ++ name ++ "()"
  | label l => l.text ++ ":"
  | jump l => "jump " ++ l.text
  | branch relation lhs rhs l =>
    relation.opcode ++ " " ++ lhs.text ++ " " ++ rhs.text ++ " " ++ l.text
  | branchZero value l => "bez " ++ value.text ++ " " ++ l.text
  | branchNonzero value l => "bnz " ++ value.text ++ " " ++ l.text
  | arith op dst lhs rhs => dst.text ++ " = " ++ lhs.text ++ " " ++ op.symbol ++ " " ++ rhs.text
  | neg dst value => dst.text ++ " = -" ++ value.text
  | step target source op amount =>
    target ++ " = " ++ source ++ " " ++ op.symbol ++ " " ++ Text.numberText amount
  | load dst name => dst.text ++ " = " ++ name
  | loadElement dst name index => dst.text ++ " = " ++ name ++ "[" ++ index.text ++ "]"
  | assign name value => name ++ " = " ++ value.text
  | assignElement name index value => name ++ "[" ++ index.text ++ "] = " ++ value.text
  | save function => "save " ++ function
  | push _ value _ => "push " ++ value.text
  | call function => "call " ++ function
  | takeResult dst => dst.text ++ " = RET"
  | functionEnd => "function end"
  | scan ty name => "scanf " ++ ty.keyword ++ " " ++ name
  | printString index => "printf str_" ++ Nat.repr index
  | printInt value => "printf int " ++ value.text
  | printChar value => "printf char " ++ value.text
  | printEnd => "printf_end"
  | ret value => "return " ++ value.text
  | retVoid => "return"

/-- The line of an instruction, with its line feed. -/
def line (instr : Instr) : String :=
  instr.text ++ "\n"

/-- The text of a piece of code. -/
def render (code : List Instr) : String :=
  String.join (code.map line)

end Instr

end OnePass
