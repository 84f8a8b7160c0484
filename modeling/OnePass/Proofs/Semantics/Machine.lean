import Mathlib.Logic.Function.Basic
import Mathlib.Logic.Relation
import OnePass.Proofs.Literals

/-!
A machine for three-address code. It has a register file, a store by name, a stack of calls
whose arguments are being pushed, and a place for the result of the last call. Calls are pure:
the machine does not enter the function, it takes the result from an interpretation.
-/

namespace OnePass

/-- What the variables and the elements of arrays hold, by name. -/
structure Store where
  scalar : String → Int
  element : String → Int → Int

namespace Store

def assign (store : Store) (name : String) (value : Int) : Store :=
  { store with scalar := Function.update store.scalar name value }

def assignElement (store : Store) (name : String) (index value : Int) : Store :=
  { store with
    element := Function.update store.element name
      (Function.update (store.element name) index value) }

end Store

/-- What passes between a program and its surroundings. -/
inductive Event where
  | input (ty : Ty) (value : Int)
  | text (text : String)
  | number (value : Int)
  | char (value : Int)
  | lineEnd
deriving DecidableEq

/-- All that a program can observe and change: its variables, the input that is left, and the
events so far. -/
structure World where
  store : Store
  input : List Int
  events : List Event

namespace World

/-- The world after an event. -/
def record (world : World) (event : Event) : World :=
  { world with events := world.events ++ [event] }

/-- A value of a type is taken from the input into a variable, if there is one. -/
def scan? (world : World) (ty : Ty) (name : String) : Option World :=
  match world.input with
  | [] => none
  | value :: input => some
    { store := world.store.assign name value, input, events := world.events ++ [.input ty value] }

end World

/-- What operators and calls stand for. Nothing is asked of them, but that a word is negated
exactly if its negative is a word. -/
structure Interpretation where
  op : ArithOp → Int → Int → Int
  neg : Int → Int
  call : String → List Int → Int
  neg_word : ∀ n : Int64, n ≠ Int64.minValue → neg n.toInt = -n.toInt

/-- Exact arithmetic, with any division. -/
def Interpretation.exact (div : Int → Int → Int) (call : String → List Int → Int) :
    Interpretation where
  op
    | .add => (· + ·)
    | .sub => (· - ·)
    | .mul => (· * ·)
    | .div => div
  neg := (- ·)
  call := call
  neg_word _ _ := rfl

/-- A call whose arguments are being pushed. -/
structure Frame where
  function : String
  values : List Int
deriving DecidableEq

/-- What a machine holds, apart from its place in the code. -/
structure Memory extends World where
  regs : Reg → Int
  frames : List Frame
  result : Int

namespace Memory

/-- What an operand stands for: a register, a literal or a variable. -/
def value (memory : Memory) : Operand → Int
  | .reg r => memory.regs r
  | .named text => (Text.literal? text).getD (memory.store.scalar text)

def setReg (memory : Memory) (dst : Reg) (value : Int) : Memory :=
  { memory with regs := Function.update memory.regs dst value }

@[simp]
theorem value_setReg (memory : Memory) (dst : Reg) (value : Int) :
    (memory.setReg dst value).value (.reg dst) = value := by
  simp [Memory.value, setReg]

/-- An argument is added to the last call, which has to be one of the function and to have
that many arguments so far. -/
def push? (memory : Memory) (function : String) (value : Int) (position : Nat) : Option Memory :=
  match memory.frames with
  | [] => none
  | frame :: frames =>
    if frame.function = function ∧ frame.values.length = position then some
      { memory with frames := { frame with values := frame.values ++ [value] } :: frames }
    else none

/-- The last call is made, which has to be one of the function. -/
def call? (memory : Memory) (interp : Interpretation) (function : String) : Option Memory :=
  match memory.frames with
  | [] => none
  | frame :: frames =>
    if frame.function = function then some
      { memory with frames, result := interp.call function frame.values }
    else none

end Memory

namespace Relation

/-- Whether two values stand in a relation. -/
def holds : Relation → Int → Int → Bool
  | eq, a, b => a = b
  | ne, a, b => a ≠ b
  | lt, a, b => a < b
  | ge, a, b => b ≤ a
  | le, a, b => a ≤ b
  | gt, a, b => b < a

theorem holds_negate (relation : Relation) (a b : Int) :
    relation.negate.holds a b = !relation.holds a b := by
  cases relation <;> grind [negate, holds]

end Relation

/-- What a machine is run with: what operators and calls stand for, and the texts to print. -/
structure Machine where
  interp : Interpretation
  strings : StringTable

section Run

variable (m : Machine)

/-- What an instruction does that goes on with the next one. The others have no effect here. -/
def Instr.effect? (memory : Memory) : Instr → Option Memory
  | param _ _ | var _ _ _ | funcDeclare _ _ | label _ => some memory
  | arith op dst lhs rhs =>
    some (memory.setReg dst (m.interp.op op (memory.value lhs) (memory.value rhs)))
  | neg dst value => some (memory.setReg dst (m.interp.neg (memory.value value)))
  | step target source op amount => some { memory with
      store := memory.store.assign target
        (m.interp.op op (memory.store.scalar source) amount.toInt) }
  | load dst name => some (memory.setReg dst (memory.store.scalar name))
  | loadElement dst name index =>
    some (memory.setReg dst (memory.store.element name (memory.value index)))
  | assign name value =>
    some { memory with store := memory.store.assign name (memory.value value) }
  | assignElement name index value => some { memory with
      store := memory.store.assignElement name (memory.value index) (memory.value value) }
  | save function => some { memory with frames := ⟨function, []⟩ :: memory.frames }
  | push function value position => memory.push? function (memory.value value) position
  | call function => memory.call? m.interp function
  | takeResult dst => some (memory.setReg dst memory.result)
  | scan ty name => (memory.toWorld.scan? ty name).map fun world => { memory with toWorld := world }
  | printString index => (m.strings.resolve? index).map fun text =>
      { memory with toWorld := memory.toWorld.record (.text text) }
  | printInt value =>
    some { memory with toWorld := memory.toWorld.record (.number (memory.value value)) }
  | printChar value =>
    some { memory with toWorld := memory.toWorld.record (.char (memory.value value)) }
  | printEnd => some { memory with toWorld := memory.toWorld.record .lineEnd }
  | jump _ | branch _ _ _ _ | branchZero _ _ | branchNonzero _ _ => none
  | ret _ | retVoid | functionEnd => none

/-- The effect of instructions one after the other. -/
def Memory.run? : List Instr → Memory → Option Memory
  | [], memory => some memory
  | instr :: code, memory => (instr.effect? m memory).bind (Memory.run? code)

theorem Memory.run?_append (front back : List Instr) (memory : Memory) :
    memory.run? m (front ++ back) =
      (memory.run? m front).bind (Memory.run? m back) := by
  induction front generalizing memory with
  | nil => rfl
  | cons instr front ih =>
      simp only [List.cons_append, Memory.run?, Option.bind_assoc]
      congr 1
      funext next
      exact ih next

/-- Where a machine stands: at an instruction, or at its end with the value returned. -/
inductive Config where
  | running (pc : Nat) (memory : Memory)
  | halted (value : Option Int) (memory : Memory)

/-- A jump goes to the first place with the label. -/
def Config.goto? (code : List Instr) (memory : Memory) (label : Label) : Option Config :=
  (code.findIdx? (· = .label label)).map (Config.running · memory)

/-- What an instruction does at its place. A function returns nothing when it comes to its end. -/
def Instr.step? (code : List Instr) (pc : Nat) (memory : Memory) : Instr → Option Config
  | jump target => Config.goto? code memory target
  | branch relation lhs rhs target =>
    if relation.holds (memory.value lhs) (memory.value rhs) then Config.goto? code memory target
    else some (.running (pc + 1) memory)
  | branchZero value target =>
    if memory.value value = 0 then Config.goto? code memory target
    else some (.running (pc + 1) memory)
  | branchNonzero value target =>
    if memory.value value ≠ 0 then Config.goto? code memory target
    else some (.running (pc + 1) memory)
  | ret value => some (.halted (some (memory.value value)) memory)
  | retVoid | functionEnd => some (.halted none memory)
  | instr => (instr.effect? m memory).map (.running (pc + 1))

/-- One step of a machine. -/
def Config.step? (code : List Instr) : Config → Option Config
  | halted _ _ => none
  | running pc memory => code[pc]?.bind (Instr.step? m code pc memory)

/-- Any number of steps of a machine. -/
def Steps (code : List Instr) : Config → Config → Prop :=
  Relation.ReflTransGen fun before after => before.step? m code = some after

end Run

end OnePass
