import OnePass.Proofs.Calls.Protocol
import OnePass.Proofs.Trace.Reading

/-!
What the text of an argument leaves out. An argument belongs to the innermost call that is open
where it is pushed, and its position is the number of arguments that this call has had so far. So in
code whose calls are nested, the function and the position of every argument follow from the rest.
-/

namespace OnePass

/-- A call whose registers have been saved: its function and the arguments it has had so far. -/
structure OpenCall where
  function : String
  pushed : Nat

namespace Instr

/-- The calls that are open behind an instruction, the innermost first. -/
def openCalls (calls : List OpenCall) : Instr → List OpenCall
  | save function => ⟨function, 0⟩ :: calls
  | push _ _ _ =>
    match calls with
    | [] => []
    | innermost :: calls => { innermost with pushed := innermost.pushed + 1 } :: calls
  | call _ => calls.tail
  | _ => calls

/-- An argument of the innermost call that is open. -/
def completed (calls : List OpenCall) : Instr → Instr
  | push function value position =>
    match calls with
    | [] => push function value position
    | innermost :: _ => push innermost.function value innermost.pushed
  | instr => instr

/-- The code with every argument completed. -/
def restore (calls : List OpenCall) : List Instr → List Instr
  | [] => []
  | instr :: code => instr.completed calls :: restore (instr.openCalls calls) code

/-- The instructions that have to do with calls. -/
def isCalling (instr : Instr) : Bool :=
  instr.callee?.isSome

@[simp]
theorem openCalls_printed (calls : List OpenCall) (instr : Instr) :
    instr.printed.openCalls calls = instr.openCalls calls := by
  cases instr <;> rfl

theorem openCalls_of_not_isCalling {instr : Instr} (h : instr.isCalling = false)
    (calls : List OpenCall) : instr.openCalls calls = calls := by
  cases instr with
  | save function | push function value position | call function => cases h
  | _ => rfl

theorem completed_of_not_isCalling {instr : Instr} (h : instr.isCalling = false)
    (calls : List OpenCall) : instr.printed.completed calls = instr := by
  cases instr with
  | save function | push function value position | call function => cases h
  | _ => rfl

/-- Only the instructions of calls matter. -/
theorem restore_of_filter {calls : List OpenCall} {code : List Instr}
    (h : restore calls ((code.filter isCalling).map printed) = code.filter isCalling) :
    restore calls (code.map printed) = code := by
  induction code generalizing calls with
  | nil => rfl
  | cons instr code ih =>
      rw [List.map_cons, restore, openCalls_printed]
      cases hcalling : instr.isCalling with
      | true =>
          rw [List.filter_cons_of_pos hcalling, List.map_cons, restore, openCalls_printed] at h
          obtain ⟨hinstr, hcode⟩ := List.cons.inj h
          rw [hinstr, ih hcode]
      | false =>
          rw [List.filter_cons_of_neg (by simp [hcalling])] at h
          rw [completed_of_not_isCalling hcalling, openCalls_of_not_isCalling hcalling, ih h]

/-- In a piece of code every argument can be completed, and it leaves no call open. -/
def Completes (code : List Instr) : Prop :=
  ∀ calls rest, restore calls (code.map printed ++ rest) = code ++ restore calls rest

namespace Completes

theorem nil : Completes [] := fun _ _ => rfl

theorem append {front back : List Instr} (hfront : Completes front) (hback : Completes back) :
    Completes (front ++ back) := by
  intro calls rest
  rw [List.map_append, List.append_assoc, hfront, hback, List.append_assoc]

theorem restore_eq {code : List Instr} (h : Completes code) :
    restore [] (code.map printed) = code := by
  have hall := h [] []
  rwa [List.append_nil, restore, List.append_nil] at hall

end Completes

end Instr

open Instr

section Grammar

variable {P : Call → Prop}

mutual

/-- Calls that are nested are completed from the inside. -/
theorem CallsIn.completes {calls : List Call} {code : List Instr} :
    CallsIn P calls code → Completes code
  | .nil => .nil
  | .cons hcall hcalls => hcall.completes.append hcalls.completes

theorem CallIn.completes {call : Call} {code : List Instr} : CallIn P call code → Completes code
  | .mk _ hpushes => by
      intro calls rest
      rw [List.map_cons, List.cons_append, List.map_append, List.append_assoc, List.cons_append,
        List.append_assoc]
      exact congrArg (_ :: ·) (hpushes.restore_append calls _)

/-- The arguments of a call are completed one after the other. -/
theorem PushesIn.restore_append {function : String} {args : List Expr} {code : List Instr} :
    PushesIn P function args code → ∀ calls rest,
      restore (⟨function, 0⟩ :: calls) (code.map printed ++ rest) =
        code ++ restore (⟨function, args.length⟩ :: calls) rest
  | .nil => fun _ _ => rfl
  | .snoc hpushes hcalls => by
      intro calls rest
      rw [List.map_append, List.append_assoc, hpushes.restore_append, List.map_append,
        List.append_assoc, hcalls.completes, List.append_assoc, List.append_assoc,
        List.length_append]
      rfl

end

end Grammar

section Code

variable {tokens : List Token} {c : Compilation}

theorem completes_items (items : List TopLevel) :
    Completes ((items.flatMap TopLevel.code).filter isCalling) := by
  induction items with
  | nil => exact .nil
  | cons item items ih =>
      rw [List.flatMap_cons, List.filter_append]
      refine Completes.append ?_ ih
      cases item with
      | consts decls => exact .nil
      | vars decls =>
          have hnone : ((TopLevel.vars decls).code.filter isCalling) = [] := by
            rw [List.filter_eq_nil_iff]
            intro instr hinstr
            obtain ⟨_, _, _, rfl⟩ := VarDecl.eq_var_of_mem_code hinstr
            exact Bool.false_ne_true
          rw [hnone]
          exact .nil
      | function f =>
          have hall : AllCalls (fun _ => True) (Stmt.logs f.head.ty f.body.stmts) :=
            fun _ _ => trivial
          have hcode : f.code.filter isCalling = f.inner.filter isCalling := by
            rw [f.code_eq, List.filter_cons_of_neg Bool.false_ne_true, List.filter_append]
            exact List.append_nil _
          rw [TopLevel.code, hcode]
          exact (Function.makes hall).1.completes

/-- The arguments in the code of a program are completed from what is printed of it. -/
theorem restore_of_compile (h : compile tokens = .ok c) :
    restore [] (c.code.map printed) = c.code := by
  rw [code_of_compile h]
  exact restore_of_filter (completes_items c.program.items).restore_eq

end Code

end OnePass
