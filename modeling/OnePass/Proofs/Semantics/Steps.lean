import OnePass.Proofs.Semantics.Machine

/-!
Runs of a machine through pieces of its code. A piece without jumps has the effect of its
instructions. A jump goes to the one place that has its label, as long as no label stands in the
code twice.
-/

namespace OnePass

/-- The label that an instruction sets. -/
def Instr.label? : Instr → Option Label
  | label l => some l
  | _ => none

/-- A piece of code stands at a place of another. -/
def CodeAt (code : List Instr) (pc : Nat) (part : List Instr) : Prop :=
  ∃ before after, code = before ++ (part ++ after) ∧ before.length = pc

namespace CodeAt

variable {code part front back : List Instr} {pc : Nat} {instr : Instr}

theorem left (h : CodeAt code pc (front ++ back)) : CodeAt code pc front := by
  obtain ⟨before, after, hcode, hpc⟩ := h
  exact ⟨before, back ++ after, by rw [hcode, List.append_assoc], hpc⟩

theorem right (h : CodeAt code pc (front ++ back)) : CodeAt code (pc + front.length) back := by
  obtain ⟨before, after, hcode, hpc⟩ := h
  refine ⟨before ++ front, after, ?_, by rw [List.length_append, hpc]⟩
  rw [hcode, List.append_assoc, List.append_assoc]

theorem head (h : CodeAt code pc (instr :: part)) : code[pc]? = some instr := by
  obtain ⟨before, after, hcode, hpc⟩ := h
  rw [hcode, ← hpc, List.getElem?_append_right (Nat.le_refl _), Nat.sub_self]
  rfl

theorem tail (h : CodeAt code pc (instr :: part)) : CodeAt code (pc + 1) part := by
  have hone : CodeAt code pc ([instr] ++ part) := h
  exact hone.right

/-- A label is found where it stands. -/
theorem findIdx? {l : Label} (h : CodeAt code pc (.label l :: part))
    (hnodup : (code.filterMap Instr.label?).Nodup) :
    code.findIdx? (· = .label l) = some pc := by
  obtain ⟨before, after, hcode, hpc⟩ := h
  have hfirst : ∀ other ∈ before, other ≠ .label l := by
    rintro other hother rfl
    rw [hcode, List.filterMap_append, List.nodup_append] at hnodup
    have hleft : l ∈ before.filterMap Instr.label? := List.mem_filterMap.2 ⟨_, hother, rfl⟩
    have hright : l ∈ (Instr.label l :: part ++ after).filterMap Instr.label? :=
      List.mem_filterMap.2 ⟨_, List.mem_cons_self, rfl⟩
    exact hnodup.2.2 l hleft l hright rfl
  have hnone : before.findIdx? (fun other => decide (other = .label l)) = none := by
    rw [List.findIdx?_eq_none_iff]
    intro other hother
    exact decide_eq_false (hfirst other hother)
  rw [hcode, List.findIdx?_append, hnone, ← hpc]
  simp [List.findIdx?_cons]

end CodeAt

section

variable {m : Machine} {code part : List Instr} {pc : Nat}

namespace Steps

theorem refl (c : Config) : Steps m code c c :=
  Relation.ReflTransGen.refl

theorem trans {first second third : Config} (h : Steps m code first second)
    (hlater : Steps m code second third) : Steps m code first third :=
  Relation.ReflTransGen.trans h hlater

theorem single {before after : Config} (h : before.step? m code = some after) :
    Steps m code before after :=
  Relation.ReflTransGen.single h

end Steps

/-- An instruction with an effect is one step. -/
theorem step?_of_effect? {instr : Instr} {memory after : Memory} (hinstr : code[pc]? = some instr)
    (h : instr.effect? m memory = some after) :
    (Config.running pc memory).step? m code = some (.running (pc + 1) after) := by
  have hstep : (Config.running pc memory).step? m code =
      instr.step? m code pc memory := by
    rw [Config.step?, hinstr, Option.bind_some]
  rw [hstep]
  cases instr with
  | jump l | branch relation lhs rhs l | branchZero value l | branchNonzero value l =>
      cases h
  | ret value | retVoid | functionEnd => cases h
  | _ => exact congrArg (Option.map (Config.running (pc + 1))) h

/-- Code without jumps runs from one end to the other. -/
theorem Memory.steps_of_run? {memory after : Memory} (hcode : CodeAt code pc part)
    (h : memory.run? m part = some after) :
    Steps m code (.running pc memory) (.running (pc + part.length) after) := by
  induction part generalizing pc memory with
  | nil =>
      obtain rfl := Option.some.inj h
      exact .refl _
  | cons instr part ih =>
      obtain ⟨mid, heffect, hrun⟩ := Option.bind_eq_some_iff.1 h
      have hfirst := Steps.single (step?_of_effect? hcode.head heffect)
      have hrest := ih hcode.tail hrun
      have hlength : pc + (instr :: part).length = pc + 1 + part.length := by
        rw [List.length_cons]
        omega
      rw [hlength]
      exact hfirst.trans hrest

/-- A jump goes to its label. -/
theorem steps_jump {l : Label} {target : Nat} {memory : Memory} {rest : List Instr}
    (hnodup : (code.filterMap Instr.label?).Nodup) (hjump : CodeAt code pc (.jump l :: rest))
    (htarget : CodeAt code target (.label l :: part)) :
    Steps m code (.running pc memory) (.running target memory) := by
  apply Steps.single
  rw [Config.step?, hjump.head, Option.bind_some, Instr.step?, Config.goto?,
    htarget.findIdx? hnodup]
  rfl

/-- A label is passed. -/
theorem steps_label {l : Label} {memory : Memory} (h : CodeAt code pc (.label l :: part)) :
    Steps m code (.running pc memory) (.running (pc + 1) memory) :=
  Steps.single (step?_of_effect? h.head rfl)

end

end OnePass
