import OnePass.Proofs.Labels

/-!
The control-flow graph of a piece of code. Its nodes are the places of the code and the place
behind it. A branch may go either way, a jump goes to its label, and a return goes nowhere.
-/

namespace OnePass

/-- Whether control may go on to the next instruction. -/
def Instr.fallsThrough : Instr → Bool
  | jump _ | ret _ | retVoid | functionEnd => false
  | _ => true

/-- The edges of the graph. -/
inductive Flows (code : List Instr) : Nat → Nat → Prop where
  | next {pc : Nat} {instr : Instr} : code[pc]? = some instr → instr.fallsThrough = true →
      Flows code pc (pc + 1)
  | jump {pc target : Nat} {instr : Instr} {l : Label} : code[pc]? = some instr →
      instr.target? = some l → code[target]? = some (.label l) → Flows code pc target

/-- The paths of the graph. -/
abbrev Path (code : List Instr) : Nat → Nat → Prop :=
  Relation.ReflTransGen (Flows code)

/-- Every path from a place stays in front of another. -/
def Trapped (code : List Instr) (pc stop : Nat) : Prop :=
  ∀ place, Path code pc place → place < stop

theorem Instr.fallsThrough_of_isBoundary {instr : Instr} (h : instr.isBoundary = false) :
    instr.fallsThrough = true := by
  cases instr with
  | jump l | ret value | retVoid | functionEnd => cases h
  | _ => rfl

namespace CodeAt

variable {code part : List Instr} {pc : Nat} {instr : Instr}

theorem getElem? (h : CodeAt code pc part) {place : Nat} (hfirst : pc ≤ place)
    (hlast : place < pc + part.length) : code[place]? = part[place - pc]? := by
  obtain ⟨before, after, rfl, rfl⟩ := h
  rw [List.getElem?_append_right hfirst, List.getElem?_append_left (by omega)]

theorem of_getElem? (h : code[pc]? = some instr) : CodeAt code pc [instr] := by
  obtain ⟨hpc, hinstr⟩ := List.getElem?_eq_some_iff.1 h
  refine ⟨code.take pc, code.drop (pc + 1), ?_, by simp; omega⟩
  rw [List.singleton_append, ← hinstr, List.getElem_cons_drop, List.take_append_drop]

/-- A label stands in one place only. -/
theorem eq_of_label {l : Label} {place : Nat} (h : CodeAt code pc (.label l :: part))
    (hnodup : (setLabels code).Nodup) (hplace : code[place]? = some (.label l)) : place = pc := by
  have hfirst := h.findIdx? hnodup
  have hsecond := (of_getElem? hplace).findIdx? hnodup
  exact Option.some.inj (hsecond.symm.trans hfirst)

end CodeAt

section Path

variable {code part rest : List Instr} {pc target : Nat} {l : Label}

/-- Control may run through code without jumps and returns from one end to the other. -/
theorem path_of_fallsThrough (hcode : CodeAt code pc part)
    (h : ∀ instr ∈ part, instr.fallsThrough = true) : Path code pc (pc + part.length) := by
  induction part generalizing pc with
  | nil => exact .refl
  | cons instr part ih =>
      have hfirst : Flows code pc (pc + 1) := .next hcode.head (h instr List.mem_cons_self)
      have hrest := ih hcode.tail fun other hother => h other (List.mem_cons_of_mem instr hother)
      rw [List.length_cons, Nat.add_comm part.length 1, ← Nat.add_assoc]
      exact .head hfirst hrest

theorem path_of_isBoundary (hcode : CodeAt code pc part)
    (h : ∀ instr ∈ part, instr.isBoundary = false) : Path code pc (pc + part.length) :=
  path_of_fallsThrough hcode fun instr hinstr => Instr.fallsThrough_of_isBoundary (h instr hinstr)

theorem path_label (h : CodeAt code pc (.label l :: part)) : Path code pc (pc + 1) :=
  .single (.next h.head rfl)

theorem path_jump (h : CodeAt code pc (.jump l :: part))
    (htarget : CodeAt code target (.label l :: rest)) : Path code pc target :=
  .single (.jump h.head rfl htarget.head)

/-- The operands of a condition are computed in front of its branch. -/
theorem Condition.exists_branch (c : Condition) (label : Label) (sense : Sense) :
    ∃ operands branch, c.code label sense = operands ++ [branch] ∧
      (∀ instr ∈ operands, instr.isBoundary = false) ∧ branch.fallsThrough = true ∧
      branch.target? = some label := by
  cases c with
  | test value =>
      refine ⟨value.code, _, rfl, fun _ => isBoundary_of_inExpr value.all_log, ?_, ?_⟩
      · cases sense <;> rfl
      · cases sense <;> rfl
  | compare lhs relation opToken rhs =>
      refine ⟨lhs.code ++ rhs.code, _, (List.append_assoc _ _ _).symm, ?_, rfl, rfl⟩
      intro instr hinstr
      rcases List.mem_append.1 hinstr with hinstr | hinstr
      · exact isBoundary_of_inExpr lhs.all_log hinstr
      · exact isBoundary_of_inExpr rhs.all_log hinstr

theorem Condition.fallsThrough_of_mem_code {c : Condition} {sense : Sense} {instr : Instr}
    (h : instr ∈ c.code l sense) : instr.fallsThrough = true := by
  obtain ⟨operands, branch, hcode, hoperands, hbranch, _⟩ := c.exists_branch l sense
  rw [hcode, List.mem_append, List.mem_singleton] at h
  rcases h with h | rfl
  · exact Instr.fallsThrough_of_isBoundary (hoperands instr h)
  · exact hbranch

/-- A condition may be passed. -/
theorem Condition.path_next {c : Condition} {sense : Sense} (h : CodeAt code pc (c.code l sense)) :
    Path code pc (pc + (c.code l sense).length) :=
  path_of_fallsThrough h fun _ => c.fallsThrough_of_mem_code

/-- A condition may jump. -/
theorem Condition.path_target {c : Condition} {sense : Sense}
    (h : CodeAt code pc (c.code l sense)) (htarget : CodeAt code target (.label l :: rest)) :
    Path code pc target := by
  obtain ⟨operands, branch, hcode, hoperands, _, hlabel⟩ := c.exists_branch l sense
  rw [hcode] at h
  exact (path_of_isBoundary h.left hoperands).tail (.jump h.right.head hlabel htarget.head)

end Path

namespace Trapped

variable {code part : List Instr} {pc stop : Nat}

theorem mono {later : Nat} (h : Trapped code pc stop) (hle : stop ≤ later) :
    Trapped code pc later :=
  fun place hpath => Nat.lt_of_lt_of_le (h place hpath) hle

/-- Nothing follows a return. -/
theorem of_ret {value : Operand} (h : code[pc]? = some (.ret value)) : Trapped code pc (pc + 1) := by
  intro place hpath
  rcases hpath.cases_head with rfl | ⟨next, hflow, _⟩
  · exact Nat.lt_succ_self pc
  · cases hflow with
    | next hinstr hfalls =>
        obtain rfl := Option.some.inj (h.symm.trans hinstr)
        cases hfalls
    | jump hinstr htarget _ =>
        obtain rfl := Option.some.inj (h.symm.trans hinstr)
        cases htarget

/-- A piece of code from whose end there is no way out has none itself, if none of its jumps
leads to one. -/
theorem of_piece (hcode : CodeAt code pc part) (hend : Trapped code (pc + part.length) stop)
    (hjumps : ∀ l ∈ targets part, ∀ place, code[place]? = some (.label l) →
      (pc ≤ place ∧ place < pc + part.length) ∨ Trapped code place stop) :
    Trapped code pc stop := by
  intro last hpath
  -- along the path, every place lies in the piece or has no way out
  have hinvariant : ∀ place, Path code place last →
      (pc ≤ place ∧ place < pc + part.length) ∨ Trapped code place stop → last < stop := by
    intro place hplace
    induction hplace using Relation.ReflTransGen.head_induction_on with
    | refl =>
        rintro (⟨_, hlt⟩ | htrapped)
        · exact Nat.lt_trans hlt (hend _ .refl)
        · exact htrapped _ .refl
    | @head place next hflow hrest ih =>
        rintro (⟨hfirst, hlt⟩ | htrapped)
        · apply ih
          have hhere := hcode.getElem? hfirst hlt
          cases hflow with
          | next hinstr hfalls =>
              by_cases hinside : place + 1 < pc + part.length
              · exact .inl ⟨by omega, hinside⟩
              · have hlast : place + 1 = pc + part.length := by omega
                rw [hlast]
                exact .inr hend
          | jump hinstr htarget hlabel =>
              have hmem := List.mem_of_getElem? (hhere.symm.trans hinstr)
              exact hjumps _ (List.mem_filterMap.2 ⟨_, hmem, htarget⟩) _ hlabel
        · exact htrapped last (.head hflow hrest)
  by_cases hempty : part.length = 0
  · rw [hempty] at hend
    exact hend last hpath
  · exact hinvariant pc hpath (.inl ⟨Nat.le_refl pc, by omega⟩)

/-- Code without jumps leads to its end only. -/
theorem of_labelFree (hcode : CodeAt code pc part) (h : ∀ instr ∈ part, instr.LabelFree)
    (hend : Trapped code (pc + part.length) stop) : Trapped code pc stop := by
  apply of_piece hcode hend
  intro l hl
  rw [targets_of_labelFree h] at hl
  cases hl

theorem of_label {l : Label} (hcode : CodeAt code pc (.label l :: part))
    (hend : Trapped code (pc + 1) stop) : Trapped code pc stop := by
  have hone : CodeAt code pc [.label l] := hcode.left
  apply of_piece hone hend
  intro other hother
  cases hother

end Trapped

end OnePass
