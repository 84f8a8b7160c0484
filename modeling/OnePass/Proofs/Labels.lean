import Mathlib.Data.List.Nodup
import OnePass.Proofs.Blocks

/-!
Labels and jumps come in pairs. Every label that is given out is set in one place and is the
target of one jump, and both stand in the code of the same function.
-/

namespace OnePass

/-- The label that an instruction may jump to. -/
def Instr.target? : Instr → Option Label
  | jump l | branch _ _ _ l | branchZero _ l | branchNonzero _ l => some l
  | _ => none

/-- The labels that a piece of code jumps to. -/
abbrev targets (code : List Instr) : List Label :=
  code.filterMap Instr.target?

@[simp]
theorem targets_cons (instr : Instr) (code : List Instr) :
    targets (instr :: code) = instr.target?.toList ++ targets code := by
  cases h : instr.target? <;> simp [h]

@[simp]
theorem targets_append (front back : List Instr) :
    targets (front ++ back) = targets front ++ targets back :=
  List.filterMap_append

/-- The labels below a number, and no others, are set once and jumped to once, in one block. -/
structure PairsLabels (code : List Instr) (count : Nat) : Prop where
  set_once : ∀ l : Label, l.number < count → code.count (.label l) = 1
  jumped_once : ∀ l : Label, l.number < count →
    code.countP (fun instr => instr.target? = some l) = 1
  bounded : ∀ instr ∈ code, ∀ l : Label,
    instr.label? = some l ∨ instr.target? = some l → l.number < count
  together : ∀ l : Label, l.number < count → ∃ front ty name body back,
    IsBlock code front ty name body back ∧ .label l ∈ body ∧
      ∃ instr ∈ body, instr.target? = some l

/-- Whether an instruction neither sets a label nor jumps. -/
def Instr.LabelFree (instr : Instr) : Prop :=
  instr.label? = none ∧ instr.target? = none

theorem Instr.labelFree_of_isBoundary {instr : Instr} (h : instr.isBoundary = false) :
    instr.LabelFree := by
  cases instr with
  | label l | jump l | branch relation lhs rhs l | branchZero value l | branchNonzero value l =>
      cases h
  | _ => exact ⟨rfl, rfl⟩

/-- Control runs straight through the code of an expression or a call. -/
theorem isBoundary_of_inExpr {log : List Action} (hlog : log.all Action.inExpr = true)
    {instr : Instr} (h : instr ∈ log.flatMap Action.code) : instr.isBoundary = false := by
  have hstays := List.all_eq_true.1 hlog _ (emit_mem_of_mem_code h)
  simpa [Action.inExpr] using hstays

theorem NameRef.isBoundary_of_mem_scanCode {ref : NameRef} {instr : Instr}
    (h : instr ∈ ref.scanCode) : instr.isBoundary = false := by
  unfold NameRef.scanCode at h
  split at h
  · cases h
  · obtain rfl := List.mem_singleton.1 h
    rfl

theorem PrintItem.isBoundary_of_mem_code {item : PrintItem} {instr : Instr}
    (h : instr ∈ item.code) : instr.isBoundary = false := by
  have hvalue : ∀ value : Expr, instr ∈ printCode value → instr.isBoundary = false := by
    intro value hinstr
    rcases List.mem_append.1 hinstr with hinstr | hinstr
    · exact isBoundary_of_inExpr value.all_log hinstr
    · simp only [List.mem_cons, List.not_mem_nil, or_false] at hinstr
      rcases hinstr with rfl | rfl
      · unfold Expr.printInstr
        split <;> rfl
      · rfl
  cases item with
  | text literal index =>
      obtain rfl := List.mem_singleton.1 h
      rfl
  | textValue literal index comma v =>
      rcases List.mem_cons.1 h with rfl | h
      · rfl
      · exact hvalue v h
  | value v => exact hvalue v h

/-- Whether a statement neither has a statement in it nor returns. -/
def Stmt.isSimple : Stmt → Bool
  | call _ _ | unknownCall _ _ | skipped | assign _ _ _ _ | assignElement _ _ _ _ _ _ _ => true
  | scan _ _ _ _ _ | print _ _ _ _ _ | empty _ => true
  | _ => false

/-- Control runs straight through the code of a simple statement. -/
theorem Stmt.isBoundary_of_mem_code {stmt : Stmt} (hsimple : stmt.isSimple = true) {instr : Instr}
    (h : instr ∈ stmt.code) : instr.isBoundary = false := by
  cases stmt with
  | call c semicolon =>
      rw [Stmt.code] at h
      exact isBoundary_of_inExpr c.all_log h
  | assign target eq value semicolon =>
      rw [Stmt.code, List.mem_append, List.mem_singleton] at h
      rcases h with h | rfl
      · exact isBoundary_of_inExpr value.all_log h
      · rfl
  | assignElement target lbracket index rbracket eq value semicolon =>
      rw [Stmt.code, List.mem_append, List.mem_append, List.mem_singleton] at h
      rcases h with h | h | rfl
      · exact isBoundary_of_inExpr index.all_log h
      · exact isBoundary_of_inExpr value.all_log h
      · rfl
  | scan keyword lparen targets rparen semicolon =>
      rw [Stmt.code] at h
      obtain ⟨ref, _, hinstr⟩ := List.mem_flatMap.1 h
      exact NameRef.isBoundary_of_mem_scanCode hinstr
  | print keyword lparen item rparen semicolon =>
      rw [Stmt.code] at h
      exact PrintItem.isBoundary_of_mem_code h
  | unknownCall name semicolon | skipped | empty semicolon =>
      rw [Stmt.code] at h
      cases h
  | _ => cases hsimple

theorem targets_of_labelFree {code : List Instr} (h : ∀ instr ∈ code, instr.LabelFree) :
    targets code = [] :=
  List.filterMap_eq_nil_iff.2 fun instr hinstr => (h instr hinstr).2

theorem perm_targets_of_labelFree {code : List Instr} (h : ∀ instr ∈ code, instr.LabelFree) :
    (targets code).Perm (setLabels code) := by
  have hset : setLabels code = [] :=
    List.filterMap_eq_nil_iff.2 fun instr hinstr => (h instr hinstr).1
  rw [targets_of_labelFree h, hset]

@[simp]
theorem targets_expr (e : Expr) : targets e.code = [] :=
  targets_of_labelFree fun _ h => Instr.labelFree_of_isBoundary (isBoundary_of_inExpr e.all_log h)

/-- A condition has one jump, its last instruction. -/
@[simp]
theorem targets_condition (label : Label) (sense : Sense) (c : Condition) :
    targets (c.code label sense) = [label] := by
  cases c with
  | test value => cases sense <;> simp [Condition.code, Instr.test, Instr.target?]
  | compare lhs relation opToken rhs => simp [Condition.code, Instr.compare, Instr.target?]

theorem Stmt.perm_targets_of_isSimple {stmt : Stmt} (h : stmt.isSimple = true) :
    (targets stmt.code).Perm (setLabels stmt.code) :=
  perm_targets_of_labelFree fun _ hinstr =>
    Instr.labelFree_of_isBoundary (Stmt.isBoundary_of_mem_code h hinstr)

mutual

/-- Every label that is set in the code of a statement is jumped to once there, and no other. -/
theorem Stmt.perm_targets : (stmt : Stmt) → (targets stmt.code).Perm (setLabels stmt.code)
  | .doLoop _ body _ _ loopLabel => by
      have hbody := body.perm_targets.append_right [loopLabel]
      simpa [Stmt.code, Instr.target?, Instr.label?] using hbody.trans List.perm_append_comm
  | .ifThen _ _ body _ _ | .whileLoop _ _ body _ _ | .forLoop _ _ body _ _ => by
      have hbody := fun l => body.perm_targets.count_eq l
      rw [List.perm_iff_count]
      intro l
      simp [Stmt.code, ForHeader.stepInstr, Instr.target?, Instr.label?, List.count_cons, hbody,
        -List.filterMap_append]
      omega
  | .ifElse _ _ body _ alternative _ _ => by
      have hbody := fun l => body.perm_targets.count_eq l
      have halternative := fun l => alternative.perm_targets.count_eq l
      rw [List.perm_iff_count]
      intro l
      simp [Stmt.code, Instr.target?, Instr.label?, List.count_cons, hbody, halternative,
        -List.filterMap_append]
      omega
  | .block _ body _ => by
      rw [Stmt.code]
      exact Stmt.perm_targets_codes body
  | .ret _ _ | .retValue _ _ _ _ _ => by
      simp [Stmt.code, Instr.target?, Instr.label?]
  | .call _ _ | .unknownCall _ _ | .skipped | .assign _ _ _ _ | .assignElement _ _ _ _ _ _ _
  | .scan _ _ _ _ _ | .print _ _ _ _ _ | .empty _ =>
      Stmt.perm_targets_of_isSimple rfl

theorem Stmt.perm_targets_codes : (stmts : List Stmt) →
    (targets (Stmt.codes stmts)).Perm (setLabels (Stmt.codes stmts))
  | [] => by
      rw [Stmt.codes]
      exact .nil
  | stmt :: stmts => by
      rw [Stmt.codes, targets, setLabels, List.filterMap_append, List.filterMap_append]
      exact stmt.perm_targets.append (Stmt.perm_targets_codes stmts)

end

theorem VarDecl.labelFree_of_mem_code {decls : List VarDecl} {instr : Instr}
    (h : instr ∈ decls.flatMap VarDecl.code) : instr.LabelFree := by
  obtain ⟨_, _, _, rfl⟩ := VarDecl.eq_var_of_mem_code h
  exact ⟨rfl, rfl⟩

theorem FunctionHead.labelFree_of_mem_params {head : FunctionHead} {instr : Instr}
    (h : instr ∈ head.params.map fun param => Instr.param param.type.ty param.name.value) :
    instr.LabelFree := by
  obtain ⟨param, _, rfl⟩ := List.mem_map.1 h
  exact ⟨rfl, rfl⟩

/-- What is set and what is jumped to are the same in the code of a function. -/
theorem Function.perm_targets (f : Function) : (targets f.inner).Perm (setLabels f.inner) := by
  have hret : ∀ instr ∈ (if f.head.ty = .void then [Instr.retVoid] else []), instr.LabelFree := by
    intro instr hinstr
    by_cases hvoid : f.head.ty = .void
    · rw [if_pos hvoid] at hinstr
      obtain rfl := List.mem_singleton.1 hinstr
      exact ⟨rfl, rfl⟩
    · rw [if_neg hvoid] at hinstr
      cases hinstr
  simp only [inner, targets, setLabels, List.filterMap_append]
  refine (perm_targets_of_labelFree fun _ => FunctionHead.labelFree_of_mem_params).append ?_
  refine (perm_targets_of_labelFree fun _ => VarDecl.labelFree_of_mem_code).append ?_
  exact (Stmt.perm_targets_codes f.body.stmts).append (perm_targets_of_labelFree hret)

theorem TopLevel.perm_targets (item : TopLevel) : (targets item.code).Perm (setLabels item.code) := by
  cases item with
  | consts decls => exact .nil
  | vars decls => exact perm_targets_of_labelFree fun _ => VarDecl.labelFree_of_mem_code
  | function f =>
      have hinner := f.perm_targets
      simp only [TopLevel.code, f.code_eq, targets, setLabels, List.filterMap_append,
        List.filterMap_cons, List.filterMap_nil, List.append_nil, Instr.target?, Instr.label?]
      exact hinner

theorem perm_targets_items (items : List TopLevel) :
    (targets (items.flatMap TopLevel.code)).Perm (setLabels (items.flatMap TopLevel.code)) := by
  induction items with
  | nil => exact .nil
  | cons item items ih =>
      simp only [List.flatMap_cons, targets, setLabels, List.filterMap_append]
      exact item.perm_targets.append ih

/-- Labels are set in functions only. -/
theorem exists_function_of_label {items : List TopLevel} {l : Label}
    (h : .label l ∈ items.flatMap TopLevel.code) : ∃ f, .function f ∈ items ∧ .label l ∈ f.inner := by
  obtain ⟨item, hitem, hlabel⟩ := List.mem_flatMap.1 h
  cases item with
  | consts decls => cases hlabel
  | vars decls =>
      obtain ⟨_, _, _, hvar⟩ := VarDecl.eq_var_of_mem_code hlabel
      cases hvar
  | function f =>
      refine ⟨f, hitem, ?_⟩
      simpa [TopLevel.code, f.code_eq] using hlabel

/-- Labels are given out in the order of their numbers. -/
theorem Plays.givenLabels_eq {log : List Action} {s t : State} (h : Plays log s t) :
    givenLabels log =
      (List.range' s.counters.labels (t.counters.labels - s.counters.labels)).map Label.mk := by
  induction h using Plays.induction with
  | nil => simp [givenLabels]
  | @cons s u action log haction hlog ih =>
      have hle := hlog.labels_le
      have hcounters := haction.effect.counters
      have hrest := ih
      cases action with
      | label l =>
          have hnext : u.counters.labels = s.counters.labels + 1 := by rw [hcounters]; rfl
          have hnumber : l = ⟨s.counters.labels⟩ := by cases haction; rfl
          have hcount : t.counters.labels - s.counters.labels =
              (t.counters.labels - u.counters.labels) + 1 := by omega
          have hfirst : givenLabels (.label l :: log) = l :: givenLabels log := rfl
          rw [hfirst, hrest, hcount, List.range'_succ, List.map_cons, hnext, hnumber]
      | _ =>
          have hsame : u.counters.labels = s.counters.labels := by rw [hcounters]; rfl
          rw [givenLabels, List.filterMap_cons_none rfl, ← hsame]
          exact hrest

theorem perm_setLabels_of_compile {tokens : List Token} {c : Compilation}
    (h : compile tokens = .ok c) :
    (setLabels c.code).Perm ((List.range c.labelCount).map Label.mk) := by
  obtain ⟨t, hplays, _, hc⟩ := plays_of_compile h
  have hcode : c.code = c.program.log.flatMap Action.code := by
    rw [hc, hplays.code]
    rfl
  have hcount : c.labelCount = t.counters.labels := by rw [hc]
  have hgiven := hplays.givenLabels_eq
  rw [hcode, hcount, List.range_eq_range']
  have hset := c.program.setsLabels
  rw [SetsLabels, hgiven] at hset
  exact hset

theorem count_label (code : List Instr) (l : Label) :
    code.count (.label l) = (setLabels code).count l := by
  rw [List.count_filterMap, List.count_eq_countP]
  apply List.countP_congr
  intro instr _
  cases instr <;> simp [Instr.label?]

theorem countP_target (code : List Instr) (l : Label) :
    code.countP (fun instr => instr.target? = some l) = (targets code).count l := by
  rw [List.count_filterMap]
  apply List.countP_congr
  intro instr _
  simp

theorem count_labels_below {count : Nat} {l : Label} (h : l.number < count) :
    ((List.range count).map Label.mk).count l = 1 := by
  apply List.count_eq_one_of_mem
  · refine List.nodup_range.map ?_
    intro m n hmn
    exact Label.mk.inj hmn
  · exact List.mem_map.2 ⟨l.number, List.mem_range.2 h, rfl⟩

/-- Labels and jumps are in bijection in the code of every compilation, whatever was recorded, and
every label is set and jumped to within one function. -/
theorem compile_pairsLabels {tokens : List Token} {c : Compilation} (h : compile tokens = .ok c) :
    PairsLabels c.code c.labelCount := by
  have hset := perm_setLabels_of_compile h
  have hpair := perm_targets_items c.program.items
  rw [← code_of_compile h] at hpair
  have hjumped := hpair.trans hset
  refine ⟨?_, ?_, ?_, ?_⟩
  · intro l hl
    rw [count_label, hset.count_eq, count_labels_below hl]
  · intro l hl
    rw [countP_target, hjumped.count_eq, count_labels_below hl]
  · intro instr hinstr l hl
    have hbelow : l ∈ (List.range c.labelCount).map Label.mk := by
      rcases hl with hl | hl
      · exact hset.mem_iff.1 (List.mem_filterMap.2 ⟨instr, hinstr, hl⟩)
      · exact hjumped.mem_iff.1 (List.mem_filterMap.2 ⟨instr, hinstr, hl⟩)
    obtain ⟨n, hn, rfl⟩ := List.mem_map.1 hbelow
    exact List.mem_range.1 hn
  · intro l hl
    have hmem : .label l ∈ c.code := by
      rw [← List.count_pos_iff, count_label, hset.count_eq, count_labels_below hl]
      exact Nat.one_pos
    rw [code_of_compile h] at hmem ⊢
    obtain ⟨f, hf, hinner⟩ := exists_function_of_label hmem
    obtain ⟨before, after, hitems⟩ := List.append_of_mem hf
    have htarget : l ∈ targets f.inner :=
      f.perm_targets.mem_iff.2 (List.mem_filterMap.2 ⟨_, hinner, rfl⟩)
    obtain ⟨instr, hinstr, hl⟩ := List.mem_filterMap.1 htarget
    rw [hitems]
    exact ⟨_, _, _, _, _, f.isBlock before after, hinner, instr, hinstr, hl⟩

/-- `void f() { if (1) while (0); else; } void main() { do; while (x) }`, where no `x` is declared. -/
def loopsTokens : List Token :=
  scan 1 ["void f ( ) \x7b if ( 1 ) while ( 0 ) ; else ; \x7d"] ++
    scan 1 ["void main ( ) \x7b do ; while ( x ) \x7d"]

theorem pairsLabels_loops : ∃ c, compile loopsTokens = .ok c ∧ c.diagnostics ≠ [] ∧
    c.labelCount = 5 ∧ PairsLabels c.code c.labelCount := by
  have hc := eq_ok_get (compile loopsTokens) (by decide +kernel)
  exact ⟨_, hc, by decide +kernel, by decide +kernel, compile_pairsLabels hc⟩

end OnePass
