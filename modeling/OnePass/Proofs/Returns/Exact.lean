import OnePass.Proofs.Grammar.Completeness.Expr
import OnePass.Proofs.Returns.Flow

/-!
Whether a statement always returns is read off its syntax, and it is so exactly if no path of its
code leads from one end to the other. In a program whose returns fit, control therefore never
reaches the end of a function that has to return a value.
-/

namespace OnePass

mutual

/-- The returns in a statement, each with its value if it has one. -/
def Stmt.returns : Stmt → List (Option Expr)
  | .ifThen _ _ body _ _ => body.returns
  | .ifElse _ _ body _ alternative _ _ => body.returns ++ alternative.returns
  | .whileLoop _ _ body _ _ => body.returns
  | .doLoop _ body _ _ _ => body.returns
  | .forLoop _ _ body _ _ => body.returns
  | .block _ body _ => Stmt.allReturns body
  | .ret _ _ => [none]
  | .retValue _ _ value _ _ => [some value]
  | _ => []

/-- The returns in a list of statements. -/
def Stmt.allReturns : List Stmt → List (Option Expr)
  | [] => []
  | stmt :: stmts => stmt.returns ++ Stmt.allReturns stmts

end

/-- A flag says whether a piece of code, which no jump leaves, has no path from one end to the
other. -/
structure DecidesReturn (code : List Instr) (flag : Bool) : Prop where
  closed : ∀ instr ∈ code, ∀ l, instr.target? = some l → .label l ∈ code
  exact : flag = true ↔ ¬ Path code 0 code.length

/-- The end of a function that returns a value is not reached, and the returns in a function are
of its kind. -/
structure ReturnsFit (code : List Instr) : Prop where
  value : ∀ front ty name body back, IsBlock code front ty name body back → ty ≠ .void →
    ¬ Path code front.length (front.length + (body.length + 1)) ∧ .retVoid ∉ body
  void : ∀ front name body back, IsBlock code front .void name body back →
    ∀ value, .ret value ∉ body

section Path

variable {code : List Instr}

theorem path_to_end {part : List Instr} {pc stop : Nat} (h : Path code pc stop)
    (hstop : stop = pc + part.length) : Path code pc (pc + part.length) :=
  hstop ▸ h

mutual

/-- There is a way through a statement that need not return. -/
theorem Stmt.path {pc : Nat} : (stmt : Stmt) → stmt.alwaysReturns = false →
    none ∉ stmt.returns → CodeAt code pc stmt.code → Path code pc (pc + stmt.code.length)
  | .ifThen keyword guard body elseLabel endLabel, _, _, hcode => by
      rw [Stmt.code] at hcode ⊢
      have helse := hcode.right.right.tail
      refine path_to_end ((Condition.path_target hcode.left helse).trans
        ((path_label helse).trans (path_label helse.tail))) ?_
      simp only [List.length_append, List.length_cons, List.length_nil]
      omega
  | .ifElse keyword guard body elseKeyword alternative elseLabel endLabel, hflag, hbare, hcode => by
      rw [Stmt.returns, List.mem_append, not_or] at hbare
      rw [Stmt.alwaysReturns, Bool.and_eq_false_iff] at hflag
      rw [Stmt.code] at hcode ⊢
      have hjump := hcode.right.right
      have helse := hjump.tail
      have hlast := helse.tail.right
      refine path_to_end (Relation.ReflTransGen.trans ?_ (path_label hlast)) ?_
      · rcases hflag with hflag | hflag
        · exact (Condition.path_next hcode.left).trans
            ((body.path hflag hbare.1 hcode.right.left).trans (path_jump hjump hlast))
        · exact (Condition.path_target hcode.left helse).trans
            ((path_label helse).trans (alternative.path hflag hbare.2 helse.tail.left))
      · simp only [List.length_append, List.length_cons, List.length_nil]
        omega
  | .whileLoop keyword guard body loopLabel endLabel, _, _, hcode => by
      rw [Stmt.code] at hcode ⊢
      have hlast := hcode.tail.right.right.tail
      refine path_to_end ((path_label hcode).trans
        ((Condition.path_target hcode.tail.left hlast).trans (path_label hlast))) ?_
      simp only [List.length_append, List.length_cons, List.length_nil]
      omega
  | .doLoop keyword body whileKeyword guard loopLabel, hflag, hbare, hcode => by
      rw [Stmt.alwaysReturns] at hflag
      rw [Stmt.returns] at hbare
      rw [Stmt.code] at hcode ⊢
      refine path_to_end ((path_label hcode).trans ((body.path hflag hbare hcode.tail.left).trans
        (Condition.path_next hcode.tail.right))) ?_
      simp only [List.length_append, List.length_cons]
      omega
  | .forLoop keyword header body loopLabel endLabel, _, _, hcode => by
      rw [Stmt.code] at hcode ⊢
      have hstart := path_of_isBoundary hcode.left fun _ => isBoundary_of_inExpr header.start.all_log
      have hassign : Path code _ _ := .single (.next hcode.right.head rfl)
      have hloop := hcode.right.tail
      have hlast := hloop.tail.right.right.tail.tail
      refine path_to_end (hstart.trans (hassign.trans ((path_label hloop).trans
        ((Condition.path_target hloop.tail.left hlast).trans (path_label hlast))))) ?_
      simp only [List.length_append, List.length_cons, List.length_nil]
      omega
  | .block lbrace body rbrace, hflag, hbare, hcode => by
      rw [Stmt.alwaysReturns] at hflag
      rw [Stmt.returns] at hbare
      rw [Stmt.code] at hcode ⊢
      exact Stmt.path_codes body hflag hbare hcode
  | .ret keyword semicolon, _, hbare, _ => by
      exact absurd (by simp [Stmt.returns]) hbare
  | .retValue keyword lparen value rparen semicolon, hflag, _, _ => by
      rw [Stmt.alwaysReturns] at hflag
      exact absurd (by simpa using hflag) value.ty_ne_void
  | .call _ _, _, _, hcode | .unknownCall _ _, _, _, hcode | .skipped, _, _, hcode
  | .assign _ _ _ _, _, _, hcode | .assignElement _ _ _ _ _ _ _, _, _, hcode
  | .scan _ _ _ _ _, _, _, hcode | .print _ _ _ _ _, _, _, hcode | .empty _, _, _, hcode =>
      path_of_isBoundary hcode fun _ => Stmt.isBoundary_of_mem_code rfl

theorem Stmt.path_codes {pc : Nat} : (stmts : List Stmt) → Stmt.anyAlwaysReturns stmts = false →
    none ∉ Stmt.allReturns stmts → CodeAt code pc (Stmt.codes stmts) →
    Path code pc (pc + (Stmt.codes stmts).length)
  | [], _, _, _ => by
      rw [Stmt.codes]
      exact .refl
  | stmt :: stmts, hflag, hbare, hcode => by
      rw [Stmt.anyAlwaysReturns, Bool.or_eq_false_iff] at hflag
      rw [Stmt.allReturns, List.mem_append, not_or] at hbare
      rw [Stmt.codes] at hcode ⊢
      rw [List.length_append, ← Nat.add_assoc]
      exact (stmt.path hflag.1 hbare.1 hcode.left).trans
        (Stmt.path_codes stmts hflag.2 hbare.2 hcode.right)

end

end Path

section Trapped

variable {code : List Instr} (hnodup : (setLabels code).Nodup)

include hnodup

/-- A statement is left at its end only. -/
theorem Stmt.trapped_of_end {pc stop : Nat} {stmt : Stmt} (hcode : CodeAt code pc stmt.code)
    (hend : Trapped code (pc + stmt.code.length) stop) : Trapped code pc stop := by
  apply Trapped.of_piece hcode hend
  intro l hl place hplace
  -- what a statement jumps to, it sets itself
  have hset : l ∈ setLabels stmt.code := stmt.perm_targets.mem_iff.1 hl
  obtain ⟨instr, hinstr, hlabel⟩ := List.mem_filterMap.1 hset
  obtain ⟨front, back, hsplit⟩ := List.append_of_mem hinstr
  cases instr with
  | label other =>
      obtain rfl := Option.some.inj hlabel
      rw [hsplit] at hcode ⊢
      obtain rfl := hcode.right.eq_of_label hnodup hplace
      left
      simp only [List.length_append, List.length_cons]
      omega
  | _ => cases hlabel

mutual

/-- There is no way out of a statement that always returns. -/
theorem Stmt.trapped {pc : Nat} : (stmt : Stmt) → stmt.alwaysReturns = true →
    CodeAt code pc stmt.code → Trapped code pc (pc + stmt.code.length)
  | .ifElse keyword guard body elseKeyword alternative elseLabel endLabel, hflag, hcode => by
      rw [Stmt.alwaysReturns, Bool.and_eq_true] at hflag
      rw [Stmt.code] at hcode ⊢
      have hbody := body.trapped hflag.1 hcode.right.left
      have helse := hcode.right.right.tail
      have halternative := Trapped.of_label helse (alternative.trapped hflag.2 helse.tail.left)
      refine .of_piece hcode.left (hbody.mono ?_) ?_
      · simp only [List.length_append, List.length_cons]
        omega
      · intro l hl place hplace
        rw [targets_condition, List.mem_singleton] at hl
        obtain rfl := hl
        obtain rfl := helse.eq_of_label hnodup hplace
        right
        apply halternative.mono
        simp only [List.length_append, List.length_cons]
        omega
  | .doLoop keyword body whileKeyword guard loopLabel, hflag, hcode => by
      rw [Stmt.alwaysReturns] at hflag
      rw [Stmt.code] at hcode ⊢
      apply (Trapped.of_label hcode (body.trapped hflag hcode.tail.left)).mono
      simp only [List.length_append, List.length_cons]
      omega
  | .block lbrace body rbrace, hflag, hcode => by
      rw [Stmt.alwaysReturns] at hflag
      rw [Stmt.code] at hcode ⊢
      exact Stmt.trapped_codes body hflag hcode
  | .retValue keyword lparen value rparen semicolon, _, hcode => by
      rw [Stmt.code] at hcode ⊢
      have hret : Trapped code _ _ := .of_ret hcode.right.head
      rw [List.length_append, ← Nat.add_assoc]
      exact .of_labelFree hcode.left
        (fun _ h => Instr.labelFree_of_isBoundary (isBoundary_of_inExpr value.all_log h)) hret
  | .ifThen _ _ _ _ _, hflag, _ | .whileLoop _ _ _ _ _, hflag, _ | .forLoop _ _ _ _ _, hflag, _
  | .call _ _, hflag, _ | .unknownCall _ _, hflag, _ | .skipped, hflag, _
  | .assign _ _ _ _, hflag, _ | .assignElement _ _ _ _ _ _ _, hflag, _
  | .scan _ _ _ _ _, hflag, _ | .print _ _ _ _ _, hflag, _ | .ret _ _, hflag, _
  | .empty _, hflag, _ => by
      simp [Stmt.alwaysReturns] at hflag

theorem Stmt.trapped_codes {pc : Nat} : (stmts : List Stmt) → Stmt.anyAlwaysReturns stmts = true →
    CodeAt code pc (Stmt.codes stmts) → Trapped code pc (pc + (Stmt.codes stmts).length)
  | [], hflag, _ => by
      simp [Stmt.anyAlwaysReturns] at hflag
  | stmt :: stmts, hflag, hcode => by
      rw [Stmt.codes] at hcode ⊢
      rw [List.length_append, ← Nat.add_assoc]
      rw [Stmt.anyAlwaysReturns, Bool.or_eq_true] at hflag
      rcases hflag with hflag | hflag
      · exact (stmt.trapped hflag hcode.left).mono (Nat.le_add_right _ _)
      · exact Stmt.trapped_of_end hnodup hcode.left (Stmt.trapped_codes stmts hflag hcode.right)

end

end Trapped

/-- What an instruction returns, if it is a return. -/
def Instr.returned? : Instr → Option (Option Operand)
  | ret value => some (some value)
  | retVoid => some none
  | _ => none

theorem returned_of_fallsThrough {part : List Instr}
    (h : ∀ instr ∈ part, instr.fallsThrough = true) : part.filterMap Instr.returned? = [] := by
  rw [List.filterMap_eq_nil_iff]
  intro instr hinstr
  have hfalls := h instr hinstr
  cases instr with
  | ret value | retVoid => cases hfalls
  | _ => rfl

theorem returned_of_isBoundary {part : List Instr} (h : ∀ instr ∈ part, instr.isBoundary = false) :
    part.filterMap Instr.returned? = [] :=
  returned_of_fallsThrough fun instr hinstr => Instr.fallsThrough_of_isBoundary (h instr hinstr)

@[simp]
theorem returned_expr (e : Expr) : e.code.filterMap Instr.returned? = [] :=
  returned_of_isBoundary fun _ => isBoundary_of_inExpr e.all_log

@[simp]
theorem returned_condition (label : Label) (sense : Sense) (c : Condition) :
    (c.code label sense).filterMap Instr.returned? = [] :=
  returned_of_fallsThrough fun _ => c.fallsThrough_of_mem_code

mutual

/-- The returns of a statement are the returns in its code. -/
theorem Stmt.returned_code : (stmt : Stmt) →
    stmt.code.filterMap Instr.returned? = stmt.returns.map (Option.map Expr.value)
  | .ifThen _ _ body _ _ | .whileLoop _ _ body _ _ | .doLoop _ body _ _ _
  | .forLoop _ _ body _ _ => by
      simp [Stmt.code, Stmt.returns, Instr.returned?, List.filterMap_cons, ForHeader.stepInstr,
        body.returned_code]
  | .ifElse _ _ body _ alternative _ _ => by
      simp [Stmt.code, Stmt.returns, Instr.returned?, List.filterMap_cons, body.returned_code,
        alternative.returned_code]
  | .block _ body _ => by
      simp [Stmt.code, Stmt.returns, Stmt.returned_codes body]
  | .ret _ _ | .retValue _ _ _ _ _ => by
      simp [Stmt.code, Stmt.returns, Instr.returned?]
  | .call _ _ | .unknownCall _ _ | .skipped | .assign _ _ _ _ | .assignElement _ _ _ _ _ _ _
  | .scan _ _ _ _ _ | .print _ _ _ _ _ | .empty _ => by
      rw [returned_of_isBoundary fun _ => Stmt.isBoundary_of_mem_code rfl]
      simp [Stmt.returns]

theorem Stmt.returned_codes : (stmts : List Stmt) →
    (Stmt.codes stmts).filterMap Instr.returned? = (Stmt.allReturns stmts).map (Option.map Expr.value)
  | [] => by
      simp [Stmt.codes, Stmt.allReturns]
  | stmt :: stmts => by
      simp [Stmt.codes, Stmt.allReturns, stmt.returned_code, Stmt.returned_codes stmts]

end

mutual

/-- Every return is checked against the type of the function. -/
theorem Stmt.checks_returns (returnType : Ty) : (stmt : Stmt) → ∀ given ∈ stmt.returns,
    checkReturnLog returnType (given.elim .void Expr.ty) ⊆ stmt.log returnType
  | .ifThen _ _ body _ _ | .whileLoop _ _ body _ _ | .doLoop _ body _ _ _
  | .forLoop _ _ body _ _ => by
      intro given hgiven action haction
      rw [Stmt.returns] at hgiven
      have hbody := body.checks_returns returnType given hgiven haction
      simp [Stmt.log, hbody]
  | .ifElse keyword guard body elseKeyword alternative elseLabel endLabel => by
      intro given hgiven action haction
      rw [Stmt.returns, List.mem_append] at hgiven
      rcases hgiven with hgiven | hgiven
      · have hbody := body.checks_returns returnType given hgiven haction
        simp [Stmt.log, hbody]
      · have halternative := alternative.checks_returns returnType given hgiven haction
        simp [Stmt.log, halternative]
  | .block lbrace body rbrace => by
      intro given hgiven action haction
      rw [Stmt.returns] at hgiven
      have hbody := Stmt.checks_allReturns returnType body given hgiven haction
      simp [Stmt.log, hbody]
  | .ret _ _ | .retValue _ _ _ _ _ => by
      simp +contextual [Stmt.returns, Stmt.log, List.subset_def]
  | .call _ _ | .unknownCall _ _ | .skipped | .assign _ _ _ _ | .assignElement _ _ _ _ _ _ _
  | .scan _ _ _ _ _ | .print _ _ _ _ _ | .empty _ => by
      simp [Stmt.returns]

theorem Stmt.checks_allReturns (returnType : Ty) : (stmts : List Stmt) →
    ∀ given ∈ Stmt.allReturns stmts,
      checkReturnLog returnType (given.elim .void Expr.ty) ⊆ Stmt.logs returnType stmts
  | [] => by
      simp [Stmt.allReturns]
  | stmt :: stmts => by
      intro given hgiven action haction
      rw [Stmt.allReturns, List.mem_append] at hgiven
      rw [Stmt.logs, List.mem_append]
      rcases hgiven with hgiven | hgiven
      · exact .inl (stmt.checks_returns returnType given hgiven haction)
      · exact .inr (Stmt.checks_allReturns returnType stmts given hgiven haction)

end

/-- A piece of code is decided by a flag that says whether there is a way through it. -/
theorem decidesReturn_of_path {part : List Instr} {flag : Bool}
    (hpaired : (targets part).Perm (setLabels part))
    (htrapped : flag = true → Trapped part 0 (0 + part.length))
    (hpath : flag = false → Path part 0 (0 + part.length)) : DecidesReturn part flag := by
  rw [Nat.zero_add] at htrapped hpath
  constructor
  · intro instr hinstr l htarget
    have hset : l ∈ setLabels part :=
      hpaired.mem_iff.1 (List.mem_filterMap.2 ⟨instr, hinstr, htarget⟩)
    obtain ⟨other, hother, hlabel⟩ := List.mem_filterMap.1 hset
    cases other with
    | label given =>
        obtain rfl := Option.some.inj hlabel
        exact hother
    | _ => cases hlabel
  · constructor
    · intro hflag hthrough
      exact Nat.lt_irrefl _ (htrapped hflag _ hthrough)
    · intro hno
      cases flag with
      | true => rfl
      | false => exact absurd (hpath rfl) hno

theorem CodeAt.whole (part : List Instr) : CodeAt part 0 part :=
  ⟨[], [], by simp, rfl⟩

theorem Stmt.decidesReturn {returnType : Ty} {stmt : Stmt} {s t : State}
    (h : Plays (stmt.log returnType) s t) (hbare : none ∉ stmt.returns) :
    DecidesReturn stmt.code stmt.alwaysReturns := by
  have hnodup : (setLabels stmt.code).Nodup :=
    (stmt.perm_labels returnType).nodup_iff.2 h.nodup_givenLabels.1
  exact decidesReturn_of_path stmt.perm_targets
    (fun hflag => stmt.trapped hnodup hflag (.whole _))
    (fun hflag => stmt.path hflag hbare (.whole _))

theorem Stmt.decidesReturn_codes {returnType : Ty} {stmts : List Stmt} {s t : State}
    (h : Plays (Stmt.logs returnType stmts) s t) (hbare : none ∉ Stmt.allReturns stmts) :
    DecidesReturn (Stmt.codes stmts) (Stmt.anyAlwaysReturns stmts) := by
  have hnodup : (setLabels (Stmt.codes stmts)).Nodup :=
    (Stmt.perm_labels_logs returnType stmts).nodup_iff.2 h.nodup_givenLabels.1
  exact decidesReturn_of_path (Stmt.perm_targets_codes stmts)
    (fun hflag => Stmt.trapped_codes hnodup stmts hflag (.whole _))
    (fun hflag => Stmt.path_codes stmts hflag hbare (.whole _))

namespace Function

variable {f : Function}

theorem anyAlwaysReturns_of_quiet (hvalue : f.head.ty ≠ .void)
    (hquiet : ∀ action ∈ f.log, .missingReturn ∉ action.records) :
    Stmt.anyAlwaysReturns f.body.stmts = true := by
  by_contra hmissing
  rw [Bool.not_eq_true] at hmissing
  have hmem : .report f.rbrace.line .missingReturn ∈ f.log := by
    simp [Function.log, Body.log, Action.when, hvalue, hmissing]
  exact hquiet _ hmem (by simp [Action.records])

theorem check_mem_log {action : Action} {given : Option Expr}
    (hgiven : given ∈ Stmt.allReturns f.body.stmts)
    (haction : action ∈ checkReturnLog f.head.ty (given.elim .void Expr.ty)) : action ∈ f.log := by
  have hlogs := Stmt.checks_allReturns f.head.ty f.body.stmts given hgiven haction
  simp [Function.log, Body.log, hlogs]

theorem bare_not_mem_of_quiet (hvalue : f.head.ty ≠ .void)
    (hquiet : ∀ action ∈ f.log, .missingReturn ∉ action.records) :
    none ∉ Stmt.allReturns f.body.stmts := by
  intro hbare
  have hmem : .reportHere .missingReturn ∈ f.log :=
    check_mem_log hbare (by simp [checkReturnLog, Action.when, hvalue])
  exact hquiet _ hmem (by simp [Action.records])

theorem value_not_mem_of_quiet (hvoid : f.head.ty = .void)
    (hquiet : ∀ action ∈ f.log, .returnInVoid ∉ action.records) (value : Expr) :
    some value ∉ Stmt.allReturns f.body.stmts := by
  intro hgiven
  have hmem : .reportHere .returnInVoid ∈ f.log :=
    check_mem_log hgiven (by simp [checkReturnLog, hvoid, value.ty_ne_void])
  exact hquiet _ hmem (by simp [Action.records])

/-- Every return in a function is one of its body or stands at its end. -/
theorem returned_inner (f : Function) : f.inner.filterMap Instr.returned? =
    (Stmt.allReturns f.body.stmts).map (Option.map Expr.value) ++
      if f.head.ty = .void then [none] else [] := by
  have hparams : (f.head.params.map fun param =>
      Instr.param param.type.ty param.name.value).filterMap Instr.returned? = [] := by
    rw [List.filterMap_map]
    exact List.filterMap_eq_nil_iff.2 fun _ _ => rfl
  have hvars : (f.body.vars.flatMap VarDecl.code).filterMap Instr.returned? = [] := by
    apply returned_of_fallsThrough
    intro instr hinstr
    obtain ⟨_, _, _, rfl⟩ := VarDecl.eq_var_of_mem_code hinstr
    rfl
  rw [inner, List.filterMap_append, List.filterMap_append, List.filterMap_append, hparams, hvars,
    Stmt.returned_codes]
  split <;> rfl

/-- There is no way from the announcement of a function to its end if its body always returns. -/
theorem trapped_of_returns {code : List Instr} {pc : Nat} (hnodup : (setLabels code).Nodup)
    (hreturns : Stmt.anyAlwaysReturns f.body.stmts = true) (hcode : CodeAt code pc f.code) :
    Trapped code pc (pc + (f.inner.length + 1)) := by
  have hbody := hcode.right.right
  have hstmts := Stmt.trapped_codes hnodup f.body.stmts hreturns hbody.left
  have hvars := Trapped.of_labelFree hcode.right.left (fun _ => VarDecl.labelFree_of_mem_code) hstmts
  have hfree : ∀ instr ∈ Instr.funcDeclare f.head.ty f.head.name.value ::
      f.head.params.map (fun param => .param param.type.ty param.name.value), instr.LabelFree := by
    intro instr hinstr
    rcases List.mem_cons.1 hinstr with rfl | hinstr
    · exact ⟨rfl, rfl⟩
    · exact FunctionHead.labelFree_of_mem_params hinstr
  apply (Trapped.of_labelFree hcode.left hfree hvars).mono
  simp only [inner, List.length_append, List.length_cons]
  omega

end Function

theorem returnsFit_of_compile {tokens : List Token} {c : Compilation} (h : compile tokens = .ok c)
    (hquiet : ∀ d ∈ c.diagnostics, d.kind ≠ .missingReturn ∧ d.kind ≠ .returnInVoid) :
    ReturnsFit c.code := by
  have hcode := code_of_compile h
  have hrecords : ∀ f, .function f ∈ c.program.items → ∀ action ∈ f.log,
      .missingReturn ∉ action.records ∧ .returnInVoid ∉ action.records := by
    intro f hf action haction
    have hmem : action ∈ c.program.log := by
      rw [Program.log, List.mem_append, List.mem_flatMap]
      exact .inl ⟨.function f, hf, haction⟩
    constructor
    · intro hkind
      obtain ⟨d, hd, hmissing⟩ := reported_of_compile h hmem hkind
      exact (hquiet d hd).1 hmissing
    · intro hkind
      obtain ⟨d, hd, hvoid⟩ := reported_of_compile h hmem hkind
      exact (hquiet d hd).2 hvoid
  constructor
  · intro front ty name body back hblock hvalue
    rw [hcode] at hblock
    obtain ⟨before, f, after, hitems, rfl, rfl, rfl, rfl, rfl⟩ := hblock.exists_function
    have hlog := hrecords f (by simp [hitems])
    have hmissing : ∀ action ∈ f.log, .missingReturn ∉ action.records :=
      fun action haction => (hlog action haction).1
    constructor
    · intro hpath
      have hat : CodeAt c.code (before.flatMap TopLevel.code).length f.code :=
        ⟨_, after.flatMap TopLevel.code, by rw [hcode, hitems]; simp [TopLevel.code], rfl⟩
      have htrapped := Function.trapped_of_returns (nodup_labels_of_compile h)
        (Function.anyAlwaysReturns_of_quiet hvalue hmissing) hat
      exact Nat.lt_irrefl _ (htrapped _ hpath)
    · intro hret
      have hreturned : none ∈ f.inner.filterMap Instr.returned? :=
        List.mem_filterMap.2 ⟨_, hret, rfl⟩
      rw [f.returned_inner, if_neg hvalue, List.append_nil, List.mem_map] at hreturned
      obtain ⟨given, hgiven, hnone⟩ := hreturned
      obtain rfl := Option.map_eq_none_iff.1 hnone
      exact Function.bare_not_mem_of_quiet hvalue hmissing hgiven
  · intro front name body back hblock value hret
    rw [hcode] at hblock
    obtain ⟨before, f, after, hitems, rfl, hvoid, rfl, rfl, rfl⟩ := hblock.exists_function
    have hlog := hrecords f (by simp [hitems])
    have hreturned : some value ∈ f.inner.filterMap Instr.returned? :=
      List.mem_filterMap.2 ⟨_, hret, rfl⟩
    rw [f.returned_inner, if_pos hvoid.symm, List.mem_append, List.mem_map] at hreturned
    rcases hreturned with ⟨given, hgiven, hsome⟩ | hend
    · obtain ⟨e, rfl, _⟩ := Option.map_eq_some_iff.1 hsome
      exact Function.value_not_mem_of_quiet hvoid.symm (fun action haction => (hlog action haction).2)
        e hgiven
    · cases List.mem_singleton.1 hend

/-- Whether a statement always returns is decided exactly, wherever it is compiled: if no bare
return is read, it is said to always return just if no path leads through its code. The same holds
of a list of statements. If no return is recorded as missing, wrong or out of place, the functions
of a program therefore return as their types say. -/
theorem alwaysReturns_exact :
    (∀ returnType s stmt t, Pass.statement returnType s = .ok stmt t → none ∉ stmt.returns →
      ∃ segment, t.emitter.code.toList = s.emitter.code.toList ++ segment ∧
        DecidesReturn segment stmt.alwaysReturns) ∧
    (∀ returnType s stmts t, Pass.statements (Pass.statement returnType) s = .ok stmts t →
      none ∉ Stmt.allReturns stmts →
      ∃ segment, t.emitter.code.toList = s.emitter.code.toList ++ segment ∧
        DecidesReturn segment (Stmt.anyAlwaysReturns stmts)) ∧
    ∀ tokens c, compile tokens = .ok c →
      (∀ d ∈ c.diagnostics, d.kind ≠ .missingReturn ∧ d.kind ≠ .returnInVoid) →
      ReturnsFit c.code := by
  refine ⟨?_, ?_, ?_⟩
  · intro returnType s stmt t h hbare
    have hplays := Pass.follows_statement returnType s stmt t h
    refine ⟨stmt.code, ?_, Stmt.decidesReturn hplays hbare⟩
    rw [hplays.code, stmt.code_log]
  · intro returnType s stmts t h hbare
    have hplays := Pass.follows_statements (Pass.follows_statement returnType) s stmts t h
    refine ⟨Stmt.codes stmts, ?_, Stmt.decidesReturn_codes hplays hbare⟩
    rw [hplays.code, Stmt.codes_logs]
  · intro tokens c h hquiet
    exact returnsFit_of_compile h hquiet

/-- `if (1) return (1); else { while (0); return (2); }` -/
def branchesTokens : List Token :=
  scan 1 ["if ( 1 ) return ( 1 ) ; else \x7b while ( 0 ) ; return ( 2 ) ; \x7d"]

/-- `while (1) return (1); }` -/
def leavableTokens : List Token :=
  scan 1 ["while ( 1 ) return ( 1 ) ; \x7d"]

/-- The statement in a function `f`, and a `main` that returns nothing. -/
def returningTokens : List Token :=
  scan 1 ["int f ( ) \x7b"] ++ branchesTokens ++ scan 1 ["\x7d void main ( ) \x7b return ; \x7d"]

theorem alwaysReturns_exact_sample :
    (∃ stmt t, Pass.statement .int (.start {} branchesTokens) = .ok stmt t ∧
      ¬ Path t.emitter.code.toList 0 t.emitter.code.toList.length) ∧
    (∃ stmts t, Pass.statements (Pass.statement .int) (.start {} leavableTokens) = .ok stmts t ∧
      Path t.emitter.code.toList 0 t.emitter.code.toList.length) ∧
    ∃ c, compile returningTokens = .ok c ∧ ReturnsFit c.code := by
  obtain ⟨hstmt, hstmts, hcompile⟩ := alwaysReturns_exact
  refine ⟨?_, ?_, ?_⟩
  · have hshape : (Pass.statement .int).succeeds (.start {} branchesTokens)
        (fun stmt _ => stmt.alwaysReturns && stmt.returns.all Option.isSome) = true := by
      decide +kernel
    obtain ⟨stmt, t, h, htest⟩ := Pass.eq_ok_of_succeeds hshape
    obtain ⟨hflag, hall⟩ := Bool.and_eq_true_iff.1 htest
    have hbare : none ∉ stmt.returns := fun hmem => by cases List.all_eq_true.1 hall _ hmem
    obtain ⟨segment, hcode, hdecides⟩ := hstmt .int _ stmt t h hbare
    have hsegment : t.emitter.code.toList = segment := by simpa [State.start] using hcode
    exact ⟨stmt, t, h, hsegment ▸ hdecides.exact.1 hflag⟩
  · have hshape : (Pass.statements (Pass.statement .int)).succeeds (.start {} leavableTokens)
        (fun stmts _ => !Stmt.anyAlwaysReturns stmts &&
          (Stmt.allReturns stmts).all Option.isSome) = true := by
      decide +kernel
    obtain ⟨stmts, t, h, htest⟩ := Pass.eq_ok_of_succeeds hshape
    obtain ⟨hflag, hall⟩ := Bool.and_eq_true_iff.1 htest
    have hbare : none ∉ Stmt.allReturns stmts :=
      fun hmem => by cases List.all_eq_true.1 hall _ hmem
    obtain ⟨segment, hcode, hdecides⟩ := hstmts .int _ stmts t h hbare
    have hsegment : t.emitter.code.toList = segment := by simpa [State.start] using hcode
    have hexact := hdecides.exact
    rw [Bool.not_eq_true'] at hflag
    rw [hflag, ← hsegment] at hexact
    exact ⟨stmts, t, h, by simpa using hexact⟩
  · have hc := eq_ok_get (compile returningTokens) (by decide +kernel)
    exact ⟨_, hc, hcompile _ _ hc (by decide +kernel)⟩

end OnePass
