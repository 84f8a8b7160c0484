import OnePass.Proofs.Meaning.Program

/-!
The blocks of the code. The code of a function stands between its announcement and its end, and
neither of them stands in between. Every block of a program's code is therefore the code of one
of its functions.
-/

namespace OnePass

/-- What stands in a piece of code between the announcement of a function and the end that comes
next. -/
structure IsBlock (code front : List Instr) (ty : Ty) (name : String) (body back : List Instr) :
    Prop where
  split : code = front ++ .funcDeclare ty name :: (body ++ .functionEnd :: back)
  closed : .functionEnd ∉ body

/-- Whether an action emits nothing but what statements are compiled to. -/
def Action.unframed : Action → Bool
  | emit instr => instr.executes
  | _ => true

instance : Action.Executive Action.unframed where
  emit _ h := h

/-- An instruction of a log is emitted by one of its actions. -/
theorem emit_mem_of_mem_code {log : List Action} {instr : Instr}
    (h : instr ∈ log.flatMap Action.code) : .emit instr ∈ log := by
  obtain ⟨action, haction, hinstr⟩ := List.mem_flatMap.1 h
  cases action with
  | emit other =>
      obtain rfl := List.mem_singleton.1 hinstr
      exact haction
  | _ => cases hinstr

theorem Stmt.executes_of_mem_codes {stmts : List Stmt} {instr : Instr}
    (h : instr ∈ Stmt.codes stmts) : instr.executes = true := by
  rw [← Stmt.codes_logs .void stmts] at h
  exact List.all_eq_true.1 (Stmt.all_logs (p := Action.unframed) .void stmts) _
    (emit_mem_of_mem_code h)

theorem Stmt.isFraming_of_mem_codes {stmts : List Stmt} {instr : Instr}
    (h : instr ∈ Stmt.codes stmts) : instr.isFraming = false := by
  have hexecutes := Stmt.executes_of_mem_codes h
  cases instr with
  | param ty name | var ty name length | funcDeclare ty name | functionEnd => cases hexecutes
  | _ => rfl

namespace Function

/-- The code of a function between its announcement and its end. -/
def inner (f : Function) : List Instr :=
  (f.head.params.map fun param => .param param.type.ty param.name.value) ++
    (f.body.vars.flatMap VarDecl.code ++ (Stmt.codes f.body.stmts ++
      if f.head.ty = .void then [.retVoid] else []))

theorem code_eq (f : Function) :
    f.code = .funcDeclare f.head.ty f.head.name.value :: (f.inner ++ [.functionEnd]) := by
  simp [code, inner]

/-- Functions are not nested. -/
theorem ne_of_mem_inner {f : Function} {instr : Instr} (h : instr ∈ f.inner) :
    instr ≠ .functionEnd ∧ ∀ ty name, instr ≠ .funcDeclare ty name := by
  simp only [inner, List.mem_append, List.mem_map, List.mem_flatMap] at h
  rcases h with ⟨param, _, rfl⟩ | ⟨decl, _, hvar⟩ | hstmt | hret
  · simp
  · obtain ⟨item, _, hitem⟩ := List.mem_flatMap.1 hvar
    obtain rfl := List.mem_singleton.1 hitem
    simp
  · have hframe := Stmt.isFraming_of_mem_codes hstmt
    constructor
    · rintro rfl
      cases hframe
    · rintro ty name rfl
      cases hframe
  · by_cases hvoid : f.head.ty = .void
    · rw [if_pos hvoid] at hret
      obtain rfl := List.mem_singleton.1 hret
      simp
    · rw [if_neg hvoid] at hret
      cases hret

end Function

theorem VarDecl.eq_var_of_mem_code {decls : List VarDecl} {instr : Instr}
    (h : instr ∈ decls.flatMap VarDecl.code) : ∃ ty name length, instr = .var ty name length := by
  obtain ⟨decl, _, hinstr⟩ := List.mem_flatMap.1 h
  obtain ⟨item, _, hitem⟩ := List.mem_flatMap.1 hinstr
  exact ⟨_, _, _, List.mem_singleton.1 hitem⟩

/-- What does not stand in the first of two pieces is found in the second. -/
theorem split_of_not_mem {part rest front back : List Instr} {instr : Instr}
    (h : part ++ rest = front ++ instr :: back) (hnot : instr ∉ part) :
    ∃ between, front = part ++ between ∧ rest = between ++ instr :: back := by
  rcases List.append_eq_append_iff.1 h with ⟨between, hfront, hrest⟩ | ⟨between, hpart, hback⟩
  · exact ⟨between, hfront, hrest⟩
  · cases between with
    | nil => exact ⟨[], by simpa using hpart.symm, by simpa using hback.symm⟩
    | cons first between =>
        obtain ⟨rfl, _⟩ := List.cons.inj hback
        exact absurd (by simp [hpart]) hnot

/-- An instruction of a program's code stands in the code of one of its items. -/
theorem exists_item_of_split {items : List TopLevel} {front back : List Instr} {instr : Instr}
    (h : items.flatMap TopLevel.code = front ++ instr :: back) :
    ∃ before item after left right, items = before ++ item :: after ∧
      item.code = left ++ instr :: right ∧ front = before.flatMap TopLevel.code ++ left ∧
      back = right ++ after.flatMap TopLevel.code := by
  induction items generalizing front with
  | nil => simp at h
  | cons item items ih =>
      rw [List.flatMap_cons] at h
      have hlater : ∀ between, front = item.code ++ between →
          items.flatMap TopLevel.code = between ++ instr :: back →
          ∃ before other after left right, item :: items = before ++ other :: after ∧
            other.code = left ++ instr :: right ∧ front = before.flatMap TopLevel.code ++ left ∧
            back = right ++ after.flatMap TopLevel.code := by
        rintro between rfl hrest
        obtain ⟨before, other, after, left, right, rfl, hcode, rfl, hback⟩ := ih hrest
        exact ⟨item :: before, other, after, left, right, rfl, hcode, by simp, hback⟩
      rcases List.append_eq_append_iff.1 h with ⟨between, hfront, hrest⟩ | ⟨between, hitem, hrest⟩
      · exact hlater between hfront hrest
      · cases between with
        | nil => exact hlater [] (by simpa using hitem.symm) (by simpa using hrest.symm)
        | cons first between =>
            obtain ⟨rfl, rfl⟩ := List.cons.inj hrest
            exact ⟨[], item, items, front, between, rfl, hitem, rfl, rfl⟩

/-- Functions are announced where their code starts. -/
theorem exists_function_of_announce {items : List TopLevel} {front back : List Instr} {ty : Ty}
    {name : String} (h : items.flatMap TopLevel.code = front ++ .funcDeclare ty name :: back) :
    ∃ before f after, items = before ++ .function f :: after ∧
      front = before.flatMap TopLevel.code ∧ ty = f.head.ty ∧ name = f.head.name.value ∧
      back = f.inner ++ .functionEnd :: after.flatMap TopLevel.code := by
  obtain ⟨before, item, after, left, right, rfl, hcode, rfl, rfl⟩ := exists_item_of_split h
  cases item with
  | consts decls => simp [TopLevel.code] at hcode
  | vars decls =>
      have hmem : .funcDeclare ty name ∈ decls.flatMap VarDecl.code := by
        change decls.flatMap VarDecl.code = _ at hcode
        simp [hcode]
      obtain ⟨_, _, _, hvar⟩ := VarDecl.eq_var_of_mem_code hmem
      cases hvar
  | function f =>
      rw [TopLevel.code, f.code_eq] at hcode
      cases left with
      | nil =>
          obtain ⟨hhead, rfl⟩ := List.cons.inj hcode
          obtain ⟨rfl, rfl⟩ := Instr.funcDeclare.inj hhead
          exact ⟨before, f, after, rfl, by simp, rfl, rfl, by simp⟩
      | cons first left =>
          -- a function holds no second announcement
          have hmem : .funcDeclare ty name ∈ f.inner ++ [.functionEnd] := by
            rw [(List.cons.inj hcode).2]
            simp
          rcases List.mem_append.1 hmem with hmem | hmem
          · exact absurd rfl ((Function.ne_of_mem_inner hmem).2 ty name)
          · cases List.mem_singleton.1 hmem

/-- Every block of a program's code is the code of a function. -/
theorem IsBlock.exists_function {items : List TopLevel} {front body back : List Instr} {ty : Ty}
    {name : String} (h : IsBlock (items.flatMap TopLevel.code) front ty name body back) :
    ∃ before f after, items = before ++ .function f :: after ∧
      front = before.flatMap TopLevel.code ∧ ty = f.head.ty ∧ name = f.head.name.value ∧
      body = f.inner ∧ back = after.flatMap TopLevel.code := by
  obtain ⟨before, f, after, hitems, hfront, hty, hname, hrest⟩ :=
    exists_function_of_announce h.split
  refine ⟨before, f, after, hitems, hfront, hty, hname, ?_⟩
  -- both bodies reach up to the first end of a function
  obtain ⟨between, rfl, hend⟩ := split_of_not_mem hrest.symm fun hmem =>
    (Function.ne_of_mem_inner hmem).1 rfl
  cases between with
  | nil => exact ⟨by simp, (List.cons.inj hend).2.symm⟩
  | cons first between =>
      obtain ⟨rfl, _⟩ := List.cons.inj hend
      exact absurd (by simp) h.closed

/-- The code of every function is a block of the program's code. -/
theorem Function.isBlock (before : List TopLevel) (f : Function) (after : List TopLevel) :
    IsBlock ((before ++ .function f :: after).flatMap TopLevel.code)
      (before.flatMap TopLevel.code) f.head.ty f.head.name.value f.inner
      (after.flatMap TopLevel.code) := by
  refine ⟨by simp [TopLevel.code, f.code_eq], ?_⟩
  intro hmem
  exact (ne_of_mem_inner hmem).1 rfl

end OnePass
