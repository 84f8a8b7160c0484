import OnePass.Proofs.Recovery.Isolation

/-!
Every pass gives a result like the one it gives without the stray statement, wherever in it there is
a point between statements. The point is one of a list of statements, where the stray statement is
read as one more of them, or else it lies within a part.
-/

namespace OnePass

namespace Pass

section Steps

theorem follows_freshLabel : Follows freshLabel fun label => [.label label] :=
  fun _ _ t h => ⟨t, h, rfl⟩

theorem follows_emit (instr : Instr) : Follows (emit instr) fun _ => [.emit instr] :=
  fun _ _ t h => ⟨t, h, rfl⟩

theorem follows_expect (kind : TokenKind) : Follows (expect kind) fun token => [.take kind token] :=
  fun _ _ t h => ⟨t, expect_eq_ok.1 h, rfl⟩

theorem follows_accept (kind : TokenKind) :
    Follows (accept kind) fun found => found.elim [] fun token => [.take kind token] := by
  intro s found t h
  cases found with
  | none => exact plays_nil.2 (accept_eq_none.1 h).1
  | some token => exact ⟨t, accept_eq_some.1 h, rfl⟩

theorem follows_topLevel? : Follows topLevel? fun found => found.elim [] TopLevel.log := by
  intro s found t h
  rcases plays_topLevel? h with ⟨rfl, rfl, _⟩ | ⟨item, rfl, hitem⟩
  · rfl
  · exact hitem

end Steps

/-- A pass that reads only statements without a list of statements in them. -/
def Simple (returnType : Ty) (pass : Pass Stmt) : Prop :=
  ∀ s stmt t, pass s = .ok stmt t → stmt.gaps returnType = []

namespace Simple

variable {α : Type} {returnType : Ty}

theorem pure {stmt : Stmt} (h : stmt.gaps returnType = []) : Simple returnType (Pure.pure stmt) := by
  intro s stmt t hrun
  obtain ⟨rfl, _⟩ := pure_eq_ok.1 hrun
  exact h

theorem bind {step : Pass α} {next : α → Pass Stmt} (h : ∀ a, Simple returnType (next a)) :
    Simple returnType (step >>= next) := by
  intro s stmt t hrun
  obtain ⟨a, w, _, hnext⟩ := bind_eq_ok.1 hrun
  exact h a w stmt t hnext

theorem ite {condition : Prop} [Decidable condition] {yes no : Pass Stmt}
    (hyes : Simple returnType yes) (hno : Simple returnType no) :
    Simple returnType (if condition then yes else no) := by
  by_cases h : condition
  · rw [if_pos h]
    exact hyes
  · rw [if_neg h]
    exact hno

theorem assignment : Simple returnType Pass.assignment := by
  refine .bind fun _ => .bind fun _ => .bind fun found => ?_
  cases found with
  | none => exact .bind fun _ => .bind fun _ => .bind fun _ => .bind fun _ => .pure (by simp [Stmt.gaps])
  | some lbracket =>
      exact .bind fun _ => .bind fun _ => .bind fun _ => .bind fun _ => .bind fun _ =>
        .bind fun _ => .bind fun _ => .pure (by simp [Stmt.gaps])

theorem nameStatement (name : String) : Simple returnType (Pass.nameStatement name) := by
  refine .bind fun _ => .ite (.bind fun found => ?_) (.bind fun _ => .ite ?_ .assignment)
  · cases found with
    | none => exact .bind fun _ => .bind fun _ => .pure (by simp [Stmt.gaps])
    | some callee => exact .bind fun _ => .bind fun _ => .pure (by simp [Stmt.gaps])
  · exact .bind fun _ => .bind fun _ => .bind fun _ => .pure (by simp [Stmt.gaps])

theorem scan : Simple returnType Pass.scan :=
  .bind fun _ => .bind fun _ => .bind fun _ => .bind fun _ => .bind fun _ =>
    .pure (by simp [Stmt.gaps])

theorem print : Simple returnType Pass.print :=
  .bind fun _ => .bind fun _ => .bind fun _ => .bind fun _ => .bind fun _ =>
    .pure (by simp [Stmt.gaps])

theorem ret (ty : Ty) : Simple returnType (Pass.ret ty) := by
  refine .bind fun _ => .bind fun found => ?_
  cases found with
  | none => exact .bind fun _ => .bind fun _ => .bind fun _ => .pure (by simp [Stmt.gaps])
  | some lparen =>
      exact .bind fun _ => .bind fun _ => .bind fun _ => .bind fun _ => .bind fun _ =>
        .pure (by simp [Stmt.gaps])

end Simple

namespace Follow

variable {β : Type} {ι : Insertion} {moved moved' : Bool} {like : β → β → Prop}

theorem emit {instr : Instr} {next next' : Unit → Pass β}
    (hnext : ∀ u, Follow ι moved moved' like (next u) (next' u)) :
    Follow ι moved moved' like (Pass.emit instr >>= next) (Pass.emit instr >>= next') :=
  .sim (fun _ => .emit (Instr.rename_lines instr).symm) hnext

/-- An instruction under a condition, and what follows it in either case. -/
theorem joined {condition : Prop} [Decidable condition] {instr : Instr} {next next' : Unit → Pass β}
    (hnext : ∀ u, Follow ι moved moved' like (next u) (next' u)) :
    Follow ι moved moved' like (if condition then Pass.emit instr >>= next else next ())
      (if condition then Pass.emit instr >>= next' else next' ()) :=
  .ite Iff.rfl (.emit hnext) (hnext ())

/-- A token that may be there, behind another one. -/
theorem accept {kind : TokenKind} {next next' : Option Token → Pass β}
    (hnext : ∀ found, Follow ι true moved' like (next found) (next' found)) :
    Follow ι true moved' like (Pass.accept kind >>= next) (Pass.accept kind >>= next') := by
  refine .sim (f := Option.map (Token.rename (.lines id))) (fun earlier => ?_) hnext
  have hsim : Respects (.lines id) { diagnostics := earlier } ⟨true, true⟩ ⟨true, true⟩
      (Option.map (Token.rename (.lines id))) (Pass.accept kind >>= Pure.pure) :=
    .accept (.pure rfl) fun _ => .pure rfl
  rwa [bind_pure] at hsim

end Follow

theorem later_of_statement {returnType : Ty} {s t : State} {stmt : Stmt}
    (h : statement returnType s = .ok stmt t) : s.Later t ∧ t.ahead < s.ahead := by
  have hmiss : Overlooks 0 true Always (statement returnType) := fun _ _ hname => .statement _ hname
  obtain ⟨hlater, htakes⟩ := later_of_overlooks hmiss (fun _ => rfl) h
  exact ⟨hlater, htakes trivial⟩

theorem statements_eq (returnType : Ty) (s : State) : statements (statement returnType) s =
    (if s.cursor.nextIs .rbrace = true then pure []
      else do
        let first ← statement returnType
        return first :: (← statements (statement returnType)) : Pass (List Stmt)) s := by
  have hfix : statements (statement returnType) = manyOf (statement? (statement returnType))
      (statements (statement returnType)) :=
    many_eq fun _ => .statement? (.statement returnType)
  refine (congrFun hfix s).trans ?_
  rw [manyOf]
  by_cases h : s.cursor.nextIs .rbrace = true
  · have hstop : statement? (statement returnType) s = .ok none s := by
      rw [statement?_eq, if_pos h]
    rw [if_pos h, bind_of_ok hstop]
    rfl
  · rw [if_neg h]
    cases hfirst : statement returnType s with
    | ok first t =>
        have hsome : statement? (statement returnType) s = .ok (some first) t := by
          rw [statement?_eq, if_neg h, bind_of_ok hfirst]
          rfl
        rw [bind_of_ok hsome, bind_of_ok hfirst]
        rfl
    | error error t =>
        have herror : statement? (statement returnType) s = .error error t := by
          rw [statement?_eq, if_neg h, bind_of_error hfirst]
        rw [bind_of_error herror, bind_of_error hfirst]

/-- Where statements are read, there is a statement or a closing brace. -/
theorem start_of_statements {returnType : Ty} {s t : State} {stmts : List Stmt}
    (h : statements (statement returnType) s = .ok stmts t) :
    headKind s.cursor.rest = some .rbrace ∨
      ∃ first w, statement returnType s = .ok first w := by
  rw [statements_eq] at h
  by_cases hend : s.cursor.nextIs .rbrace = true
  · rw [Cursor.nextIs, peekKind?_zero, beq_iff_eq] at hend
    exact .inl hend
  · rw [if_neg hend] at h
    obtain ⟨first, w, hfirst, _⟩ := bind_eq_ok.1 h
    exact .inr ⟨first, w, hfirst⟩

theorem calm_of_statements {returnType : Ty} {s t : State} {stmts : List Stmt}
    (h : statements (statement returnType) s = .ok stmts t) : Calm s.cursor.rest := by
  rcases start_of_statements h with hend | ⟨first, w, hfirst⟩
  · intro kind hkind hhead
    rw [hend] at hhead
    cases hhead
    exact absurd hkind (by decide)
  · exact Starts.calm_of_statement s first w hfirst

/-- Where statements are read, no declaration can begin. -/
theorem not_isTypeName_of_statements {returnType : Ty} {s t : State} {stmts : List Stmt}
    (h : statements (statement returnType) s = .ok stmts t) (kind : TokenKind)
    (hkind : headKind s.cursor.rest = some kind) : kind.isTypeName = false := by
  rcases start_of_statements h with hend | ⟨first, w, hfirst⟩
  · rw [hend] at hkind
    cases hkind
    rfl
  · rw [statement_fix] at hfirst
    obtain ⟨token, u, hcurrent, hfirst⟩ := bind_eq_ok.1 hfirst
    obtain ⟨hhead, rfl⟩ := current_eq_ok.1 hcurrent
    rw [headKind, hhead, Option.map_some, Option.some.injEq] at hkind
    rw [hkind] at hfirst
    cases kind with
    | kwInt | kwChar => exact absurd hfirst unexpected_ne_ok
    | _ => rfl

/-- A statement goes alike, but for what is put into it. -/
abbrev IsolatesStmt (ι : Insertion) (n margin : Nat) (returnType : Ty) (pass : Pass Stmt) : Prop :=
  Isolates ι n margin true [] (fun stmt before => before ∈ stmt.gaps returnType) Stmt.Like pass

namespace Isolates

variable {ι : Insertion} {n : Nat} {returnType : Ty}

theorem simple {pass : Pass Stmt} (h : Simple returnType pass) :
    IsolatesStmt ι n 1 returnType pass := by
  refine .never fun s stmt t hrun before hbefore => ?_
  rw [h s stmt t hrun] at hbefore
  exact List.not_mem_nil hbefore

/-- Where the point is in front of all statements, the stray statement is read as the first one. -/
theorem runs_stray {u t : State} {stmts : List Stmt} (hnil : u.cursor.rest = []) (hfree : u.Free)
    (hunknown : u.scopes.nearest? ι.name.value = none)
    (h : Pass.statements (Pass.statement returnType) (u.feed ι.back) = .ok stmts t) :
    ∃ stray t', Pass.statements (Pass.statement returnType) (u.feed ι.new) = .ok (stray :: stmts) t' ∧
      stray.alwaysReturns = false ∧ ι.Apart false t t' := by
  have hrest : (u.feed ι.new).cursor.rest = ι.name :: (ι.tail ++ ι.back) := by
    rw [State.feed, hnil]
    rfl
  obtain ⟨stray, hreturns, hstray⟩ :=
    statement_of_stray returnType ι.name_kind ι.stray hrest hunknown
  obtain ⟨t', hmore, ht⟩ := (Insertion.apart_overlook hnil hfree).run
    (fun _ => .statements (.statement rfl returnType)) h
  refine ⟨stray, t', ?_, hreturns, ht⟩
  have hend : ¬ (u.feed ι.new).cursor.nextIs .rbrace = true := by
    rw [Cursor.nextIs, peekKind?_zero, hrest, beq_iff_eq, headKind, List.head?_cons, Option.map_some,
      ι.name_kind]
    decide
  rw [statements_eq, if_neg hend]
  exact bind_eq_ok.2 ⟨stray, _, hstray, bind_eq_ok.2 ⟨stmts, t', hmore, rfl⟩⟩

theorem orHere (h : Isolates ι n 1 false []
      (fun stmts before => before ∈ Stmt.gapsAll returnType stmts ∧ before ≠ [])
      (fun stmts stmts' => Stmt.anyAlwaysReturns stmts' = Stmt.anyAlwaysReturns stmts)
      (Pass.statements (Pass.statement returnType))) :
    Isolates ι n 0 false [] (fun stmts before => before ∈ Stmt.gapsAll returnType stmts)
      (fun stmts stmts' => Stmt.anyAlwaysReturns stmts' = Stmt.anyAlwaysReturns stmts)
      (Pass.statements (Pass.statement returnType)) := by
  have hwhere : ∀ s stmts t, Comes ι n []
      (fun stmts before => before ∈ Stmt.gapsAll returnType stmts)
      (Pass.statements (Pass.statement returnType)) s stmts t →
      s.cursor.rest = ι.back ∧ s.scopes.nearest? ι.name.value = none ∨ Comes ι n []
        (fun stmts before => before ∈ Stmt.gapsAll returnType stmts ∧ before ≠ [])
        (Pass.statements (Pass.statement returnType)) s stmts t := by
    intro s stmts t hcomes
    obtain ⟨s₀, before, hsoFar, hbefore, hreached⟩ := hcomes.reached
    by_cases hnil : before = []
    · obtain ⟨g, hg, hback, hunknown⟩ := hreached
      subst hnil
      obtain rfl := plays_nil.1 hsoFar
      obtain rfl := plays_nil.1 hg
      exact .inl ⟨hback, hunknown⟩
    · exact .inr { hcomes with reached := ⟨s₀, before, hsoFar, ⟨hbefore, hnil⟩, hreached⟩ }
  refine ⟨?_, ?_, ?_⟩
  · intro s stmts t hcomes
    rcases hwhere s stmts t hcomes with ⟨hback, _⟩ | hcomes
    · exact Nat.le_of_eq (congrArg List.length hback).symm
    · exact Nat.le_of_succ_le (h.place s stmts t hcomes)
  · intro s stmts t hcomes
    rcases hwhere s stmts t hcomes with ⟨hback, _⟩ | hcomes
    · rw [← hback]
      exact calm_of_statements hcomes.run
    · exact h.calm s stmts t hcomes
  · intro u stmts t hu hcomes
    rcases hwhere _ stmts t hcomes with ⟨hback, hunknown⟩ | hcomes
    · have hnil : u.cursor.rest = [] := List.append_left_eq_self.1 hback
      obtain ⟨stray, t', hrun, hreturns, ht⟩ := runs_stray hnil hcomes.free hunknown hcomes.run
      refine ⟨stray :: stmts, t', hrun, ht, ?_⟩
      simp only [Stmt.anyAlwaysReturns, hreturns, Bool.false_or]
    · exact h.runs u stmts t hu hcomes

section Nested

variable (hstmt : IsolatesStmt ι n 1 returnType (Pass.statement returnType))

include hstmt

theorem conditional : IsolatesStmt ι (n + 1) 2 returnType
    (Pass.conditional (Pass.statement returnType)) := by
  rw [conditional_eq]
  refine .first (fun _ _ hname => .ifHead hname) follows_ifHead fun (keyword, guard, elseLabel) =>
    .split true 1 hstmt (fun _ _ hname => .statement _ hname) (fun _ => rfl)
      (fun h => absurd h.symm Bool.false_ne_true) (follows_statement returnType)
      (fun _ _ _ hrun => Nat.add_le_add_left (later_of_statement hrun).1.ahead_le _)
      (fun body m hm _ => ?_) fun body body' hbody => ?_
  · refine .reach (fun _ _ _ => .blind .freshLabel) follows_freshLabel fun endLabel =>
      .reach (fun _ _ _ => .blind (.emit _)) (follows_emit _) fun _ =>
        .reach (fun _ _ _ => .blind (.emit _)) (follows_emit _) fun _ =>
          .reach (fun _ _ hname => .accept fun h => (hname h).ne (by decide)) (follows_accept _)
            fun found => ?_
    cases found with
    | none =>
        refine .reach (fun _ _ _ => .blind (.emit _)) (follows_emit _) fun _ =>
          .pure fun before hbefore => ?_
        simp only [Stmt.gaps, List.mem_map] at hbefore
        obtain ⟨⟨inner, hinner, rfl⟩, hnot⟩ := hbefore
        exact hnot inner hinner rfl
    | some elseKeyword =>
        refine .within (hstmt.mono hm (Nat.le_refl _)) (fun alternative s stmt t hrun before hbefore => ?_)
          fun alternative alternative' halternative => .emit fun _ => .pure ?_
        · obtain ⟨_, _, _, hpure⟩ := bind_eq_ok.1 hrun
          obtain ⟨rfl, _⟩ := pure_eq_ok.1 hpure
          simp only [Stmt.gaps, List.mem_append, List.mem_map] at hbefore
          obtain ⟨⟨inner, hinner, rfl⟩ | ⟨inner, hinner, rfl⟩, hnot⟩ := hbefore
          · exact absurd rfl (hnot inner hinner)
          · exact ⟨inner, hinner, by simp⟩
        · simp only [Stmt.Like, Stmt.alwaysReturns] at halternative ⊢
          rw [halternative]
  · refine .sim (fun _ => .freshLabel) fun endLabel => .emit fun _ => .emit fun _ =>
      .accept fun found => ?_
    cases found with
    | none => exact .emit fun _ => .pure (by simp only [Stmt.Like, Stmt.alwaysReturns])
    | some elseKeyword =>
        refine .sim (fun _ => .statement rfl returnType) fun alternative => .emit fun _ => .pure ?_
        simp only [Stmt.Like, Stmt.alwaysReturns] at hbody ⊢
        rw [hbody]

theorem whileLoop : IsolatesStmt ι (n + 1) 2 returnType
    (Pass.whileLoop (Pass.statement returnType)) := by
  rw [whileLoop_eq]
  refine .first (fun _ _ hname => .whileHead hname) follows_whileHead
    fun (keyword, guard, loopLabel, endLabel) => .within hstmt
      (fun body s stmt t hrun before hbefore => ?_) fun body body' _ => .emit fun _ =>
        .emit fun _ => .pure (by simp only [Stmt.Like, Stmt.alwaysReturns])
  obtain ⟨_, _, _, hrun⟩ := bind_eq_ok.1 hrun
  obtain ⟨_, _, _, hpure⟩ := bind_eq_ok.1 hrun
  obtain ⟨rfl, _⟩ := pure_eq_ok.1 hpure
  simp only [Stmt.gaps, List.mem_map] at hbefore
  obtain ⟨inner, hinner, rfl⟩ := hbefore
  exact ⟨inner, hinner, rfl⟩

theorem doLoop : IsolatesStmt ι (n + 1) 2 returnType (Pass.doLoop (Pass.statement returnType)) := by
  rw [doLoop_eq]
  refine .first (fun _ _ _ => .doHead) follows_doHead fun (keyword, loopLabel) => .within hstmt
    (fun body s stmt t hrun before hbefore => ?_) fun body body' hbody => ?_
  · obtain ⟨_, _, _, hrun⟩ := bind_eq_ok.1 hrun
    obtain ⟨_, _, _, hpure⟩ := bind_eq_ok.1 hrun
    obtain ⟨rfl, _⟩ := pure_eq_ok.1 hpure
    simp only [Stmt.gaps, List.mem_map] at hbefore
    obtain ⟨inner, hinner, rfl⟩ := hbefore
    exact ⟨inner, hinner, rfl⟩
  · have hguard : ∀ earlier, Respects (.lines id) { diagnostics := earlier } ⟨true, true⟩ ⟨true, true⟩
        (Guard.rename (.lines id)) (Pass.guarded loopLabel .onTrue) := by
      intro earlier
      have hsim : Sim (.lines id) { diagnostics := earlier } ⟨true, true⟩ ⟨true, true⟩
          (Guard.rename (.lines id)) (Pass.guarded loopLabel .onTrue)
          (Pass.guarded (loopLabel.rename (.lines id)) .onTrue) :=
        .guarded _ _
      rwa [Label.rename_lines] at hsim
    refine .sim (fun _ => .recover rfl _ _) fun _ => .sim hguard fun _ => .pure ?_
    simpa only [Stmt.Like, Stmt.alwaysReturns] using hbody

theorem forLoop : IsolatesStmt ι (n + 1) 2 returnType
    (Pass.forLoop (Pass.statement returnType)) := by
  rw [forLoop_eq]
  refine .first (fun _ _ hname => .forHead hname) follows_forHead
    fun (keyword, header, loopLabel, endLabel) => .within hstmt
      (fun body s stmt t hrun before hbefore => ?_) fun body body' _ => .emit fun _ =>
        .emit fun _ => .emit fun _ => .pure (by simp only [Stmt.Like, Stmt.alwaysReturns])
  obtain ⟨_, _, _, hrun⟩ := bind_eq_ok.1 hrun
  obtain ⟨_, _, _, hrun⟩ := bind_eq_ok.1 hrun
  obtain ⟨_, _, _, hpure⟩ := bind_eq_ok.1 hrun
  obtain ⟨rfl, _⟩ := pure_eq_ok.1 hpure
  simp only [Stmt.gaps, List.mem_map] at hbefore
  obtain ⟨inner, hinner, rfl⟩ := hbefore
  exact ⟨inner, hinner, rfl⟩

/-- What comes first in a list of statements is a point, a statement with points in it, and again a
list of statements. -/
theorem statements : Isolates ι n 0 false []
    (fun stmts before => before ∈ Stmt.gapsAll returnType stmts)
    (fun stmts stmts' => Stmt.anyAlwaysReturns stmts' = Stmt.anyAlwaysReturns stmts)
    (Pass.statements (Pass.statement returnType)) := by
  have hupTo : ∀ m, m ≤ n → Isolates ι m 0 false []
      (fun stmts before => before ∈ Stmt.gapsAll returnType stmts)
      (fun stmts stmts' => Stmt.anyAlwaysReturns stmts' = Stmt.anyAlwaysReturns stmts)
      (Pass.statements (Pass.statement returnType)) := by
    intro m
    induction m with
    | zero => exact fun _ => .zero
    | succ m ih =>
        intro hm
        refine orHere (.decided (Cursor.nextIs · .rbrace) (fun atEnd => if atEnd = true then
            Pure.pure [] else Pass.statement returnType >>= fun first =>
              Pass.statements (Pass.statement returnType) >>= fun rest => Pure.pure (first :: rest))
          (statements_eq returnType) (fun _ u hlength => ?_)
          fun atEnd => .ite (.pure fun before hbefore => ?_)
          (.split true 0 (hstmt.mono hm (Nat.le_refl _)) (fun _ _ hname => .statement _ hname)
            (fun _ => rfl) (fun h => absurd h.symm Bool.false_ne_true)
            (follows_statement returnType) (fun s first w hrun => ?_)
            (fun first k _ hk => ?_) fun first first' hfirst => ?_))
        · have hne := List.length_pos_iff.1 hlength
          rw [Splice.nextIs_feed hne, Splice.nextIs_feed hne]
        · simp only [Stmt.gapsAll, List.mem_singleton] at hbefore
          exact hbefore.2 hbefore.1
        · have hlt := (later_of_statement hrun).2
          omega
        · have hmore := (ih (Nat.le_of_succ_le hm)).mono (Nat.le_of_lt_succ (hk trivial))
            (Nat.le_refl 0)
          refine .within hmore (fun rest s stmts t hrun before hbefore => ?_)
            fun rest rest' hrest => .pure ?_
          · obtain ⟨rfl, _⟩ := pure_eq_ok.1 hrun
            simp only [Stmt.gapsAll, List.mem_cons, List.mem_append, List.mem_map] at hbefore
            obtain ⟨⟨rfl | hinner | ⟨inner, hinner, rfl⟩, hne⟩, hnot⟩ := hbefore
            · exact absurd rfl hne
            · exact absurd rfl (hnot before hinner)
            · exact ⟨inner, hinner, rfl⟩
          · simp only [Stmt.anyAlwaysReturns, hrest]
        · refine .sim (fun _ => .statements (.statement rfl returnType)) fun rest =>
            .pureForget ?_
          simp only [Stmt.Like] at hfirst
          simp only [Stmt.anyAlwaysReturns, hfirst]
  exact hupTo n (Nat.le_refl n)

theorem block : IsolatesStmt ι (n + 1) 1 returnType (do
      let lbrace ← Pass.expect .lbrace
      let body ← Pass.statements (Pass.statement returnType)
      return .block lbrace body (← Pass.expect .rbrace)) := by
  refine .first (fun _ _ _ => .expect _) (follows_expect _) fun lbrace => .within (statements hstmt)
    (fun body s stmt t hrun before hbefore => ?_) fun body body' hbody =>
      .sim (fun _ => .expect _) fun rbrace => .pure ?_
  · obtain ⟨_, _, _, hpure⟩ := bind_eq_ok.1 hrun
    obtain ⟨rfl, _⟩ := pure_eq_ok.1 hpure
    simp only [Stmt.gaps, List.mem_map] at hbefore
    obtain ⟨inner, hinner, rfl⟩ := hbefore
    exact ⟨inner, hinner, rfl⟩
  · simpa only [Stmt.Like, Stmt.alwaysReturns] using hbody

theorem statementOf : IsolatesStmt ι (n + 1) 1 returnType
    (Pass.statementOf returnType (Pass.statement returnType)) := by
  refine .current fun token => ?_
  cases token.kind with
  | kwIf => exact (conditional hstmt).mono (Nat.le_refl _) (by decide)
  | kwWhile => exact (whileLoop hstmt).mono (Nat.le_refl _) (by decide)
  | kwDo => exact (doLoop hstmt).mono (Nat.le_refl _) (by decide)
  | kwFor => exact (forLoop hstmt).mono (Nat.le_refl _) (by decide)
  | lbrace => exact block hstmt
  | ident => exact .simple (.nameStatement _)
  | kwScanf => exact .simple .scan
  | kwPrintf => exact .simple .print
  | kwReturn => exact .simple (.ret returnType)
  | semicolon => exact .simple (.bind fun _ => .pure (by simp [Stmt.gaps]))
  | _ => exact .unexpected _

end Nested

/-- A statement has fewer tokens ahead of the statements in it than ahead of itself. -/
theorem statement (returnType : Ty) : IsolatesStmt ι n 1 returnType (Pass.statement returnType) := by
  induction n with
  | zero => exact .zero
  | succ n ih =>
      rw [statement_fix]
      exact statementOf ih

section Program

theorem varDecls {β : Type} {margin : Nat} {moved : Bool} {soFar : List Action}
    {G : β → List Action → Prop} {like : β → β → Prop} {next : List VarDecl → Pass β}
    (hnext : ∀ decls, Isolates ι n margin moved (soFar ++ decls.flatMap (VarDecl.log .local)) G like
      (next decls))
    (hplain : ∀ decls s b t, next decls s = .ok b t → ∀ kind, headKind s.cursor.rest = some kind →
      kind.isTypeName = false) :
    Isolates ι n margin moved soFar G like (Pass.varDecls .local >>= next) := by
  have hlater : ∀ s decls w, Pass.varDecls .local s = .ok decls w →
      s.Later w ∧ (Never decls → w.ahead < s.ahead) :=
    fun s decls w hrun => later_of_misses (fun _ => .varDecls .local) hrun
  refine .seq nowhere hlater (fun u decls w b t hu hcalm hrun hb hplace => ?_)
    (follows_varDecls .local) (fun s decls w hrun => ?_)
    (fun decls _ hm _ => ((hnext decls).mono hm (Nat.le_refl _)).imp fun _ _ => And.left)
    fun _ _ => False.elim
  · have hnamed : (ι.splice hcalm 0).Named := ⟨congrArg some ι.name_kind, rfl⟩
    exact Misses.runs_varDecls hnamed hu hrun
      (allows_of_place hcalm (fun h => absurd h.symm Bool.false_ne_true) hplace) (hplain decls w b t hb)
  · exact Nat.add_le_add_left (hlater s decls w hrun).1.ahead_le _

theorem body (returnType : Ty) : Isolates ι n 0 false []
    (fun body before => before ∈ body.gaps returnType) (fun _ _ => True) (Pass.body returnType) := by
  refine .reach (fun _ _ hname => .constDecls _ hname) (follows_constDecls .local) fun consts =>
    varDecls (fun vars => .within (statements (statement returnType))
      (fun stmts s body t hrun before hbefore => ?_) fun stmts stmts' hlike => ?_)
      fun vars s body t hrun => ?_
  · have hbody : body = ⟨consts, vars, stmts⟩ := by
      split at hrun
      · obtain ⟨_, _, _, hrun⟩ := bind_eq_ok.1 hrun
        obtain ⟨_, _, _, hpure⟩ := bind_eq_ok.1 hrun
        exact (pure_eq_ok.1 hpure).1
      · exact (pure_eq_ok.1 hrun).1
    subst hbody
    simp only [Body.gaps, List.mem_map] at hbefore
    obtain ⟨inner, hinner, rfl⟩ := hbefore
    exact ⟨inner, hinner, by simp⟩
  · refine .ite (by rw [hlike]) ?_ (.pure trivial)
    exact .sim (fun _ => .current) fun _ => .sim (fun _ => .report rfl _) fun _ => .pure trivial
  · obtain ⟨stmts, w, hstmts, _⟩ := bind_eq_ok.1 hrun
    exact not_isTypeName_of_statements hstmts

theorem function {head : Pass FunctionHead} (hhead : Overlooks 0 false Always head)
    (hlog : Follows head FunctionHead.log) : Isolates ι n 2 false []
      (fun f before => before ∈ f.gaps) (fun _ _ => True) (Pass.function head) := by
  refine (reachFirst false hhead (fun _ => Nat.one_pos) hlog fun head =>
    .reach (fun _ _ _ => .blind (.announce head)) (follows_announce head) fun _ =>
      (first (fun _ _ _ => .expect _) (follows_expect _) fun lbrace =>
        .within (body head.ty) (fun body s f t hrun before hbefore => ?_) fun body body' _ => ?_).mono
          (Nat.le_succ n) (Nat.le_refl _)).mono (Nat.le_succ n) (Nat.le_refl _)
  · obtain ⟨w, _, hrun⟩ := joined_eq_ok.1 hrun
    obtain ⟨_, _, _, hrun⟩ := bind_eq_ok.1 hrun
    obtain ⟨rbrace, _, _, hrun⟩ := bind_eq_ok.1 hrun
    obtain ⟨_, _, _, hpure⟩ := bind_eq_ok.1 hrun
    obtain ⟨rfl, _⟩ := pure_eq_ok.1 hpure
    simp only [Function.gaps, List.mem_map] at hbefore
    obtain ⟨inner, hinner, rfl⟩ := hbefore
    exact ⟨inner, hinner, by simp⟩
  · exact .joined fun _ => .emit fun _ => .sim (fun _ => .expect _) fun _ =>
      .sim (fun _ => .keepTable (fun _ => rfl) _) fun _ => .pureForget trivial

theorem topLevel? : Isolates ι n 2 false [] (fun found before => before ∈ found.elim [] TopLevel.gaps)
    (Option.Rel fun _ _ => True) Pass.topLevel? := by
  have hfunction : ∀ head, Overlooks 0 false Always head → Follows head FunctionHead.log →
      Isolates ι n 2 false [] (fun found before => before ∈ found.elim [] TopLevel.gaps)
        (Option.Rel fun _ _ => True)
        (Pass.function head >>= fun f => Pure.pure (some (.function f))) := by
    intro head hhead hlog
    refine .within (function hhead hlog) (fun f s found t hrun before hbefore => ?_)
      fun f f' _ => .pure (.some trivial)
    obtain ⟨rfl, _⟩ := pure_eq_ok.1 hrun
    exact ⟨before, hbefore, rfl⟩
  have hother : ∀ {α : Type} (step : Pass α) (item : α → TopLevel), (∀ a, (item a).gaps = []) →
      Isolates ι n 2 false [] (fun found before => before ∈ found.elim [] TopLevel.gaps)
        (Option.Rel fun _ _ => True) (step >>= fun a => Pure.pure (some (item a))) := by
    intro α step item hitem
    refine .never fun s found t hrun before hbefore => ?_
    obtain ⟨a, _, _, hpure⟩ := bind_eq_ok.1 hrun
    obtain ⟨rfl, _⟩ := pure_eq_ok.1 hpure
    rw [Option.elim_some, hitem] at hbefore
    exact List.not_mem_nil hbefore
  refine .decided partAt Part.pass topLevel?_eq (fun hcalm u hlength => ?_) fun part => ?_
  · obtain ⟨first, second, rest, hrest⟩ := Splice.exists_two hlength
    exact congrArg Part.pass (Misses.partAt_feed (σ := ι.splice hcalm 0) hrest)
  · cases part with
    | done => exact .pure fun _ => List.not_mem_nil
    | consts => exact hother _ .consts fun _ => rfl
    | vars => exact hother _ .vars fun _ => rfl
    | value => exact hfunction _ (fun _ _ _ => .valueHead) follows_valueHead
    | main => exact hfunction _ (fun _ _ _ => .mainHead) follows_mainHead
    | void => exact hfunction _ (fun _ _ _ => .voidHead) follows_voidHead
    | other => exact .unexpected _

/-- Behind a part there are tokens enough in front of the point to tell what the next part is. -/
theorem overlooks_topLevel? : Overlooks 1 false IfSome Pass.topLevel? := by
  intro σ hslack _
  have : σ.Tame := ⟨fun h => absurd (hslack.symm.trans h) Nat.one_ne_zero⟩
  exact .topLevel?

theorem parts : Isolates ι n 2 false [] (fun items before => before ∈ gapsOf items)
    (fun _ _ => True) Pass.parts := by
  induction n with
  | zero => exact .zero
  | succ n ih =>
      have hfix : Pass.parts = manyOf Pass.topLevel? Pass.parts :=
        many_eq fun _ => .topLevel?
      rw [hfix]
      refine .split false 2 topLevel? overlooks_topLevel?
        (fun h => absurd h Bool.false_ne_true) (fun _ => Nat.one_lt_two) follows_topLevel?
        (fun s found w hrun => ?_) (fun found m _ hm => ?_) fun found found' hrel => ?_
      · have hlater := later_of_overlooks overlooks_topLevel? (fun h => absurd h Bool.false_ne_true)
          hrun
        exact Nat.add_le_add_left hlater.1.ahead_le _
      · cases found with
        | none => exact .pure fun before hbefore => List.not_mem_nil hbefore.1
        | some item =>
            refine .within (ih.mono (Nat.le_of_lt_succ (hm rfl)) (Nat.le_refl _))
              (fun items s all t hrun before hbefore => ?_) fun items items' _ => .pure trivial
            obtain ⟨rfl, _⟩ := pure_eq_ok.1 hrun
            simp only [gapsOf, List.mem_append, List.mem_map] at hbefore
            obtain ⟨hinner | ⟨inner, hinner, rfl⟩, hnot⟩ := hbefore
            · exact absurd rfl (hnot before hinner)
            · exact ⟨inner, hinner, rfl⟩
      · cases hrel with
        | none => exact .pure trivial
        | some _ => exact .sim (fun _ => .many (.topLevel? rfl)) fun items => .pure trivial

end Program

end Isolates

end Pass

end OnePass
