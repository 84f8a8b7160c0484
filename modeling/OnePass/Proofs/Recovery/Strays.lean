import OnePass.Proofs.Grammar.Completeness.Expr
import OnePass.Proofs.Recovery.Gaps

/-!
A statement that begins with an unknown name. It is passed over up to its semicolon, or up to the
end of the group in parentheses behind the name, whatever the tokens in between are. Nothing but one
diagnostic is left of it.
-/

namespace OnePass

/-- Tokens whose parentheses are closed, semicolons and braces among them or not. -/
inductive Matched : List Token → Prop where
  | nil : Matched []
  | cons {token : Token} {rest : List Token} (hlparen : token.kind ≠ .lparen)
      (hrparen : token.kind ≠ .rparen) (hrest : Matched rest) : Matched (token :: rest)
  | group {lparen rparen : Token} {inner rest : List Token} (hlparen : lparen.kind = .lparen)
      (hrparen : rparen.kind = .rparen) (hinner : Matched inner) (hrest : Matched rest) :
      Matched (lparen :: (inner ++ rparen :: rest))

/-- What may stand behind an unknown name: anything up to the first semicolon that is no group in
parentheses, or such a group and a semicolon. -/
inductive StrayTail : List Token → Prop where
  | plain {junk : List Token} {semicolon : Token} (hstart : headKind junk ≠ some .lparen)
      (hjunk : ∀ token ∈ junk, token.kind ≠ .semicolon) (hsemicolon : semicolon.kind = .semicolon) :
      StrayTail (junk ++ [semicolon])
  | call {lparen rparen semicolon : Token} {inner : List Token} (hlparen : lparen.kind = .lparen)
      (hinner : Matched inner) (hrparen : rparen.kind = .rparen)
      (hsemicolon : semicolon.kind = .semicolon) :
      StrayTail (lparen :: (inner ++ [rparen, semicolon]))

/-- The state with some tokens more behind it, and others ahead. -/
def State.past (s : State) (passed rest : List Token) : State :=
  { s with cursor := { consumed := passed.reverse ++ s.cursor.consumed, rest } }

/-- The state with a statement behind it of which only an unknown name has been recorded. -/
def State.overlook (s : State) (name : Token) (tail back : List Token) : State :=
  { s.past (name :: tail) back with
    diagnostics := s.diagnostics.push ⟨name.line, .undefined⟩ }

namespace State

variable (s : State)

theorem past_take (token : Token) (passed rest more : List Token) :
    (s.take token more).past passed rest = s.past (token :: passed) rest := by
  simp [past, take]

theorem take_past (token : Token) (passed rest more : List Token) :
    (s.past passed more).take token rest = s.past (passed ++ [token]) rest := by
  simp [past, take]

theorem past_past (passed front rest more : List Token) :
    (s.past passed more).past front rest = s.past (passed ++ front) rest := by
  simp [past]

end State

namespace Pass

variable {s : State}

/-- Tokens up to a semicolon are skipped, if there is none among them. -/
theorem skipPast_append {junk back : List Token} {semicolon : Token}
    (hjunk : ∀ token ∈ junk, token.kind ≠ .semicolon) (hsemicolon : semicolon.kind = .semicolon)
    (hrest : s.cursor.rest = junk ++ semicolon :: back) :
    onCursor (Cursor.skipPast .semicolon) s = .ok () (s.past (junk ++ [semicolon]) back) := by
  have hnone : .semicolon ∉ junk.map Token.kind := by
    intro hmem
    obtain ⟨token, htoken, hkind⟩ := List.mem_map.1 hmem
    exact hjunk token htoken hkind
  simp only [onCursor, Cursor.skipPast, hrest,
    Cursor.skipPastFrom_append _ _ _ _ hnone hsemicolon, State.past, List.reverse_append,
    List.reverse_singleton, List.nil_append, List.cons_append]

theorem depthAfter_of_ne {depth : Nat} {kind : TokenKind} (hlparen : kind ≠ .lparen)
    (hrparen : kind ≠ .rparen) : depthAfter depth kind = some depth := by
  unfold depthAfter
  split
  · exact absurd rfl hlparen
  · exact absurd rfl hrparen
  · exact absurd rfl hrparen
  · rfl

/-- Tokens whose parentheses are closed leave the depth as it is. -/
theorem skipClosing_append {inner : List Token} (h : Matched inner) (depth : Nat)
    (back : List Token) (hrest : s.cursor.rest = inner ++ back) :
    skipClosing depth s = skipClosing depth (s.past inner back) := by
  induction h generalizing s depth back with
  | nil =>
      rw [List.nil_append] at hrest
      rw [← hrest]
      rfl
  | @cons token rest hlparen hrparen _ ih =>
      rw [skipClosing_cons hrest, depthAfter_of_ne hlparen hrparen, ← s.past_take]
      exact ih depth back rfl
  | @group lparen rparen inner rest hlparen hrparen _ _ ihinner ihrest =>
      rw [List.cons_append, List.append_assoc, List.cons_append] at hrest
      rw [skipClosing_cons hrest, hlparen, ← s.past_take, ← State.past_past]
      refine (ihinner (depth + 1) _ rfl).trans ?_
      rw [skipClosing_cons rfl, hrparen, ← State.past_take]
      exact ihrest depth back rfl

/-- A group in parentheses is skipped. -/
theorem skipParens_group {inner back : List Token} {lparen rparen : Token}
    (hlparen : lparen.kind = .lparen) (hinner : Matched inner) (hrparen : rparen.kind = .rparen)
    (hrest : s.cursor.rest = lparen :: (inner ++ rparen :: back)) :
    onCursor Cursor.skipParens s = .ok () (s.past (lparen :: (inner ++ [rparen])) back) := by
  rw [skipParens_eq, bind_of_ok (expect_eq_ok.2 ⟨hlparen, advance_cons hrest⟩),
    skipClosing_append hinner 0 _ rfl, skipClosing_cons rfl, hrparen, State.past_take,
    State.take_past]
  rfl

section Names

variable {name : Token} {back : List Token}

theorem nameStatement_of_plain {junk : List Token} {semicolon : Token}
    (hstart : headKind junk ≠ some .lparen) (hjunk : ∀ token ∈ junk, token.kind ≠ .semicolon)
    (hsemicolon : semicolon.kind = .semicolon)
    (hrest : s.cursor.rest = name :: (junk ++ semicolon :: back))
    (hunknown : s.scopes.nearest? name.value = none) :
    nameStatement name.value s = .ok .skipped (s.overlook name (junk ++ [semicolon]) back) := by
  have hsecond : s.cursor.peekKind? 1 ≠ some .lparen := by
    rw [peekKind?_eq, hrest]
    cases junk with
    | nil => simp [headKind, hsemicolon]
    | cons token junk => exact hstart
  have hpeek : peekKind 1 s = .ok (s.cursor.peekKind? 1) s := rfl
  have hnearest : nearest? name.value s = .ok none s := by
    rw [← hunknown]
    rfl
  unfold nameStatement
  rw [bind_of_ok hpeek, if_neg hsecond, bind_of_ok hnearest, if_pos Option.isNone_none]
  refine bind_eq_ok.2 ⟨name, _, advance_cons hrest, bind_eq_ok.2 ⟨(), _, rfl, bind_eq_ok.2
    ⟨(), _, skipPast_append hjunk hsemicolon rfl, pure_eq_ok.2 ⟨rfl, ?_⟩⟩⟩⟩
  simp [State.overlook, State.past, State.take]

theorem nameStatement_of_call {inner : List Token} {lparen rparen semicolon : Token}
    (hlparen : lparen.kind = .lparen) (hinner : Matched inner) (hrparen : rparen.kind = .rparen)
    (hsemicolon : semicolon.kind = .semicolon)
    (hrest : s.cursor.rest = name :: lparen :: (inner ++ rparen :: semicolon :: back))
    (hunknown : s.scopes.nearest? name.value = none) :
    nameStatement name.value s = .ok (.unknownCall name (some semicolon))
      (s.overlook name (lparen :: (inner ++ [rparen, semicolon])) back) := by
  have hpeek : peekKind 1 s = .ok (some .lparen) s := by
    have hsecond : s.cursor.peekKind? 1 = some .lparen := by
      rw [peekKind?_eq, hrest, ← hlparen]
      rfl
    rw [← hsecond]
    rfl
  have hfunction : function? name.value s = .ok none s := by
    have hglobal : s.scopes.globals[name.value]? = none :=
      Scopes.nearest?_eq_none.1 hunknown .global
    unfold function? Scopes.function?
    rw [hglobal]
    rfl
  have hskip : skipUnknownCall s =
      .ok name (s.overlook name (lparen :: (inner ++ [rparen])) (semicolon :: back)) := by
    unfold skipUnknownCall
    refine bind_eq_ok.2 ⟨name, _, advance_cons hrest, bind_eq_ok.2 ⟨(), _, rfl, bind_eq_ok.2
      ⟨(), _, skipParens_group hlparen hinner hrparen rfl, pure_eq_ok.2 ⟨rfl, ?_⟩⟩⟩⟩
    simp [State.overlook, State.past, State.take]
  have hrecover : ∀ t : State, t.cursor.rest = semicolon :: back →
      recoverSemicolon t = .ok (some semicolon) (t.take semicolon back) := by
    intro t ht
    rw [recoverSemicolon, recover_eq,
      bind_of_ok (accept_eq_some.2 ⟨hsemicolon, advance_cons ht⟩)]
    rfl
  unfold nameStatement
  rw [bind_of_ok hpeek, if_pos rfl]
  unfold callStatement
  rw [bind_of_ok hfunction]
  refine bind_eq_ok.2 ⟨name, _, hskip, bind_eq_ok.2 ⟨some semicolon, _, hrecover _ rfl,
    pure_eq_ok.2 ⟨rfl, ?_⟩⟩⟩
  simp [State.overlook, State.past, State.take]

end Names

/-- Of a statement that begins with an unknown name there is one diagnostic left. -/
theorem statement_of_stray (returnType : Ty) {name : Token} {tail back : List Token}
    (hname : name.kind = .ident) (htail : StrayTail tail)
    (hrest : s.cursor.rest = name :: (tail ++ back))
    (hunknown : s.scopes.nearest? name.value = none) :
    ∃ stmt, stmt.alwaysReturns = false ∧
      statement returnType s = .ok stmt (s.overlook name tail back) := by
  have hstart : statement returnType s = nameStatement name.value s := by
    rw [statement_fix]
    unfold statementOf
    rw [bind_of_ok (current_cons hrest)]
    simp only [hname]
  rw [hstart]
  cases htail with
  | plain hjunkStart hjunk hsemicolon =>
      rw [List.append_assoc] at hrest
      exact ⟨.skipped, by simp [Stmt.alwaysReturns],
        nameStatement_of_plain hjunkStart hjunk hsemicolon hrest hunknown⟩
  | call hlparen hinner hrparen hsemicolon =>
      rw [List.cons_append, List.append_assoc] at hrest
      exact ⟨.unknownCall name _, by simp [Stmt.alwaysReturns],
        nameStatement_of_call hlparen hinner hrparen hsemicolon hrest hunknown⟩

end Pass

end OnePass
