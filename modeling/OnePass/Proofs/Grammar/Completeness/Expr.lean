import OnePass.Proofs.Grammar.Reads
import OnePass.Proofs.Steps

/-!
Every expression and condition of the grammar is read, whatever its names stand for. A phrase is
read in front of anything that does not begin with a kind by which it could go on. The arguments
of an unknown function are skipped, so they have to be balanced.
-/

namespace OnePass

namespace Cursor

open Pass (depthAfter skipClosingFrom_step)

theorem depthAfter_of_not_mem {kind : TokenKind} (h : kind ∉ [.lparen, .rparen, .semicolon])
    (depth : Nat) : depthAfter depth kind = some depth := by
  unfold depthAfter
  split <;> simp_all

/-- Balanced tokens are skipped at every depth. -/
theorem skipClosingFrom_append {ks : List TokenKind} (h : Grammar.Balanced ks) (depth : Nat)
    (consumed front back : List Token) (hfront : front.map Token.kind = ks) :
    skipClosingFrom depth consumed (front ++ back) =
      skipClosingFrom depth (front.reverse ++ consumed) back := by
  induction h generalizing depth consumed front back with
  | nil =>
      rw [List.map_eq_nil_iff] at hfront
      rw [hfront]
      rfl
  | cons hkind _ ih =>
      obtain ⟨token, tail, rfl, rfl, htail⟩ := List.map_eq_cons_iff.1 hfront
      rw [List.cons_append, skipClosingFrom_step, depthAfter_of_not_mem hkind]
      simp [ih _ _ _ _ htail]
  | paren _ _ hinner hks =>
      obtain ⟨lparen, tail, rfl, hlparen, htail⟩ := List.map_eq_cons_iff.1 hfront
      obtain ⟨inner, tail, rfl, hinnerKinds, htail⟩ := List.map_eq_append_iff.1 htail
      obtain ⟨rparen, tail, rfl, hrparen, htail⟩ := List.map_eq_cons_iff.1 htail
      rw [List.cons_append, skipClosingFrom_step, hlparen]
      simp [depthAfter, hinner _ _ _ _ hinnerKinds, skipClosingFrom_step, hrparen,
        hks _ _ _ _ htail]

/-- A balanced group in parentheses is skipped whole. -/
theorem skipParens_append {ks : List TokenKind} (h : Grammar.Balanced ks) (consumed front back : List Token)
    (hfront : front.map Token.kind = .lparen :: (ks ++ [.rparen])) :
    ∃ passed, skipParens { consumed, rest := front ++ back } =
      .ok () { consumed := passed, rest := back } := by
  obtain ⟨lparen, tail, rfl, hlparen, htail⟩ := List.map_eq_cons_iff.1 hfront
  obtain ⟨inner, tail, rfl, hinner, htail⟩ := List.map_eq_append_iff.1 htail
  obtain ⟨rparen, tail, rfl, hrparen, htail⟩ := List.map_eq_cons_iff.1 htail
  rw [List.map_eq_nil_iff] at htail
  subst htail
  have hopen : expect .lparen { consumed, rest := lparen :: (inner ++ [rparen]) ++ back } =
      .ok lparen { consumed := lparen :: consumed, rest := inner ++ [rparen] ++ back } := by
    rw [expect_eq_ok_iff]
    exact ⟨hlparen, rfl⟩
  have hskip : skipClosingFrom 0 (lparen :: consumed) (inner ++ [rparen] ++ back) =
      .ok () { consumed := rparen :: (inner.reverse ++ lparen :: consumed), rest := back } := by
    rw [List.append_assoc, skipClosingFrom_append h _ _ _ _ hinner, List.singleton_append,
      skipClosingFrom_step, hrparen]
    rfl
  refine ⟨rparen :: (inner.reverse ++ lparen :: consumed), ?_⟩
  unfold skipParens
  simp only [bind, EStateM.bind, hopen]
  exact hskip

/-- Tokens are skipped up to the first one of a kind. -/
theorem skipPastFrom_append {kind : TokenKind} (consumed front back : List Token) (token : Token)
    (hfront : kind ∉ front.map Token.kind) (htoken : token.kind = kind) :
    skipPastFrom kind consumed (front ++ token :: back) =
      .ok () { consumed := token :: (front.reverse ++ consumed), rest := back } := by
  induction front generalizing consumed with
  | nil =>
      rw [List.nil_append, skipPastFrom, if_pos htoken]
      rfl
  | cons head tail ih =>
      rw [List.map_cons, List.mem_cons, not_or] at hfront
      rw [List.cons_append, skipPastFrom, if_neg (Ne.symm hfront.1), ih _ hfront.2,
        List.reverse_cons, List.append_assoc]
      rfl

end Cursor

section Operators

theorem ArithOp.isSome_additive? :
    ∀ kind ∈ Grammar.signs, (additive? kind).isSome = true := by
  decide

theorem ArithOp.isSome_multiplicative? :
    ∀ kind ∈ Grammar.factorOps, (multiplicative? kind).isSome = true := by
  decide

theorem Relation.isSome_of_mem_relations :
    ∀ kind ∈ Grammar.relations, (ofKind? kind).isSome = true := by
  decide

end Operators

namespace Pass

open Grammar (NotNext Begins Repeated Linked notNext_cons factorFirsts factorStops itemStops
  expressionStops conditionStops)

section Checks

variable {rest : List TokenKind}

theorem reads_negate (value : Operand) : Reads (negate value) [] rest := by
  unfold negate
  split
  · apply (reads_noteOverflow _).andThen
    intro _
    exact reads_pure _
  · apply reads_freshReg.andThen
    intro dst
    apply (reads_emit _).andThen
    intro _
    exact reads_pure _

theorem reads_combine (accumulator : Option Reg) (op : ArithOp) (lhs rhs : Operand) :
    Reads (combine accumulator op lhs rhs) [] rest := by
  unfold combine
  cases accumulator with
  | none =>
      apply reads_freshReg.andThen
      intro dst
      apply (reads_emit _).andThen
      intro _
      exact reads_pure _
  | some reg =>
      apply (reads_pure _).andThen
      intro dst
      apply (reads_emit _).andThen
      intro _
      exact reads_pure _

theorem reads_checkIndex (index : Expr) : Reads (checkIndex index) [] rest := by
  unfold checkIndex
  split
  · apply reads_lastLine.andThen
    intro line
    exact reads_report line rfl
  · exact reads_pure ()

theorem reads_checkCondition (operand : Expr) : Reads (checkCondition operand) [] rest := by
  unfold checkCondition
  split
  · apply reads_lastLine.andThen
    intro line
    exact reads_report line rfl
  · exact reads_pure ()

theorem reads_checkArguments (name : Token) (callee : Symbol) (args : Args) :
    Reads (checkArguments name callee args) [] rest := by
  unfold checkArguments
  split
  · exact reads_report _ rfl
  · split
    · exact reads_report _ rfl
    · exact reads_pure ()

end Checks

/-- A chain is read to its end, if each of its operands is. -/
theorem reads_chain {α β : Type} {operator? : TokenKind → Option ArithOp} {operand : Pass β}
    {value : β → Operand} {accumulator? : α → Option Reg} {valueSoFar : α → Operand}
    {longer : α → ArithOp → Token → β → Reg → α} {phrase : List TokenKind → Prop}
    {links ks rest : List TokenKind} (hlinks : ∀ link ∈ links, (operator? link).isSome = true)
    (hrest : rest.head?.bind operator? = none)
    (hoperand : ∀ front more, phrase front → front.length < ks.length →
      Repeated (Linked links phrase) more → Reads operand front (more ++ rest))
    (h : Repeated (Linked links phrase) ks) (a : α) :
    Reads (extend (chainLink operator? operand value accumulator? valueSoFar longer) a)
      ks rest := by
  apply reads_extend
  apply rounds_of_linked ?_ ?_ h (Nat.le_refl _)
  · intro chain
    exact reads_declineAs hrest (yields_pure rfl)
  · intro chain link front more hlink hfront hmore hlength
    apply reads_acceptAs (hlinks link hlink)
    intro op token
    apply (hoperand front more hfront hlength hmore).before
    intro rhs
    apply (reads_combine _ op _ _).andThen
    intro dst
    exact yields_pure ⟨_, rfl⟩

theorem reads_integer {ks rest : List TokenKind} (h : Grammar.Integer ks) :
    Reads integer ks rest := by
  cases h with
  | plain =>
      apply reads_declineAs rfl
      apply reads_unsigned.before
      intro digits
      apply (reads_noteOverflow _).andThen
      intro _
      exact reads_pure _
  | @signed sign hsign =>
      apply reads_acceptAs (ArithOp.isSome_additive? _ hsign)
      intro op token
      apply reads_unsigned.before
      intro digits
      apply (reads_noteOverflow _).andThen
      intro _
      exact reads_pure _

/-- The call of an unknown function is skipped as a whole. -/
theorem reads_skipUnknownCall {args rest : List TokenKind} (h : Grammar.Balanced args) :
    Reads skipUnknownCall (.ident :: .lparen :: (args ++ [.rparen])) rest := by
  apply reads_advance
  intro name
  apply (reads_report _ rfl).andThen
  intro _
  have hskip : Reads (onCursor Cursor.skipParens) (.lparen :: (args ++ [.rparen])) rest := by
    apply reads_onCursor
    intro consumed front back hfront
    obtain ⟨passed, hskip⟩ := Cursor.skipParens_append h consumed front back hfront
    exact ⟨(), passed, hskip⟩
  apply hskip.before
  intro _
  exact reads_pure name

/-- A step that reads every expression shorter than a bound, in front of what cannot extend it. -/
def ReadsExpressions (expr : Pass Expr) (bound : Nat) : Prop :=
  ∀ ks rest, Grammar.Expression ks → ks.length < bound → NotNext expressionStops rest →
    Reads expr ks rest

section Phrases

variable {expr : Pass Expr} {bound : Nat} {ks rest : List TokenKind}

theorem reads_nameFactor (hrest : NotNext factorStops rest) :
    Reads (nameFactor expr) [.ident] rest := by
  apply reads_expect
  intro name
  apply (reads_resolve name).andThen
  intro ref
  apply Reads.joined fun _ => reads_report _ rfl
  exact reads_decline (hrest.ne (by decide)) (reads_pure _)

theorem reads_integerFactor (h : Grammar.Integer ks) : Reads (factor expr) ks rest := by
  have hread : Yields (integer >>= fun literal => pure (Factor.int literal)) ks rest
      fun _ => True := by
    apply (reads_integer h).before
    intro literal
    exact reads_pure _
  obtain ⟨kind, hkind, tail, rfl⟩ := h.begins
  apply reads_current rfl
  intro token htoken
  simp only [Grammar.signs, List.mem_cons, List.not_mem_nil, or_false] at hkind
  rcases hkind with rfl | rfl | rfl
  all_goals
    simp only [htoken]
    exact hread

variable (hexpr : ReadsExpressions expr bound)

include hexpr

theorem reads_argument (h : Grammar.Expression ks) (hbound : ks.length < bound)
    (hrest : NotNext expressionStops rest) (function : String) (position : Nat) :
    Reads (argument expr function position) ks rest := by
  apply (hexpr ks rest h hbound hrest).before
  intro value
  apply (reads_emit _).andThen
  intro _
  have hcode : value.ty.signatureCode?.isNone ≠ true := by
    rw [Ne, Option.isNone_iff_eq_none, Ty.signatureCode?_eq_none_iff]
    exact value.ty_ne_void
  rw [if_neg hcode]
  exact reads_pure value

theorem reads_arguments (h : Grammar.Arguments ks) (hbound : ks.length < bound)
    (function : String) : Reads (arguments expr function) ks (.rparen :: rest) := by
  have hends : NotNext expressionStops (.rparen :: rest) := notNext_cons (by decide)
  cases h with
  | none =>
      apply reads_nextIs rfl
      apply reads_nextIsNot (by simp)
      exact reads_pure Args.nil
  | @some first more hfirst hmore =>
      rw [List.length_append] at hbound
      have hmore := hmore.repeated
      have hbegins : NotNext [.rparen, .semicolon] (first ++ more ++ .rparen :: rest) :=
        ((hfirst.begins.append _).append _).notNext (by decide)
      apply reads_nextIsNot (hbegins.ne (by decide))
      apply reads_nextIsNot (hbegins.ne (by decide))
      apply (reads_argument hexpr hfirst (by omega)
        (hmore.notNext (by decide) hends) function 0).bind
      intro value
      apply reads_extend
      apply rounds_of_linked ?_ ?_ hmore (Nat.le_refl _)
      · intro args
        exact reads_decline (by simp) (yields_pure rfl)
      · intro args link arg others hlink harg hothers hlength
        obtain rfl := List.mem_singleton.1 hlink
        apply reads_accept
        intro token
        apply (reads_argument hexpr harg (by omega)
          (hothers.notNext (by decide) hends) function _).before
        intro value
        exact yields_pure ⟨_, rfl⟩

theorem reads_call (h : Grammar.Arguments ks) (hbound : ks.length < bound) (callee : Symbol) :
    Reads (call expr callee) (.ident :: .lparen :: (ks ++ [.rparen])) rest := by
  apply reads_expect
  intro name
  apply reads_expect
  intro lparen
  apply (reads_emit _).andThen
  intro _
  apply (reads_arguments hexpr h hbound name.value).bind
  intro args
  apply (reads_checkArguments name callee args).andThen
  intro _
  apply reads_recover
  intro rparen
  apply (reads_emit _).andThen
  intro _
  exact reads_pure _

theorem reads_callFactor (h : Grammar.Arguments ks) (hbound : ks.length < bound) (name : String) :
    Reads (callFactor expr name) (.ident :: .lparen :: (ks ++ [.rparen])) rest := by
  apply (reads_function? name).andThen
  intro found
  cases found with
  | none =>
      apply (reads_skipUnknownCall h.balanced).before
      intro token
      exact reads_pure _
  | some callee =>
      apply (reads_call hexpr h hbound callee).before
      intro c
      apply reads_freshReg.andThen
      intro dst
      apply (reads_emit _).andThen
      intro _
      exact reads_pure _

theorem reads_elementFactor (h : Grammar.Expression ks) (hbound : ks.length < bound) :
    Reads (nameFactor expr) (.ident :: .lbracket :: (ks ++ [.rbracket])) rest := by
  apply reads_expect
  intro name
  apply (reads_resolve name).andThen
  intro ref
  apply Reads.joined fun _ => reads_report _ rfl
  apply reads_accept
  intro lbracket
  apply (hexpr ks _ h hbound (notNext_cons (by decide))).bind
  intro index
  apply (reads_checkIndex index).andThen
  intro _
  apply reads_freshReg.andThen
  intro dst
  apply (reads_emit _).andThen
  intro _
  apply reads_recover
  intro rbracket
  exact reads_pure _

theorem reads_factor (h : Grammar.Factor ks) (hbound : ks.length ≤ bound)
    (hrest : NotNext factorStops rest) : Reads (factor expr) ks rest := by
  cases h with
  | name =>
      apply reads_current rfl
      intro token htoken
      simp only [htoken]
      apply reads_peekKind
      rw [if_neg ?_]
      · exact reads_nameFactor hrest
      · have hparen := hrest.ne (show .lparen ∈ factorStops by decide)
        simpa [List.head?_eq_getElem?] using hparen
  | element hindex =>
      apply reads_current rfl
      intro token htoken
      simp only [htoken]
      apply reads_peekKind
      exact reads_elementFactor hexpr hindex (by simp at hbound; omega)
  | call hargs =>
      apply reads_current rfl
      intro token htoken
      simp only [htoken]
      apply reads_peekKind
      exact reads_callFactor hexpr hargs (by simp at hbound; omega) token.value
  | paren hinner =>
      apply reads_current rfl
      intro token htoken
      simp only [htoken]
      apply reads_advance
      intro lparen
      apply (hexpr _ _ hinner (by simp at hbound; omega) (notNext_cons (by decide))).bind
      intro inner
      apply reads_recover
      intro rparen
      exact reads_pure _
  | integer hliteral => exact reads_integerFactor hliteral
  | char =>
      apply reads_current rfl
      intro token htoken
      simp only [htoken]
      apply reads_advance
      intro literal
      exact reads_pure _

theorem reads_term (h : Grammar.Item ks) (hbound : ks.length ≤ bound)
    (hrest : NotNext itemStops rest) : Reads (term expr) ks rest := by
  obtain ⟨hfirst, hmore⟩ := h
  rw [List.length_append] at hbound
  have hmore := hmore.repeated
  have hends : NotNext factorStops rest := hrest.mono (by decide)
  rw [term_eq]
  apply (reads_factor hexpr hfirst (by omega) (hmore.notNext (by decide) hends)).bind
  intro first
  refine reads_chain ArithOp.isSome_multiplicative? (hrest.bind_eq_none ?_) ?_ hmore _
  · intro kind op hop
    exact List.mem_append_right _ (ArithOp.mem_factorOps_of_multiplicative? hop)
  · intro front others hfront hlength hothers
    exact reads_factor hexpr hfront (by omega) (hothers.notNext (by decide) hends)

theorem reads_plainTerm (h : Grammar.Item ks) (hbegins : Begins factorFirsts ks)
    (hbound : ks.length ≤ bound) (hrest : NotNext itemStops rest) :
    Reads (signedTerm expr) ks rest := by
  have hsign : NotNext Grammar.signs (ks ++ rest) := (hbegins.append rest).notNext (by decide)
  refine reads_declineAs (hsign.bind_eq_none fun _ _ => ArithOp.mem_signs_of_additive?) ?_
  apply (reads_term hexpr h hbound hrest).before
  intro t
  exact reads_pure _

theorem reads_signedTerm {sign : TokenKind} (hsign : sign ∈ Grammar.signs) (h : Grammar.Item ks)
    (hbound : ks.length ≤ bound) (hrest : NotNext itemStops rest) :
    Reads (signedTerm expr) (sign :: ks) rest := by
  apply reads_acceptAs (ArithOp.isSome_additive? sign hsign)
  intro op token
  apply (reads_term hexpr h hbound hrest).before
  intro body
  split
  · apply (reads_negate body.value).andThen
    intro value
    exact reads_pure _
  · exact reads_pure _

end Phrases

/-- Every expression is read, in front of what cannot extend it. -/
theorem reads_expression {ks rest : List TokenKind} (h : Grammar.Expression ks)
    (hrest : NotNext expressionStops rest) : Reads expression ks rest := by
  rw [expression_eq]
  refine reads_nest
    (P := fun ks rest => Grammar.Expression ks ∧ NotNext expressionStops rest) ?_ ⟨h, hrest⟩
  rintro expr ks rest ⟨h, hrest⟩ hagain
  have hexpr : ReadsExpressions expr ks.length := by
    intro front back hfront hlength hback
    exact hagain front back ⟨hfront, hback⟩ hlength
  have hends : NotNext itemStops rest := hrest.mono (by decide)
  obtain ⟨first, more, hfirst, hmore, hks⟩ := h.cases_sign
  have hmore := hmore.repeated
  have hlength : first.length + more.length ≤ ks.length := by
    rcases hks with ⟨rfl, _⟩ | ⟨sign, _, rfl⟩
    · exact Nat.le_of_eq List.length_append.symm
    · rw [List.length_append, List.length_cons]
      omega
  have hfollows : NotNext itemStops (more ++ rest) := hmore.notNext (by decide) hends
  have hfront : ∃ front, ks = front ++ more ∧ Reads (signedTerm expr) front (more ++ rest) := by
    rcases hks with ⟨hks, hbegins⟩ | ⟨sign, hsign, hks⟩
    · exact ⟨first, hks, reads_plainTerm hexpr hfirst hbegins (by omega) hfollows⟩
    · exact ⟨sign :: first, hks, reads_signedTerm hexpr hsign hfirst (by omega) hfollows⟩
  obtain ⟨front, hks, hfront⟩ := hfront
  rw [hks]
  apply hfront.bind
  intro signed
  refine reads_chain ArithOp.isSome_additive? (hrest.bind_eq_none ?_) ?_ hmore _
  · intro kind op hop
    exact List.mem_append_right _ (ArithOp.mem_signs_of_additive? hop)
  · intro operand others hoperand hshort hothers
    exact reads_term hexpr hoperand (by omega) (hothers.notNext (by decide) hends)

/-- Every condition is read, in front of what can extend neither it nor its expressions. -/
theorem reads_condition {ks rest : List TokenKind} (h : Grammar.Condition ks)
    (hrest : NotNext conditionStops rest) (label : Label) (sense : Sense) :
    Reads (condition label sense) ks rest := by
  have hends : NotNext expressionStops rest := hrest.mono (by decide)
  cases h with
  | test hvalue =>
      apply (reads_expression hvalue hends).before
      intro lhs
      apply (reads_checkCondition lhs).andThen
      intro _
      refine reads_declineAs (hrest.bind_eq_none ?_) ?_
      · intro kind relation hrelation
        exact List.mem_append_right _ (Relation.mem_relations_of_ofKind? hrelation)
      · apply (reads_emit _).andThen
        intro _
        exact reads_pure _
  | @compare lhs rhs relation hlhs hrelation hrhs =>
      have hfollows : NotNext expressionStops (relation :: rhs ++ rest) := by
        apply notNext_cons
        revert relation
        decide
      apply (reads_expression hlhs hfollows).bind
      intro lhs
      apply (reads_checkCondition lhs).andThen
      intro _
      apply reads_acceptAs (Relation.isSome_of_mem_relations relation hrelation)
      intro relation token
      apply (reads_expression hrhs hends).before
      intro rhs
      apply (reads_checkCondition rhs).andThen
      intro _
      apply (reads_emit _).andThen
      intro _
      exact reads_pure _

end Pass

end OnePass
