import OnePass.Compile
import OnePass.Proofs.Scan

/-!
Successful runs. A composed pass succeeds exactly when its parts do, one after the other,
and a loop that succeeds keeps whatever each of its rounds keeps. Bounds on the depth of
nesting play no part here, since a pass that meets its bound does not succeed.
-/

namespace OnePass

/-- What a computation gives, where it gives something. -/
theorem eq_ok_get {ε α : Type} (result : Except ε α) (h : result.toOption.isSome = true) :
    result = .ok (result.toOption.get h) := by
  cases result with
  | error error => cases h
  | ok a => rfl

namespace Pass

variable {α β ι : Type}

/-- Whether a pass succeeds with something. -/
def succeeds (pass : Pass α) (s : State) (p : α → State → Bool) : Bool :=
  match pass s with
  | .ok a t => p a t
  | .error _ _ => false

theorem eq_ok_of_succeeds {pass : Pass α} {s : State} {p : α → State → Bool}
    (h : pass.succeeds s p = true) : ∃ a t, pass s = .ok a t ∧ p a t = true := by
  unfold succeeds at h
  cases hrun : pass s with
  | error error t =>
      rw [hrun] at h
      cases h
  | ok a t =>
      rw [hrun] at h
      exact ⟨a, t, rfl, h⟩

theorem bind_of_ok {step : Pass α} {next : α → Pass β} {s u : State} {a : α}
    (h : step s = .ok a u) : (step >>= next) s = next a u := by
  change EStateM.bind step next s = next a u
  rw [EStateM.bind, h]

theorem bind_of_error {step : Pass α} {next : α → Pass β} {s u : State}
    {error : ParseError} (h : step s = .error error u) : (step >>= next) s = .error error u := by
  change EStateM.bind step next s = .error error u
  rw [EStateM.bind, h]

/-- A sequence of two steps succeeds when the second does from where the first led. -/
theorem bind_eq_ok {step : Pass α} {next : α → Pass β} {s t : State} {b : β} :
    (step >>= next) s = .ok b t ↔ ∃ a u, step s = .ok a u ∧ next a u = .ok b t := by
  change EStateM.bind step next s = .ok b t ↔ _
  unfold EStateM.bind
  cases step s with
  | ok a u =>
      constructor
      · intro h
        exact ⟨a, u, rfl, h⟩
      · rintro ⟨_, _, h, hnext⟩
        cases h
        exact hnext
  | error error u =>
      constructor
      · intro h
        cases h
      · rintro ⟨_, _, h, _⟩
        cases h

theorem pure_eq_ok {a b : α} {s t : State} : (pure a : Pass α) s = .ok b t ↔ b = a ∧ s = t := by
  change EStateM.Result.ok a s = .ok b t ↔ _
  constructor
  · intro h
    cases h
    exact ⟨rfl, rfl⟩
  · rintro ⟨rfl, rfl⟩
    rfl

/-- A step under a condition, and what follows it in either case. -/
theorem joined_eq_ok {condition : Prop} [Decidable condition] {step : Pass Unit}
    {next : Unit → Pass β} {s t : State} {b : β} :
    (if condition then step >>= next else next ()) s = .ok b t ↔
      ∃ u, (if condition then step else pure ()) s = .ok () u ∧ next () u = .ok b t := by
  by_cases hcondition : condition
  · simp only [if_pos hcondition, bind_eq_ok]
    constructor
    · rintro ⟨_, u, hstep, hnext⟩
      exact ⟨u, hstep, hnext⟩
    · rintro ⟨u, hstep, hnext⟩
      exact ⟨(), u, hstep, hnext⟩
  · simp only [if_neg hcondition]
    constructor
    · intro hnext
      exact ⟨s, rfl, hnext⟩
    · rintro ⟨u, hstep, hnext⟩
      obtain ⟨_, rfl⟩ := pure_eq_ok.1 hstep
      exact hnext

theorem unexpected_ne_ok {expected : Expected} {a : α} {s t : State} :
    (unexpected expected : Pass α) s ≠ .ok a t := by
  intro h
  unfold unexpected at h
  split at h <;> cases h

theorem onCursor_eq_ok {step : Cursor.Step α} {a : α} {s t : State} :
    onCursor step s = .ok a t ↔
      ∃ cursor, step s.cursor = .ok a cursor ∧ t = { s with cursor } := by
  unfold onCursor
  cases step s.cursor with
  | ok b cursor =>
      constructor
      · intro h
        cases h
        exact ⟨cursor, rfl, rfl⟩
      · rintro ⟨_, h, rfl⟩
        cases h
        rfl
  | error error cursor =>
      constructor
      · intro h
        cases h
      · rintro ⟨_, h, _⟩
        cases h

theorem advance_eq_ok {token : Token} {s t : State} :
    advance s = .ok token t ↔ ∃ rest, s.cursor.rest = token :: rest ∧
      t = { s with cursor := { consumed := token :: s.cursor.consumed, rest } } := by
  unfold advance
  rw [onCursor_eq_ok]
  constructor
  · rintro ⟨cursor, h, rfl⟩
    obtain ⟨hrest, hconsumed⟩ := Cursor.rest_of_advance h
    exact ⟨cursor.rest, hrest, by rw [← hconsumed]⟩
  · rintro ⟨rest, hrest, rfl⟩
    exact ⟨_, by simp only [Cursor.advance, hrest], rfl⟩

theorem current_eq_ok {token : Token} {s t : State} :
    current s = .ok token t ↔ s.cursor.rest.head? = some token ∧ s = t := by
  unfold current
  rw [onCursor_eq_ok]
  unfold Cursor.current
  cases hrest : s.cursor.rest with
  | nil => simp
  | cons head rest =>
      constructor
      · rintro ⟨_, h, rfl⟩
        cases h
        exact ⟨rfl, rfl⟩
      · rintro ⟨h, rfl⟩
        cases h
        exact ⟨_, rfl, rfl⟩

theorem expect_eq_ok {kind : TokenKind} {token : Token} {s t : State} :
    expect kind s = .ok token t ↔ token.kind = kind ∧ advance s = .ok token t := by
  unfold expect advance
  simp only [onCursor_eq_ok, Cursor.expect_eq_ok_iff]
  constructor
  · rintro ⟨cursor, ⟨hkind, h⟩, rfl⟩
    exact ⟨hkind, cursor, h, rfl⟩
  · rintro ⟨hkind, cursor, h, rfl⟩
    exact ⟨cursor, ⟨hkind, h⟩, rfl⟩

theorem peekKind_eq_ok {offset : Nat} {kind : Option TokenKind} {s t : State} :
    peekKind offset s = .ok kind t ↔ kind = s.cursor.peekKind? offset ∧ s = t := by
  constructor
  · intro h
    cases h
    exact ⟨rfl, rfl⟩
  · rintro ⟨rfl, rfl⟩
    rfl

theorem nextIs_eq_ok {kind : TokenKind} {answer : Bool} {s t : State} :
    nextIs kind s = .ok answer t ↔ answer = s.cursor.nextIs kind ∧ s = t := by
  constructor
  · intro h
    cases h
    exact ⟨rfl, rfl⟩
  · rintro ⟨rfl, rfl⟩
    rfl

theorem accept_eq_some {kind : TokenKind} {token : Token} {s t : State} :
    accept kind s = .ok (some token) t ↔ token.kind = kind ∧ advance s = .ok token t := by
  unfold accept advance
  simp only [onCursor_eq_ok, Cursor.accept, Cursor.advance]
  cases s.cursor.rest with
  | nil => simp
  | cons head rest =>
      by_cases hkind : head.kind = kind
      · simp only [hkind, if_true, EStateM.Result.ok.injEq, Option.some.injEq]
        constructor
        · rintro ⟨_, ⟨rfl, rfl⟩, rfl⟩
          exact ⟨hkind, _, ⟨rfl, rfl⟩, rfl⟩
        · rintro ⟨_, _, ⟨rfl, rfl⟩, rfl⟩
          exact ⟨_, ⟨rfl, rfl⟩, rfl⟩
      · simp only [hkind, if_false, EStateM.Result.ok.injEq, reduceCtorEq, false_and, exists_false,
          false_iff]
        rintro ⟨h, _, ⟨rfl, _⟩, _⟩
        exact hkind h

theorem accept_eq_none {kind : TokenKind} {s t : State} :
    accept kind s = .ok none t ↔ s = t ∧ s.cursor.peekKind? 0 ≠ some kind := by
  unfold accept
  simp only [onCursor_eq_ok, Cursor.accept, Cursor.peekKind?, Cursor.peek?]
  cases hrest : s.cursor.rest with
  | nil =>
      constructor
      · rintro ⟨_, h, rfl⟩
        cases h
        exact ⟨rfl, by simp⟩
      · rintro ⟨rfl, _⟩
        exact ⟨_, rfl, rfl⟩
  | cons head rest =>
      by_cases hkind : head.kind = kind
      · simp [hkind]
      · simp only [hkind, if_false, List.getElem?_cons_zero, Option.map_some, ne_eq,
          Option.some.injEq, not_false_iff, and_true]
        constructor
        · rintro ⟨_, h, rfl⟩
          cases h
          rfl
        · rintro rfl
          exact ⟨_, rfl, rfl⟩

theorem peekKind?_of_advance {token : Token} {s t : State} (h : advance s = .ok token t) :
    s.cursor.peekKind? 0 = some token.kind := by
  obtain ⟨rest, hrest, _⟩ := advance_eq_ok.1 h
  simp [Cursor.peekKind?, Cursor.peek?, hrest]

/-- Whether the next token stands for something shows in its kind alone. -/
theorem acceptAs_eq_some {meaning? : TokenKind → Option β} {meaning : β} {token : Token}
    {s t : State} :
    acceptAs meaning? s = .ok (some (meaning, token)) t ↔
      meaning? token.kind = some meaning ∧ advance s = .ok token t := by
  unfold acceptAs
  simp only [bind_eq_ok, peekKind_eq_ok]
  constructor
  · rintro ⟨_, _, ⟨rfl, rfl⟩, h⟩
    cases hmeaning : (s.cursor.peekKind? 0).bind meaning? with
    | none =>
        rw [hmeaning] at h
        cases h
    | some found =>
        rw [hmeaning] at h
        obtain ⟨other, u, hadvance, h⟩ := bind_eq_ok.1 h
        cases h
        rw [peekKind?_of_advance hadvance] at hmeaning
        exact ⟨hmeaning, hadvance⟩
  · rintro ⟨hmeaning, hadvance⟩
    refine ⟨_, s, ⟨rfl, rfl⟩, ?_⟩
    rw [peekKind?_of_advance hadvance, Option.bind_some, hmeaning]
    exact bind_eq_ok.2 ⟨token, t, hadvance, rfl⟩

theorem acceptAs_eq_none {meaning? : TokenKind → Option β} {s t : State} :
    acceptAs meaning? s = .ok none t ↔
      s = t ∧ (s.cursor.peekKind? 0).bind meaning? = none := by
  unfold acceptAs
  simp only [bind_eq_ok, peekKind_eq_ok]
  constructor
  · rintro ⟨_, _, ⟨rfl, rfl⟩, h⟩
    cases hmeaning : (s.cursor.peekKind? 0).bind meaning? with
    | none =>
        rw [hmeaning] at h
        cases h
        exact ⟨rfl, rfl⟩
    | some found =>
        rw [hmeaning] at h
        obtain ⟨other, u, _, h⟩ := bind_eq_ok.1 h
        cases h
  · rintro ⟨rfl, hmeaning⟩
    refine ⟨_, s, ⟨rfl, rfl⟩, ?_⟩
    rw [hmeaning]
    rfl

/-- A token that may be left out is accepted or else its absence is recorded. -/
theorem recover_eq (kind : TokenKind) (missing : DiagnosticKind) :
    recover kind missing = (do
      match ← accept kind with
      | some token => return some token
      | none =>
        report (← lastLine) missing
        return none) := by
  funext s
  unfold recover accept
  simp only [bind, EStateM.bind, onCursor, Cursor.expectOrDiagnose]
  cases Cursor.accept kind s.cursor with
  | ok found cursor => cases found <;> rfl
  | error error cursor => rfl

theorem recover_eq_some {kind : TokenKind} {missing : DiagnosticKind} {token : Token}
    {s t : State} (h : recover kind missing s = .ok (some token) t) :
    token.kind = kind ∧ advance s = .ok token t := by
  rw [recover_eq] at h
  obtain ⟨found, u, hfound, h⟩ := bind_eq_ok.1 h
  cases found with
  | none => cases h
  | some other =>
      cases h
      exact accept_eq_some.1 hfound

theorem recover_eq_none {kind : TokenKind} {missing : DiagnosticKind} {s t : State}
    (h : recover kind missing s = .ok none t) :
    report s.cursor.lastLine missing s = .ok () t := by
  rw [recover_eq] at h
  obtain ⟨found, u, hfound, h⟩ := bind_eq_ok.1 h
  cases found with
  | none =>
      obtain ⟨rfl, _⟩ := accept_eq_none.1 hfound
      cases h
      rfl
  | some other => cases h

/-- An instruction that was emitted is the last of the code. -/
theorem emit_eq_ok {instr : Instr} {s t : State} (h : emit instr s = .ok () t) :
    ∃ sink, t = { s with emitter := { code := s.emitter.code.push instr, sink } } := by
  unfold emit Emitter.emit at h
  cases hwrite : s.emitter.sink.write instr.line with
  | mk sink whole =>
      cases whole with
      | true =>
          rw [hwrite] at h
          cases h
          exact ⟨sink, rfl⟩
      | false =>
          rw [hwrite] at h
          cases h

theorem checkRedefinition_eq_ok {scope : Scope} {name : Token} {s t : State}
    (h : checkRedefinition scope name s = .ok () t) :
    t = s ∨ report name.line .redefinition s = .ok () t := by
  obtain ⟨found, u, hfound, h⟩ := bind_eq_ok.1 h
  cases hfound
  by_cases hsome : (s.scopes.lookup? scope name.value).isSome = true
  · rw [if_pos hsome] at h
    exact Or.inr h
  · rw [if_neg hsome] at h
    exact Or.inl (pure_eq_ok.1 h).2.symm

theorem addParameter_eq_ok {function : String} {ty : Ty} {s t : State}
    (h : addParameter function ty s = .ok () t) :
    t = { s with
      scopes := s.scopes.modify .global function fun symbol =>
        (symbol.addParameter? ty).getD symbol } := by
  unfold addParameter at h
  by_cases hvoid : ty.signatureCode?.isNone = true
  · rw [if_pos hvoid] at h
    cases h
  · rw [if_neg hvoid] at h
    cases h
    rfl

section Nesting

/-- What a phrase keeps under the assumption that its calls of itself keep it, nesting keeps. -/
theorem nestUpTo_ok {P : ι → State → α → State → Prop} {phrase : (ι → Pass α) → ι → Pass α}
    (hphrase : ∀ again, (∀ i s a t, again i s = .ok a t → P i s a t) →
      ∀ i s a t, phrase again i s = .ok a t → P i s a t) (bound : Nat) :
    ∀ i s a t, nestUpTo phrase bound i s = .ok a t → P i s a t := by
  induction bound with
  | zero =>
      intro i s a t h
      cases h
  | succ bound ih =>
      intro i s a t h
      exact hphrase _ ih i s a t h

theorem nestFrom_ok {P : ι → State → α → State → Prop} {phrase : (ι → Pass α) → ι → Pass α}
    (hphrase : ∀ again, (∀ i s a t, again i s = .ok a t → P i s a t) →
      ∀ i s a t, phrase again i s = .ok a t → P i s a t) {i : ι} {s t : State} {a : α}
    (h : nestFrom phrase i s = .ok a t) : P i s a t :=
  nestUpTo_ok hphrase _ i s a t h

theorem nest_ok {P : State → α → State → Prop} {phrase : Pass α → Pass α}
    (hphrase : ∀ again, (∀ s a t, again s = .ok a t → P s a t) →
      ∀ s a t, phrase again s = .ok a t → P s a t) {s t : State} {a : α}
    (h : nest phrase s = .ok a t) : P s a t :=
  nestFrom_ok (P := fun _ => P)
    (fun again hagain _ => hphrase (again ()) (hagain ())) h

/-- A repetition that succeeds has read its items one after the other. -/
theorem many_ok {P : State → List α → State → Prop} {item : Pass (Option α)}
    (hnil : ∀ s t, item s = .ok none t → P s [] t)
    (hcons : ∀ s u t a as, item s = .ok (some a) u → P u as t → P s (a :: as) t)
    {s t : State} {as : List α} (h : many item s = .ok as t) : P s as t := by
  refine nest_ok ?_ h
  intro again hagain s as t h
  obtain ⟨found, u, hitem, h⟩ := bind_eq_ok.1 h
  cases found with
  | none =>
      obtain ⟨rfl, rfl⟩ := pure_eq_ok.1 h
      exact hnil s u hitem
  | some a =>
      obtain ⟨rest, v, hrest, h⟩ := bind_eq_ok.1 h
      obtain ⟨rfl, rfl⟩ := pure_eq_ok.1 h
      exact hcons s u v a rest hitem (hagain u rest v hrest)

/-- What every link of a chain keeps, the chain keeps. -/
theorem extend_ok {P : α → State → Prop} {link : α → Pass (Option α)}
    (hstop : ∀ a s t, P a s → link a s = .ok none t → P a t)
    (hlink : ∀ a b s t, P a s → link a s = .ok (some b) t → P b t)
    {a b : α} {s t : State} (ha : P a s) (h : extend link a s = .ok b t) : P b t := by
  revert ha
  refine nestFrom_ok (P := fun a s b t => P a s → P b t) ?_ h
  intro again hagain a s b t h ha
  obtain ⟨found, u, hfound, h⟩ := bind_eq_ok.1 h
  cases found with
  | none =>
      obtain ⟨rfl, rfl⟩ := pure_eq_ok.1 h
      exact hstop b s u ha hfound
  | some longer => exact hagain longer u b t h (hlink a longer s u ha hfound)

/-- A chain ends where no link follows. -/
theorem extend_declines {link : α → Pass (Option α)} {a b : α} {s t : State}
    (h : extend link a s = .ok b t) : ∃ u, link b u = .ok none t := by
  refine nestFrom_ok (P := fun _ _ b t => ∃ u, link b u = .ok none t) ?_ h
  intro again hagain a s b t h
  obtain ⟨found, u, hfound, h⟩ := bind_eq_ok.1 h
  cases found with
  | none =>
      obtain ⟨rfl, rfl⟩ := pure_eq_ok.1 h
      exact ⟨s, hfound⟩
  | some longer => exact hagain longer u b t h

/-- A list with commas that succeeds has read an item and then a comma and a shorter list, or
nothing more. -/
theorem commaList_ok {P : State → CommaList α → State → Prop} {item : Pass α}
    (hone : ∀ s t a, item s = .ok a t → P s (.one a) t)
    (hcons : ∀ s u v t a comma rest, item s = .ok a u → accept .comma u = .ok (some comma) v →
      P v rest t → P s (.cons a comma rest) t)
    {s t : State} {items : CommaList α} (h : commaList item s = .ok items t) : P s items t := by
  refine nest_ok ?_ h
  intro again hagain s items t h
  obtain ⟨a, u, hitem, h⟩ := bind_eq_ok.1 h
  obtain ⟨found, v, hfound, h⟩ := bind_eq_ok.1 h
  cases found with
  | none =>
      obtain ⟨rfl, rfl⟩ := pure_eq_ok.1 h
      obtain ⟨rfl, _⟩ := accept_eq_none.1 hfound
      exact hone s u a hitem
  | some comma =>
      obtain ⟨rest, w, hrest, h⟩ := bind_eq_ok.1 h
      obtain ⟨rfl, rfl⟩ := pure_eq_ok.1 h
      exact hcons s u v w a comma rest hitem hfound (hagain v rest w hrest)

end Nesting

section Chains

/-- What makes a chain longer: an operator and an operand behind it, whose value is combined into
the register of the chain. -/
def chainLink (operator? : TokenKind → Option ArithOp) (operand : Pass β) (value : β → Operand)
    (accumulator? : α → Option Reg) (valueSoFar : α → Operand)
    (longer : α → ArithOp → Token → β → Reg → α) (chain : α) : Pass (Option α) := do
  match ← acceptAs operator? with
  | none => return none
  | some (op, opToken) =>
    let rhs ← operand
    let dst ← combine (accumulator? chain) op (valueSoFar chain) (value rhs)
    return some (longer chain op opToken rhs dst)

theorem term_eq (expr : Pass Expr) : term expr = (do
    let first ← factor expr
    extend (chainLink ArithOp.multiplicative? (factor expr) Factor.value Term.accumulator?
      Term.value Term.chain) (.factor first)) := rfl

theorem expression_eq : expression = nest fun expr => (do
    let first ← signedTerm expr
    extend (chainLink ArithOp.additive? (term expr) Term.value Expr.accumulator? Expr.value
      Expr.chain) first) := rfl

/-- What every operator with its operand keeps, a chain of them keeps. -/
theorem chain_ok {operator? : TokenKind → Option ArithOp} {operand : Pass β} {value : β → Operand}
    {accumulator? : α → Option Reg} {valueSoFar : α → Operand}
    {longer : α → ArithOp → Token → β → Reg → α} {P : α → State → Prop}
    (hlink : ∀ chain op opToken rhs dst s u v t, P chain s →
      operator? opToken.kind = some op → advance s = .ok opToken u → operand u = .ok rhs v →
      combine (accumulator? chain) op (valueSoFar chain) (value rhs) v = .ok dst t →
      P (longer chain op opToken rhs dst) t)
    {a b : α} {s t : State} (ha : P a s)
    (h : extend (chainLink operator? operand value accumulator? valueSoFar longer) a s = .ok b t) :
    P b t := by
  refine extend_ok ?_ ?_ ha h
  · intro chain s t hchain hstop
    obtain ⟨found, u, hfound, hstop⟩ := bind_eq_ok.1 hstop
    cases found with
    | none =>
        obtain ⟨_, rfl⟩ := pure_eq_ok.1 hstop
        obtain ⟨rfl, _⟩ := acceptAs_eq_none.1 hfound
        exact hchain
    | some found =>
        obtain ⟨rhs, v, _, hstop⟩ := bind_eq_ok.1 hstop
        obtain ⟨dst, w, _, hstop⟩ := bind_eq_ok.1 hstop
        cases hstop
  · intro chain extended s t hchain hgo
    obtain ⟨found, u, hfound, hgo⟩ := bind_eq_ok.1 hgo
    cases found with
    | none => cases hgo
    | some found =>
        obtain ⟨op, opToken⟩ := found
        obtain ⟨rhs, v, hrhs, hgo⟩ := bind_eq_ok.1 hgo
        obtain ⟨dst, w, hdst, hgo⟩ := bind_eq_ok.1 hgo
        obtain ⟨hextended, rfl⟩ := pure_eq_ok.1 hgo
        cases hextended
        obtain ⟨hop, hopToken⟩ := acceptAs_eq_some.1 hfound
        exact hlink chain op opToken rhs dst s u v w hchain hop hopToken hrhs hdst

/-- Behind a chain there is no operator of its kind. -/
theorem chain_declines {operator? : TokenKind → Option ArithOp} {operand : Pass β}
    {value : β → Operand} {accumulator? : α → Option Reg} {valueSoFar : α → Operand}
    {longer : α → ArithOp → Token → β → Reg → α} {a b : α} {s t : State}
    (h : extend (chainLink operator? operand value accumulator? valueSoFar longer) a s = .ok b t) :
    (t.cursor.peekKind? 0).bind operator? = none := by
  obtain ⟨u, hlink⟩ := extend_declines h
  obtain ⟨found, v, hfound, hlink⟩ := bind_eq_ok.1 hlink
  cases found with
  | none =>
      obtain ⟨_, rfl⟩ := pure_eq_ok.1 hlink
      obtain ⟨rfl, hnone⟩ := acceptAs_eq_none.1 hfound
      exact hnone
  | some found =>
      obtain ⟨rhs, w, _, hlink⟩ := bind_eq_ok.1 hlink
      obtain ⟨dst, x, _, hlink⟩ := bind_eq_ok.1 hlink
      cases hlink

end Chains

end Pass

end OnePass
