import OnePass.Proofs.Steps

/-!
How passes are put together. A pass that is made of single emissions and of steps that have nothing
to do with the output, one after the other, adds the same to the code and to the text. If none of
the steps goes back in the tokens, or fails because of a void parameter, neither does the pass.
What holds of the steps and is kept by a sequence holds of the pass, also of one that fails.
-/

namespace OnePass

/-- The same tokens, with as many of them consumed or more. -/
structure Cursor.Reaches (before after : Cursor) : Prop where
  tokens_eq : after.tokens = before.tokens
  position_le : before.position ≤ after.position

namespace Cursor.Reaches

theorem refl (cursor : Cursor) : cursor.Reaches cursor :=
  ⟨rfl, Nat.le_refl _⟩

theorem trans {before between after : Cursor} (hfront : before.Reaches between)
    (hback : between.Reaches after) : before.Reaches after :=
  ⟨hback.tokens_eq.trans hfront.tokens_eq, Nat.le_trans hfront.position_le hback.position_le⟩

theorem take {s : State} {token : Token} {rest : List Token} (h : s.cursor.rest = token :: rest) :
    s.cursor.Reaches (s.take token rest).cursor := by
  constructor
  · simp [tokens, State.take, h]
  · simp [position, State.take]

/-- What lies ahead afterwards is the end of what lay ahead. -/
theorem suffix {before after : Cursor} (h : before.Reaches after) : after.rest <:+ before.rest := by
  obtain ⟨htokens, hposition⟩ := h
  have hlength := congrArg List.length htokens
  simp only [tokens, position, List.length_append, List.length_reverse] at hposition hlength
  have hsuffix : after.rest <:+ before.tokens := htokens ▸ List.suffix_append _ _
  exact List.suffix_of_suffix_length_le hsuffix (List.suffix_append _ _) (by omega)

end Cursor.Reaches

/-- How a step may end that starts in `s`: it has not gone back in the tokens, and if it fails, it
is not because of a void parameter. -/
def State.Onward {α : Type} (s : State) : EStateM.Result ParseError State α → Prop
  | .ok _ t => s.cursor.Reaches t.cursor
  | .error error t => s.cursor.Reaches t.cursor ∧ error ≠ .voidParameter

/-- What goes onward from a place further on goes onward from here. -/
theorem State.Onward.trans {α : Type} {s u : State} {result : EStateM.Result ParseError State α}
    (h : u.Onward result) (hu : s.cursor.Reaches u.cursor) : s.Onward result := by
  cases result with
  | ok a t => exact hu.trans h
  | error error t => exact ⟨hu.trans h.1, h.2⟩

namespace Pass

variable {α β ι : Type}

/-- A result with another state. -/
def mapState (f : State → State) :
    EStateM.Result ParseError State α → EStateM.Result ParseError State α
  | .ok a t => .ok a (f t)
  | .error e t => .error e (f t)

/-- The state in which a run ends. -/
def endState : EStateM.Result ParseError State α → State
  | .ok _ t => t
  | .error _ t => t

/-- A step that neither emits anything nor depends on what was emitted. -/
def IsSilent (step : Pass α) : Prop :=
  ∀ s emitter, step { s with emitter } = mapState (fun t => { t with emitter }) (step s)

/-- A pass that is made of emissions and silent steps. -/
inductive Composed : {α : Type} → Pass α → Prop where
  | silent {α : Type} {step : Pass α} : step.IsSilent → Composed step
  | emit (instr : Instr) : Composed (Pass.emit instr)
  | bind {α β : Type} {step : Pass α} {next : α → Pass β} :
      Composed step → (∀ a, Composed (next a)) → Composed (step >>= next)

/-- A pass that is made of emissions and of silent steps that go onward. -/
inductive Orderly : {α : Type} → Pass α → Prop where
  | step {α : Type} {step : Pass α} :
      step.IsSilent → (∀ s : State, s.Onward (step s)) → Orderly step
  | emit (instr : Instr) : Orderly (Pass.emit instr)
  | bind {α β : Type} {step : Pass α} {next : α → Pass β} :
      Orderly step → (∀ a, Orderly (next a)) → Orderly (step >>= next)

theorem IsSilent.onCursor (step : Cursor.Step α) : IsSilent (Pass.onCursor step) := by
  intro s emitter
  unfold Pass.onCursor
  cases step s.cursor <;> rfl

theorem emit_of_unlimited {s : State} (h : s.emitter.sink.limit = none) (instr : Instr) :
    Pass.emit instr s = .ok () { s with emitter := (s.emitter.emit instr).1 } := by
  unfold Pass.emit Emitter.emit
  rw [Sink.write_of_unlimited h]

namespace Orderly

/-- A step that says something about the state, or changes it, without the cursor or the
emitter. -/
theorem of_ok {step : Pass α} {a : State → α} {f : State → State}
    (hstep : ∀ s, step s = .ok (a s) (f s))
    (ha : ∀ s emitter, a { s with emitter } = a s)
    (hf : ∀ s emitter, f { s with emitter } = { f s with emitter })
    (hcursor : ∀ s, (f s).cursor = s.cursor) : Orderly step := by
  refine .step (fun s emitter => ?_) fun s => ?_
  · rw [hstep, hstep, ha, hf, mapState]
  · rw [hstep, State.Onward, hcursor]
    exact .refl _

theorem pure (a : α) : Orderly (Pure.pure a : Pass α) :=
  .of_ok (fun _ => rfl) (fun _ _ => rfl) (fun _ _ => rfl) fun _ => rfl

theorem throw {error : ParseError} (h : error ≠ .voidParameter) :
    Orderly (MonadExcept.throw error : Pass α) :=
  .step (fun _ _ => rfl) fun _ => ⟨.refl _, h⟩

theorem unexpected (expected : Expected) : Orderly (Pass.unexpected expected : Pass α) := by
  refine .step (fun s emitter => ?_) fun s => ?_
  · unfold Pass.unexpected
    cases s.cursor.peek? 0 <;> rfl
  · unfold Pass.unexpected
    cases s.cursor.peek? 0 with
    | none => exact ⟨.refl _, nofun⟩
    | some token => exact ⟨.refl _, nofun⟩

theorem peekKind (offset : Nat) : Orderly (Pass.peekKind offset) :=
  .of_ok (fun _ => rfl) (fun _ _ => rfl) (fun _ _ => rfl) fun _ => rfl

theorem nextIs (kind : TokenKind) : Orderly (Pass.nextIs kind) :=
  .of_ok (fun _ => rfl) (fun _ _ => rfl) (fun _ _ => rfl) fun _ => rfl

theorem lastLine : Orderly Pass.lastLine :=
  .of_ok (fun _ => rfl) (fun _ _ => rfl) (fun _ _ => rfl) fun _ => rfl

theorem remaining : Orderly Pass.remaining :=
  .of_ok (fun _ => rfl) (fun _ _ => rfl) (fun _ _ => rfl) fun _ => rfl

/-- A silent step, by what is ahead. -/
theorem of_rest {step : Pass α} (hsilent : step.IsSilent)
    (hnil : ∀ s : State, s.cursor.rest = [] → s.Onward (step s))
    (hcons : ∀ (s : State) token rest, s.cursor.rest = token :: rest → s.Onward (step s)) :
    Orderly step := by
  refine .step hsilent fun s => ?_
  cases hrest : s.cursor.rest with
  | nil => exact hnil s hrest
  | cons token rest => exact hcons s token rest hrest

theorem advance : Orderly Pass.advance := by
  refine .of_rest (.onCursor _) (fun s hrest => ?_) fun s token rest hrest => ?_
  · rw [advance_nil hrest]
    exact ⟨.refl _, nofun⟩
  · rw [advance_cons hrest]
    exact .take hrest

theorem current : Orderly Pass.current := by
  refine .of_rest (.onCursor _) (fun s hrest => ?_) fun s token rest hrest => ?_
  · rw [current_nil hrest]
    exact ⟨.refl _, nofun⟩
  · rw [current_cons hrest]
    exact .refl _

theorem accept (kind : TokenKind) : Orderly (Pass.accept kind) := by
  refine .of_rest (.onCursor _) (fun s hrest => ?_) fun s token rest hrest => ?_
  · rw [accept_nil hrest]
    exact .refl _
  · rw [accept_cons hrest]
    by_cases hkind : token.kind = kind
    · rw [if_pos hkind]
      exact .take hrest
    · rw [if_neg hkind]
      exact .refl _

theorem expect (kind : TokenKind) : Orderly (Pass.expect kind) := by
  refine .of_rest (.onCursor _) (fun s hrest => ?_) fun s token rest hrest => ?_
  · rw [expect_nil hrest]
    exact ⟨.refl _, nofun⟩
  · rw [expect_cons hrest]
    by_cases hkind : token.kind = kind
    · rw [if_pos hkind]
      exact .take hrest
    · rw [if_neg hkind]
      exact ⟨.refl _, nofun⟩

theorem skipPast (kind : TokenKind) : Orderly (Pass.onCursor (Cursor.skipPast kind)) := by
  refine .step (.onCursor _) fun s => ?_
  generalize hrest : s.cursor.rest = tokens
  induction tokens generalizing s with
  | nil =>
      rw [skipPast_nil hrest]
      exact ⟨.refl _, nofun⟩
  | cons token rest ih =>
      rw [skipPast_cons hrest]
      by_cases hkind : token.kind = kind
      · rw [if_pos hkind]
        exact Cursor.Reaches.take hrest
      · rw [if_neg hkind]
        exact (ih (s.take token rest) rfl).trans (.take hrest)

theorem skipClosing (depth : Nat) : Orderly (Pass.skipClosing depth) := by
  refine .step (.onCursor _) fun s => ?_
  generalize hrest : s.cursor.rest = tokens
  induction tokens generalizing s depth with
  | nil =>
      rw [skipClosing_nil hrest]
      exact ⟨.refl _, nofun⟩
  | cons token rest ih =>
      rw [skipClosing_cons hrest]
      cases depthAfter depth token.kind with
      | none => exact Cursor.Reaches.take hrest
      | some depth => exact (ih depth (s.take token rest) rfl).trans (.take hrest)

theorem skipParens : Orderly (Pass.onCursor Cursor.skipParens) := by
  rw [skipParens_eq]
  exact .bind (.expect _) fun _ => .skipClosing 0

theorem acceptAs (meaning? : TokenKind → Option β) : Orderly (Pass.acceptAs meaning?) := by
  refine .bind (.peekKind 0) fun kind => ?_
  cases kind.bind meaning? with
  | none => exact .pure none
  | some meaning => exact .bind .advance fun token => .pure _

theorem nestUpTo {phrase : (ι → Pass α) → ι → Pass α}
    (hphrase : ∀ again, (∀ i, Orderly (again i)) → ∀ i, Orderly (phrase again i)) (bound : Nat) :
    ∀ i, Orderly (Pass.nestUpTo phrase bound i) := by
  induction bound with
  | zero => exact fun _ => .throw nofun
  | succ bound ih => exact hphrase _ ih

theorem nestFrom {phrase : (ι → Pass α) → ι → Pass α}
    (hphrase : ∀ again, (∀ i, Orderly (again i)) → ∀ i, Orderly (phrase again i)) (i : ι) :
    Orderly (Pass.nestFrom phrase i) :=
  .bind .remaining fun _ => nestUpTo hphrase _ i

/-- However it ends, an orderly pass has gone onward. -/
theorem onward {pass : Pass α} (h : Orderly pass) (s : State) : s.Onward (pass s) := by
  induction h generalizing s with
  | step _ honward => exact honward s
  | emit instr =>
      unfold Pass.emit
      cases s.emitter.emit instr with
      | mk emitter taken =>
          cases taken with
          | true => exact .refl _
          | false => exact ⟨.refl _, nofun⟩
  | @bind _ _ step next _ _ ihstep ihnext =>
      have hstep := ihstep s
      cases hrun : step s with
      | ok a u =>
          rw [hrun] at hstep
          rw [bind_of_ok hrun]
          exact (ihnext a u).trans hstep
      | error error u =>
          rw [hrun] at hstep
          rw [bind_of_error hrun]
          exact hstep

theorem reaches {pass : Pass α} (h : Orderly pass) {s t : State} {a : α} (hrun : pass s = .ok a t) :
    s.cursor.Reaches t.cursor := by
  have honward := h.onward s
  rwa [hrun] at honward

end Orderly

theorem Composed.of_orderly {pass : Pass α} (h : Orderly pass) : Composed pass := by
  induction h with
  | step hsilent _ => exact .silent hsilent
  | emit instr => exact .emit instr
  | bind _ _ ihstep ihnext => exact .bind ihstep ihnext

end Pass

end OnePass
