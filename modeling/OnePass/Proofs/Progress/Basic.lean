import OnePass.Proofs.Trace.Composed

/-!
Nesting is never cut short. The depth to which a phrase may call itself is bounded by the number of
tokens ahead, and a phrase that consumes a token before each call of itself never meets the bound.
What it does is then the same under any larger bound, so that nesting it is a fixed point: the
phrase, calling what it nests to.

The two facts are one: passes are compared where fewer than `n` tokens are ahead, and whenever one
of these is consumed, `n` goes down by one.
-/

namespace OnePass

namespace State

/-- The number of tokens ahead. -/
def ahead (s : State) : Nat :=
  s.cursor.rest.length

/-- The sink takes every line. -/
def Free (s : State) : Prop :=
  s.emitter.sink.limit = none

end State

/-- What goes onward in the tokens has no more of them ahead. -/
theorem Cursor.Reaches.ahead_le {s t : State} (h : s.cursor.Reaches t.cursor) :
    t.ahead ≤ s.ahead :=
  h.suffix.length_le

namespace Pass

variable {α β ι : Type}

/-- An orderly step that neither moves the cursor nor depends on where it is, and that only fails
when the sink does. What was recorded before stays. -/
structure IsBlind (step : Pass α) : Prop where
  orderly : Orderly step
  comm : ∀ s cursor, step { s with cursor } = mapState (fun t => { t with cursor }) (step s)
  okay : ∀ s, s.Free → ∃ a t, step s = .ok a t ∧ t.Free
  error : ∀ s error t, step s = .error error t → error = .trace
  reports : ∀ s a t, step s = .ok a t → s.diagnostics.toList <+: t.diagnostics.toList

namespace IsBlind

variable {step : Pass α} {next : α → Pass β}

theorem cursor_eq (h : IsBlind step) (s : State) : (endState (step s)).cursor = s.cursor := by
  have hsame : step s = mapState (fun t => { t with cursor := s.cursor }) (step s) :=
    h.comm s s.cursor
  rw [hsame]
  cases step s <;> rfl

/-- A step that says something about the state, or changes it, without the cursor or the
emitter. -/
theorem of_ok {a : State → α} {f : State → State} (hstep : ∀ s, step s = .ok (a s) (f s))
    (ha : ∀ s cursor emitter, a { s with cursor, emitter } = a s)
    (hf : ∀ s cursor emitter, f { s with cursor, emitter } = { f s with cursor, emitter })
    (hreports : ∀ s, s.diagnostics.toList <+: (f s).diagnostics.toList) : IsBlind step := by
  have hkept : ∀ s, f s = { f s with cursor := s.cursor, emitter := s.emitter } :=
    fun s => hf s s.cursor s.emitter
  have hcursor : ∀ s, (f s).cursor = s.cursor := fun s => by rw [hkept s]
  have hemitter : ∀ s, (f s).emitter = s.emitter := fun s => by rw [hkept s]
  refine ⟨.of_ok hstep (fun s => ha s s.cursor) (fun s emitter => ?_) hcursor, fun s cursor => ?_,
    fun s hs => ⟨a s, f s, hstep s, ?_⟩, fun s error t hrun => ?_, fun s b t hrun => ?_⟩
  · rw [hf s s.cursor emitter, ← hcursor]
  · rw [hstep, hstep, ha s cursor s.emitter, hf s cursor s.emitter, mapState, ← hemitter]
  · rw [State.Free, hemitter]
    exact hs
  · rw [hstep] at hrun
    cases hrun
  · rw [hstep] at hrun
    cases hrun
    exact hreports s

theorem pure (a : α) : IsBlind (Pure.pure a : Pass α) :=
  .of_ok (fun _ => rfl) (fun _ _ _ => rfl) (fun _ _ _ => rfl) fun _ => List.prefix_rfl

theorem bind (hstep : IsBlind step) (hnext : ∀ a, IsBlind (next a)) : IsBlind (step >>= next) := by
  refine ⟨.bind hstep.orderly fun a => (hnext a).orderly, ?_, ?_, ?_, ?_⟩
  · intro s cursor
    have hsame := hstep.comm s cursor
    cases hrun : step s with
    | ok a u =>
        rw [hrun] at hsame
        rw [bind_of_ok hsame, bind_of_ok hrun]
        exact (hnext a).comm u cursor
    | error error u =>
        rw [hrun] at hsame
        rw [bind_of_error hsame, bind_of_error hrun]
        rfl
  · intro s hs
    obtain ⟨a, u, ha, hu⟩ := hstep.okay s hs
    obtain ⟨b, t, hb, ht⟩ := (hnext a).okay u hu
    exact ⟨b, t, bind_eq_ok.2 ⟨a, u, ha, hb⟩, ht⟩
  · intro s error t hfails
    cases hrun : step s with
    | ok a u =>
        rw [bind_of_ok hrun] at hfails
        exact (hnext a).error u error t hfails
    | error error u =>
        rw [bind_of_error hrun] at hfails
        cases hfails
        exact hstep.error s _ _ hrun
  · intro s b t hrun
    obtain ⟨a, u, ha, hb⟩ := bind_eq_ok.1 hrun
    exact (hstep.reports s a u ha).trans ((hnext a).reports u b t hb)

theorem ite {condition : Prop} [Decidable condition] {yes no : Pass α} (hyes : IsBlind yes)
    (hno : IsBlind no) : IsBlind (if condition then yes else no) := by
  by_cases h : condition
  · rw [if_pos h]
    exact hyes
  · rw [if_neg h]
    exact hno

theorem forM {items : List α} {step : α → Pass Unit} (hstep : ∀ a, IsBlind (step a)) :
    IsBlind (items.forM step) := by
  induction items with
  | nil => exact .pure ()
  | cons item items ih => exact .bind (hstep item) fun _ => ih

theorem report (line : UInt64) (kind : DiagnosticKind) : IsBlind (Pass.report line kind) := by
  refine .of_ok (fun _ => rfl) (fun _ _ _ => rfl) (fun _ _ _ => rfl) fun s => ?_
  rw [Array.toList_push]
  exact List.prefix_append _ _

theorem emit (instr : Instr) : IsBlind (Pass.emit instr) := by
  refine ⟨.emit instr, ?_, ?_, ?_, ?_⟩
  · intro s cursor
    unfold Pass.emit
    dsimp only
    cases s.emitter.emit instr with
    | mk emitter taken => cases taken <;> rfl
  · intro s hs
    refine ⟨(), _, emit_of_unlimited hs instr, ?_⟩
    rw [State.Free, Emitter.emit, Sink.write_of_unlimited hs]
    exact hs
  · intro s error t hfails
    unfold Pass.emit at hfails
    cases hemit : s.emitter.emit instr with
    | mk emitter taken =>
        rw [hemit] at hfails
        cases taken with
        | true => cases hfails
        | false =>
            cases hfails
            rfl
  · intro s a t hrun
    obtain ⟨sink, rfl⟩ := emit_eq_ok hrun
    exact List.prefix_rfl

theorem freshReg : IsBlind Pass.freshReg :=
  .of_ok (fun _ => rfl) (fun _ _ _ => rfl) (fun _ _ _ => rfl) fun _ => List.prefix_rfl

theorem freshLabel : IsBlind Pass.freshLabel :=
  .of_ok (fun _ => rfl) (fun _ _ _ => rfl) (fun _ _ _ => rfl) fun _ => List.prefix_rfl

theorem intern (text : String) : IsBlind (Pass.intern text) :=
  .of_ok (fun _ => rfl) (fun _ _ _ => rfl) (fun _ _ _ => rfl) fun _ => List.prefix_rfl

theorem lookup? (scope : Scope) (name : String) : IsBlind (Pass.lookup? scope name) :=
  .of_ok (fun _ => rfl) (fun _ _ _ => rfl) (fun _ _ _ => rfl) fun _ => List.prefix_rfl

theorem nearest? (name : String) : IsBlind (Pass.nearest? name) :=
  .of_ok (fun _ => rfl) (fun _ _ _ => rfl) (fun _ _ _ => rfl) fun _ => List.prefix_rfl

theorem function? (name : String) : IsBlind (Pass.function? name) :=
  .of_ok (fun _ => rfl) (fun _ _ _ => rfl) (fun _ _ _ => rfl) fun _ => List.prefix_rfl

theorem declare (scope : Scope) (symbol : Symbol) : IsBlind (Pass.declare scope symbol) :=
  .of_ok (fun _ => rfl) (fun _ _ _ => rfl) (fun _ _ _ => rfl) fun _ => List.prefix_rfl

theorem resetLocals : IsBlind Pass.resetLocals :=
  .of_ok (fun _ => rfl) (fun _ _ _ => rfl) (fun _ _ _ => rfl) fun _ => List.prefix_rfl

theorem keepTable (name : String) (scope : Scope) : IsBlind (Pass.keepTable name scope) :=
  .of_ok (fun _ => rfl) (fun _ _ _ => rfl) (fun _ _ _ => rfl) fun _ => List.prefix_rfl

theorem noteOverflow (overflows : Bool) : IsBlind (Pass.noteOverflow overflows) :=
  .of_ok (fun _ => rfl) (fun _ _ _ => rfl) (fun _ _ _ => rfl) fun _ => List.prefix_rfl

/-- A type of values can always be added to a signature. -/
theorem addParameter (function : String) {ty : Ty} (h : ty ≠ .void) :
    IsBlind (Pass.addParameter function ty) := by
  cases ty with
  | void => exact absurd rfl h
  | _ => exact .of_ok (fun _ => rfl) (fun _ _ _ => rfl) (fun _ _ _ => rfl) fun _ => List.prefix_rfl

theorem resolve (name : Token) : IsBlind (Pass.resolve name) :=
  .bind (.nearest? _) fun _ => .pure _

theorem checkRedefinition (scope : Scope) (name : Token) :
    IsBlind (Pass.checkRedefinition scope name) :=
  .bind (.lookup? _ _) fun _ => .ite (.report _ _) (.pure _)

theorem openFunction (ty : Ty) (name : Token) : IsBlind (Pass.openFunction ty name) :=
  .bind (.checkRedefinition _ _) fun _ => .bind (.declare _ _) fun _ => .resetLocals

theorem announce (head : FunctionHead) : IsBlind (Pass.announce head) :=
  .bind (.emit _) fun _ => .forM fun _ => .emit _

theorem negate (value : Operand) : IsBlind (Pass.negate value) := by
  unfold Pass.negate
  cases value.literal? with
  | some n => exact .bind (.noteOverflow _) fun _ => .pure _
  | none => exact .bind .freshReg fun _ => .bind (.emit _) fun _ => .pure _

theorem combine (accumulator : Option Reg) (op : ArithOp) (lhs rhs : Operand) :
    IsBlind (Pass.combine accumulator op lhs rhs) := by
  cases accumulator with
  | some reg => exact .bind (.pure _) fun _ => .bind (.emit _) fun _ => .pure _
  | none => exact .bind .freshReg fun _ => .bind (.emit _) fun _ => .pure _

theorem checkArguments (name : Token) (callee : Symbol) (args : Args) :
    IsBlind (Pass.checkArguments name callee args) :=
  .ite (.report _ _) (.ite (.report _ _) (.pure _))

theorem resolveTarget (name : Token) : IsBlind (Pass.resolveTarget name) := by
  refine .bind (.resolve name) fun ref => ?_
  cases ref.symbol with
  | none => exact .bind (.report _ _) fun _ => .pure _
  | some symbol => exact .ite (.bind (.report _ _) fun _ => .pure _) (.pure _)

end IsBlind

/-- Where fewer than `n` tokens are ahead, the two passes do the same and do not stall. They leave
fewer tokens than there were if `takes` holds of the result. -/
structure Alike (n : Nat) (takes : α → Prop) (pass pass' : Pass α) : Prop where
  orderly : Orderly pass
  same : ∀ s, s.ahead < n → pass' s = pass s
  runs : ∀ s t, s.ahead < n → pass s ≠ .error .stalled t
  ahead_lt : ∀ s a t, s.ahead < n → pass s = .ok a t → takes a → t.ahead < s.ahead

/-- A pass that does not stall where fewer than `n` tokens are ahead. -/
abbrev Runs (n : Nat) (takes : α → Prop) (pass : Pass α) : Prop :=
  Alike n takes pass pass

/-- Every result comes after a token. -/
def Always (_ : α) : Prop := True

/-- No result is known to come after a token. -/
def Never (_ : α) : Prop := False

/-- A result, if there is one, comes after a token. -/
def IfSome (found : Option α) : Prop := found.isSome = true

/-- What a loop does behind an item, which `more` goes on with. -/
def manyNext (more : Pass (List α)) : Option α → Pass (List α)
  | none => return []
  | some a => return a :: (← more)

/-- What a loop reads, if `more` reads what is behind an item. -/
def manyOf (item : Pass (Option α)) (more : Pass (List α)) : Pass (List α) :=
  item >>= manyNext more

/-- What `a` is extended to, if `more` goes on behind a link. -/
def extendOf (link : α → Pass (Option α)) (more : α → Pass α) (a : α) : Pass α := do
  match ← link a with
  | none => return a
  | some longer => more longer

/-- What items with commas are, if `more` reads those behind a comma. -/
def commaListOf (item : Pass α) (more : Pass (CommaList α)) : Pass (CommaList α) := do
  let a ← item
  match ← accept .comma with
  | none => return .one a
  | some comma => return .cons a comma (← more)

namespace Alike

variable {n : Nat} {takes : α → Prop}

section Rules

variable {takes' : β → Prop} {step step' : Pass α} {next next' : α → Pass β}

/-- No pass has more tokens ahead in the end. -/
theorem ahead_le (h : Alike n takes step step') {s t : State} {a : α} (hrun : step s = .ok a t) :
    t.ahead ≤ s.ahead := by
  have honward := h.orderly.onward s
  rw [hrun] at honward
  exact Cursor.Reaches.ahead_le honward

/-- A single step that never stalls. -/
theorem of_step (horderly : Orderly step) (hruns : ∀ s t, step s ≠ .error .stalled t)
    (htakes : ∀ s a t, step s = .ok a t → takes a → t.ahead < s.ahead) : Runs n takes step :=
  ⟨horderly, fun _ _ => rfl, fun s t _ => hruns s t, fun s a t _ => htakes s a t⟩

theorem pure {a : α} (h : ¬ takes a) : Runs n takes (Pure.pure a) := by
  refine .of_step (.pure a) (fun _ _ => nofun) fun s b t hrun htakes => ?_
  obtain ⟨rfl, _⟩ := pure_eq_ok.1 hrun
  exact absurd htakes h

theorem throw {error : ParseError} (hvoid : error ≠ .voidParameter) (hstalled : error ≠ .stalled) :
    Runs n takes (MonadExcept.throw error) := by
  refine .of_step (.throw hvoid) (fun s t hrun => ?_) fun s a t => nofun
  cases hrun
  exact hstalled rfl

theorem weaken {k : Nat} {weaker : α → Prop} (h : Alike n takes step step') (hk : k ≤ n)
    (hweaker : ∀ a, weaker a → takes a) : Alike k weaker step step' where
  orderly := h.orderly
  same s hs := h.same s (Nat.lt_of_lt_of_le hs hk)
  runs s t hs := h.runs s t (Nat.lt_of_lt_of_le hs hk)
  ahead_lt s a t hs hrun htakes :=
    h.ahead_lt s a t (Nat.lt_of_lt_of_le hs hk) hrun (hweaker a htakes)

/-- What is read in front of a token is read behind it, too. -/
theorem later (h : Alike (n + 1) takes step step') : Alike n Never step step' :=
  h.weaken (Nat.le_succ n) fun _ => False.elim

/-- What follows a step is run with fewer than `k` tokens ahead, if that is how many the step
leaves. -/
theorem seq {k : α → Nat} {Q : α → Prop} {P : α → β → Prop}
    (hstep : Alike n Q step step')
    (hnext : ∀ a, Alike (k a) (P a) (next a) (next' a))
    (hk : ∀ s a u, s.ahead < n → step s = .ok a u → u.ahead < k a)
    (htakes : ∀ s a u b, s.ahead < n → step s = .ok a u → takes' b →
      P a b ∨ u.ahead < s.ahead) :
    Alike n takes' (step >>= next) (step' >>= next') := by
  refine ⟨.bind hstep.orderly fun a => (hnext a).orderly, ?_, ?_, ?_⟩
  · intro s hs
    have hsame := hstep.same s hs
    cases hrun : step s with
    | ok a u =>
        rw [hrun] at hsame
        rw [bind_of_ok hsame, bind_of_ok hrun]
        exact (hnext a).same u (hk s a u hs hrun)
    | error error u =>
        rw [hrun] at hsame
        rw [bind_of_error hsame, bind_of_error hrun]
  · intro s t hs
    cases hrun : step s with
    | ok a u =>
        rw [bind_of_ok hrun]
        exact (hnext a).runs u t (hk s a u hs hrun)
    | error error u =>
        rw [bind_of_error hrun]
        rintro ⟨⟩
        exact hstep.runs s _ hs hrun
  · intro s b t hs hrun hb'
    obtain ⟨a, u, ha, hb⟩ := bind_eq_ok.1 hrun
    rcases htakes s a u b hs ha hb' with hlate | hearly
    · exact Nat.lt_of_lt_of_le ((hnext a).ahead_lt u b t (hk s a u hs ha) hb hlate)
        (hstep.ahead_le ha)
    · exact Nat.lt_of_le_of_lt ((hnext a).ahead_le hb) hearly

theorem bind (hstep : Alike n takes step step')
    (hnext : ∀ a, Alike n takes' (next a) (next' a)) :
    Alike n takes' (step >>= next) (step' >>= next') :=
  hstep.seq hnext (fun _ _ _ hs hrun => Nat.lt_of_le_of_lt (hstep.ahead_le hrun) hs)
    fun _ _ _ _ _ _ htakes => .inl htakes

theorem blind {step : Pass α} (h : IsBlind step) : Runs n Never step :=
  .of_step h.orderly (fun s t hrun => nomatch h.error s _ t hrun) fun _ _ _ _ => False.elim

theorem blindly {step : Pass α} (hstep : IsBlind step)
    (hnext : ∀ a, Alike n takes' (next a) (next' a)) :
    Alike n takes' (step >>= next) (step >>= next') :=
  .bind (.blind hstep) hnext

/-- What follows a token is run with one token less ahead, and need not consume any. -/
theorem after {k : Nat} (hk : n ≤ k + 1) (hstep : Alike n Always step step')
    (hnext : ∀ a, Alike k Never (next a) (next' a)) :
    Alike n takes' (step >>= next) (step' >>= next') := by
  have hbehind : ∀ s a u, s.ahead < n → step s = .ok a u → u.ahead < s.ahead :=
    fun s a u hs hrun => hstep.ahead_lt s a u hs hrun trivial
  refine hstep.seq hnext ?_ ?_
  · intro s a u hs hrun
    have hu := hbehind s a u hs hrun
    omega
  · intro s a u b hs hrun _
    exact .inr (hbehind s a u hs hrun)

/-- What follows a token need not consume any. -/
theorem past (hstep : Alike n Always step step') (hnext : ∀ a, Alike n Never (next a) (next' a)) :
    Alike n takes' (step >>= next) (step' >>= next') :=
  .after (Nat.le_succ n) hstep hnext

/-- A step that may find something, and what follows in either case. -/
theorem found {k : Nat} (hk : n ≤ k + 1) {step step' : Pass (Option α)}
    {next next' : Option α → Pass β} (hstep : Alike n IfSome step step')
    (hnone : Alike n takes' (next none) (next' none))
    (hsome : ∀ a, Alike k Never (next (some a)) (next' (some a))) :
    Alike n takes' (step >>= next) (step' >>= next') := by
  refine hstep.seq (k := fun found => if found.isSome then k else n)
    (P := fun found b => found.isSome = false ∧ takes' b) ?_ ?_ ?_
  · intro found
    cases found with
    | none => exact hnone.weaken (Nat.le_refl _) fun _ h => h.2
    | some a => exact (hsome a).weaken (Nat.le_refl _) fun _ h => nomatch h.1
  · intro s found u hs hrun
    cases found with
    | none => exact Nat.lt_of_le_of_lt (hstep.ahead_le hrun) hs
    | some a =>
        have hu : u.ahead < s.ahead := hstep.ahead_lt s _ u hs hrun rfl
        change u.ahead < k
        omega
  · intro s found u b hs hrun htakes
    cases found with
    | none => exact .inl ⟨rfl, htakes⟩
    | some a => exact .inr (hstep.ahead_lt s _ u hs hrun rfl)

theorem ite {condition : Prop} [Decidable condition] {yes yes' no no' : Pass α}
    (hyes : Alike n takes yes yes') (hno : Alike n takes no no') :
    Alike n takes (if condition then yes else no) (if condition then yes' else no') := by
  by_cases h : condition
  · rw [if_pos h, if_pos h]
    exact hyes
  · rw [if_neg h, if_neg h]
    exact hno

/-- A step under a condition, and what follows it in either case. -/
theorem joined {condition : Prop} [Decidable condition] {step : Pass Unit}
    {next next' : Unit → Pass β} (hstep : Runs n Never step)
    (hnext : ∀ u, Alike n takes' (next u) (next' u)) :
    Alike n takes' (if condition then step >>= next else next ())
      (if condition then step >>= next' else next' ()) :=
  .ite (.bind hstep hnext) (hnext ())

end Rules

section Steps

variable {takes' : β → Prop}

theorem advance : Runs n Always Pass.advance := by
  refine .of_step .advance (fun s t => ?_) fun s token t hrun _ => ?_
  · cases hrest : s.cursor.rest <;> simp [Pass.advance, onCursor, Cursor.advance, hrest]
  · obtain ⟨rest, hrest, rfl⟩ := advance_eq_ok.1 hrun
    simp [State.ahead, hrest]

theorem current : Runs n Never Pass.current := by
  refine .of_step .current (fun s t => ?_) fun _ _ _ _ => False.elim
  cases hrest : s.cursor.rest <;> simp [Pass.current, onCursor, Cursor.current, hrest]

theorem peekKind (offset : Nat) : Runs n Never (Pass.peekKind offset) :=
  .of_step (.peekKind offset) (fun _ _ => nofun) fun _ _ _ _ => False.elim

theorem nextIs (kind : TokenKind) : Runs n Never (Pass.nextIs kind) :=
  .of_step (.nextIs kind) (fun _ _ => nofun) fun _ _ _ _ => False.elim

theorem lastLine : Runs n Never Pass.lastLine :=
  .of_step .lastLine (fun _ _ => nofun) fun _ _ _ _ => False.elim

theorem unexpected (expected : Expected) : Runs n takes (Pass.unexpected expected) := by
  refine .of_step (.unexpected expected) (fun s t => ?_) fun _ _ _ hrun =>
    absurd hrun unexpected_ne_ok
  cases hrest : s.cursor.rest with
  | nil => simp [unexpected_nil hrest]
  | cons token rest => simp [unexpected_cons hrest]

theorem expect (kind : TokenKind) : Runs n Always (Pass.expect kind) := by
  refine .of_step (.expect kind) (fun s t => ?_) fun s token t hrun _ =>
    advance.ahead_lt s token t (Nat.lt_succ_self _) (expect_eq_ok.1 hrun).2 trivial
  cases hrest : s.cursor.rest with
  | nil => simp [expect_nil hrest]
  | cons token rest =>
      rw [expect_cons hrest]
      split <;> nofun

theorem accept (kind : TokenKind) : Runs n IfSome (Pass.accept kind) := by
  refine .of_step (.accept kind) (fun s t => ?_) fun s found t hrun hsome => ?_
  · cases hrest : s.cursor.rest with
    | nil => simp [accept_nil hrest]
    | cons token rest =>
        rw [accept_cons hrest]
        split <;> nofun
  · obtain ⟨token, rfl⟩ := Option.isSome_iff_exists.1 hsome
    exact advance.ahead_lt s token t (Nat.lt_succ_self _) (accept_eq_some.1 hrun).2 trivial

theorem acceptAs (meaning? : TokenKind → Option β) : Runs n IfSome (Pass.acceptAs meaning?) := by
  refine .of_step (.acceptAs meaning?) (fun s t => ?_) fun s found t hrun hsome => ?_
  · cases hrest : s.cursor.rest with
    | nil => simp [acceptAs_nil hrest]
    | cons token rest =>
        cases hmeaning : meaning? token.kind with
        | none => simp [acceptAs_cons_none hrest hmeaning]
        | some meaning => simp [acceptAs_cons_some hrest hmeaning]
  · obtain ⟨found, rfl⟩ := Option.isSome_iff_exists.1 hsome
    exact advance.ahead_lt s found.2 t (Nat.lt_succ_self _) (acceptAs_eq_some.1 hrun).2 trivial

theorem recover (kind : TokenKind) (missing : DiagnosticKind) :
    Runs n Never (Pass.recover kind missing) := by
  rw [recover_eq]
  refine .bind (.accept kind) fun found => ?_
  cases found with
  | none => exact .bind .lastLine fun _ => .blindly (.report _ _) fun _ => .pure id
  | some token => exact .pure id

theorem skipPast (kind : TokenKind) : Runs n Never (Pass.onCursor (Cursor.skipPast kind)) := by
  refine .of_step (.skipPast kind) (fun s t => ?_) fun _ _ _ _ => False.elim
  generalize hrest : s.cursor.rest = tokens
  induction tokens generalizing s with
  | nil => simp [skipPast_nil hrest]
  | cons token rest ih =>
      rw [skipPast_cons hrest]
      split
      · nofun
      · exact ih (s.take token rest) rfl

theorem skipClosing (depth : Nat) : Runs n Never (Pass.skipClosing depth) := by
  refine .of_step (.skipClosing depth) (fun s t => ?_) fun _ _ _ _ => False.elim
  generalize hrest : s.cursor.rest = tokens
  induction tokens generalizing s depth with
  | nil => simp [skipClosing_nil hrest]
  | cons token rest ih =>
      rw [skipClosing_cons hrest]
      cases depthAfter depth token.kind with
      | none => nofun
      | some depth => exact ih depth (s.take token rest) rfl

end Steps

section Loops

/-- What calls itself does so in an orderly way, if that is how it goes on. -/
theorem orderly_of_phrase {phrase phrase' : (ι → Pass α) → ι → Pass α}
    (hphrase : ∀ again again', (∀ i, Alike 0 takes (again i) (again' i)) →
      ∀ i, Alike 0 takes (phrase again i) (phrase' again' i))
    (again : ι → Pass α) (hagain : ∀ i, Orderly (again i)) (i : ι) : Orderly (phrase again i) :=
  (hphrase again again (fun i => ⟨hagain i, nofun, nofun, nofun⟩) i).orderly

/-- A phrase that calls itself only behind a token does the same under all bounds that are large
enough for the tokens ahead. -/
theorem nestUpTo {phrase phrase' : (ι → Pass α) → ι → Pass α} {N : Nat}
    (hphrase : ∀ k m, m ≤ k + 1 → m ≤ N → ∀ again again',
      (∀ i, Alike k takes (again i) (again' i)) →
      ∀ i, Alike m takes (phrase again i) (phrase' again' i))
    {k : Nat} (hk : k ≤ N) {bound bound' : Nat} (hbound : k ≤ bound) (hbound' : k ≤ bound')
    (i : ι) : Alike k takes (Pass.nestUpTo phrase bound i) (Pass.nestUpTo phrase' bound' i) := by
  induction k generalizing bound bound' i with
  | zero =>
      have horderly := orderly_of_phrase (hphrase 0 0 (Nat.zero_le _) hk)
      exact ⟨.nestUpTo horderly bound i, nofun, nofun, nofun⟩
  | succ k ih =>
      obtain ⟨bound, rfl⟩ := Nat.exists_eq_add_of_le' hbound
      obtain ⟨bound', rfl⟩ := Nat.exists_eq_add_of_le' hbound'
      exact hphrase k (k + 1) (Nat.le_refl _) hk _ _
        (ih (Nat.le_of_lt hk) (Nat.le_add_left k bound) (Nat.le_add_left k bound')) i

/-- A phrase whose parts are known where fewer than `n` tokens are ahead. -/
theorem nestWithin {phrase phrase' : (ι → Pass α) → ι → Pass α}
    (hphrase : ∀ k m, m ≤ k + 1 → m ≤ n → ∀ again again',
      (∀ i, Alike k takes (again i) (again' i)) →
      ∀ i, Alike m takes (phrase again i) (phrase' again' i)) (i : ι) :
    Alike n takes (Pass.nestFrom phrase i) (Pass.nestFrom phrase' i) := by
  have hlocal : ∀ s : State, s.ahead < n → Alike (s.ahead + 1) takes
      (Pass.nestUpTo phrase (s.ahead + 1) i) (Pass.nestUpTo phrase' (s.ahead + 1) i) :=
    fun s hs => nestUpTo hphrase hs (Nat.le_refl _) (Nat.le_refl _) i
  have horderly := orderly_of_phrase (hphrase 0 0 (Nat.zero_le _) (Nat.zero_le _))
  exact ⟨.nestFrom horderly i, fun s hs => (hlocal s hs).same s (Nat.lt_succ_self _),
    fun s t hs => (hlocal s hs).runs s t (Nat.lt_succ_self _),
    fun s a t hs => (hlocal s hs).ahead_lt s a t (Nat.lt_succ_self _)⟩

theorem nestFrom {phrase phrase' : (ι → Pass α) → ι → Pass α}
    (hphrase : ∀ k again again', (∀ i, Alike k takes (again i) (again' i)) →
      ∀ i, Alike (k + 1) takes (phrase again i) (phrase' again' i)) (i : ι) :
    Alike n takes (Pass.nestFrom phrase i) (Pass.nestFrom phrase' i) :=
  nestWithin (fun k _ hk _ again again' hagain i =>
    (hphrase k again again' hagain i).weaken hk fun _ => id) i

theorem nest {phrase phrase' : Pass α → Pass α}
    (hphrase : ∀ k again again', Alike k takes again again' →
      Alike (k + 1) takes (phrase again) (phrase' again')) :
    Alike n takes (Pass.nest phrase) (Pass.nest phrase') :=
  nestFrom (fun k again again' hagain _ => hphrase k (again ()) (again' ()) (hagain ())) ()

variable {k : Nat}

theorem manyOf (hk : n ≤ k + 1) {item item' : Pass (Option α)} {more more' : Pass (List α)}
    (hitem : Alike n IfSome item item') (hmore : Alike k Never more more') :
    Alike n Never (Pass.manyOf item more) (Pass.manyOf item' more') :=
  .found hk hitem (.pure id) fun _ => .bind hmore fun _ => .pure id

theorem many {item item' : Pass (Option α)} (hitem : Alike n IfSome item item') :
    Alike n Never (Pass.many item) (Pass.many item') :=
  nestWithin (fun _ _ hk hn _ _ hmore _ => .manyOf hk (hitem.weaken hn fun _ => id) (hmore ())) ()

theorem extendOf (hk : n ≤ k + 1) {link link' : α → Pass (Option α)} {more more' : α → Pass α}
    {a : α} (hlink : Alike n IfSome (link a) (link' a))
    (hmore : ∀ a, Alike k Never (more a) (more' a)) :
    Alike n Never (Pass.extendOf link more a) (Pass.extendOf link' more' a) :=
  .found hk hlink (.pure id) hmore

theorem extend {link link' : α → Pass (Option α)} (hlink : ∀ a, Alike n IfSome (link a) (link' a))
    (a : α) : Alike n Never (Pass.extend link a) (Pass.extend link' a) := by
  refine nestWithin (fun k m hk hn more more' hmore a => ?_) a
  exact .extendOf hk ((hlink a).weaken hn fun _ => id) hmore

theorem commaListOf (hk : n ≤ k + 1) {item item' : Pass α} {more more' : Pass (CommaList α)}
    (hitem : Alike n Always item item') (hmore : Alike k Always more more') :
    Alike n Always (Pass.commaListOf item more) (Pass.commaListOf item' more') := by
  refine .after hk hitem fun a => .bind (.accept _) fun found => ?_
  cases found with
  | none => exact .pure id
  | some comma => exact .bind hmore fun _ => .pure id

theorem commaList {item item' : Pass α} (hitem : Alike n Always item item') :
    Alike n Always (Pass.commaList item) (Pass.commaList item') :=
  nestWithin (fun _ _ hk hn _ _ hmore _ =>
    .commaListOf hk (hitem.weaken hn fun _ => id) (hmore ())) ()

end Loops

end Alike

/-- Nesting a phrase is the phrase itself, calling what it nests to. -/
theorem nestFrom_eq {P : α → Prop} {phrase : (ι → Pass α) → ι → Pass α}
    (hphrase : ∀ k again again', (∀ i, Alike k P (again i) (again' i)) →
      ∀ i, Alike (k + 1) P (phrase again i) (phrase again' i)) (i : ι) :
    nestFrom phrase i = phrase (nestFrom phrase) i := by
  have hwithin : ∀ k m, m ≤ k + 1 → ∀ again again', (∀ i, Alike k P (again i) (again' i)) →
      ∀ i, Alike m P (phrase again i) (phrase again' i) :=
    fun k _ hk again again' hagain i => (hphrase k again again' hagain i).weaken hk fun _ => id
  funext s
  have hagain : ∀ i, Alike s.ahead P (nestUpTo phrase s.ahead i) (nestFrom phrase i) := by
    intro i
    have hlocal : ∀ t : State, t.ahead < s.ahead → Alike (t.ahead + 1) P
        (nestUpTo phrase s.ahead i) (nestUpTo phrase (t.ahead + 1) i) :=
      fun t ht => .nestUpTo (fun k m hk _ => hwithin k m hk) (Nat.le_refl _) ht (Nat.le_refl _) i
    have horderly := Alike.orderly_of_phrase (hwithin 0 0 (Nat.zero_le _))
    exact ⟨.nestUpTo horderly _ i, fun t ht => (hlocal t ht).same t (Nat.lt_succ_self _),
      fun t u ht => (hlocal t ht).runs t u (Nat.lt_succ_self _),
      fun t a u ht => (hlocal t ht).ahead_lt t a u (Nat.lt_succ_self _)⟩
  exact ((hphrase s.ahead _ _ hagain i).same s (Nat.lt_succ_self _)).symm

theorem nest_eq {P : α → Prop} {phrase : Pass α → Pass α}
    (hphrase : ∀ k again again', Alike k P again again' →
      Alike (k + 1) P (phrase again) (phrase again')) :
    nest phrase = phrase (nest phrase) :=
  nestFrom_eq (fun k again again' hagain _ => hphrase k (again ()) (again' ()) (hagain ())) ()

theorem many_eq {item : Pass (Option α)} (hitem : ∀ n, Runs n IfSome item) :
    many item = manyOf item (many item) :=
  nest_eq fun k _ _ => .manyOf (Nat.le_refl _) (hitem (k + 1))

theorem extend_eq {link : α → Pass (Option α)} (hlink : ∀ n a, Runs n IfSome (link a)) (a : α) :
    extend link a = extendOf link (extend link) a := by
  have honce : ∀ k more more', (∀ a, Alike k Never (more a) (more' a)) →
      ∀ a, Alike (k + 1) Never (extendOf link more a) (extendOf link more' a) :=
    fun k _ _ hmore a => .extendOf (Nat.le_refl _) (hlink (k + 1) a) hmore
  exact nestFrom_eq honce a

theorem commaList_eq {item : Pass α} (hitem : ∀ n, Runs n Always item) :
    commaList item = commaListOf item (commaList item) :=
  nest_eq fun k _ _ => .commaListOf (Nat.le_refl _) (hitem (k + 1))

end Pass

end OnePass
