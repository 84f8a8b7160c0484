import OnePass.Proofs.Feed.Basic

/-!
Two runs on tokens that are the same up to some point and differ behind it. As long as a pass does
not come to that point, the second run goes as the first does. It may also end right in front of it,
if neither of the tokens that come next there could have been read on. There is one case in which a
token is looked at and not read: in front of a semicolon, the arguments of a call are left out.

The two runs are a pass and the same pass under another bound on its nesting.
-/

namespace OnePass

/-- One state comes behind another: the tokens ahead of it are the last of those that were, no
diagnostic is lost, and the sink goes on taking every line. -/
structure State.Later (s t : State) : Prop where
  rest : t.cursor.rest <:+ s.cursor.rest
  reports : s.diagnostics.toList <+: t.diagnostics.toList
  free : s.Free → t.Free

namespace State.Later

variable {s t u : State}

theorem refl (s : State) : s.Later s :=
  ⟨List.suffix_rfl, List.prefix_rfl, id⟩

theorem trans (hst : s.Later t) (htu : t.Later u) : s.Later u :=
  ⟨htu.rest.trans hst.rest, hst.reports.trans htu.reports, fun hs => htu.free (hst.free hs)⟩

theorem ahead_le (h : s.Later t) : t.ahead ≤ s.ahead :=
  h.rest.length_le

theorem quiet (h : s.Later t) (ht : t.diagnostics = #[]) : s.diagnostics = #[] := by
  have hreports := h.reports
  rw [ht] at hreports
  exact Array.toList_eq_nil_iff.1 (List.prefix_nil.1 hreports)

end State.Later

/-- The kinds of tokens that make an expression or a list longer, or that close one. -/
def linking : List TokenKind :=
  [.lparen, .rparen, .lbracket, .rbracket, .comma, .plus, .minus, .star, .slash]

/-- The tokens neither go on with what stands before them nor close it. -/
def Calm (tokens : List Token) : Prop :=
  ∀ kind ∈ linking, headKind tokens ≠ some kind

/-- The kind of the last token. -/
def lastKind (tokens : List Token) : Option TokenKind :=
  tokens.getLast?.map Token.kind

/-- Two lists of tokens behind the same front. A run that has to end in front of the old ones leaves
`slack` tokens more than one there. One that may end right at them, without a closing parenthesis
behind the name of a function, is told by what is recorded, or else by the tokens. -/
structure Splice where
  front : List Token
  old : List Token
  new : List Token
  slack : Nat
  quiet : Bool
  front_ne_nil : front ≠ []
  old_calm : Calm old
  new_calm : Calm new
  closed : quiet = false → headKind old = some .semicolon → lastKind front ≠ some .lparen

namespace Splice

/-- Where there is no slack, the old tokens cannot be taken for the name of a function and a
parenthesis. -/
class Tame (σ : Splice) : Prop where
  tail_calm : σ.slack = 0 → headKind σ.old.tail ≠ some .lparen

variable {σ : Splice} {lax : Bool} {s t u : State}

/-- The state has the front behind it and ahead of it, and nothing else. -/
def Here (σ : Splice) (u : State) : Prop :=
  u.cursor.tokens = σ.front

/-- The new tokens begin with a name, and there is no slack. -/
structure Named (σ : Splice) : Prop where
  head : headKind σ.new = some .ident
  slack_eq : σ.slack = 0

/-- How many tokens more than one are left in front of the old ones. -/
def margin (σ : Splice) : Bool → Nat
  | true => 0
  | false => σ.slack

/-- A run may end here: in front of the old tokens, or else right at them, where it may have to be
one that has not recorded anything. -/
def Allows (σ : Splice) (lax : Bool) (t : State) : Prop :=
  σ.old.length + σ.margin lax < t.ahead ∨
    lax = true ∧ t.ahead = σ.old.length ∧ (σ.quiet = true → t.diagnostics = #[])

/-- What a strict run asks of the new tokens. -/
theorem Named.vacuous (h : false = true) : σ.Named :=
  absurd h Bool.false_ne_true

theorem Named.ne (h : σ.Named) {kind : TokenKind} (hkind : kind ≠ .ident) :
    headKind σ.new ≠ some kind := by
  rw [h.head]
  exact fun heq => hkind (Option.some.inj heq).symm

theorem Named.bind_eq_none {α : Type} (h : σ.Named) {meaning? : TokenKind → Option α}
    (hident : meaning? .ident = none) : (headKind σ.new).bind meaning? = none := by
  rw [h.head]
  exact hident

/-- Nothing that makes an expression longer comes next. -/
theorem bind_eq_none {α : Type} (σ : Splice) {meaning? : TokenKind → Option α}
    (hlinking : ∀ kind, (meaning? kind).isSome = true → kind ∈ linking) :
    (headKind σ.new).bind meaning? = none := by
  rw [Option.bind_eq_none_iff]
  intro kind hkind
  rw [← Option.not_isSome_iff_eq_none]
  exact fun hsome => σ.new_calm kind (hlinking kind hsome) hkind

theorem Allows.earlier (h : σ.Allows lax t) (hst : s.Later t) : σ.Allows lax s := by
  have hahead := hst.ahead_le
  rcases h with hfar | ⟨hlax, hnear, hquiet⟩
  · exact .inl (Nat.lt_of_lt_of_le hfar hahead)
  · rw [hnear] at hahead
    rcases Nat.lt_or_eq_of_le hahead with hlt | heq
    · rw [hlax]
      exact .inl hlt
    · exact .inr ⟨hlax, heq.symm, fun hσ => hst.quiet (hquiet hσ)⟩

theorem Allows.le_ahead (h : σ.Allows lax t) : σ.old.length ≤ t.ahead := by
  rcases h with hfar | ⟨_, hnear, _⟩
  · exact Nat.le_of_lt (Nat.lt_of_le_of_lt (Nat.le_add_right _ _) hfar)
  · exact Nat.le_of_eq hnear.symm

theorem Allows.lax_of_ahead_le (h : σ.Allows lax t) (hle : t.ahead ≤ σ.old.length) :
    lax = true := by
  rcases h with hfar | ⟨hlax, _⟩
  · exact absurd (Nat.lt_of_le_of_lt (Nat.le_add_right _ _) hfar) (Nat.not_lt_of_le hle)
  · exact hlax

theorem Allows.far (h : σ.Allows false t) : σ.old.length + σ.slack < t.ahead := by
  rcases h with hfar | ⟨hlax, _⟩
  · exact hfar
  · cases hlax

theorem Allows.relax (h : σ.Allows false t) : σ.Allows lax t := by
  cases lax with
  | false => exact h
  | true => exact .inl (Nat.lt_of_le_of_lt (Nat.le_add_right _ _) h.far)

theorem ahead_feed (u : State) (more : List Token) :
    (u.feed more).ahead = u.cursor.rest.length + more.length :=
  List.length_append

theorem ahead_feed_of_nil (hnil : u.cursor.rest = []) (more : List Token) :
    (u.feed more).ahead = more.length := by
  rw [ahead_feed, hnil, List.length_nil, Nat.zero_add]

theorem Here.take (hu : σ.Here u) {token : Token} {rest : List Token}
    (hrest : u.cursor.rest = token :: rest) : σ.Here (u.take token rest) := by
  rw [Here, Cursor.tokens, hrest] at hu
  simpa [Here, Cursor.tokens, State.take] using hu

theorem Here.lastLine_feed (hu : σ.Here u) (more : List Token) :
    (u.feed more).cursor.lastLine = u.cursor.lastLine := by
  rw [State.feed]
  cases hconsumed : u.cursor.consumed with
  | cons token consumed => simp only [Cursor.lastLine, hconsumed]
  | nil =>
      cases hrest : u.cursor.rest with
      | cons token rest => simp only [Cursor.lastLine, hconsumed, hrest, List.cons_append]
      | nil =>
          rw [Here, Cursor.tokens, hconsumed, hrest] at hu
          exact absurd hu.symm σ.front_ne_nil

theorem headKind_rest_feed (u : State) (more : List Token) :
    (u.feed more).cursor.peekKind? 0 = headKind (u.cursor.rest ++ more) :=
  Pass.peekKind?_zero _

/-- Where the front is not at its end, both runs see the same next token. -/
theorem peekKind?_feed (hne : u.cursor.rest ≠ []) (more : List Token) :
    (u.feed more).cursor.peekKind? 0 = u.cursor.peekKind? 0 := by
  rw [headKind_rest_feed, Pass.peekKind?_zero, Pass.headKind_append_of_ne_nil hne]

theorem head?_feed (hne : u.cursor.rest ≠ []) (more : List Token) :
    (u.feed more).cursor.rest.head? = u.cursor.rest.head? := by
  obtain ⟨first, rest, hrest⟩ := List.exists_cons_of_ne_nil hne
  rw [State.feed, hrest]
  rfl

theorem nextIs_feed (hne : u.cursor.rest ≠ []) (kind : TokenKind) (more : List Token) :
    (u.feed more).cursor.nextIs kind = u.cursor.nextIs kind := by
  rw [Cursor.nextIs, peekKind?_feed hne]
  rfl

theorem peekKind?_zero_feed {first : Token} {rest : List Token}
    (hrest : u.cursor.rest = first :: rest) (more : List Token) :
    (u.feed more).cursor.peekKind? 0 = some first.kind := by
  rw [headKind_rest_feed, hrest]
  rfl

theorem exists_two {tokens : List Token} (h : 2 ≤ tokens.length) :
    ∃ first second rest, tokens = first :: second :: rest := by
  obtain ⟨first, tail, rfl⟩ := List.exists_cons_of_length_pos (Nat.lt_of_lt_of_le Nat.two_pos h)
  obtain ⟨second, rest, rfl⟩ := List.exists_cons_of_length_pos (Nat.le_of_succ_le_succ h)
  exact ⟨first, second, rest, rfl⟩

/-- What takes a token and ends in front of the old ones leaves one more. -/
theorem exists_second (hlt : t.ahead < (u.feed σ.old).ahead) (hallows : σ.Allows false t) :
    ∃ first second rest, u.cursor.rest = first :: second :: rest := by
  have hfar := hallows.far
  rw [ahead_feed] at hlt
  exact exists_two (by omega)

/-- A parenthesis behind two tokens is one that the front has. -/
theorem peekKind?_two_feed (σ : Splice) {first second : Token} {rest : List Token}
    (hrest : u.cursor.rest = first :: second :: rest) :
    (u.feed σ.new).cursor.peekKind? 2 = some .lparen ↔
      (u.feed σ.old).cursor.peekKind? 2 = some .lparen := by
  simp only [Pass.peekKind?_eq, State.feed, hrest, List.cons_append, List.drop_succ_cons,
    List.drop_zero]
  cases rest with
  | nil =>
      have hlinking : TokenKind.lparen ∈ linking := by decide
      exact iff_of_false (σ.new_calm _ hlinking) (σ.old_calm _ hlinking)
  | cons third rest => rfl

end Splice

namespace Pass

theorem ahead_lt_of_advance {s t : State} {token : Token} (h : advance s = .ok token t) :
    t.ahead < s.ahead := by
  obtain ⟨rest, hrest, rfl⟩ := advance_eq_ok.1 h
  simp [State.ahead, hrest]

theorem later_of_advance {s t : State} {token : Token} (h : advance s = .ok token t) :
    s.Later t := by
  obtain ⟨rest, hrest, rfl⟩ := advance_eq_ok.1 h
  refine ⟨?_, List.prefix_rfl, id⟩
  rw [hrest]
  exact List.suffix_cons token rest

/-- To accept a kind is to accept what stands for being of that kind. -/
theorem accept_eq_acceptAs (kind : TokenKind) : accept kind =
    (acceptAs (fun other => if other = kind then some () else none) >>= fun found =>
      pure (found.map Prod.snd)) := by
  funext s
  cases hrest : s.cursor.rest with
  | nil =>
      rw [accept_nil hrest, bind_of_ok (acceptAs_nil hrest)]
      rfl
  | cons token rest =>
      rw [accept_cons hrest]
      by_cases hkind : token.kind = kind
      · rw [if_pos hkind, bind_of_ok (acceptAs_cons_some hrest (if_pos hkind))]
        rfl
      · rw [if_neg hkind, bind_of_ok (acceptAs_cons_none hrest (if_neg hkind))]
        rfl

variable {α β ι : Type}

/-- The first pass does not see what the old tokens are, and the second goes as it does in front
of the new ones. At least one token is consumed if `took` holds of the result. -/
structure Misses (σ : Splice) (lax : Bool) (took : α → Prop) (pass pass' : Pass α) : Prop where
  later : ∀ s a t, pass s = .ok a t → s.Later t
  takes : ∀ s a t, pass s = .ok a t → took a → t.ahead < s.ahead
  runs : ∀ u a t, σ.Here u → pass (u.feed σ.old) = .ok a t → σ.Allows lax t →
    ∃ v, σ.Here v ∧ t = v.feed σ.old ∧ pass' (u.feed σ.new) = .ok a (v.feed σ.new)

/-- A pass that goes alike in both runs. -/
abbrev Unaware (σ : Splice) (lax : Bool) (took : α → Prop) (pass : Pass α) : Prop :=
  Misses σ lax took pass pass

namespace Misses

variable {σ : Splice} {lax : Bool} {took : α → Prop}

section Rules

variable {took' : β → Prop} {step step' : Pass α} {next next' : α → Pass β}

theorem pure {a : α} (h : ¬ took a) : Unaware σ lax took (Pure.pure a) := by
  refine ⟨?_, ?_, ?_⟩
  · intro s b t hrun
    obtain ⟨_, rfl⟩ := pure_eq_ok.1 hrun
    exact .refl s
  · intro s b t hrun htook
    obtain ⟨rfl, _⟩ := pure_eq_ok.1 hrun
    exact absurd htook h
  · intro u b t hu hrun _
    obtain ⟨rfl, rfl⟩ := pure_eq_ok.1 hrun
    exact ⟨u, hu, rfl, rfl⟩

/-- A step that never succeeds. -/
theorem fail (h : ∀ s a t, step s ≠ .ok a t) : Misses σ lax took step step' :=
  ⟨fun s a t hrun => absurd hrun (h s a t), fun s a t hrun => absurd hrun (h s a t),
    fun _ a t _ hrun => absurd hrun (h _ a t)⟩

theorem throw {error : ParseError} :
    Misses σ lax took (MonadExcept.throw error : Pass α) (MonadExcept.throw error) :=
  .fail fun _ _ _ => nofun

theorem unexpected (expected : Expected) :
    Misses σ lax took (Pass.unexpected expected : Pass α) (Pass.unexpected expected) :=
  .fail fun _ _ _ => unexpected_ne_ok

theorem weaken {weaker : α → Prop} (h : Misses σ lax took step step')
    (hweaker : ∀ a, weaker a → took a) : Misses σ lax weaker step step' :=
  { h with takes := fun s a t hrun htook => h.takes s a t hrun (hweaker a htook) }

/-- What may end at the old tokens may end in front of them. -/
theorem strict (h : Misses σ lax took step step') : Misses σ false took step step' :=
  { h with runs := fun u a t hu hrun hallows => h.runs u a t hu hrun hallows.relax }

theorem seq {Q : α → Prop} {P : α → β → Prop} (hstep : Misses σ lax Q step step')
    (hnext : ∀ a, Misses σ lax (P a) (next a) (next' a))
    (htook : ∀ a b, took' b → P a b ∨ Q a) :
    Misses σ lax took' (step >>= next) (step' >>= next') := by
  refine ⟨?_, ?_, ?_⟩
  · intro s b t hrun
    obtain ⟨a, u, ha, hb⟩ := bind_eq_ok.1 hrun
    exact (hstep.later s a u ha).trans ((hnext a).later u b t hb)
  · intro s b t hrun hb'
    obtain ⟨a, u, ha, hb⟩ := bind_eq_ok.1 hrun
    have hu := (hstep.later s a u ha).ahead_le
    have ht := ((hnext a).later u b t hb).ahead_le
    rcases htook a b hb' with hlate | hearly
    · exact Nat.lt_of_lt_of_le ((hnext a).takes u b t hb hlate) hu
    · exact Nat.lt_of_le_of_lt ht (hstep.takes s a u ha hearly)
  · intro u b t hu hrun hallows
    obtain ⟨a, w, ha, hb⟩ := bind_eq_ok.1 hrun
    obtain ⟨v, hv, rfl, ha'⟩ :=
      hstep.runs u a w hu ha (hallows.earlier ((hnext a).later w b t hb))
    obtain ⟨x, hx, ht, hb'⟩ := (hnext a).runs v b t hv hb hallows
    exact ⟨x, hx, ht, bind_eq_ok.2 ⟨a, _, ha', hb'⟩⟩

theorem bind (hstep : Misses σ lax took step step')
    (hnext : ∀ a, Misses σ lax took' (next a) (next' a)) :
    Misses σ lax took' (step >>= next) (step' >>= next') :=
  hstep.seq hnext fun _ _ => .inl

/-- What follows a token need not consume another. -/
theorem after (hstep : Misses σ lax Always step step')
    (hnext : ∀ a, Misses σ lax Never (next a) (next' a)) :
    Misses σ lax took' (step >>= next) (step' >>= next') :=
  hstep.seq hnext fun _ _ _ => .inr trivial

/-- A step that may find something, and what follows in either case. -/
theorem found {step step' : Pass (Option α)} {next next' : Option α → Pass β}
    (hstep : Misses σ lax IfSome step step')
    (hnone : Misses σ lax took' (next none) (next' none))
    (hsome : ∀ a, Misses σ lax Never (next (some a)) (next' (some a))) :
    Misses σ lax took' (step >>= next) (step' >>= next') := by
  refine hstep.seq (P := fun found b => found.isSome = false ∧ took' b) (fun found => ?_) ?_
  · cases found with
    | none => exact hnone.weaken fun _ h => h.2
    | some a => exact (hsome a).weaken fun _ h => nomatch h.1
  · intro found b hb
    cases found with
    | none => exact .inl ⟨rfl, hb⟩
    | some a => exact .inr rfl

/-- A step that has to end in front of the old tokens, since what follows would go past them or
record something otherwise. -/
theorem strictly (hslack : lax = true → σ.slack = 0) (hstep : Misses σ false took step step')
    (hnext : ∀ a, Misses σ lax took' (next a) (next' a))
    (hgap : ∀ a s b t, s.ahead = σ.old.length → next a s = .ok b t → ¬ σ.Allows lax t) :
    Misses σ lax took' (step >>= next) (step' >>= next') := by
  have hbind : Misses σ false took' (step >>= next) (step' >>= next') :=
    hstep.bind fun a => (hnext a).strict
  refine { hbind with runs := fun u b t hu hrun hallows => ?_ }
  obtain ⟨a, w, ha, hb⟩ := bind_eq_ok.1 hrun
  rcases hallows.earlier ((hnext a).later w b t hb) with hfar | ⟨_, hnear, _⟩
  · have hmargin : σ.margin lax = σ.slack := by
      cases lax with
      | false => rfl
      | true => exact (hslack rfl).symm
    rw [hmargin] at hfar
    obtain ⟨v, hv, rfl, ha'⟩ := hstep.runs u a w hu ha (.inl hfar)
    obtain ⟨x, hx, ht, hb'⟩ := (hnext a).runs v b t hv hb hallows
    exact ⟨x, hx, ht, bind_eq_ok.2 ⟨a, _, ha', hb'⟩⟩
  · exact absurd hallows (hgap a w b t hnear hb)

theorem ite {condition : Prop} [Decidable condition] {yes yes' no no' : Pass α}
    (hyes : Misses σ lax took yes yes') (hno : Misses σ lax took no no') :
    Misses σ lax took (if condition then yes else no) (if condition then yes' else no') := by
  by_cases h : condition
  · rw [if_pos h, if_pos h]
    exact hyes
  · rw [if_neg h, if_neg h]
    exact hno

/-- A step under a condition, and what follows it in either case. -/
theorem joined {condition : Prop} [Decidable condition] {step : Pass Unit}
    {next next' : Unit → Pass β} (hstep : Unaware σ lax Never step)
    (hnext : ∀ u, Misses σ lax took' (next u) (next' u)) :
    Misses σ lax took' (if condition then step >>= next else next ())
      (if condition then step >>= next' else next' ()) :=
  .ite (.bind hstep hnext) (hnext ())

end Rules

section Steps

variable {took' : β → Prop}

theorem blind {step : Pass α} (h : IsBlind step) : Unaware σ lax Never step := by
  refine ⟨?_, fun _ _ _ _ => False.elim, ?_⟩
  · intro s a t hrun
    have hcursor := h.cursor_eq s
    rw [hrun] at hcursor
    have hrest : t.cursor.rest = s.cursor.rest := congrArg Cursor.rest hcursor
    refine ⟨hrest ▸ List.suffix_rfl, h.reports s a t hrun, ?_⟩
    intro hs
    obtain ⟨_, _, hokay, hfree⟩ := h.okay s hs
    rw [hrun] at hokay
    cases hokay
    exact hfree
  · intro u a t hu hrun _
    have hcomm := h.comm u (u.feed σ.old).cursor
    cases hstep : step u with
    | error error v =>
        rw [hstep, mapState] at hcomm
        cases hcomm.symm.trans hrun
    | ok b v =>
        have hcursor : v.cursor = u.cursor := by
          have hsame := h.cursor_eq u
          rwa [hstep] at hsame
        have hfeed := h.feed hstep
        have hold := hrun.symm.trans (hfeed σ.old)
        cases hold
        refine ⟨v, ?_, rfl, hfeed σ.new⟩
        rw [Splice.Here, hcursor]
        exact hu

theorem blindly {step : Pass α} {next next' : α → Pass β} (hstep : IsBlind step)
    (hnext : ∀ a, Misses σ lax took' (next a) (next' a)) :
    Misses σ lax took' (step >>= next) (step >>= next') :=
  (blind hstep).bind hnext

theorem advance : Unaware σ lax Always Pass.advance := by
  refine ⟨fun _ _ _ => later_of_advance, fun _ _ _ hrun _ => ahead_lt_of_advance hrun, ?_⟩
  intro u token t hu hrun hallows
  cases hrest : u.cursor.rest with
  | nil =>
      have hlt := ahead_lt_of_advance hrun
      rw [Splice.ahead_feed_of_nil hrest] at hlt
      exact absurd hallows.le_ahead (Nat.not_le_of_lt hlt)
  | cons head rest =>
      have hfeed := State.rest_feed_cons hrest
      rw [advance_cons (hfeed σ.old)] at hrun
      cases hrun
      exact ⟨u.take token rest, hu.take hrest, rfl, advance_cons (hfeed σ.new)⟩

theorem expect (kind : TokenKind) : Unaware σ lax Always (Pass.expect kind) := by
  refine ⟨fun s token t hrun => later_of_advance (expect_eq_ok.1 hrun).2,
    fun s token t hrun _ => ahead_lt_of_advance (expect_eq_ok.1 hrun).2, ?_⟩
  intro u token t hu hrun hallows
  obtain ⟨hkind, hadvance⟩ := expect_eq_ok.1 hrun
  obtain ⟨v, hv, ht, hadvance'⟩ := advance.runs u token t hu hadvance hallows
  exact ⟨v, hv, ht, expect_eq_ok.2 ⟨hkind, hadvance'⟩⟩

/-- What a step that declines goes by is the same in both runs. -/
theorem meaning_eq (meaning? : TokenKind → Option α) {u : State}
    (hstop : lax = true → (headKind σ.new).bind meaning? = none)
    (hallows : σ.Allows lax (u.feed σ.old))
    (hold : ((u.feed σ.old).cursor.peekKind? 0).bind meaning? = none) :
    ((u.feed σ.new).cursor.peekKind? 0).bind meaning? = none := by
  cases hrest : u.cursor.rest with
  | cons head rest =>
      have hne : u.cursor.rest ≠ [] := hrest ▸ List.cons_ne_nil head rest
      rw [Splice.peekKind?_feed hne] at hold ⊢
      exact hold
  | nil =>
      have hlax := hallows.lax_of_ahead_le (Nat.le_of_eq (Splice.ahead_feed_of_nil hrest σ.old))
      rw [Splice.headKind_rest_feed, hrest, List.nil_append]
      exact hstop hlax

theorem acceptAs {meaning? : TokenKind → Option β}
    (hstop : lax = true → (headKind σ.new).bind meaning? = none) :
    Unaware σ lax IfSome (Pass.acceptAs meaning?) := by
  refine ⟨?_, ?_, ?_⟩
  · intro s found t hrun
    cases found with
    | none =>
        obtain ⟨rfl, _⟩ := acceptAs_eq_none.1 hrun
        exact .refl s
    | some found => exact later_of_advance (acceptAs_eq_some.1 hrun).2
  · intro s found t hrun hsome
    cases found with
    | none => cases hsome
    | some found => exact ahead_lt_of_advance (acceptAs_eq_some.1 hrun).2
  · intro u found t hu hrun hallows
    cases found with
    | none =>
        obtain ⟨rfl, hnone⟩ := acceptAs_eq_none.1 hrun
        exact ⟨u, hu, rfl, acceptAs_eq_none.2 ⟨rfl, meaning_eq meaning? hstop hallows hnone⟩⟩
    | some found =>
        obtain ⟨hmeaning, hadvance⟩ := acceptAs_eq_some.1 hrun
        obtain ⟨v, hv, ht, hadvance'⟩ := advance.runs u found.2 t hu hadvance hallows
        exact ⟨v, hv, ht, acceptAs_eq_some.2 ⟨hmeaning, hadvance'⟩⟩

theorem accept {kind : TokenKind} (hstop : lax = true → headKind σ.new ≠ some kind) :
    Unaware σ lax IfSome (Pass.accept kind) := by
  rw [accept_eq_acceptAs]
  refine .found (.acceptAs fun hlax => ?_) (.pure nofun) fun _ => .pure id
  rw [Option.bind_eq_none_iff]
  intro other hother
  refine if_neg ?_
  rintro rfl
  exact hstop hlax hother

/-- A token that makes something longer or closes it is not the first of the new ones. -/
theorem link {kind : TokenKind} (hkind : kind ∈ linking) :
    Unaware σ lax IfSome (Pass.accept kind) :=
  .accept fun _ => σ.new_calm kind hkind

theorem lastLine : Unaware σ lax Never Pass.lastLine := by
  refine ⟨?_, fun _ _ _ _ => False.elim, ?_⟩
  · intro s line t hrun
    cases hrun
    exact .refl s
  · intro u line t hu hrun _
    cases hrun
    refine ⟨u, hu, rfl, ?_⟩
    rw [hu.lastLine_feed, ← hu.lastLine_feed σ.new]
    rfl

theorem recover {kind : TokenKind} {missing : DiagnosticKind}
    (hstop : lax = true → headKind σ.new ≠ some kind) :
    Unaware σ lax Never (Pass.recover kind missing) := by
  rw [recover_eq]
  refine .bind (.accept hstop) fun found => ?_
  cases found with
  | none => exact .bind .lastLine fun _ => .blindly (.report _ _) fun _ => .pure id
  | some token => exact .pure id

theorem close {kind : TokenKind} {missing : DiagnosticKind} (hkind : kind ∈ linking) :
    Unaware σ lax Never (Pass.recover kind missing) :=
  .recover fun _ => σ.new_calm kind hkind

/-- A pass that goes one way or another by what comes next, if both runs go the same way. -/
theorem decided (ask : Cursor → ι) {branch branch' : ι → Pass α} {pass pass' : Pass α}
    (heq : ∀ s, pass s = branch (ask s.cursor) s) (heq' : ∀ s, pass' s = branch' (ask s.cursor) s)
    (hbranch : ∀ i, Misses σ lax took (branch i) (branch' i))
    (hsame : ∀ (u : State) a t, branch (ask (u.feed σ.old).cursor) (u.feed σ.old) = .ok a t →
      σ.Allows lax t →
        branch' (ask (u.feed σ.new).cursor) = branch' (ask (u.feed σ.old).cursor)) :
    Misses σ lax took pass pass' := by
  refine ⟨fun s a t h => ?_, fun s a t h => ?_, fun u a t hu h hallows => ?_⟩
  · rw [heq] at h
    exact (hbranch _).later s a t h
  · rw [heq] at h
    exact (hbranch _).takes s a t h
  · rw [heq] at h
    rw [heq', hsame u a t h hallows]
    exact (hbranch _).runs u a t hu h hallows

/-- What takes a token in front of the old ones, or ends in front of them, starts there too. -/
theorem rest_ne_nil {pass pass' : Pass α} (h : Misses σ lax took pass pass')
    (hgap : lax = true → ∀ a, took a) {u t : State} {a : α} (hrun : pass (u.feed σ.old) = .ok a t)
    (hallows : σ.Allows lax t) : u.cursor.rest ≠ [] := by
  intro hnil
  have hahead := (h.later _ a t hrun).ahead_le
  rw [Splice.ahead_feed_of_nil hnil] at hahead
  have htakes := h.takes _ a t hrun (hgap (hallows.lax_of_ahead_le hahead) a)
  rw [Splice.ahead_feed_of_nil hnil] at htakes
  exact absurd hallows.le_ahead (Nat.not_le_of_lt htakes)

/-- A step that looks ahead, in front of what reads a token or has to end in front of the old
ones. -/
theorem look {glance : Pass α} {f : Cursor → α} {next next' : α → Pass β}
    (hlook : ∀ s, glance s = .ok (f s.cursor) s)
    (hsame : ∀ u : State, u.cursor.rest ≠ [] →
      next' (f (u.feed σ.new).cursor) = next' (f (u.feed σ.old).cursor))
    (hgap : lax = true → ∀ b, took' b) (hnext : ∀ a, Misses σ lax took' (next a) (next' a)) :
    Misses σ lax took' (glance >>= next) (glance >>= next') :=
  .decided f (fun s => bind_of_ok (hlook s)) (fun s => bind_of_ok (hlook s)) hnext
    fun u _ _ hrun hallows => hsame u ((hnext _).rest_ne_nil hgap hrun hallows)

theorem nextIs {kind : TokenKind} {next next' : Bool → Pass β} (hgap : lax = true → ∀ b, took' b)
    (hnext : ∀ answer, Misses σ lax took' (next answer) (next' answer)) :
    Misses σ lax took' (Pass.nextIs kind >>= next) (Pass.nextIs kind >>= next') := by
  refine .look (f := (Cursor.nextIs · kind)) (fun _ => rfl) (fun u hne => ?_) hgap hnext
  rw [Splice.nextIs_feed hne, Splice.nextIs_feed hne]

theorem nextIsTypeName {next next' : Bool → Pass β} (hgap : lax = true → ∀ b, took' b)
    (hnext : ∀ answer, Misses σ lax took' (next answer) (next' answer)) :
    Misses σ lax took' (Pass.nextIsTypeName >>= next) (Pass.nextIsTypeName >>= next') := by
  refine .look (f := fun cursor => ((cursor.peekKind? 0).map TokenKind.isTypeName).getD false)
    (fun _ => rfl) (fun u hne => ?_) hgap hnext
  rw [Splice.peekKind?_feed hne, Splice.peekKind?_feed hne]

theorem current {next next' : Token → Pass β} (hgap : lax = true → ∀ b, took' b)
    (hnext : ∀ token, Misses σ lax took' (next token) (next' token)) :
    Misses σ lax took' (Pass.current >>= next) (Pass.current >>= next') := by
  refine ⟨fun s b t h => ?_, fun s b t h => ?_, fun u b t hu h hallows => ?_⟩
  · obtain ⟨token, v, hcurrent, h⟩ := bind_eq_ok.1 h
    obtain ⟨_, rfl⟩ := current_eq_ok.1 hcurrent
    exact (hnext token).later s b t h
  · obtain ⟨token, v, hcurrent, h⟩ := bind_eq_ok.1 h
    obtain ⟨_, rfl⟩ := current_eq_ok.1 hcurrent
    exact (hnext token).takes s b t h
  · obtain ⟨token, v, hcurrent, h⟩ := bind_eq_ok.1 h
    obtain ⟨_, rfl⟩ := current_eq_ok.1 hcurrent
    cases hrest : u.cursor.rest with
    | nil => exact absurd hrest ((hnext token).rest_ne_nil hgap h hallows)
    | cons head rest =>
        have hfeed := State.rest_feed_cons hrest
        rw [current_cons (hfeed σ.old)] at hcurrent
        cases hcurrent
        rw [bind_of_ok (current_cons (hfeed σ.new))]
        exact (hnext _).runs u b t hu h hallows

/-- The token behind the next one decides between two passes. If it is the first of the old ones,
or of the new ones, it is not what is looked for. -/
theorem fork {kind : TokenKind} {yes yes' no no' : Pass α} (hkind : kind ∈ linking)
    (hyes : Misses σ lax Always yes yes') (hno : Misses σ lax Always no no') :
    Misses σ lax Always (Pass.peekKind 1 >>= fun second => if second = some kind then yes else no)
      (Pass.peekKind 1 >>= fun second => if second = some kind then yes' else no') := by
  refine .look (f := (Cursor.peekKind? · 1)) (fun _ => rfl) (fun u hne => ?_) (fun _ _ => trivial)
    fun _ => .ite hyes hno
  cases hrest : u.cursor.rest with
  | nil => exact absurd hrest hne
  | cons first rest =>
      simp only [peekKind?_eq, State.feed, hrest, List.cons_append, List.drop_succ_cons,
        List.drop_zero]
      cases rest with
      | nil =>
          rw [List.nil_append, List.nil_append, if_neg (σ.new_calm kind hkind),
            if_neg (σ.old_calm kind hkind)]
      | cons second rest => rfl

/-- A skip goes from token to token, each of which says whether and how it goes on. -/
theorem skip (skip : ι → Pass Unit) (onward : ι → TokenKind → Option ι)
    (hnil : ∀ i s t, s.cursor.rest = [] → skip i s ≠ .ok () t)
    (hstop : ∀ i s token rest, s.cursor.rest = token :: rest → onward i token.kind = none →
      skip i s = .ok () (s.take token rest))
    (hgo : ∀ i j s token rest, s.cursor.rest = token :: rest → onward i token.kind = some j →
      skip i s = skip j (s.take token rest)) (i : ι) : Unaware σ lax Always (skip i) := by
  have hlater : ∀ tokens i s t, s.cursor.rest = tokens → skip i s = .ok () t →
      s.Later t ∧ t.ahead < s.ahead := by
    intro tokens
    induction tokens with
    | nil => exact fun i s t hrest hrun => absurd hrun (hnil i s t hrest)
    | cons token rest ih =>
        intro i s t hrest hrun
        have hnext := later_of_advance (advance_cons hrest)
        have hlt := ahead_lt_of_advance (advance_cons hrest)
        cases honward : onward i token.kind with
        | none =>
            rw [hstop i s token rest hrest honward] at hrun
            cases hrun
            exact ⟨hnext, hlt⟩
        | some j =>
            rw [hgo i j s token rest hrest honward] at hrun
            obtain ⟨hfar, hfarLt⟩ := ih j _ t rfl hrun
            exact ⟨hnext.trans hfar, Nat.lt_trans hfarLt hlt⟩
  have hruns : ∀ tokens i u t, u.cursor.rest = tokens → σ.Here u →
      skip i (u.feed σ.old) = .ok () t → σ.Allows lax t →
      ∃ v, σ.Here v ∧ t = v.feed σ.old ∧ skip i (u.feed σ.new) = .ok () (v.feed σ.new) := by
    intro tokens
    induction tokens with
    | nil =>
        intro i u t hrest _ hrun hallows
        have hlt := (hlater _ i _ t rfl hrun).2
        rw [Splice.ahead_feed_of_nil hrest] at hlt
        exact absurd hallows.le_ahead (Nat.not_le_of_lt hlt)
    | cons token rest ih =>
        intro i u t hrest hu hrun hallows
        have hfeed := State.rest_feed_cons hrest
        cases honward : onward i token.kind with
        | none =>
            rw [hstop i _ token _ (hfeed σ.old) honward] at hrun
            cases hrun
            exact ⟨u.take token rest, hu.take hrest, rfl, hstop i _ token _ (hfeed σ.new) honward⟩
        | some j =>
            rw [hgo i j _ token _ (hfeed σ.old) honward] at hrun
            rw [hgo i j _ token _ (hfeed σ.new) honward]
            exact ih j (u.take token rest) t rfl (hu.take hrest) hrun hallows
  exact ⟨fun s _ t hrun => (hlater _ i s t rfl hrun).1,
    fun s _ t hrun _ => (hlater _ i s t rfl hrun).2, fun u _ t => hruns _ i u t rfl⟩

theorem skipPast (kind : TokenKind) :
    Unaware σ lax Always (Pass.onCursor (Cursor.skipPast kind)) := by
  refine .skip (fun _ : Unit => Pass.onCursor (Cursor.skipPast kind))
    (fun _ other => if other = kind then none else some ()) ?_ ?_ ?_ ()
  · intro _ s t hrest hrun
    rw [skipPast_nil hrest] at hrun
    cases hrun
  · intro _ s token rest hrest hstop
    have hkind : token.kind = kind := by simpa using hstop
    rw [skipPast_cons hrest, if_pos hkind]
  · intro _ _ s token rest hrest hgo
    have hkind : ¬ token.kind = kind := by simpa using hgo
    rw [skipPast_cons hrest, if_neg hkind]

theorem skipClosing (depth : Nat) : Unaware σ lax Always (Pass.skipClosing depth) := by
  refine .skip Pass.skipClosing depthAfter ?_ ?_ ?_ depth
  · intro depth s t hrest hrun
    rw [skipClosing_nil hrest] at hrun
    cases hrun
  · intro depth s token rest hrest hstop
    rw [skipClosing_cons hrest, hstop]
  · intro depth inner s token rest hrest hgo
    rw [skipClosing_cons hrest, hgo]

end Steps

section Loops

variable {took' : β → Prop}

/-- Under any bound a phrase goes as `r` does, if it does so whenever what it calls does. -/
theorem nestFrom {phrase : (ι → Pass α) → ι → Pass α} {r : ι → Pass α}
    (hphrase : ∀ again, (∀ i, Misses σ lax took (again i) (r i)) →
      ∀ i, Misses σ lax took (phrase again i) (r i)) (i : ι) :
    Misses σ lax took (Pass.nestFrom phrase i) (r i) := by
  have hbound : ∀ bound i, Misses σ lax took (Pass.nestUpTo phrase bound i) (r i) := by
    intro bound
    induction bound with
    | zero => exact fun _ => .fail fun _ _ _ => nofun
    | succ bound ih => exact hphrase _ ih
  exact ⟨fun s a t => (hbound (s.ahead + 1) i).later s a t,
    fun s a t => (hbound (s.ahead + 1) i).takes s a t,
    fun u a t => (hbound ((u.feed σ.old).ahead + 1) i).runs u a t⟩

theorem nest {phrase : Pass α → Pass α} {r : Pass α}
    (hphrase : ∀ again, Misses σ lax took again r → Misses σ lax took (phrase again) r) :
    Misses σ lax took (Pass.nest phrase) r :=
  nestFrom (r := fun _ => r) (fun again hagain _ => hphrase (again ()) (hagain ())) ()

theorem many {item item' : Pass (Option α)} (hprogress : ∀ n, Alike n IfSome item' item')
    (hitem : Misses σ lax IfSome item item') :
    Misses σ lax Never (Pass.many item) (Pass.many item') := by
  refine .nest fun more hmore => ?_
  rw [many_eq hprogress]
  refine .bind hitem fun found => ?_
  cases found with
  | none => exact .pure id
  | some a => exact .bind hmore fun _ => .pure id

theorem extend {link link' : α → Pass (Option α)}
    (hprogress : ∀ n a, Alike n IfSome (link' a) (link' a))
    (hlink : ∀ a, Misses σ lax IfSome (link a) (link' a)) (a : α) :
    Misses σ lax Never (Pass.extend link a) (Pass.extend link' a) := by
  refine .nestFrom (r := Pass.extend link') (fun more hmore a => ?_) a
  rw [extend_eq hprogress]
  refine .bind (hlink a) fun found => ?_
  cases found with
  | none => exact .pure id
  | some longer => exact hmore longer

theorem commaList {item item' : Pass α} (hprogress : ∀ n, Alike n Always item' item')
    (hitem : Misses σ lax Always item item') :
    Misses σ lax Always (Pass.commaList item) (Pass.commaList item') := by
  refine .nest fun more hmore => ?_
  rw [commaList_eq hprogress]
  refine .after hitem fun a => .bind (.link (by decide)) fun found => ?_
  cases found with
  | none => exact .pure id
  | some comma => exact .bind hmore fun _ => .pure id

end Loops

end Misses

end Pass

end OnePass
