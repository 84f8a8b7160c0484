import OnePass.Proofs.Recovery.Endings
import OnePass.Proofs.Rename.Lines
import OnePass.Proofs.Splice.Passes

/-!
Two runs, one on all tokens and one on the tokens without a semicolon that ends something. In front
of the semicolon both go alike, since neither sees what comes behind. At it, the first run takes it
and the second records that it is missing. Behind it both go alike again.

What comes behind the semicolon must not be readable as a part of what stands before it. That is not
assumed: what the first run reads next says so.
-/

namespace OnePass

theorem Calm.nil : Calm [] :=
  fun _ _ => nofun

theorem Calm.of_kind {token : Token} {rest : List Token} (h : token.kind ∉ linking) :
    Calm (token :: rest) := by
  intro kind hkind hhead
  have heq : token.kind = kind := Option.some.inj hhead
  exact h (heq ▸ hkind)

/-- A semicolon between the tokens in front of it and those behind it. -/
structure Gap where
  front : List Token
  semicolon : Token
  back : List Token
  front_ne_nil : front ≠ []
  kind_eq : semicolon.kind = .semicolon
  back_ne : headKind back ≠ some .semicolon

namespace Gap

/-- The tokens from the semicolon on. -/
def old (γ : Gap) : List Token :=
  γ.semicolon :: γ.back

theorem old_calm (γ : Gap) : Calm γ.old :=
  .of_kind (by rw [γ.kind_eq]; decide)

def splice (γ : Gap) (hcalm : Calm γ.back) : Splice where
  front := γ.front
  old := γ.old
  new := γ.back
  slack := 0
  quiet := true
  front_ne_nil := γ.front_ne_nil
  old_calm := γ.old_calm
  new_calm := hcalm
  closed := fun h => absurd h.symm Bool.false_ne_true

instance (γ : Gap) (hcalm : Calm γ.back) : (γ.splice hcalm).Tame where
  tail_calm := fun _ => hcalm .lparen (by decide)

/-- What only the second run records. -/
def residue (γ : Gap) : Residue :=
  { diagnostics := [⟨(γ.front.getLast γ.front_ne_nil).line, .missingSemicolon⟩] }

/-- Both runs are behind the semicolon. -/
def Behind (γ : Gap) (moved : Bool) (t t' : State) : Prop :=
  Mirrors (.lines id) γ.residue ⟨moved, true⟩ t t'

variable {γ : Gap} {u : State}

theorem lastLine_eq (hu : u.cursor.tokens = γ.front) (hnil : u.cursor.rest = []) :
    u.cursor.lastLine = (γ.front.getLast γ.front_ne_nil).line := by
  have hfront : u.cursor.consumed.reverse = γ.front := by
    rw [← hu, Cursor.tokens, hnil, List.append_nil]
  cases hconsumed : u.cursor.consumed with
  | nil =>
      rw [hconsumed] at hfront
      exact absurd hfront.symm γ.front_ne_nil
  | cons token consumed =>
      simp only [Cursor.lastLine, ← hfront, hconsumed, List.reverse_cons, List.getLast_concat]

/-- The first run has taken the semicolon, and the second has recorded that it is missing. -/
theorem behind_of_nil (hu : u.cursor.tokens = γ.front) (hnil : u.cursor.rest = [])
    (hfree : u.Free) (hquiet : u.diagnostics = #[]) :
    γ.Behind false ((u.feed γ.old).take γ.semicolon γ.back)
      { u.feed γ.back with
        diagnostics := u.diagnostics.push ⟨u.cursor.lastLine, .missingSemicolon⟩ } where
  rest := by
    have hid : γ.back.map (Token.rename (.lines id)) = γ.back :=
      List.map_id'' (Token.rename_of_line_id rfl) _
    simp [State.feed, State.take, hnil, hid]
  lastLine := fun h => absurd h Bool.false_ne_true
  globals := rfl
  locals := fun _ => rfl
  texts := rfl
  code := (List.map_id'' Instr.rename_lines _).symm
  free := hfree
  free' := hfree
  regs := (Nat.zero_add _).symm
  labels := (Nat.zero_add _).symm
  diagnostics := by simp [State.feed, State.take, hquiet, residue, lastLine_eq hu hnil]
  tables := by simp [State.feed, State.take, residue]

end Gap

/-- A log without diagnostics goes past what it leaves in the tree. -/
theorem Plays.rest_of_quiet {log : List Action} {s t : State} (h : Plays log s t)
    (hquiet : t.diagnostics = #[]) : s.cursor.rest = leavesOf log ++ t.cursor.rest := by
  obtain ⟨found, hfound, hrecords⟩ := h.diagnostics
  rw [hquiet] at hfound
  obtain ⟨_, rfl⟩ := List.append_eq_nil_iff.1 hfound.symm
  have hkept : ∀ action ∈ log, .undefined ∉ action.records := by
    intro action haction hundefined
    obtain ⟨_, hmem, _⟩ := hrecords _ (List.mem_flatMap.2 ⟨action, haction, hundefined⟩)
    cases hmem
  have hleaves : log.map Action.leaves = log.map Action.tokens :=
    List.map_congr_left fun action haction => Action.leaves_eq_tokens (hkept action haction)
  rw [h.rest hkept, leavesOf, List.flatMap_def, List.flatMap_def, hleaves]

namespace Pass

variable {α β : Type}

theorem recover_of_ne {kind : TokenKind} {missing : DiagnosticKind} {s : State}
    (h : s.cursor.peekKind? 0 ≠ some kind) : recover kind missing s =
      .ok none { s with diagnostics := s.diagnostics.push ⟨s.cursor.lastLine, missing⟩ } := by
  rw [recover_eq, bind_of_ok (accept_eq_none.2 ⟨rfl, h⟩)]
  rfl

/-- A pass misses what comes behind it, whatever that is. -/
def Nearsighted (lax : Bool) (took : α → Prop) (pass : Pass α) : Prop :=
  ∀ (σ : Splice) [σ.Tame], Unaware σ lax took pass

theorem later_of_misses {lax : Bool} {took : α → Prop} {pass : Pass α}
    (h : Nearsighted lax took pass) {s t : State} {a : α} (hrun : pass s = .ok a t) :
    s.Later t ∧ (took a → t.ahead < s.ahead) := by
  let σ : Splice :=
    ⟨[⟨.semicolon, "", 0⟩], [], [], 0, true, List.cons_ne_nil _ _, .nil, .nil, nofun⟩
  have : σ.Tame := ⟨fun _ => nofun⟩
  exact ⟨(h σ).later s a t hrun, (h σ).takes s a t hrun⟩

/-- The tokens that a pass goes past, if nothing is recorded. -/
def Consumes (tokens : α → List Token) (pass : Pass α) : Prop :=
  ∀ s a t, pass s = .ok a t → t.diagnostics = #[] → s.cursor.rest = tokens a ++ t.cursor.rest

/-- The item of a loop is what a pass reads, if the next tokens say that there is one. -/
def Asks (ask : Cursor → Bool) (pass : Pass α) (item : Pass (Option α)) : Prop :=
  ∀ s, item s = if ask s.cursor then (pass >>= fun a => pure (some a)) s else .ok none s

/-- What a pass reads first, if it reads anything, does not belong to what stands before it. -/
def Starts (pass : Pass α) : Prop :=
  ∀ s a t, pass s = .ok a t → Calm s.cursor.rest ∨ s.cursor.rest = t.cursor.rest

/-- A run without diagnostics on few enough tokens, between whose ends `E` holds. -/
structure Hits (n : Nat) (E : List Token → α → List Token → Prop) (pass : Pass α) (s : State)
    (a : α) (t : State) : Prop where
  bound : s.ahead < n
  free : s.Free
  run : pass s = .ok a t
  quiet : t.diagnostics = #[]
  ends : E s.cursor.rest a t.cursor.rest

/-- Behind the semicolon, the second pass goes as the first does. -/
structure After (γ : Gap) (moved : Bool) (like : α → α → Prop) (pass pass' : Pass α) :
    Prop where
  starts : ∀ s a t, pass s = .ok a t → t.diagnostics = #[] →
    Calm s.cursor.rest ∨ s.cursor.rest = t.cursor.rest
  runs : ∀ s s' a t, γ.Behind moved s s' → pass s = .ok a t → t.diagnostics = #[] →
    ∃ a' t', pass' s' = .ok a' t' ∧ γ.Behind false t t' ∧ like a a'

/-- If `E` holds, the semicolon ends something within the pass: it stands behind at least `margin`
tokens, and without it the pass gives a result like the one it gives with it. -/
structure Crosses (γ : Gap) (n margin : Nat) (E : List Token → α → List Token → Prop)
    (like : α → α → Prop) (pass : Pass α) : Prop where
  later : ∀ s a t, s.ahead < n → pass s = .ok a t → s.Later t
  place : ∀ s a t, Hits n E pass s a t → ∃ before semicolon, semicolon.kind = .semicolon ∧
    s.cursor.rest = before ++ semicolon :: γ.back ∧ margin ≤ before.length
  calm : ∀ s a t, Hits n E pass s a t → Calm γ.back ∨ γ.back = t.cursor.rest
  runs : ∀ (hcalm : Calm γ.back) u a t, (γ.splice hcalm).Here u →
    Hits n E pass (u.feed γ.old) a t →
      ∃ a' t', pass (u.feed γ.back) = .ok a' t' ∧ γ.Behind false t t' ∧ like a a'

namespace Consumes

variable {tokens : α → List Token}

theorem blind {step : Pass α} (h : IsBlind step) : Consumes (fun _ => []) step := by
  intro s a t hrun _
  have hcursor := h.cursor_eq s
  rw [hrun] at hcursor
  exact congrArg Cursor.rest hcursor.symm

theorem expect (kind : TokenKind) : Consumes (fun token => [token]) (Pass.expect kind) := by
  intro s token t hrun _
  obtain ⟨rest, hrest, rfl⟩ := advance_eq_ok.1 (expect_eq_ok.1 hrun).2
  exact hrest

theorem accept (kind : TokenKind) : Consumes Option.toList (Pass.accept kind) := by
  intro s found t hrun _
  cases found with
  | none =>
      obtain ⟨rfl, _⟩ := accept_eq_none.1 hrun
      rfl
  | some token =>
      obtain ⟨rest, hrest, rfl⟩ := advance_eq_ok.1 (accept_eq_some.1 hrun).2
      exact hrest

theorem recover (kind : TokenKind) (missing : DiagnosticKind) :
    Consumes Option.toList (Pass.recover kind missing) := by
  intro s found t hrun _
  cases found with
  | none =>
      have hreport := recover_eq_none hrun
      cases hreport
      rfl
  | some token =>
      obtain ⟨rest, hrest, rfl⟩ := advance_eq_ok.1 (recover_eq_some hrun).2
      exact hrest

theorem of_follows {pass : Pass α} {log : α → List Action} (h : Follows pass log)
    (htokens : ∀ a, tokens a = leavesOf (log a)) : Consumes tokens pass := by
  intro s a t hrun hquiet
  rw [htokens]
  exact (h s a t hrun).rest_of_quiet hquiet

/-- What a loop goes past is what its items go past, one after another. -/
theorem many {item : Pass (Option α)} (hlater : ∀ s found t, item s = .ok found t → s.Later t)
    (hitem : Consumes (fun found => found.elim [] tokens) item) :
    Consumes (List.flatMap tokens) (Pass.many item) := by
  intro s items t hrun
  refine (many_ok (P := fun s items t => s.Later t ∧ (t.diagnostics = #[] →
    s.cursor.rest = items.flatMap tokens ++ t.cursor.rest)) ?_ ?_ hrun).2
  · exact fun s t hstop => ⟨hlater s none t hstop, hitem s none t hstop⟩
  · intro s u t a items hsome ih
    refine ⟨(hlater s _ u hsome).trans ih.1, fun hquiet => ?_⟩
    rw [hitem s _ u hsome (ih.1.quiet hquiet), ih.2 hquiet, List.flatMap_cons, List.append_assoc]
    rfl

theorem asked {ask : Cursor → Bool} {pass : Pass α} {item : Pass (Option α)}
    (hasks : Asks ask pass item) (hpass : Consumes tokens pass) :
    Consumes (fun found => found.elim [] tokens) item := by
  intro s found t hrun hquiet
  rw [hasks] at hrun
  split at hrun
  · obtain ⟨a, u, ha, hpure⟩ := bind_eq_ok.1 hrun
    obtain ⟨rfl, rfl⟩ := pure_eq_ok.1 hpure
    exact hpass s a u ha hquiet
  · cases hrun
    rfl

end Consumes

namespace Starts

variable {step : Pass α} {next : α → Pass β}

theorem blind (h : IsBlind step) : Starts step := by
  intro s a t hrun
  have hcursor := h.cursor_eq s
  rw [hrun] at hcursor
  exact .inr (congrArg Cursor.rest hcursor.symm)

theorem pure (a : α) : Starts (Pure.pure a) := by
  intro s b t hrun
  obtain ⟨_, rfl⟩ := pure_eq_ok.1 hrun
  exact .inr rfl

theorem bind (hstep : Starts step) (hnext : ∀ a, Starts (next a)) : Starts (step >>= next) := by
  intro s b t hrun
  obtain ⟨a, u, ha, hb⟩ := bind_eq_ok.1 hrun
  rcases hstep s a u ha with hcalm | hrest
  · exact .inl hcalm
  · rw [hrest]
    exact hnext a u b t hb

/-- A step that has to read something of its own decides. -/
theorem calm_of_bind (hstep : ∀ s a t, step s = .ok a t → Calm s.cursor.rest) (s : State) (b : β)
    (t : State) (hrun : (step >>= next) s = .ok b t) : Calm s.cursor.rest := by
  obtain ⟨a, u, ha, _⟩ := bind_eq_ok.1 hrun
  exact hstep s a u ha

theorem first (hstep : ∀ s a t, step s = .ok a t → Calm s.cursor.rest) : Starts (step >>= next) :=
  fun s b t hrun => .inl (calm_of_bind hstep s b t hrun)

theorem calm_of_advance {s t : State} {token : Token} (hkind : token.kind ∉ linking)
    (h : advance s = .ok token t) : Calm s.cursor.rest := by
  obtain ⟨rest, hrest, _⟩ := advance_eq_ok.1 h
  rw [hrest]
  exact .of_kind hkind

theorem calm_of_expect {kind : TokenKind} (hkind : kind ∉ linking) (s : State) (token : Token)
    (t : State) (h : Pass.expect kind s = .ok token t) : Calm s.cursor.rest := by
  obtain ⟨rfl, hadvance⟩ := expect_eq_ok.1 h
  exact calm_of_advance hkind hadvance

/-- What is read by the kind of the next token cannot be read at tokens that go on with something
else, if these are unexpected. -/
theorem calm_of_current {next : Token → Pass β}
    (hnext : ∀ token, token.kind ∈ linking → ∀ s b t, next token s ≠ .ok b t) (s : State) (b : β)
    (t : State) (h : (Pass.current >>= next) s = .ok b t) : Calm s.cursor.rest := by
  obtain ⟨token, u, hcurrent, h⟩ := bind_eq_ok.1 h
  obtain ⟨hhead, rfl⟩ := current_eq_ok.1 hcurrent
  obtain ⟨rest, hrest⟩ := List.head?_eq_some_iff.1 hhead
  rw [hrest]
  exact .of_kind fun hlinking => hnext token hlinking s b t h

theorem expect {kind : TokenKind} (hkind : kind ∉ linking) : Starts (Pass.expect kind) :=
  fun s token t h => .inl (calm_of_expect hkind s token t h)

theorem accept {kind : TokenKind} (hkind : kind ∉ linking) : Starts (Pass.accept kind) := by
  intro s found t h
  cases found with
  | none =>
      obtain ⟨rfl, _⟩ := accept_eq_none.1 h
      exact .inr rfl
  | some token =>
      obtain ⟨rfl, hadvance⟩ := accept_eq_some.1 h
      exact .inl (calm_of_advance hkind hadvance)

theorem current : Starts Pass.current := by
  intro s token t h
  obtain ⟨_, rfl⟩ := current_eq_ok.1 h
  exact .inr rfl

theorem many {item : Pass (Option α)} (hitem : Starts item) : Starts (Pass.many item) := by
  intro s items t h
  refine nest_ok (P := fun s _ t => Calm s.cursor.rest ∨ s.cursor.rest = t.cursor.rest) ?_ h
  intro more hmore
  refine hitem.bind fun found => ?_
  cases found with
  | none => exact .pure _
  | some a => exact .bind hmore fun _ => .pure _

theorem asked {ask : Cursor → Bool} {pass : Pass α} {item : Pass (Option α)}
    (hasks : Asks ask pass item) (hpass : Starts pass) : Starts item := by
  intro s found t h
  rw [hasks] at h
  split at h
  · exact hpass.bind (fun a => .pure (some a)) s found t h
  · cases h
    exact .inr rfl

end Starts

namespace After

variable {γ : Gap} {moved moved' : Bool} {like : β → β → Prop}

theorem pure {a a' : β} (h : like a a') : After γ moved like (Pure.pure a) (Pure.pure a') := by
  refine ⟨?_, ?_⟩
  · intro s b t hrun _
    exact Starts.pure a s b t hrun
  · intro s s' b t hs hrun _
    obtain ⟨rfl, rfl⟩ := pure_eq_ok.1 hrun
    exact ⟨a', s', rfl, hs.mono (fun h => absurd h Bool.false_ne_true) id, h⟩

/-- A step that goes hand in hand with itself, and what follows it. -/
theorem sim {f : α → α} {step step' : Pass α} {next next' : α → Pass β}
    (hstep : Sim (.lines id) γ.residue ⟨moved, true⟩ ⟨moved', true⟩ f step step')
    (hstarts : Starts step) (hnext : ∀ a, After γ moved' like (next a) (next' (f a))) :
    After γ moved like (step >>= next) (step' >>= next') := by
  refine ⟨?_, ?_⟩
  · intro s b t hrun hquiet
    obtain ⟨a, u, ha, hb⟩ := bind_eq_ok.1 hrun
    rcases hstarts s a u ha with hcalm | hrest
    · exact .inl hcalm
    · rw [hrest]
      exact (hnext a).starts u b t hb hquiet
  · intro s s' b t hs hrun hquiet
    obtain ⟨a, u, ha, hb⟩ := bind_eq_ok.1 hrun
    have hagree := hstep s s' hs
    rw [ha] at hagree
    obtain ⟨u', ha', hu⟩ := hagree.exists_ok
    obtain ⟨b', t', hb', ht, hlike⟩ := (hnext a).runs u u' b t hu hb hquiet
    exact ⟨b', t', bind_eq_ok.2 ⟨f a, u', ha', hb'⟩, ht, hlike⟩

theorem ite {condition condition' : Prop} [Decidable condition] [Decidable condition']
    {yes yes' no no' : Pass β} (hcondition : condition' ↔ condition)
    (hyes : After γ moved like yes yes') (hno : After γ moved like no no') :
    After γ moved like (if condition then yes else no) (if condition' then yes' else no') := by
  by_cases h : condition
  · rw [if_pos h, if_pos (hcondition.2 h)]
    exact hyes
  · rw [if_neg h, if_neg fun h' => h (hcondition.1 h')]
    exact hno

/-- A token that may be there, and what follows in either case. -/
theorem accept {kind : TokenKind} {next next' : Option Token → Pass β} (hkind : kind ∉ linking)
    (hnone : After γ moved like (next none) (next' none))
    (hsome : ∀ token, After γ moved like (next (some token)) (next' (some token))) :
    After γ moved like (Pass.accept kind >>= next) (Pass.accept kind >>= next') := by
  have hsim : Respects (.lines id) γ.residue ⟨moved, true⟩ ⟨moved, true⟩
      (Option.map (Token.rename (.lines id))) (Pass.accept kind >>= Pure.pure) :=
    .accept (.pure rfl) fun _ => (Sim.pure rfl).mono (fun _ => rfl) id (fun _ => rfl) id
  rw [bind_pure] at hsim
  refine .sim hsim (.accept hkind) fun found => ?_
  cases found with
  | none => exact hnone
  | some token =>
      rw [Option.map_some, Token.rename_of_line_id rfl]
      exact hsome token

theorem emit {instr : Instr} {next next' : Unit → Pass β}
    (hnext : ∀ u, After γ moved like (next u) (next' u)) :
    After γ moved like (Pass.emit instr >>= next) (Pass.emit instr >>= next') :=
  .sim (.emit (Instr.rename_lines instr).symm) (.blind (.emit instr)) hnext

/-- An instruction under a condition, and what follows it in either case. -/
theorem joined {condition : Prop} [Decidable condition] {instr : Instr}
    {next next' : Unit → Pass β} (hnext : ∀ u, After γ moved like (next u) (next' u)) :
    After γ moved like (if condition then Pass.emit instr >>= next else next ())
      (if condition then Pass.emit instr >>= next' else next' ()) :=
  .ite Iff.rfl (.emit hnext) (hnext ())

theorem freshLabel {next next' : Label → Pass β}
    (hnext : ∀ label, After γ moved like (next label) (next' label)) :
    After γ moved like (Pass.freshLabel >>= next) (Pass.freshLabel >>= next') := by
  refine .sim .freshLabel (.blind .freshLabel) fun label => ?_
  rw [Label.rename_lines]
  exact hnext label

/-- A token that may be left out is there, since nothing is recorded, and what it leads to is not
where the semicolon was. -/
theorem recover {kind : TokenKind} {missing : DiagnosticKind} {f : α → α} {step : Pass α}
    {g g' : Option Token → α → β} (hkind : kind ∉ linking)
    (hlater : ∀ s a t, step s = .ok a t → s.Later t)
    (hstep : Respects (.lines id) γ.residue ⟨true, true⟩ ⟨true, true⟩ f step)
    (hlike : ∀ token a, like (g (some token) a) (g' (some token) (f a))) :
    After γ moved like (Pass.recover kind missing >>= fun found => step >>= fun a =>
        Pure.pure (g found a))
      (Pass.recover kind missing >>= fun found => step >>= fun a => Pure.pure (g' found a)) := by
  have hfound : ∀ s b t, (Pass.recover kind missing >>= fun found => step >>= fun a =>
      Pure.pure (g found a)) s = .ok b t → t.diagnostics = #[] →
      ∃ token u a, Pass.expect kind s = .ok token u ∧ step u = .ok a t ∧ b = g (some token) a := by
    intro s b t hrun hquiet
    obtain ⟨found, u, hrecover, hrest⟩ := bind_eq_ok.1 hrun
    obtain ⟨a, w, ha, hpure⟩ := bind_eq_ok.1 hrest
    obtain ⟨rfl, rfl⟩ := pure_eq_ok.1 hpure
    cases found with
    | none =>
        have hreport := recover_eq_none hrecover
        cases hreport
        exact absurd ((hlater _ a w ha).quiet hquiet) (by simp)
    | some token => exact ⟨token, u, a, expect_eq_ok.2 (recover_eq_some hrecover), ha, rfl⟩
  refine ⟨?_, ?_⟩
  · intro s b t hrun hquiet
    obtain ⟨token, u, _, hexpect, _⟩ := hfound s b t hrun hquiet
    exact .inl (Starts.calm_of_expect hkind s token u hexpect)
  · intro s s' b t hs hrun hquiet
    obtain ⟨token, u, a, hexpect, ha, rfl⟩ := hfound s b t hrun hquiet
    have htoken := Sim.expect kind s s' hs
    rw [hexpect] at htoken
    obtain ⟨u', hexpect', hu⟩ := htoken.exists_ok
    rw [Token.rename_of_line_id rfl] at hexpect'
    have hrest := hstep u u' hu
    rw [ha] at hrest
    obtain ⟨t', ha', ht⟩ := hrest.exists_ok
    have hrecover' : Pass.recover kind missing s' = .ok (some token) u' := by
      rw [recover_eq, bind_of_ok (accept_eq_some.2 (expect_eq_ok.1 hexpect'))]
      rfl
    refine ⟨_, t', ?_, ht.mono (fun h => absurd h Bool.false_ne_true) id, hlike token a⟩
    exact bind_eq_ok.2 ⟨some token, u', hrecover', bind_eq_ok.2 ⟨f a, t', ha', rfl⟩⟩

end After

namespace Crosses

variable {γ : Gap} {n margin : Nat} {E : List Token → β → List Token → Prop}
  {like : β → β → Prop}

theorem early {pass : Pass β} (h : Crosses γ n margin E like pass) {s t : State} {b : β}
    (hit : Hits n E pass s b t) : γ.old.length + margin ≤ s.ahead := by
  obtain ⟨before, semicolon, _, hrest, hmargin⟩ := h.place s b t hit
  rw [State.ahead, hrest, List.length_append, Nat.add_comm]
  exact Nat.add_le_add_right hmargin _

section Rules

variable {lax : Bool} {took : α → Prop} {step : Pass α} {next : α → Pass β}

theorem mono {m less : Nat} {pass : Pass β} (h : Crosses γ n margin E like pass) (hm : m ≤ n)
    (hless : less ≤ margin) : Crosses γ m less E like pass := by
  have hits : ∀ {s b t}, Hits m E pass s b t → Hits n E pass s b t :=
    fun hit => { hit with bound := Nat.lt_of_lt_of_le hit.bound hm }
  refine ⟨fun s b t hbound => h.later s b t (Nat.lt_of_lt_of_le hbound hm), fun s b t hit => ?_,
    fun s b t hit => h.calm s b t (hits hit),
    fun hcalm u b t hu hit => h.runs hcalm u b t hu (hits hit)⟩
  obtain ⟨before, semicolon, hkind, hrest, hmargin⟩ := h.place s b t (hits hit)
  exact ⟨before, semicolon, hkind, hrest, Nat.le_trans hless hmargin⟩

/-- A pass in which the semicolon ends nothing. -/
theorem never {pass : Pass β} (hlater : ∀ s b t, pass s = .ok b t → s.Later t)
    (hnever : ∀ s b t, pass s = .ok b t → ¬ E s.cursor.rest b t.cursor.rest) :
    Crosses γ n margin E like pass :=
  ⟨fun s b t _ => hlater s b t, fun s b t hit => absurd hit.ends (hnever s b t hit.run),
    fun s b t hit => absurd hit.ends (hnever s b t hit.run),
    fun _ _ b t _ hit => absurd hit.ends (hnever _ b t hit.run)⟩

theorem unexpected (expected : Expected) :
    Crosses γ n margin E like (Pass.unexpected expected : Pass β) :=
  .never (fun _ _ _ h => absurd h unexpected_ne_ok) fun _ _ _ h => absurd h unexpected_ne_ok

theorem missed {like : α → α → Prop} (hmiss : Nearsighted lax took step) :
    Crosses γ n margin (fun _ _ _ => False) like step :=
  .never (fun _ _ _ hrun => (later_of_misses hmiss hrun).1) fun _ _ _ _ => id

theorem pure {b : β} (hnever : ∀ r, ¬ E r b r) : Crosses γ n margin E like (Pure.pure b) := by
  refine .never ?_ ?_
  · intro s b t hrun
    obtain ⟨_, rfl⟩ := pure_eq_ok.1 hrun
    exact .refl s
  · intro s b t hrun
    obtain ⟨rfl, rfl⟩ := pure_eq_ok.1 hrun
    exact hnever _

theorem ite {condition : Prop} [Decidable condition] {yes no : Pass β}
    (hyes : Crosses γ n margin E like yes) (hno : Crosses γ n margin E like no) :
    Crosses γ n margin E like (if condition then yes else no) := by
  by_cases h : condition
  · rw [if_pos h]
    exact hyes
  · rw [if_neg h]
    exact hno

/-- The semicolon ends something within the step, or else within what follows. -/
theorem seq {margin' : Nat} {like₁ : α → α → Prop} {E₁ : α → List Token → Prop}
    {F : α → List Token → β → List Token → Prop}
    (hstep : Crosses γ n margin' (fun _ => E₁) like₁ step)
    (hmiss : Nearsighted lax took step) (hlax : lax = false → 0 < margin)
    (hmargin : ∀ s a w, step s = .ok a w → margin' + w.ahead ≤ margin + s.ahead)
    (hcarry : ∀ s a w b r, step s = .ok a w → w.diagnostics = #[] → E s.cursor.rest b r →
      E₁ a w.cursor.rest ∨ F a w.cursor.rest b r)
    (hnext : ∀ a m, m ≤ n → (took a → m < n) → Crosses γ m margin (F a) like (next a))
    (hlike : ∀ a r, E₁ a r → like₁ a a)
    (hafter : ∀ a a', like₁ a a' → After γ false like (next a) (next a')) :
    Crosses γ n margin' E like (step >>= next) := by
  have hrest : ∀ s a w, s.ahead < n → step s = .ok a w →
      Crosses γ (w.ahead + 1) margin (F a) like (next a) := by
    intro s a w hbound ha
    obtain ⟨hlater, htakes⟩ := later_of_misses hmiss ha
    refine hnext a _ ?_ fun htook => ?_
    · exact Nat.le_trans (Nat.succ_le_succ hlater.ahead_le) hbound
    · exact Nat.lt_of_le_of_lt (htakes htook) hbound
  have hsplit : ∀ s b t, Hits n E (step >>= next) s b t → ∃ a w, step s = .ok a w ∧
      next a w = .ok b t ∧ (Hits n (fun _ => E₁) step s a w ∨
        Hits (w.ahead + 1) (F a) (next a) w b t) := by
    intro s b t hit
    obtain ⟨a, w, ha, hb⟩ := bind_eq_ok.1 hit.run
    have hquiet := ((hrest s a w hit.bound ha).later w b t (Nat.lt_succ_self _) hb).quiet hit.quiet
    refine ⟨a, w, ha, hb, ?_⟩
    rcases hcarry s a w b _ ha hquiet hit.ends with hends | hends
    · exact .inl ⟨hit.bound, hit.free, ha, hquiet, hends⟩
    · exact .inr ⟨Nat.lt_succ_self _, (later_of_misses hmiss ha).1.free hit.free, hb, hit.quiet,
        hends⟩
  refine ⟨?_, ?_, ?_, ?_⟩
  · intro s b t hbound hrun
    obtain ⟨a, w, ha, hb⟩ := bind_eq_ok.1 hrun
    exact (later_of_misses hmiss ha).1.trans
      ((hrest s a w hbound ha).later w b t (Nat.lt_succ_self _) hb)
  · intro s b t hit
    obtain ⟨a, w, ha, _, hin | hin⟩ := hsplit s b t hit
    · exact hstep.place s a w hin
    · obtain ⟨before, semicolon, hkind, hplace, hlong⟩ :=
        (hrest s a w hit.bound ha).place w b t hin
      obtain ⟨read, hread⟩ := (later_of_misses hmiss ha).1.rest
      refine ⟨read ++ before, semicolon, hkind, ?_, ?_⟩
      · rw [← hread, hplace, List.append_assoc]
      · have hmargin := hmargin s a w ha
        have hlength := congrArg List.length hread
        rw [List.length_append] at hlength ⊢
        simp only [State.ahead] at hmargin
        omega
  · intro s b t hit
    obtain ⟨a, w, ha, hb, hin | hin⟩ := hsplit s b t hit
    · rcases hstep.calm s a w hin with hcalm | hback
      · exact .inl hcalm
      · rw [hback]
        exact (hafter a a (hlike a _ hin.ends)).starts w b t hb hit.quiet
    · exact (hrest s a w hit.bound ha).calm w b t hin
  · intro hcalm u b t hu hit
    obtain ⟨a, w, ha, hb, hin | hin⟩ := hsplit _ b t hit
    · obtain ⟨a', w', ha', hw, hlike⟩ := hstep.runs hcalm u a w hu hin
      obtain ⟨b', t', hb', ht, hlike⟩ := (hafter a a' hlike).runs w w' b t hw hb hit.quiet
      exact ⟨b', t', bind_eq_ok.2 ⟨a', w', ha', hb'⟩, ht, hlike⟩
    · have hrest := hrest _ a w hit.bound ha
      have hquiet := (hrest.later w b t (Nat.lt_succ_self _) hb).quiet hit.quiet
      have hearly := hrest.early hin
      have hallows : (γ.splice hcalm).Allows lax w := by
        cases lax with
        | false => exact .inl (Nat.lt_of_lt_of_le (Nat.lt_add_of_pos_right (hlax rfl)) hearly)
        | true =>
            rcases Nat.lt_or_eq_of_le (Nat.le_of_add_right_le hearly) with hlt | heq
            · exact .inl hlt
            · exact .inr ⟨rfl, heq.symm, fun _ => hquiet⟩
      obtain ⟨v, hv, rfl, ha'⟩ := (hmiss _).runs u a w hu ha hallows
      obtain ⟨b', t', hb', ht, hlike⟩ := hrest.runs hcalm v b t hv hin
      exact ⟨b', t', bind_eq_ok.2 ⟨a, _, ha', hb'⟩, ht, hlike⟩

section Before

variable {D : β → List Token → Prop}

/-- A step in front of the semicolon. Right in front of it only what may end there can be. -/
theorem reach (hmiss : Nearsighted lax took step) (hlax : lax = false → 0 < margin)
    (hnext : ∀ a, Crosses γ n margin (fun _ => D) like (next a)) :
    Crosses γ n margin (fun _ => D) like (step >>= next) :=
  seq (.missed hmiss) hmiss hlax
    (fun _ _ _ hrun => Nat.add_le_add_left (later_of_misses hmiss hrun).1.ahead_le _)
    (fun _ _ _ _ _ _ _ hends => .inr hends) (fun a _ hm _ => (hnext a).mono hm (Nat.le_refl _))
    (fun _ _ => False.elim) fun _ _ => False.elim

/-- A step in front of the semicolon that reads a token. -/
theorem reachFirst (hmiss : Nearsighted lax Always step) (hlax : lax = false → 0 < margin)
    (hnext : ∀ a, Crosses γ n margin (fun _ => D) like (next a)) :
    Crosses γ (n + 1) (margin + 1) (fun _ => D) like (step >>= next) := by
  refine seq (F := fun _ _ => D) (.missed hmiss) hmiss hlax (fun s a w hrun => ?_)
    (fun _ _ _ _ _ _ _ hends => .inr hends) (fun a m _ hm => ?_)
    (fun _ _ => False.elim) fun _ _ => False.elim
  · have hlt := (later_of_misses hmiss hrun).2 trivial
    omega
  · exact (hnext a).mono (Nat.le_of_lt_succ (hm trivial)) (Nat.le_refl _)

theorem behind (hmiss : Nearsighted false took step)
    (hnext : ∀ a, Crosses γ n (margin + 1) (fun _ => D) like (next a)) :
    Crosses γ n (margin + 1) (fun _ => D) like (step >>= next) :=
  reach hmiss (fun _ => Nat.succ_pos margin) hnext

theorem first (hmiss : Nearsighted false Always step)
    (hnext : ∀ a, Crosses γ n (margin + 1) (fun _ => D) like (next a)) :
    Crosses γ (n + 1) (margin + 2) (fun _ => D) like (step >>= next) :=
  reachFirst hmiss (fun _ => Nat.succ_pos margin) hnext

theorem upTo (hmiss : Nearsighted true took step)
    (hnext : ∀ a, Crosses γ n margin (fun _ => D) like (next a)) :
    Crosses γ n margin (fun _ => D) like (step >>= next) :=
  reach hmiss nofun hnext

theorem firstUpTo (hmiss : Nearsighted true Always step)
    (hnext : ∀ a, Crosses γ n margin (fun _ => D) like (next a)) :
    Crosses γ n (margin + 1) (fun _ => D) like (step >>= next) :=
  (reachFirst hmiss nofun hnext).mono (Nat.le_succ n) (Nat.le_refl _)

/-- The pass that has the semicolon to end it. -/
theorem closing {f : Option Token → β}
    (hends : ∀ found r, D (f found) r → found.isSome = true ∧ γ.back = r)
    (hlike : ∀ found, like (f found) (f none)) : Crosses γ n 0 (fun _ => D) like
      (Pass.recoverSemicolon >>= fun found => Pure.pure (f found)) := by
  have hpass : ∀ (σ : Splice) [σ.Tame], Unaware σ false Never
      (Pass.recoverSemicolon >>= fun found => Pure.pure (f found)) :=
    fun _ => .bind (.recover nofun) fun _ => .pure id
  have hfound : ∀ s b t, Hits n (fun _ => D)
      (Pass.recoverSemicolon >>= fun found => Pure.pure (f found)) s b t →
      ∃ token, token.kind = .semicolon ∧ b = f (some token) ∧
        s.cursor.rest = token :: γ.back ∧ t = s.take token γ.back := by
    intro s b t hit
    obtain ⟨found, w, hrecover, hpure⟩ := bind_eq_ok.1 hit.run
    obtain ⟨rfl, rfl⟩ := pure_eq_ok.1 hpure
    obtain ⟨hsome, hback⟩ := hends found _ hit.ends
    obtain ⟨token, rfl⟩ := Option.isSome_iff_exists.1 hsome
    obtain ⟨hkind, hadvance⟩ := recover_eq_some hrecover
    obtain ⟨rest, hrest, rfl⟩ := advance_eq_ok.1 hadvance
    rw [hback]
    exact ⟨token, hkind, rfl, hrest, rfl⟩
  refine ⟨fun s b t _ hrun => (later_of_misses hpass hrun).1, ?_, ?_, ?_⟩
  · intro s b t hit
    obtain ⟨token, hkind, _, hrest, _⟩ := hfound s b t hit
    exact ⟨[], token, hkind, hrest, Nat.le_refl _⟩
  · intro s b t hit
    obtain ⟨token, _, _, _, rfl⟩ := hfound s b t hit
    exact .inr rfl
  · intro hcalm u b t hu hit
    obtain ⟨token, _, rfl, hrest, rfl⟩ := hfound _ b t hit
    have hnil : u.cursor.rest = [] := by
      have hlength := congrArg List.length hrest
      rw [← List.length_eq_zero_iff]
      simpa [State.feed, Gap.old] using hlength
    have htoken : γ.semicolon = token := by
      simpa [State.feed, Gap.old, hnil] using hrest
    have hpeek : (u.feed γ.back).cursor.peekKind? 0 ≠ some .semicolon := by
      rw [Splice.headKind_rest_feed, hnil, List.nil_append]
      exact γ.back_ne
    have hbehind := Gap.behind_of_nil hu hnil hit.free hit.quiet
    rw [← hu.lastLine_feed γ.back, htoken] at hbehind
    exact ⟨f none, _, bind_eq_ok.2 ⟨none, _, recover_of_ne hpeek, rfl⟩, hbehind, hlike _⟩

end Before

/-- A step whose tokens stand before what follows it. -/
theorem past {tokens : α → List Token} (hmiss : Nearsighted false took step)
    (htokens : Consumes tokens step)
    (hnext : ∀ a, Crosses γ n (margin + 1) (fun r => E (tokens a ++ r)) like (next a)) :
    Crosses γ n (margin + 1) E like (step >>= next) := by
  refine seq (.missed hmiss) hmiss (fun _ => Nat.succ_pos margin)
    (fun _ _ _ hrun => Nat.add_le_add_left (later_of_misses hmiss hrun).1.ahead_le _)
    (fun s a w b r hrun hquiet hends => .inr ?_)
    (fun a _ hm _ => (hnext a).mono hm (Nat.le_refl _)) (fun _ _ => False.elim)
    fun _ _ => False.elim
  rwa [htokens s a w hrun hquiet] at hends

theorem pastBlind (hblind : IsBlind step)
    (hnext : ∀ a, Crosses γ n (margin + 1) E like (next a)) :
    Crosses γ n (margin + 1) E like (step >>= next) :=
  past (fun _ => .blind hblind) (.blind hblind) hnext

/-- A step under a condition, and what follows it in either case. -/
theorem joined {condition : Prop} [Decidable condition] {step : Pass Unit} {next : Unit → Pass β}
    (hblind : IsBlind step) (hnext : ∀ u, Crosses γ n (margin + 1) E like (next u)) :
    Crosses γ n (margin + 1) E like (if condition then step >>= next else next ()) :=
  .ite (pastBlind hblind hnext) (hnext ())

section Parts

variable {tokens : α → List Token} {ends : α → List Token → List (List Token)}
  {like₁ : α → α → Prop}

/-- A step in which the semicolon ends something, or else what follows it does. -/
theorem splitPast
    (hstep : Crosses γ n (margin + 1) (fun _ a r => γ.back ∈ ends a r) like₁ step)
    (hmiss : Nearsighted false took step) (htokens : Consumes tokens step)
    (hlike : ∀ a, like₁ a a)
    (hnext : ∀ a m, m ≤ n → (took a → m < n) → Crosses γ m (margin + 1)
      (fun r b r' => E (tokens a ++ r) b r' ∧ γ.back ∉ ends a r) like (next a))
    (hafter : ∀ a a', like₁ a a' → After γ false like (next a) (next a')) :
    Crosses γ n (margin + 1) E like (step >>= next) := by
  refine seq hstep hmiss (fun _ => Nat.succ_pos margin)
    (fun _ _ _ hrun => Nat.add_le_add_left (later_of_misses hmiss hrun).1.ahead_le _)
    (fun s a w b r hrun hquiet hends => ?_) hnext (fun a _ _ => hlike a) hafter
  rw [htokens s a w hrun hquiet] at hends
  exact (Classical.em _).imp_right fun hnot => ⟨hends, hnot⟩

/-- The same in front of all that the tokens of the step matter to. -/
theorem split {D : β → List Token → Prop}
    (hstep : Crosses γ n (margin + 1) (fun _ a r => γ.back ∈ ends a r) like₁ step)
    (hmiss : Nearsighted false took step) (hlike : ∀ a, like₁ a a)
    (hnext : ∀ a m, m ≤ n → (took a → m < n) → Crosses γ m (margin + 1)
      (fun r b r' => D b r' ∧ γ.back ∉ ends a r) like (next a))
    (hafter : ∀ a a', like₁ a a' → After γ false like (next a) (next a')) :
    Crosses γ n (margin + 1) (fun _ => D) like (step >>= next) :=
  seq hstep hmiss (fun _ => Nat.succ_pos margin)
    (fun _ _ _ hrun => Nat.add_le_add_left (later_of_misses hmiss hrun).1.ahead_le _)
    (fun _ _ _ _ _ _ _ hends => (Classical.em _).imp_right fun hnot => ⟨hends, hnot⟩) hnext
    (fun a _ _ => hlike a) hafter

end Parts

/-- A pass that goes one way or another by what comes next. Both runs go the same way, since there
are enough tokens in front of the semicolon. -/
theorem decided {ι : Type} (ask : Cursor → ι) (branch : ι → Pass β) {pass : Pass β}
    (heq : ∀ s, pass s = branch (ask s.cursor) s)
    (hsame : Calm γ.back → ∀ u : State, margin ≤ u.cursor.rest.length →
      branch (ask (u.feed γ.back).cursor) = branch (ask (u.feed γ.old).cursor))
    (hbranch : ∀ i, Crosses γ n margin E like (branch i)) : Crosses γ n margin E like pass := by
  have hits : ∀ {s b t}, Hits n E pass s b t → Hits n E (branch (ask s.cursor)) s b t :=
    fun hit => { hit with run := (heq _).symm.trans hit.run }
  refine ⟨?_, fun s b t hit => (hbranch _).place s b t (hits hit),
    fun s b t hit => (hbranch _).calm s b t (hits hit), ?_⟩
  · intro s b t hbound hrun
    rw [heq] at hrun
    exact (hbranch _).later s b t hbound hrun
  · intro hcalm u b t hu hit
    have hearly := (hbranch _).early (hits hit)
    rw [Splice.ahead_feed, Nat.add_comm, Nat.add_le_add_iff_right] at hearly
    rw [heq, hsame hcalm u hearly]
    exact (hbranch _).runs hcalm u b t hu (hits hit)

theorem current {next : Token → Pass β}
    (hnext : ∀ token, Crosses γ n (margin + 1) E like (next token)) :
    Crosses γ n (margin + 1) E like (Pass.current >>= next) := by
  refine .decided (fun cursor => cursor.rest.head?)
    (fun head => head.elim (throw (.unexpectedEof .token)) next) (current_bind_eq next)
    (fun _ u hlength => ?_) fun head => ?_
  · have hne := List.length_pos_iff.1 (Nat.lt_of_lt_of_le (Nat.succ_pos margin) hlength)
    rw [Splice.head?_feed hne, Splice.head?_feed hne]
  · cases head with
    | none =>
        refine .never ?_ ?_ <;> intro s b t hrun <;> cases hrun
    | some token => exact hnext token

/-- The token behind the next one decides between two passes. -/
theorem fork {kind : TokenKind} {yes no : Pass β} (hkind : kind ∈ linking)
    (hyes : Crosses γ n (margin + 1) E like yes) (hno : Crosses γ n (margin + 1) E like no) :
    Crosses γ n (margin + 1) E like
      (Pass.peekKind 1 >>= fun second => if second = some kind then yes else no) := by
  refine .decided (Cursor.peekKind? · 1) (fun second => if second = some kind then yes else no)
    (fun _ => rfl) (fun hcalm u hlength => ?_) fun _ => .ite hyes hno
  obtain ⟨first, rest, hrest⟩ := List.exists_cons_of_length_pos
    (Nat.lt_of_lt_of_le (Nat.succ_pos margin) hlength)
  simp only [peekKind?_eq, State.feed, hrest, List.cons_append, List.drop_succ_cons,
    List.drop_zero]
  cases rest with
  | nil =>
      rw [List.nil_append, List.nil_append, if_neg (hcalm kind hkind),
        if_neg (γ.old_calm kind hkind)]
  | cons second rest => rfl

end Rules

section Loops

variable {tokens : α → List Token} {ends : α → List Token → List (List Token)}
  {likeItem : α → α → Prop} {likeAll : List α → List α → Prop} {f : α → α}
  {item : Pass (Option α)}

theorem zero {pass : Pass β} : Crosses γ 0 margin E like pass :=
  ⟨fun s _ _ hbound => absurd hbound (Nat.not_lt_zero s.ahead),
    fun s _ _ hit => absurd hit.bound (Nat.not_lt_zero s.ahead),
    fun s _ _ hit => absurd hit.bound (Nat.not_lt_zero s.ahead),
    fun _ _ _ _ _ hit => absurd hit.bound (Nat.not_lt_zero _)⟩

/-- In a loop the semicolon ends something within one of the items. -/
theorem many
    (hitem : Crosses γ n (margin + 1) (fun _ found r => γ.back ∈ found.elim [] (ends · r))
      (Option.Rel likeItem) item)
    (hprogress : ∀ n, Alike n IfSome item item) (hmiss : Nearsighted false IfSome item)
    (htokens : Consumes (fun found => found.elim [] tokens) item) (hstarts : Starts item)
    (hsim : Respects (.lines id) γ.residue ⟨false, true⟩ ⟨false, true⟩ (Option.map f) item)
    (hlike : ∀ a, likeItem a a) (hlikeAll : ∀ items, likeAll items items)
    (hlikeMap : ∀ items, likeAll items (items.map f))
    (hlikeCons : ∀ a a' items items', likeItem a a' → likeAll items items' →
      likeAll (a :: items) (a' :: items')) :
    Crosses γ n (margin + 1) (fun _ items r => γ.back ∈ endingsOf tokens ends items r) likeAll
      (Pass.many item) := by
  have hmore := htokens.many fun _ _ _ hrun => (later_of_misses hmiss hrun).1
  have hupTo : ∀ m, m ≤ n → Crosses γ m (margin + 1)
      (fun _ items r => γ.back ∈ endingsOf tokens ends items r) likeAll (Pass.many item) := by
    intro m
    induction m with
    | zero => exact fun _ => .zero
    | succ m ih =>
        intro hm
        rw [many_eq hprogress]
        refine .split (hitem.mono hm (Nat.le_refl _)) hmiss ?_ (fun found k _ htook => ?_)
          fun found found' hrel => ?_
        · intro found
          cases found with
          | none => exact .none
          | some a => exact .some (hlike a)
        · cases found with
          | none => exact .pure fun r hends => List.not_mem_nil hends.1
          | some a =>
              have hrest := (ih (Nat.le_of_succ_le hm)).mono (Nat.le_of_lt_succ (htook rfl))
                (Nat.le_refl (margin + 1))
              refine .splitPast hrest (fun σ => .many hprogress (hmiss σ)) hmore hlikeAll
                (fun items _ _ _ => .pure fun r hends => ?_)
                fun items items' hitems => .pure (hlikeCons a a items items' (hlike a) hitems)
              obtain ⟨⟨hmem, hfirst⟩, hlater⟩ := hends
              exact (List.mem_append.1 hmem).elim hfirst hlater
        · cases hrel with
          | none => exact .pure (hlikeAll [])
          | some ha =>
              exact .sim (.many hsim) (.many hstarts) fun items =>
                .pure (hlikeCons _ _ items _ ha (hlikeMap items))
  exact hupTo n (Nat.le_refl n)

/-- An item in which the semicolon ends something is there without the semicolon, too. -/
theorem asked {ask : Cursor → Bool} {pass : Pass α} (hasks : Asks ask pass item)
    (hpass : Crosses γ n (margin + 1) (fun _ a r => γ.back ∈ ends a r) likeItem pass)
    (hmiss : Nearsighted false Always pass) (hlike : ∀ a, likeItem a a)
    (hsame : Calm γ.back → ∀ u : State, margin + 1 ≤ u.cursor.rest.length →
      ask (u.feed γ.back).cursor = ask (u.feed γ.old).cursor) :
    Crosses γ n (margin + 1) (fun _ found r => γ.back ∈ found.elim [] (ends · r))
      (Option.Rel likeItem) item := by
  refine .decided ask (fun yes => if yes = true then pass >>= fun a => Pure.pure (some a)
    else Pure.pure none) (fun s => ?_) (fun hcalm u hlength => ?_) fun yes => .ite ?_ ?_
  · rw [hasks]
    split <;> rfl
  · rw [hsame hcalm u hlength]
  · exact .split hpass hmiss hlike
      (fun a _ _ _ => .pure fun r hends => hends.2 hends.1) fun a a' ha => .pure (.some ha)
  · exact .pure fun _ => List.not_mem_nil

end Loops

end Crosses

end Pass

end OnePass
