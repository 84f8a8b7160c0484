import OnePass.Proofs.Recovery.Passes
import OnePass.Proofs.Recovery.Strays

/-!
Two runs, one on some tokens and one on these tokens with a stray statement in between. In front of
the point where it stands both go alike, since neither sees what comes behind; there a statement may
have ended, but what comes next in the second run is a name, and no statement goes on with one. At
the point the second run reads the stray statement and records its name. Behind it both go alike
again.
-/

namespace OnePass

/-- A stray statement between the tokens in front of it and those behind it. It does not come
between an opening parenthesis and a semicolon, where it could be read as an argument. -/
structure Insertion where
  front : List Token
  name : Token
  tail : List Token
  back : List Token
  front_ne_nil : front ≠ []
  name_kind : name.kind = .ident
  stray : StrayTail tail
  closed : headKind back = some .semicolon → lastKind front ≠ some .lparen

namespace Insertion

/-- The tokens from the stray statement on. -/
def new (ι : Insertion) : List Token :=
  ι.name :: (ι.tail ++ ι.back)

theorem new_calm (ι : Insertion) : Calm ι.new :=
  .of_kind (by rw [ι.name_kind]; decide)

def splice (ι : Insertion) (hcalm : Calm ι.back) (slack : Nat) : Splice where
  front := ι.front
  old := ι.back
  new := ι.new
  slack := slack
  quiet := false
  front_ne_nil := ι.front_ne_nil
  old_calm := hcalm
  new_calm := ι.new_calm
  closed := fun _ => ι.closed

/-- Both runs are behind the point, and only the second has recorded the name. -/
def Apart (ι : Insertion) (moved : Bool) (t t' : State) : Prop :=
  ∃ earlier base, Mirrors (.lines id) { diagnostics := earlier } ⟨moved, true⟩ base t ∧
    Mirrors (.lines id) { diagnostics := earlier ++ [⟨ι.name.line, .undefined⟩] } ⟨moved, true⟩
      base t'

/-- The log leads to the point, where the name is unknown. -/
def Reached (ι : Insertion) (before : List Action) (s : State) : Prop :=
  ∃ g, Plays before s g ∧ g.cursor.rest = ι.back ∧ g.scopes.nearest? ι.name.value = none

variable {ι : Insertion} {moved : Bool} {t t' : State}

theorem Apart.forget (h : ι.Apart moved t t') : ι.Apart false t t' := by
  obtain ⟨earlier, base, hbase, hbase'⟩ := h
  exact ⟨earlier, base, hbase.mono (fun h => absurd h Bool.false_ne_true) id,
    hbase'.mono (fun h => absurd h Bool.false_ne_true) id⟩

/-- The second run has read the stray statement. -/
theorem apart_overlook {u : State} (hnil : u.cursor.rest = []) (hfree : u.Free) :
    ι.Apart false (u.feed ι.back) ((u.feed ι.new).overlook ι.name ι.tail ι.back) := by
  have hback : ι.back.map (Token.rename (.lines id)) = ι.back :=
    List.map_id'' (Token.rename_of_line_id rfl) _
  have hmirrors : ∀ (consumed : List Token) (diagnostics : Array Diagnostic),
      Mirrors (.lines id) { diagnostics := diagnostics.toList } ⟨false, true⟩
        { u.feed ι.back with diagnostics := #[] }
        { u with cursor := { consumed, rest := ι.back }, diagnostics } := by
    intro consumed diagnostics
    exact
      { rest := by simp [State.feed, hnil, hback]
        lastLine := fun h => absurd h Bool.false_ne_true
        globals := rfl
        locals := fun _ => rfl
        texts := rfl
        code := (List.map_id'' Instr.rename_lines _).symm
        free := hfree
        free' := hfree
        regs := (Nat.zero_add _).symm
        labels := (Nat.zero_add _).symm
        diagnostics := by simp
        tables := by simp [State.feed] }
  refine ⟨u.diagnostics.toList, { u.feed ι.back with diagnostics := #[] }, ?_, ?_⟩
  · simpa [State.feed, hnil] using hmirrors u.cursor.consumed u.diagnostics
  · simpa [State.feed, State.overlook, State.past] using hmirrors
      ((ι.name :: ι.tail).reverse ++ u.cursor.consumed)
      (u.diagnostics.push ⟨ι.name.line, .undefined⟩)

/-- Behind the point, a pass that goes hand in hand with itself gives the same result in both
runs. -/
theorem Apart.run {α : Type} {moved' : Bool} {f : α → α} {step : Pass α} (h : ι.Apart moved t t')
    (hstep : ∀ earlier, Respects (.lines id) { diagnostics := earlier } ⟨moved, true⟩ ⟨moved', true⟩ f
      step) {a : α} {w : State} (hrun : step t = .ok a w) :
    ∃ w', step t' = .ok a w' ∧ ι.Apart moved' w w' := by
  obtain ⟨earlier, base, hbase, hbase'⟩ := h
  have hagree := hstep _ base t hbase
  have hagree' := hstep _ base t' hbase'
  rw [hrun] at hagree
  cases hfirst : step base with
  | error error v =>
      rw [hfirst] at hagree
      obtain ⟨_, herror, _⟩ := hagree.exists_error
      cases herror
  | ok b v =>
      rw [hfirst] at hagree hagree'
      obtain ⟨_, hok, hv⟩ := hagree.exists_ok
      obtain ⟨w', hrun', hv'⟩ := hagree'.exists_ok
      cases hok
      exact ⟨w', hrun', earlier, v, hv, hv'⟩

end Insertion

namespace Pass

variable {α β : Type}

/-- A run on few enough tokens that comes by the point. It is told by the logs from some state on
that has the run ahead. -/
structure Comes (ι : Insertion) (n : Nat) (soFar : List Action) (G : α → List Action → Prop)
    (pass : Pass α) (s : State) (a : α) (t : State) : Prop where
  bound : s.ahead < n
  free : s.Free
  run : pass s = .ok a t
  reached : ∃ s₀ before, Plays soFar s₀ s ∧ G a before ∧ ι.Reached before s₀

/-- A pass misses what comes behind it, if that begins with a name. Where it has to end in front of
it, it may have to leave some tokens. -/
def Overlooks (slack : Nat) (lax : Bool) (took : α → Prop) (pass : Pass α) : Prop :=
  ∀ σ : Splice, σ.slack = slack → (lax = true → σ.Named) → Unaware σ lax took pass

theorem later_of_overlooks {slack : Nat} {lax : Bool} {took : α → Prop} {pass : Pass α}
    (h : Overlooks slack lax took pass) (hlax : lax = true → slack = 0) {s t : State} {a : α}
    (hrun : pass s = .ok a t) : s.Later t ∧ (took a → t.ahead < s.ahead) := by
  let σ : Splice := ⟨[⟨.ident, "", 0⟩], [], [⟨.ident, "", 0⟩], slack, true, List.cons_ne_nil _ _,
    .nil, .of_kind (by decide), fun h => absurd h.symm Bool.false_ne_true⟩
  have hσ := h σ rfl fun h => ⟨rfl, hlax h⟩
  exact ⟨hσ.later s a t hrun, hσ.takes s a t hrun⟩

/-- Behind the point, the second pass goes as the first does. -/
def Follow (ι : Insertion) (moved moved' : Bool) (like : α → α → Prop) (pass pass' : Pass α) :
    Prop :=
  ∀ s s' a t, ι.Apart moved s s' → pass s = .ok a t →
    ∃ a' t', pass' s' = .ok a' t' ∧ ι.Apart moved' t t' ∧ like a a'

/-- If a run of the pass comes by the point, that stands behind at least `margin` tokens, and with
the stray statement the pass gives a result like the one it gives without it. -/
structure Isolates (ι : Insertion) (n margin : Nat) (moved : Bool) (soFar : List Action)
    (G : α → List Action → Prop) (like : α → α → Prop) (pass : Pass α) : Prop where
  place : ∀ s a t, Comes ι n soFar G pass s a t → ι.back.length + margin ≤ s.ahead
  calm : ∀ s a t, Comes ι n soFar G pass s a t → Calm ι.back
  runs : ∀ (u : State) a t, u.cursor.tokens = ι.front → Comes ι n soFar G pass (u.feed ι.back) a t →
    ∃ a' t', pass (u.feed ι.new) = .ok a' t' ∧ ι.Apart moved t t' ∧ like a a'

namespace Follow

variable {ι : Insertion} {moved moved' moved'' : Bool} {like : β → β → Prop}

theorem pure {a a' : β} (h : like a a') :
    Follow ι moved moved like (Pure.pure a) (Pure.pure a') := by
  intro s s' b t hs hrun
  obtain ⟨rfl, rfl⟩ := pure_eq_ok.1 hrun
  exact ⟨a', s', rfl, hs, h⟩

theorem pureForget {a a' : β} (h : like a a') :
    Follow ι moved false like (Pure.pure a) (Pure.pure a') := by
  intro s s' b t hs hrun
  obtain ⟨rfl, rfl⟩ := pure_eq_ok.1 hrun
  exact ⟨a', s', rfl, hs.forget, h⟩

/-- A step that goes hand in hand with itself, and what follows it. -/
theorem sim {f : α → α} {step : Pass α} {next next' : α → Pass β}
    (hstep : ∀ earlier, Respects (.lines id) { diagnostics := earlier } ⟨moved, true⟩ ⟨moved', true⟩ f
      step)
    (hnext : ∀ a, Follow ι moved' moved'' like (next a) (next' a)) :
    Follow ι moved moved'' like (step >>= next) (step >>= next') := by
  intro s s' b t hs hrun
  obtain ⟨a, w, ha, hb⟩ := bind_eq_ok.1 hrun
  obtain ⟨w', ha', hw⟩ := hs.run hstep ha
  obtain ⟨b', t', hb', ht, hlike⟩ := hnext a w w' b t hw hb
  exact ⟨b', t', bind_eq_ok.2 ⟨a, w', ha', hb'⟩, ht, hlike⟩

theorem ite {condition condition' : Prop} [Decidable condition] [Decidable condition']
    {yes yes' no no' : Pass β} (hcondition : condition' ↔ condition)
    (hyes : Follow ι moved moved' like yes yes') (hno : Follow ι moved moved' like no no') :
    Follow ι moved moved' like (if condition then yes else no)
      (if condition' then yes' else no') := by
  by_cases h : condition
  · rw [if_pos h, if_pos (hcondition.2 h)]
    exact hyes
  · rw [if_neg h, if_neg fun h' => h (hcondition.1 h')]
    exact hno

end Follow

namespace Isolates

variable {ι : Insertion} {n margin : Nat} {moved : Bool} {soFar : List Action}
  {G : β → List Action → Prop} {like : β → β → Prop}

theorem mono {m less : Nat} {pass : Pass β} (h : Isolates ι n margin moved soFar G like pass)
    (hm : m ≤ n) (hless : less ≤ margin) : Isolates ι m less moved soFar G like pass := by
  have hcomes : ∀ {s b t}, Comes ι m soFar G pass s b t → Comes ι n soFar G pass s b t :=
    fun h => { h with bound := Nat.lt_of_lt_of_le h.bound hm }
  exact ⟨fun s b t hb => Nat.le_trans (Nat.add_le_add_left hless _) (h.place s b t (hcomes hb)),
    fun s b t hb => h.calm s b t (hcomes hb), fun u b t hu hb => h.runs u b t hu (hcomes hb)⟩

/-- A pass in which the point does not lie. -/
theorem never {pass : Pass β} (hnever : ∀ s b t, pass s = .ok b t → ∀ before, ¬ G b before) :
    Isolates ι n margin moved soFar G like pass := by
  have hno : ∀ {s b t}, ¬ Comes ι n soFar G pass s b t := by
    intro s b t h
    obtain ⟨_, before, _, hbefore, _⟩ := h.reached
    exact hnever s b t h.run before hbefore
  exact ⟨fun _ _ _ h => absurd h hno, fun _ _ _ h => absurd h hno, fun _ _ _ _ h => absurd h hno⟩

theorem unexpected (expected : Expected) :
    Isolates ι n margin moved soFar G like (Pass.unexpected expected : Pass β) :=
  .never fun _ _ _ h => absurd h unexpected_ne_ok

theorem pure {b : β} (hnever : ∀ before, ¬ G b before) :
    Isolates ι n margin moved soFar G like (Pure.pure b) := by
  refine .never fun s c t hrun => ?_
  obtain ⟨rfl, _⟩ := pure_eq_ok.1 hrun
  exact hnever

theorem ite {condition : Prop} [Decidable condition] {yes no : Pass β}
    (hyes : Isolates ι n margin moved soFar G like yes)
    (hno : Isolates ι n margin moved soFar G like no) :
    Isolates ι n margin moved soFar G like (if condition then yes else no) := by
  by_cases h : condition
  · rw [if_pos h]
    exact hyes
  · rw [if_neg h]
    exact hno

/-- A point of the result that is looked for is one of those that are found. -/
theorem imp {G' : β → List Action → Prop} {pass : Pass β}
    (h : Isolates ι n margin moved soFar G like pass) (himp : ∀ b before, G' b before → G b before) :
    Isolates ι n margin moved soFar G' like pass := by
  have hcomes : ∀ {s b t}, Comes ι n soFar G' pass s b t → Comes ι n soFar G pass s b t := by
    intro s b t hb
    obtain ⟨s₀, before, hsoFar, hbefore, hreached⟩ := hb.reached
    exact { hb with reached := ⟨s₀, before, hsoFar, himp b before hbefore, hreached⟩ }
  exact ⟨fun s b t hb => h.place s b t (hcomes hb), fun s b t hb => h.calm s b t (hcomes hb),
    fun u b t hu hb => h.runs u b t hu (hcomes hb)⟩

section Rules

variable {lax : Bool} {took : α → Prop} {step : Pass α} {next : α → Pass β}
  {log : α → List Action} {gaps : α → List (List Action)} {like₁ : α → α → Prop}
  {moved₁ : Bool}

theorem comes_inside {s s₀ w : State} {a : α} {inner : List Action} (hbound : s.ahead < n)
    (hfree : s.Free) (ha : step s = .ok a w) (hsoFar : Plays soFar s₀ s) (hinner : inner ∈ gaps a)
    (hreached : ι.Reached (soFar ++ inner) s₀) :
    Comes ι n [] (fun a before => before ∈ gaps a) step s a w := by
  obtain ⟨g, hg, hback, hunknown⟩ := hreached
  obtain ⟨s₁, hs₁, hg⟩ := plays_append.1 hg
  obtain rfl := hs₁.unique hsoFar
  exact ⟨hbound, hfree, ha, s₁, inner, rfl, hinner, g, hg, hback, hunknown⟩

theorem runs_inside {u w t : State} {a : α} {b : β}
    (hstep : Isolates ι n margin moved₁ [] (fun a before => before ∈ gaps a) like₁ step)
    (hfollow : ∀ a a', like₁ a a' → Follow ι moved₁ moved like (next a) (next a'))
    (hu : u.cursor.tokens = ι.front)
    (hin : Comes ι n [] (fun a before => before ∈ gaps a) step (u.feed ι.back) a w)
    (hb : next a w = .ok b t) : ∃ b' t', (step >>= next) (u.feed ι.new) = .ok b' t' ∧
      ι.Apart moved t t' ∧ like b b' := by
  obtain ⟨a', w', ha', hw, hlike⟩ := hstep.runs u a w hu hin
  obtain ⟨b', t', hb', ht, hlike⟩ := hfollow a a' hlike w w' b t hw hb
  exact ⟨b', t', bind_eq_ok.2 ⟨a', w', ha', hb'⟩, ht, hlike⟩

/-- The point lies within the step. -/
theorem within (hstep : Isolates ι n margin moved₁ [] (fun a before => before ∈ gaps a) like₁ step)
    (hin : ∀ a s b t, next a s = .ok b t → ∀ before, G b before →
      ∃ inner ∈ gaps a, before = soFar ++ inner)
    (hfollow : ∀ a a', like₁ a a' → Follow ι moved₁ moved like (next a) (next a')) :
    Isolates ι n margin moved soFar G like (step >>= next) := by
  have hinside : ∀ s b t, Comes ι n soFar G (step >>= next) s b t → ∃ a w,
      Comes ι n [] (fun a before => before ∈ gaps a) step s a w ∧ next a w = .ok b t := by
    intro s b t h
    obtain ⟨a, w, ha, hb⟩ := bind_eq_ok.1 h.run
    obtain ⟨s₀, before, hsoFar, hbefore, hreached⟩ := h.reached
    obtain ⟨inner, hinner, rfl⟩ := hin a w b t hb before hbefore
    exact ⟨a, w, comes_inside h.bound h.free ha hsoFar hinner hreached, hb⟩
  refine ⟨?_, ?_, ?_⟩
  · intro s b t h
    obtain ⟨a, w, hcomes, _⟩ := hinside s b t h
    exact hstep.place s a w hcomes
  · intro s b t h
    obtain ⟨a, w, hcomes, _⟩ := hinside s b t h
    exact hstep.calm s a w hcomes
  · intro u b t hu h
    obtain ⟨a, w, hcomes, hb⟩ := hinside _ b t h
    exact runs_inside hstep hfollow hu hcomes hb

/-- The point lies within the step, or else within what follows. -/
theorem seq {margin' : Nat}
    (hstep : Isolates ι n margin' moved₁ [] (fun a before => before ∈ gaps a) like₁ step)
    (hlater : ∀ s a w, step s = .ok a w → s.Later w ∧ (took a → w.ahead < s.ahead))
    (hruns : ∀ (u : State) a w b t, u.cursor.tokens = ι.front → Calm ι.back →
      step (u.feed ι.back) = .ok a w → next a w = .ok b t → ι.back.length + margin ≤ w.ahead →
        ∃ v : State, v.cursor.tokens = ι.front ∧ w = v.feed ι.back ∧
          step (u.feed ι.new) = .ok a (v.feed ι.new))
    (hlog : Follows step log)
    (hmargin : ∀ s a w, step s = .ok a w → margin' + w.ahead ≤ margin + s.ahead)
    (hnext : ∀ a m, m ≤ n → (took a → m < n) → Isolates ι m margin moved (soFar ++ log a)
      (fun b before => G b before ∧ ∀ inner ∈ gaps a, before ≠ soFar ++ inner) like (next a))
    (hfollow : ∀ a a', like₁ a a' → Follow ι moved₁ moved like (next a) (next a')) :
    Isolates ι n margin' moved soFar G like (step >>= next) := by
  have hsplit : ∀ s b t, Comes ι n soFar G (step >>= next) s b t → ∃ a w, step s = .ok a w ∧
      next a w = .ok b t ∧ (Comes ι n [] (fun a before => before ∈ gaps a) step s a w ∨
        Isolates ι (w.ahead + 1) margin moved (soFar ++ log a)
          (fun b before => G b before ∧ ∀ inner ∈ gaps a, before ≠ soFar ++ inner) like (next a) ∧
        Comes ι (w.ahead + 1) (soFar ++ log a)
          (fun b before => G b before ∧ ∀ inner ∈ gaps a, before ≠ soFar ++ inner) (next a)
          w b t) := by
    intro s b t h
    obtain ⟨a, w, ha, hb⟩ := bind_eq_ok.1 h.run
    obtain ⟨s₀, before, hsoFar, hbefore, hreached⟩ := h.reached
    refine ⟨a, w, ha, hb, ?_⟩
    by_cases hin : ∃ inner ∈ gaps a, before = soFar ++ inner
    · obtain ⟨inner, hinner, rfl⟩ := hin
      exact .inl (comes_inside h.bound h.free ha hsoFar hinner hreached)
    · obtain ⟨hlater, htakes⟩ := hlater s a w ha
      have hw : w.ahead + 1 ≤ n := Nat.le_trans (Nat.succ_le_succ hlater.ahead_le) h.bound
      refine .inr ⟨hnext a _ hw fun htook => Nat.lt_of_le_of_lt (htakes htook) h.bound, ?_⟩
      refine ⟨Nat.lt_succ_self _, hlater.free h.free, hb, s₀, before, ?_, ⟨hbefore, ?_⟩, hreached⟩
      · exact plays_append.2 ⟨s, hsoFar, hlog s a w ha⟩
      · exact fun inner hinner heq => hin ⟨inner, hinner, heq⟩
  refine ⟨?_, ?_, ?_⟩
  · intro s b t h
    obtain ⟨a, w, ha, _, hin | ⟨hrest, hin⟩⟩ := hsplit s b t h
    · exact hstep.place s a w hin
    · have hplace := hrest.place w b t hin
      have hw := hmargin s a w ha
      omega
  · intro s b t h
    obtain ⟨a, w, _, _, hin | ⟨hrest, hin⟩⟩ := hsplit s b t h
    · exact hstep.calm s a w hin
    · exact hrest.calm w b t hin
  · intro u b t hu h
    obtain ⟨a, w, ha, hb, hin | ⟨hrest, hin⟩⟩ := hsplit _ b t h
    · exact runs_inside hstep hfollow hu hin hb
    · obtain ⟨v, hv, rfl, ha'⟩ :=
        hruns u a w b t hu (hrest.calm w b t hin) ha hb (hrest.place w b t hin)
      obtain ⟨b', t', hb', ht, hlike⟩ := hrest.runs v b t hv hin
      exact ⟨b', t', bind_eq_ok.2 ⟨a, _, ha', hb'⟩, ht, hlike⟩

theorem allows_of_place {slack : Nat} (hcalm : Calm ι.back) (hstrict : lax = false → slack < margin)
    {w : State} (hplace : ι.back.length + margin ≤ w.ahead) :
    (ι.splice hcalm slack).Allows lax w := by
  cases lax with
  | false => exact .inl (Nat.lt_of_lt_of_le (Nat.add_lt_add_left (hstrict rfl) _) hplace)
  | true =>
      rcases Nat.lt_or_eq_of_le (Nat.le_of_add_right_le hplace) with hlt | heq
      · exact .inl hlt
      · exact .inr ⟨rfl, heq.symm, fun h => absurd h Bool.false_ne_true⟩

/-- The same for a step that misses what comes behind it. -/
theorem split (lax : Bool) (margin : Nat) {slack margin' : Nat}
    (hstep : Isolates ι n margin' moved₁ [] (fun a before => before ∈ gaps a) like₁ step)
    (hmiss : Overlooks slack lax took step) (hlax : lax = true → slack = 0)
    (hstrict : lax = false → slack < margin) (hlog : Follows step log)
    (hmargin : ∀ s a w, step s = .ok a w → margin' + w.ahead ≤ margin + s.ahead)
    (hnext : ∀ a m, m ≤ n → (took a → m < n) → Isolates ι m margin moved (soFar ++ log a)
      (fun b before => G b before ∧ ∀ inner ∈ gaps a, before ≠ soFar ++ inner) like (next a))
    (hfollow : ∀ a a', like₁ a a' → Follow ι moved₁ moved like (next a) (next a')) :
    Isolates ι n margin' moved soFar G like (step >>= next) := by
  refine seq hstep (fun _ _ _ => later_of_overlooks hmiss hlax) ?_ hlog hmargin hnext hfollow
  intro u a w b t hu hcalm ha _ hplace
  have hnamed : lax = true → (ι.splice hcalm slack).Named :=
    fun h => ⟨congrArg some ι.name_kind, hlax h⟩
  exact (hmiss _ rfl hnamed).runs u a w hu ha (allows_of_place hcalm hstrict hplace)

theorem nowhere : Isolates ι n margin false []
    (fun (_ : α) before => before ∈ ([] : List (List Action))) (fun _ _ => False) step :=
  .never fun _ _ _ _ _ => List.not_mem_nil

/-- A step in front of the point, at which it may end. -/
theorem reach (hmiss : Overlooks 0 true took step) (hlog : Follows step log)
    (hnext : ∀ a, Isolates ι n margin moved (soFar ++ log a) G like (next a)) :
    Isolates ι n margin moved soFar G like (step >>= next) :=
  split true margin nowhere hmiss (fun _ => rfl) (fun h => absurd h.symm Bool.false_ne_true) hlog
    (fun _ _ _ hrun => Nat.add_le_add_left
      (later_of_overlooks hmiss (fun _ => rfl) hrun).1.ahead_le _)
    (fun a _ hm _ => ((hnext a).mono hm (Nat.le_refl _)).imp fun _ _ => And.left)
    fun _ _ => False.elim

/-- A step in front of the point that reads a token. Right in front of it only what may end there
can be. -/
theorem reachFirst (lax : Bool) (hmiss : Overlooks 0 lax Always step)
    (hstrict : lax = false → 0 < margin) (hlog : Follows step log)
    (hnext : ∀ a, Isolates ι n margin moved (soFar ++ log a) G like (next a)) :
    Isolates ι (n + 1) (margin + 1) moved soFar G like (step >>= next) := by
  refine split lax margin nowhere hmiss (fun _ => rfl) hstrict hlog (fun s a w hrun => ?_)
    (fun a _ _ hm => ((hnext a).mono (Nat.le_of_lt_succ (hm trivial)) (Nat.le_refl _)).imp
      fun _ _ => And.left)
    fun _ _ => False.elim
  have hlt := (later_of_overlooks hmiss (fun _ => rfl) hrun).2 trivial
  omega

theorem first (hmiss : Overlooks 0 true Always step) (hlog : Follows step log)
    (hnext : ∀ a, Isolates ι n margin moved (soFar ++ log a) G like (next a)) :
    Isolates ι (n + 1) (margin + 1) moved soFar G like (step >>= next) :=
  reachFirst true hmiss (fun h => absurd h.symm Bool.false_ne_true) hlog hnext

/-- A pass that goes one way or another by what comes next. Both runs go the same way, since there
are enough tokens in front of the point. -/
theorem decided {κ : Type} (ask : Cursor → κ) (branch : κ → Pass β) {pass : Pass β}
    (heq : ∀ s, pass s = branch (ask s.cursor) s)
    (hsame : Calm ι.back → ∀ u : State, margin ≤ u.cursor.rest.length →
      branch (ask (u.feed ι.new).cursor) = branch (ask (u.feed ι.back).cursor))
    (hbranch : ∀ i, Isolates ι n margin moved soFar G like (branch i)) :
    Isolates ι n margin moved soFar G like pass := by
  have hcomes : ∀ {s b t}, Comes ι n soFar G pass s b t →
      Comes ι n soFar G (branch (ask s.cursor)) s b t :=
    fun h => { h with run := (heq _).symm.trans h.run }
  refine ⟨fun s b t h => (hbranch _).place s b t (hcomes h),
    fun s b t h => (hbranch _).calm s b t (hcomes h), fun u b t hu h => ?_⟩
  have hplace := (hbranch _).place _ b t (hcomes h)
  rw [Splice.ahead_feed, Nat.add_comm, Nat.add_le_add_iff_right] at hplace
  rw [heq, hsame ((hbranch _).calm _ b t (hcomes h)) u hplace]
  exact (hbranch _).runs u b t hu (hcomes h)

theorem current {next : Token → Pass β}
    (hnext : ∀ token, Isolates ι n (margin + 1) moved soFar G like (next token)) :
    Isolates ι n (margin + 1) moved soFar G like (Pass.current >>= next) := by
  refine .decided (fun cursor => cursor.rest.head?)
    (fun head => head.elim (throw (.unexpectedEof .token)) next) (current_bind_eq next)
    (fun _ u hlength => ?_) fun head => ?_
  · have hne := List.length_pos_iff.1 (Nat.lt_of_lt_of_le (Nat.succ_pos margin) hlength)
    rw [Splice.head?_feed hne, Splice.head?_feed hne]
  · cases head with
    | none =>
        refine .never fun s b t hrun => ?_
        cases hrun
    | some token => exact hnext token

end Rules

theorem zero {pass : Pass β} : Isolates ι 0 margin moved soFar G like pass :=
  ⟨fun s _ _ h => absurd h.bound (Nat.not_lt_zero s.ahead),
    fun s _ _ h => absurd h.bound (Nat.not_lt_zero s.ahead),
    fun _ _ _ _ h => absurd h.bound (Nat.not_lt_zero _)⟩

end Isolates

end Pass

end OnePass
