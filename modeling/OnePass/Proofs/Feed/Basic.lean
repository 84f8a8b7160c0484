import OnePass.Proofs.Grammar.Reads
import OnePass.Proofs.Progress.Basic

/-!
What becomes of a run when more tokens are put behind those there are. The run makes no use of what
it has not come to:

* if it succeeds with tokens left over, it goes the same way and leaves the new tokens as well;
* if it fails at a token, it fails in front of more tokens, too, and has emitted the same;
* if it comes to the end of the tokens, be it that it fails there, then there are tokens with which
  it succeeds.

The two runs are a pass and the same pass under another bound on its nesting; a pass is said to be
steady if all this holds of it, and if moreover it can be run on a list of tokens known in advance.
-/

namespace OnePass

/-- The state with more tokens behind those ahead. -/
def State.feed (s : State) (more : List Token) : State :=
  { s with cursor := { s.cursor with rest := s.cursor.rest ++ more } }

theorem State.feed_nil (s : State) : s.feed [] = s := by
  rw [feed, List.append_nil]

theorem State.feed_append (s : State) (front back : List Token) :
    s.feed (front ++ back) = (s.feed front).feed back := by
  simp only [feed, List.append_assoc]

theorem State.rest_feed_cons {s : State} {token : Token} {rest : List Token}
    (h : s.cursor.rest = token :: rest) (more : List Token) :
    (s.feed more).cursor.rest = token :: (rest ++ more) := by
  rw [feed, h]
  rfl

/-- Whether a compilation stops at a token, and not for want of one. -/
def ParseError.isWrong : ParseError → Bool
  | unexpectedToken _ _ | invalidInteger _ => true
  | _ => false

/-- A token of a kind; as a numeral, it spells zero. -/
def Token.ofKind (kind : TokenKind) : Token :=
  { kind, value := "0", line := 0 }

theorem Token.spelled_ofKind (kind : TokenKind) : (Token.ofKind kind).Spelled :=
  fun _ => ⟨0, show Text.signed? "0".toList = some 0 by decide⟩

theorem Token.map_kind_ofKind (ks : List TokenKind) : (ks.map ofKind).map kind = ks := by
  rw [List.map_map]
  exact List.map_id ks

theorem Token.spelled_of_mem (ks : List TokenKind) : ∀ token ∈ ks.map ofKind, token.Spelled := by
  intro token htoken
  obtain ⟨kind, _, rfl⟩ := List.mem_map.1 htoken
  exact spelled_ofKind kind

/-- What may come next, as a condition on the kind of the next token. -/
abbrev Follow := Option TokenKind → Prop

/-- The kind of the first token. -/
def headKind (tokens : List Token) : Option TokenKind :=
  tokens.head?.map Token.kind

theorem headKind_append (tokens more : List Token) :
    headKind (tokens ++ more) = (tokens.map Token.kind).head?.or (headKind more) := by
  cases tokens <;> rfl

namespace Pass

variable {α β ι : Type}

/-- A step that has nothing to do with the tokens does the same in front of more. -/
theorem IsBlind.feed {step : Pass α} (h : IsBlind step) {s t : State} {a : α}
    (hrun : step s = .ok a t) (more : List Token) : step (s.feed more) = .ok a (t.feed more) := by
  have hcursor := h.cursor_eq s
  rw [hrun] at hcursor
  rw [State.feed, h.comm, hrun, mapState, State.feed]
  rw [show t.cursor = s.cursor from hcursor]

/-- The run succeeds with these tokens left over. -/
def Leaves (pass : Pass α) (s : State) (rest : List Token) : Prop :=
  ∃ a t, pass s = .ok a t ∧ t.cursor.rest = rest ∧ t.Free

/-- The run came to the end of the tokens. -/
def IsOpen (result : EStateM.Result ParseError State α) : Prop :=
  (∃ a t, result = .ok a t ∧ t.cursor.rest = []) ∨
    ∃ expected t, result = .error (.unexpectedEof expected) t

/-- The run neither leaves a token over nor stops at one. -/
def IsSpent (result : EStateM.Result ParseError State α) : Prop :=
  (∀ a t, result = .ok a t → t.cursor.rest = []) ∧
    ∀ error t, result = .error error t → error.isWrong = false

/-- The run stops at a token, with this output. -/
def Stops (result : EStateM.Result ParseError State α) (emitter : Emitter) : Prop :=
  ∃ error t, result = .error error t ∧ error.isWrong = true ∧ t.emitter = emitter

/-- What becomes of a run from `s` when more tokens are put behind. -/
structure Feeds (after : Follow) (pass pass' : Pass α) (s : State) : Prop where
  free : ∀ a t, pass s = .ok a t → t.Free
  ends : s.cursor.rest = [] → IsSpent (pass s)
  keeps : ∀ a t, pass s = .ok a t → t.cursor.rest ≠ [] →
    ∀ more, pass' (s.feed more) = .ok a (t.feed more)
  fails : ∀ error t, pass s = .error error t → error.isWrong = true →
    ∀ more, Stops (pass' (s.feed more)) t.emitter
  closes : s.cursor.rest ≠ [] → IsOpen (pass s) →
    ∃ tokens, ∀ more, after (headKind more) → Leaves pass' (s.feed (tokens ++ more)) more

/-- The pass reads tokens of these kinds, whatever the state. -/
def Settles (after : Follow) (ks : List TokenKind) (pass : Pass α) : Prop :=
  ∀ (s : State) (tokens more : List Token), s.Free → s.cursor.rest = tokens ++ more →
    tokens.map Token.kind = ks → (∀ token ∈ tokens, token.Spelled) → after (headKind more) →
    Leaves pass s more

/-- A pass that makes no use of what it has not come to, and that reads tokens of the kinds `ks`.
-/
structure Steady (after : Follow) (ks : List TokenKind) (pass pass' : Pass α) : Prop where
  feeds : ∀ s, s.Free → Feeds after pass pass' s
  settles : Settles after ks pass'

/-- A pass that is steady with the same pass as its second run. -/
abbrev Stable (after : Follow) (ks : List TokenKind) (pass : Pass α) : Prop :=
  Steady after ks pass pass

variable {after : Follow} {ks : List TokenKind} {s : State}

namespace Feeds

/-- Passes that come to the same at a state. -/
theorem congr {pass pass' other other' : Pass α} (h : Feeds after other other' s)
    (hpass : pass s = other s)
    (hpass' : s.cursor.rest ≠ [] → ∀ more, pass' (s.feed more) = other' (s.feed more)) :
    Feeds after pass pass' s := by
  refine ⟨?_, ?_, ?_, ?_, ?_⟩
  · rw [hpass]
    exact h.free
  · rw [hpass]
    exact h.ends
  · rw [hpass]
    intro a t hrun hrest more
    have hne : s.cursor.rest ≠ [] := fun hnil => hrest ((h.ends hnil).1 a t hrun)
    rw [hpass' hne]
    exact h.keeps a t hrun hrest more
  · rw [hpass]
    intro error t hrun hwrong more
    have hne : s.cursor.rest ≠ [] := by
      intro hnil
      rw [(h.ends hnil).2 error t hrun] at hwrong
      cases hwrong
    rw [hpass' hne]
    exact h.fails error t hrun hwrong more
  · rw [hpass]
    intro hne hopen
    obtain ⟨tokens, htokens⟩ := h.closes hne hopen
    refine ⟨tokens, fun more hmore => ?_⟩
    unfold Leaves
    rw [hpass' hne]
    exact htokens more hmore

theorem mono {strong : Follow} {pass pass' : Pass α} (h : Feeds after pass pass' s)
    (hstrong : ∀ next, strong next → after next) : Feeds strong pass pass' s where
  free := h.free
  ends := h.ends
  keeps := h.keeps
  fails := h.fails
  closes hne hopen := by
    obtain ⟨tokens, htokens⟩ := h.closes hne hopen
    exact ⟨tokens, fun more hmore => htokens more (hstrong _ hmore)⟩

/-- At the end of the tokens there is nothing to say but that the run does not go on. -/
theorem of_nil {pass pass' : Pass α} (hnil : s.cursor.rest = [])
    (hfree : ∀ a t, pass s = .ok a t → t.Free) (hspent : IsSpent (pass s)) :
    Feeds after pass pass' s where
  free := hfree
  ends _ := hspent
  keeps a t hrun hrest := absurd (hspent.1 a t hrun) hrest
  fails error t hrun hwrong := by
    rw [hspent.2 error t hrun] at hwrong
    cases hwrong
  closes hne := absurd hnil hne

/-- A run that fails in want of a token. -/
theorem of_eof {pass pass' : Pass α} {expected : Expected} {t : State} (hnil : s.cursor.rest = [])
    (h : pass s = .error (.unexpectedEof expected) t) : Feeds after pass pass' s := by
  refine .of_nil hnil ?_ ⟨?_, ?_⟩
  · intro a u hrun
    rw [h] at hrun
    cases hrun
  · intro a u hrun
    rw [h] at hrun
    cases hrun
  · intro error u hrun
    rw [h] at hrun
    cases hrun
    rfl

/-- A run that stops at a token, and does so in front of more. -/
theorem of_stop {pass pass' : Pass α} {error : ParseError} {t : State} (hne : s.cursor.rest ≠ [])
    (h : pass s = .error error t) (hwrong : error.isWrong = true)
    (h' : ∀ more, Stops (pass' (s.feed more)) t.emitter) : Feeds after pass pass' s := by
  refine ⟨?_, fun hnil => absurd hnil hne, ?_, ?_, ?_⟩
  · intro a u hrun
    rw [h] at hrun
    cases hrun
  · intro a u hrun
    rw [h] at hrun
    cases hrun
  · intro error u hrun _
    rw [h] at hrun
    cases hrun
    exact h'
  · intro _ hopen
    rw [h] at hopen
    rcases hopen with ⟨a, u, hrun, _⟩ | ⟨expected, u, hrun⟩
    · cases hrun
    · cases hrun
      cases hwrong

/-- A run that leaves nothing over, if there are tokens with which it succeeds. -/
theorem of_spent {pass pass' : Pass α} (hne : s.cursor.rest ≠ [])
    (hfree : ∀ a t, pass s = .ok a t → t.Free) (hspent : IsSpent (pass s))
    (hcloses : ∃ tokens, ∀ more, after (headKind more) →
      Leaves pass' (s.feed (tokens ++ more)) more) : Feeds after pass pass' s where
  free := hfree
  ends hnil := absurd hnil hne
  keeps a t hrun hrest := absurd (hspent.1 a t hrun) hrest
  fails error t hrun hwrong := by
    rw [hspent.2 error t hrun] at hwrong
    cases hwrong
  closes _ _ := hcloses

/-- A run that was cut short. -/
theorem of_stalled {pass pass' : Pass α} {t : State} (h : pass s = .error .stalled t) :
    Feeds after pass pass' s := by
  refine ⟨?_, fun _ => ⟨?_, ?_⟩, ?_, ?_, ?_⟩
  · intro a u hrun
    rw [h] at hrun
    cases hrun
  · intro a u hrun
    rw [h] at hrun
    cases hrun
  · intro error u hrun
    rw [h] at hrun
    cases hrun
    rfl
  · intro a u hrun
    rw [h] at hrun
    cases hrun
  · intro error u hrun hwrong
    rw [h] at hrun
    cases hrun
    cases hwrong
  · intro _ hopen
    rw [h] at hopen
    rcases hopen with ⟨a, u, hrun, _⟩ | ⟨expected, u, hrun⟩
    · cases hrun
    · cases hrun

/-- A run that consumes the next token, and does so in front of more. -/
theorem of_take {pass pass' : Pass α} {token : Token} {rest : List Token} {a : α} (hs : s.Free)
    (hrest : s.cursor.rest = token :: rest) (h : pass s = .ok a (s.take token rest))
    (h' : ∀ more, pass' (s.feed more) = .ok a ((s.feed more).take token (rest ++ more))) :
    Feeds after pass pass' s := by
  have hne : s.cursor.rest ≠ [] := by
    rw [hrest]
    exact List.cons_ne_nil token rest
  refine ⟨?_, fun hnil => absurd hnil hne, ?_, ?_, ?_⟩
  · intro b t hrun
    rw [h] at hrun
    cases hrun
    exact hs
  · intro b t hrun _ more
    rw [h] at hrun
    cases hrun
    exact h' more
  · intro error t hrun
    rw [h] at hrun
    cases hrun
  · intro _ hopen
    rw [h] at hopen
    rcases hopen with ⟨b, t, hrun, hend⟩ | ⟨expected, t, hrun⟩
    · cases hrun
      have hend : rest = [] := hend
      refine ⟨[], fun more _ => ⟨a, _, h' _, ?_, hs⟩⟩
      rw [hend]
      rfl
    · cases hrun

/-- One run after the other. If the first comes to the end of the tokens, it is closed, and the
second reads what it is known to read. -/
theorem bind {before : Follow} {step step' : Pass α} {next next' : α → Pass β}
    (hstep : Feeds before step step' s)
    (hnext : ∀ a t, step s = .ok a t → t.Free → Feeds after (next a) (next' a) t)
    (hsettles : ∀ a u t, step' u = .ok a t → Settles after ks (next' a))
    (hafter : ∀ h, after h → before (ks.head?.or h)) :
    Feeds after (step >>= next) (step' >>= next') s := by
  -- what the second run has to do after the first has been closed
  have hclosed : s.cursor.rest ≠ [] → IsOpen (step s) → ∃ tokens, ∀ more, after (headKind more) →
      Leaves (step' >>= next') (s.feed (tokens ++ more)) more := by
    intro hne hopen
    obtain ⟨front, hfront⟩ := hstep.closes hne hopen
    refine ⟨front ++ ks.map .ofKind, fun more hmore => ?_⟩
    have hkinds := Token.map_kind_ofKind ks
    have hbefore : before (headKind (ks.map .ofKind ++ more)) := by
      rw [headKind_append, hkinds]
      exact hafter _ hmore
    obtain ⟨a, u, ha, hrest, hu⟩ := hfront _ hbefore
    obtain ⟨b, t, hb, h⟩ :=
      hsettles a _ u ha u _ more hu hrest hkinds (Token.spelled_of_mem ks) hmore
    rw [← List.append_assoc] at ha
    exact ⟨b, t, bind_eq_ok.2 ⟨a, u, ha, hb⟩, h⟩
  cases hrun : step s with
  | error error u =>
      have hbind : (step >>= next) s = .error error u := bind_of_error hrun
      refine ⟨?_, ?_, ?_, ?_, ?_⟩
      · intro b t hok
        rw [hbind] at hok
        cases hok
      · intro hnil
        rw [hbind]
        refine ⟨fun _ _ => nofun, fun error' t herror => ?_⟩
        cases herror
        exact (hstep.ends hnil).2 _ _ hrun
      · intro b t hok
        rw [hbind] at hok
        cases hok
      · intro error' t herror hwrong more
        rw [hbind] at herror
        cases herror
        obtain ⟨error', t', hfails, hrest⟩ := hstep.fails _ _ hrun hwrong more
        exact ⟨error', t', bind_of_error hfails, hrest⟩
      · intro hne hopen
        rw [hbind] at hopen
        rcases hopen with ⟨b, t, hok, _⟩ | ⟨expected, t, heof⟩
        · cases hok
        · cases heof
          exact hclosed hne (.inr ⟨expected, u, hrun⟩)
  | ok a u =>
      have hbind : (step >>= next) s = next a u := bind_of_ok hrun
      have hu := hnext a u hrun (hstep.free a u hrun)
      have hkeeps : u.cursor.rest ≠ [] → ∀ more,
          (step' >>= next') (s.feed more) = next' a (u.feed more) :=
        fun hne more => bind_of_ok (hstep.keeps a u hrun hne more)
      refine ⟨?_, ?_, ?_, ?_, ?_⟩
      · rw [hbind]
        exact hu.free
      · intro hnil
        rw [hbind]
        exact hu.ends ((hstep.ends hnil).1 a u hrun)
      · intro b t hok hrest more
        rw [hbind] at hok
        have hne : u.cursor.rest ≠ [] := fun hnil => hrest ((hu.ends hnil).1 b t hok)
        rw [hkeeps hne]
        exact hu.keeps b t hok hrest more
      · intro error t herror hwrong more
        rw [hbind] at herror
        have hne : u.cursor.rest ≠ [] := by
          intro hnil
          rw [(hu.ends hnil).2 error t herror] at hwrong
          cases hwrong
        rw [hkeeps hne]
        exact hu.fails error t herror hwrong more
      · intro hne hopen
        by_cases hend : u.cursor.rest = []
        · exact hclosed hne (.inl ⟨a, u, hrun, hend⟩)
        · rw [hbind] at hopen
          obtain ⟨tokens, htokens⟩ := hu.closes hend hopen
          refine ⟨tokens, fun more hmore => ?_⟩
          unfold Leaves
          rw [hkeeps hend]
          exact htokens more hmore

end Feeds

namespace Settles

/-- Passes that come to the same in front of the tokens in question. -/
theorem congr {pass other : Pass α} (h : Settles after ks other)
    (hpass : ∀ s : State, (∃ next, after next ∧ headKind s.cursor.rest = ks.head?.or next) →
      pass s = other s) : Settles after ks pass := by
  intro s tokens more hs hrest hkinds hspelled hmore
  unfold Leaves
  rw [hpass s ⟨headKind more, hmore, by rw [hrest, headKind_append, hkinds]⟩]
  exact h s tokens more hs hrest hkinds hspelled hmore

theorem mono {strong : Follow} {pass : Pass α} (h : Settles after ks pass)
    (hstrong : ∀ next, strong next → after next) : Settles strong ks pass :=
  fun s tokens more hs hrest hkinds hspelled hmore =>
    h s tokens more hs hrest hkinds hspelled (hstrong _ hmore)

theorem bind {before : Follow} {front back : List TokenKind} {step : Pass α} {next : α → Pass β}
    (hstep : Settles before front step)
    (hnext : ∀ a u t, step u = .ok a t → Settles after back (next a)) (hks : ks = front ++ back)
    (hafter : ∀ h, after h → before (back.head?.or h)) :
    Settles after ks (step >>= next) := by
  intro s tokens more hs hrest hkinds hspelled hmore
  rw [hks, List.map_eq_append_iff] at hkinds
  obtain ⟨first, second, rfl, hfirst, hsecond⟩ := hkinds
  rw [List.append_assoc] at hrest
  have hbefore : before (headKind (second ++ more)) := by
    rw [headKind_append, hsecond]
    exact hafter _ hmore
  obtain ⟨a, u, ha, hurest, hu⟩ := hstep s first _ hs hrest hfirst
    (fun token htoken => hspelled token (List.mem_append_left second htoken)) hbefore
  obtain ⟨b, t, hb, h⟩ := hnext a s u ha u second more hu hurest hsecond
    (fun token htoken => hspelled token (List.mem_append_right first htoken)) hmore
  exact ⟨b, t, bind_eq_ok.2 ⟨a, u, ha, hb⟩, h⟩

/-- The tokens that are there can be completed to those in question. -/
theorem completes {pass : Pass α} (h : Settles after ks pass) (hs : s.Free) (back : List TokenKind)
    (hkinds : s.cursor.rest.map Token.kind ++ back = ks)
    (hspelled : ∀ token ∈ s.cursor.rest, token.Spelled) (more : List Token)
    (hmore : after (headKind more)) : Leaves pass (s.feed (back.map .ofKind ++ more)) more := by
  refine h _ (s.cursor.rest ++ back.map .ofKind) more hs ?_ ?_ ?_ hmore
  · rw [State.feed, List.append_assoc]
  · rw [List.map_append, Token.map_kind_ofKind, hkinds]
  · intro token htoken
    rcases List.mem_append.1 htoken with htoken | htoken
    · exact hspelled token htoken
    · exact Token.spelled_of_mem back token htoken

/-- A pass that consumes the next token. -/
theorem of_take {kind : TokenKind} {pass : Pass α}
    (h : ∀ s token rest, s.cursor.rest = token :: rest → token.kind = kind → token.Spelled →
      ∃ a, pass s = .ok a (s.take token rest)) : Settles after [kind] pass := by
  intro s tokens more hs hrest hkinds hspelled _
  rw [List.map_eq_cons_iff] at hkinds
  obtain ⟨token, tail, rfl, hkind, htail⟩ := hkinds
  obtain rfl := List.map_eq_nil_iff.1 htail
  obtain ⟨a, ha⟩ := h s token more hrest hkind (hspelled token List.mem_cons_self)
  exact ⟨a, _, ha, rfl, hs⟩

/-- The next token is looked at. -/
theorem current {next : Token → Pass β} (hhead : ∀ h, after h → (ks.head?.or h).isSome = true)
    (hnext : ∀ token, (∃ h, after h ∧ ks.head?.or h = some token.kind) →
      Settles after ks (next token)) : Settles after ks (Pass.current >>= next) := by
  intro s tokens more hs hrest hkinds hspelled hmore
  have hkind : headKind s.cursor.rest = ks.head?.or (headKind more) := by
    rw [hrest, headKind_append, hkinds]
  cases hall : s.cursor.rest with
  | nil =>
      have hsome := hhead _ hmore
      rw [← hkind, hall] at hsome
      cases hsome
  | cons token rest =>
      unfold Leaves
      rw [bind_of_ok (current_cons hall)]
      rw [hall] at hkind
      exact hnext token ⟨_, hmore, hkind.symm⟩ s tokens more hs hrest hkinds hspelled hmore

end Settles

/-- Anything may come next. -/
def Anything : Follow := fun _ => True

/-- A token that ends what is in front of it. -/
def isCloser : TokenKind → Bool
  | .semicolon | .rparen | .rbracket | .rbrace => true
  | _ => false

/-- A token comes next that ends what is in front of it. -/
def Closed : Follow := fun next => next.any isCloser = true

theorem Closed.ne {next : Option TokenKind} (h : Closed next) {kind : TokenKind}
    (hkind : isCloser kind = false) : next ≠ some kind := by
  rintro rfl
  rw [Closed, Option.any_some, hkind] at h
  cases h

theorem Closed.bind_eq_none {next : Option TokenKind} (h : Closed next)
    {meaning? : TokenKind → Option α}
    (hmeaning : ∀ kind, isCloser kind = true → meaning? kind = none) :
    next.bind meaning? = none := by
  cases next with
  | none => rfl
  | some kind => exact hmeaning kind h

namespace Steady

theorem mono {strong : Follow} {pass pass' : Pass α} (h : Steady after ks pass pass')
    (hstrong : ∀ next, strong next → after next) : Steady strong ks pass pass' :=
  ⟨fun s hs => (h.feeds s hs).mono hstrong, h.settles.mono hstrong⟩

section Rules

variable {step step' : Pass α} {next next' : α → Pass β}

theorem bind {before : Follow} {front back : List TokenKind} (hstep : Steady before front step step')
    (hnext : ∀ a, Steady after back (next a) (next' a)) (hks : ks = front ++ back)
    (hafter : ∀ h, after h → before (back.head?.or h)) :
    Steady after ks (step >>= next) (step' >>= next') :=
  ⟨fun s hs => (hstep.feeds s hs).bind (fun a t _ ht => (hnext a).feeds t ht)
      (fun a _ _ _ => (hnext a).settles) hafter,
    hstep.settles.bind (fun a _ _ _ => (hnext a).settles) hks hafter⟩

/-- A step that has nothing to do with the tokens. -/
theorem of_blind (h : IsBlind step) : Stable Anything [] step := by
  have hrun : ∀ s, s.Free → ∃ a t, step s = .ok a t ∧ t.Free ∧ t.cursor = s.cursor ∧
      ∀ more, step (s.feed more) = .ok a (t.feed more) := by
    intro s hs
    obtain ⟨a, t, ha, ht⟩ := h.okay s hs
    have hcursor := h.cursor_eq s
    rw [ha] at hcursor
    exact ⟨a, t, ha, ht, hcursor, h.feed ha⟩
  refine ⟨fun s hs => ?_, ?_⟩
  · obtain ⟨a, t, ha, ht, hcursor, hfeed⟩ := hrun s hs
    refine ⟨?_, ?_, ?_, ?_, ?_⟩
    · intro b u hb
      rw [ha] at hb
      cases hb
      exact ht
    · intro hnil
      rw [ha]
      refine ⟨fun b u hb => ?_, fun _ _ => nofun⟩
      cases hb
      rw [hcursor, hnil]
    · intro b u hb _
      rw [ha] at hb
      cases hb
      exact hfeed
    · intro error u hb
      rw [ha] at hb
      cases hb
    · intro hne hopen
      rw [ha] at hopen
      rcases hopen with ⟨b, u, hb, hend⟩ | ⟨expected, u, hb⟩
      · cases hb
        rw [hcursor] at hend
        exact absurd hend hne
      · cases hb
  · intro s tokens more hs hrest hkinds _ _
    obtain ⟨a, t, ha, ht, hcursor, _⟩ := hrun s hs
    obtain rfl := List.map_eq_nil_iff.1 hkinds
    exact ⟨a, t, ha, by rw [hcursor, hrest]; rfl, ht⟩

theorem pure (a : α) : Stable after [] (Pure.pure a) :=
  (of_blind (.pure a)).mono fun _ _ => trivial

/-- A step that reads nothing, in front of others. -/
theorem quiet (h : Stable Anything [] step)
    (hnext : ∀ a, Steady after ks (next a) (next' a)) :
    Steady after ks (step >>= next) (step >>= next') :=
  .bind h hnext rfl fun _ _ => trivial

theorem blind (h : IsBlind step) (hnext : ∀ a, Steady after ks (next a) (next' a)) :
    Steady after ks (step >>= next) (step >>= next') :=
  .quiet (.of_blind h) hnext

theorem ite {condition : Prop} [Decidable condition] {yes yes' no no' : Pass α}
    (hyes : Steady after ks yes yes') (hno : Steady after ks no no') :
    Steady after ks (if condition then yes else no) (if condition then yes' else no') := by
  by_cases h : condition
  · rw [if_pos h, if_pos h]
    exact hyes
  · rw [if_neg h, if_neg h]
    exact hno

/-- A step under a condition, and what follows it in either case. -/
theorem joined {condition : Prop} [Decidable condition] {step : Pass Unit}
    {next next' : Unit → Pass β} (hstep : IsBlind step)
    (hnext : ∀ u, Steady after ks (next u) (next' u)) :
    Steady after ks (if condition then step >>= next else next ())
      (if condition then step >>= next' else next' ()) :=
  .ite (.blind hstep hnext) (hnext ())

end Rules

section Steps

variable {next next' : Token → Pass β}

theorem advance (kind : TokenKind) : Stable Anything [kind] Pass.advance := by
  refine ⟨fun s hs => ?_, .of_take fun s token rest hrest _ _ => ⟨token, advance_cons hrest⟩⟩
  cases hrest : s.cursor.rest with
  | nil => exact .of_eof hrest (advance_nil hrest)
  | cons token rest =>
      exact .of_take hs hrest (advance_cons hrest) fun more =>
        advance_cons (State.rest_feed_cons hrest more)

theorem expect (kind : TokenKind) : Stable Anything [kind] (Pass.expect kind) := by
  refine ⟨fun s hs => ?_, .of_take fun s token rest hrest hkind _ => ⟨token, ?_⟩⟩
  · cases hrest : s.cursor.rest with
    | nil => exact .of_eof hrest (expect_nil hrest)
    | cons token rest =>
        have hfeed := State.rest_feed_cons hrest
        by_cases hkind : token.kind = kind
        · exact .of_take hs hrest ((expect_cons hrest).trans (if_pos hkind)) fun more =>
            (expect_cons (hfeed more)).trans (if_pos hkind)
        · have hstop : ∀ u rest, u.cursor.rest = token :: rest →
              Pass.expect kind u = .error (.unexpectedToken (.kind kind) token) u :=
            fun u rest hu => (expect_cons hu).trans (if_neg hkind)
          exact .of_stop (by simp [hrest]) (hstop s rest hrest) rfl fun more =>
            ⟨_, s.feed more, hstop _ _ (hfeed more), rfl, rfl⟩
  · rw [expect_cons hrest, if_pos hkind]

theorem expected {kind : TokenKind} (hnext : ∀ token, Steady after ks (next token) (next' token)) :
    Steady after (kind :: ks) (Pass.expect kind >>= next) (Pass.expect kind >>= next') :=
  .bind (.expect kind) hnext rfl fun _ _ => trivial

theorem advanced {kind : TokenKind} (hnext : ∀ token, Steady after ks (next token) (next' token)) :
    Steady after (kind :: ks) (Pass.advance >>= next) (Pass.advance >>= next') :=
  .bind (.advance kind) hnext rfl fun _ _ => trivial

end Steps

end Steady

/-- One run after the other, if the second need not read anything. -/
theorem Feeds.andThen {step step' : Pass α} {next next' : α → Pass β}
    (hstep : Feeds after step step' s) (hnext : ∀ a, Steady after [] (next a) (next' a)) :
    Feeds after (step >>= next) (step' >>= next') s :=
  hstep.bind (fun a t _ => (hnext a).feeds t) (fun a _ _ _ => (hnext a).settles) fun _ => id

section Look

variable {glance : Pass α} {f : Cursor → α} {next next' : α → Pass β}

/-- A step that looks at the tokens ahead, if what it sees does not change with more of them. -/
theorem Feeds.look (hlook : ∀ s, glance s = .ok (f s.cursor) s)
    (hstable : ∀ cursor : Cursor, cursor.rest ≠ [] → ∀ more,
      f { cursor with rest := cursor.rest ++ more } = f cursor)
    (hnext : ∀ a, Feeds after (next a) (next' a) s) :
    Feeds after (glance >>= next) (glance >>= next') s := by
  refine (hnext (f s.cursor)).congr (bind_of_ok (hlook s)) fun hne more => ?_
  rw [bind_of_ok (hlook (s.feed more)), State.feed, hstable s.cursor hne more]

theorem Settles.look {a : α} (hlook : ∀ s, glance s = .ok (f s.cursor) s)
    (hvalue : ∀ cursor : Cursor, (∃ h, after h ∧ headKind cursor.rest = ks.head?.or h) →
      f cursor = a) (hnext : Settles after ks (next a)) : Settles after ks (glance >>= next) := by
  refine hnext.congr fun s hs => ?_
  rw [bind_of_ok (hlook s), hvalue s.cursor hs]

end Look

section Tokens

theorem peekKind?_eq (offset : Nat) (cursor : Cursor) :
    cursor.peekKind? offset = headKind (cursor.rest.drop offset) := by
  rw [Cursor.peekKind?, Cursor.peek?, headKind, List.head?_drop]

theorem peekKind?_zero (cursor : Cursor) : cursor.peekKind? 0 = headKind cursor.rest :=
  peekKind?_eq 0 cursor

theorem headKind_append_of_ne_nil {tokens : List Token} (h : tokens ≠ []) (more : List Token) :
    headKind (tokens ++ more) = headKind tokens := by
  cases tokens with
  | nil => exact absurd rfl h
  | cons token rest => rfl

theorem nextIs_eq (kind : TokenKind) (cursor : Cursor) :
    cursor.nextIs kind = (headKind cursor.rest == some kind) := by
  rw [Cursor.nextIs, peekKind?_zero]

theorem Feeds.nextIs {kind : TokenKind} {next next' : Bool → Pass β}
    (hnext : ∀ answer, Feeds after (next answer) (next' answer) s) :
    Feeds after (Pass.nextIs kind >>= next) (Pass.nextIs kind >>= next') s := by
  refine .look (f := (Cursor.nextIs · kind)) (fun _ => rfl) (fun cursor hne more => ?_) hnext
  simp only [nextIs_eq, headKind_append_of_ne_nil hne]

theorem Settles.nextIs {kind : TokenKind} {next : Bool → Pass β} {answer : Bool}
    (hhead : ∀ h, after h → (ks.head?.or h == some kind) = answer)
    (hnext : Settles after ks (next answer)) : Settles after ks (Pass.nextIs kind >>= next) := by
  refine .look (f := (Cursor.nextIs · kind)) (fun _ => rfl) ?_ hnext
  rintro cursor ⟨h, hafter, hkind⟩
  rw [nextIs_eq, hkind, hhead h hafter]

theorem Steady.lastLine {next next' : UInt64 → Pass β}
    (hnext : ∀ line, Steady after ks (next line) (next' line)) :
    Steady after ks (Pass.lastLine >>= next) (Pass.lastLine >>= next') := by
  refine ⟨fun s hs => ?_, ?_⟩
  · refine .look (f := Cursor.lastLine) (fun _ => rfl) ?_ fun line => (hnext line).feeds s hs
    intro cursor hne more
    cases cursor with
    | mk consumed rest =>
        cases consumed with
        | cons token consumed => rfl
        | nil =>
            cases rest with
            | nil => exact absurd rfl hne
            | cons token rest => rfl
  · intro s tokens more hs
    exact (hnext s.cursor.lastLine).settles s tokens more hs

theorem Feeds.current {next next' : Token → Pass β}
    (hnext : ∀ token rest, s.cursor.rest = token :: rest → Feeds after (next token) (next' token) s) :
    Feeds after (Pass.current >>= next) (Pass.current >>= next') s := by
  cases hrest : s.cursor.rest with
  | nil => exact .of_eof hrest (bind_of_error (current_nil hrest))
  | cons token rest =>
      exact (hnext token rest hrest).congr (bind_of_ok (current_cons hrest)) fun _ more =>
        bind_of_ok (current_cons (State.rest_feed_cons hrest more))

theorem Feeds.unexpected {expected : Expected} :
    Feeds after (Pass.unexpected expected : Pass α) (Pass.unexpected expected) s := by
  cases hrest : s.cursor.rest with
  | nil => exact .of_eof hrest (unexpected_nil hrest)
  | cons token rest =>
      refine .of_stop (by simp [hrest]) (unexpected_cons hrest) rfl fun more => ?_
      exact ⟨_, s.feed more, unexpected_cons (State.rest_feed_cons hrest more), rfl, rfl⟩

/-- A token that may be there: the pass that follows it has to be steady, since the token may be
the last. -/
theorem Feeds.accept {kind : TokenKind} {next next' : Option Token → Pass β} (hs : s.Free)
    (later : List TokenKind) (hnone : Feeds after (next none) (next' none) s)
    (hsome : ∀ token, Steady after later (next (some token)) (next' (some token))) :
    Feeds after (Pass.accept kind >>= next) (Pass.accept kind >>= next') s := by
  cases hrest : s.cursor.rest with
  | nil => exact hnone.congr (bind_of_ok (accept_nil hrest)) fun hne => absurd hrest hne
  | cons token rest =>
      have hfeed := State.rest_feed_cons hrest
      have haccept : Pass.accept kind s = _ := accept_cons hrest
      have haccept' : ∀ more, Pass.accept kind (s.feed more) = _ :=
        fun more => accept_cons (hfeed more)
      by_cases hkind : token.kind = kind
      · simp only [if_pos hkind] at haccept haccept'
        have hstep : Steady after (kind :: later) (Pass.advance >>= fun _ => next (some token))
            (Pass.advance >>= fun _ => next' (some token)) :=
          .advanced fun _ => hsome token
        refine (hstep.feeds s hs).congr ?_ fun _ more => ?_
        · rw [bind_of_ok haccept, bind_of_ok (advance_cons hrest)]
        · rw [bind_of_ok (haccept' more), bind_of_ok (advance_cons (hfeed more))]
      · simp only [if_neg hkind] at haccept haccept'
        exact hnone.congr (bind_of_ok haccept) fun _ more => bind_of_ok (haccept' more)

theorem Settles.decline {kind : TokenKind} {next : Option Token → Pass β}
    (hhead : ∀ h, after h → ks.head?.or h ≠ some kind) (hnone : Settles after ks (next none)) :
    Settles after ks (Pass.accept kind >>= next) := by
  refine hnone.congr ?_
  rintro s ⟨h, hafter, hkind⟩
  refine bind_of_ok (accept_eq_none.2 ⟨rfl, ?_⟩)
  rw [peekKind?_zero, hkind]
  exact hhead h hafter

theorem Steady.accept {kind : TokenKind} {next next' : Option Token → Pass β}
    (later : List TokenKind) (hhead : ∀ h, after h → ks.head?.or h ≠ some kind)
    (hnone : Steady after ks (next none) (next' none))
    (hsome : ∀ token, Steady after later (next (some token)) (next' (some token))) :
    Steady after ks (Pass.accept kind >>= next) (Pass.accept kind >>= next') :=
  ⟨fun s hs => .accept hs later (hnone.feeds s hs) hsome, .decline hhead hnone.settles⟩

theorem Feeds.acceptAs {meaning? : TokenKind → Option α} {next next' : Option (α × Token) → Pass β}
    (hs : s.Free) (later : List TokenKind) (hnone : Feeds after (next none) (next' none) s)
    (hsome : ∀ found, Steady after later (next (some found)) (next' (some found))) :
    Feeds after (Pass.acceptAs meaning? >>= next) (Pass.acceptAs meaning? >>= next') s := by
  cases hrest : s.cursor.rest with
  | nil => exact hnone.congr (bind_of_ok (acceptAs_nil hrest)) fun hne => absurd hrest hne
  | cons token rest =>
      have hfeed := State.rest_feed_cons hrest
      cases hmeaning : meaning? token.kind with
      | none =>
          exact hnone.congr (bind_of_ok (acceptAs_cons_none hrest hmeaning)) fun _ more =>
            bind_of_ok (acceptAs_cons_none (hfeed more) hmeaning)
      | some meaning =>
          have hstep : Steady after (token.kind :: later)
              (Pass.advance >>= fun _ => next (some (meaning, token)))
              (Pass.advance >>= fun _ => next' (some (meaning, token))) :=
            .advanced fun _ => hsome (meaning, token)
          refine (hstep.feeds s hs).congr ?_ fun _ more => ?_
          · rw [bind_of_ok (acceptAs_cons_some hrest hmeaning), bind_of_ok (advance_cons hrest)]
          · rw [bind_of_ok (acceptAs_cons_some (hfeed more) hmeaning),
              bind_of_ok (advance_cons (hfeed more))]

theorem Settles.declineAs {meaning? : TokenKind → Option α} {next : Option (α × Token) → Pass β}
    (hhead : ∀ h, after h → (ks.head?.or h).bind meaning? = none)
    (hnone : Settles after ks (next none)) : Settles after ks (Pass.acceptAs meaning? >>= next) := by
  refine hnone.congr ?_
  rintro s ⟨h, hafter, hkind⟩
  refine bind_of_ok (acceptAs_eq_none.2 ⟨rfl, ?_⟩)
  rw [peekKind?_zero, hkind]
  exact hhead h hafter

theorem Steady.acceptAs {meaning? : TokenKind → Option α}
    {next next' : Option (α × Token) → Pass β} (later : List TokenKind)
    (hhead : ∀ h, after h → (ks.head?.or h).bind meaning? = none)
    (hnone : Steady after ks (next none) (next' none))
    (hsome : ∀ found, Steady after later (next (some found)) (next' (some found))) :
    Steady after ks (Pass.acceptAs meaning? >>= next) (Pass.acceptAs meaning? >>= next') :=
  ⟨fun s hs => .acceptAs hs later (hnone.feeds s hs) hsome, .declineAs hhead hnone.settles⟩

/-- A token that may be left out is read where it stands. -/
theorem Steady.recover (kind : TokenKind) (missing : DiagnosticKind) :
    Stable Anything [kind] (Pass.recover kind missing) := by
  rw [recover_eq]
  refine ⟨fun s hs => .accept hs [] ?_ fun token => .pure _, .of_take ?_⟩
  · have hmissing : Steady Anything [] (do
        Pass.report (← Pass.lastLine) missing
        return none : Pass (Option Token)) (do
        Pass.report (← Pass.lastLine) missing
        return none) :=
      .lastLine fun _ => .blind (.report _ _) fun _ => .pure none
    exact hmissing.feeds s hs
  · intro s token rest hrest hkind _
    have haccept : Pass.accept kind s = _ := accept_cons hrest
    rw [if_pos hkind] at haccept
    exact ⟨some token, bind_of_ok haccept⟩

theorem Steady.recovered {kind : TokenKind} {missing : DiagnosticKind}
    {next next' : Option Token → Pass β}
    (hnext : ∀ found, Steady after ks (next found) (next' found)) :
    Steady after (kind :: ks) (Pass.recover kind missing >>= next)
      (Pass.recover kind missing >>= next') :=
  .bind (.recover kind missing) hnext rfl fun _ _ => trivial

end Tokens

end Pass

end OnePass
