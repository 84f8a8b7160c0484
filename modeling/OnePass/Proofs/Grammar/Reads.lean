import OnePass.Proofs.Grammar.Shape
import OnePass.Proofs.Grammar.Soundness

/-!
Steps that read a given list of kinds. `Yields step kinds rest result` says that from every fit
state in front of `kinds` and then `rest`, the step succeeds, consumes the tokens of `kinds`, and
leaves a fit state in front of `rest`. There is a rule for each small step, and one for nesting:
a phrase that calls itself only for shorter lists of kinds never meets its bound.
-/

namespace OnePass

/-- A token whose numeral, if it is one, spells a word. -/
def Token.Spelled (token : Token) : Prop :=
  token.kind = .intLit → ∃ value, Text.signed? token.value.toList = some value

/-- Nothing has gone wrong yet and nothing but the kinds of the tokens ahead can: the sink takes
every line, the numerals ahead spell words, and no structural diagnostic is recorded. -/
structure State.Fit (s : State) : Prop where
  unlimited : s.emitter.sink.limit = none
  flushes : s.emitter.sink.flushFails = false
  spelled : ∀ token ∈ s.cursor.rest, token.Spelled
  regular : ∀ d ∈ s.diagnostics, d.kind.isStructural = false

/-- The kinds of the tokens ahead. -/
def State.kinds (s : State) : List TokenKind :=
  s.cursor.rest.map Token.kind

namespace State

theorem peekKind?_eq (s : State) (offset : Nat) :
    s.cursor.peekKind? offset = s.kinds[offset]? := by
  simp [kinds, Cursor.peekKind?, Cursor.peek?]

theorem head?_kinds (s : State) : s.cursor.peekKind? 0 = s.kinds.head? := by
  rw [peekKind?_eq, List.head?_eq_getElem?]

/-- The token behind the next kind, and what is ahead once it is consumed. -/
theorem exists_token {s : State} (hfit : s.Fit) {kind : TokenKind} {ks : List TokenKind}
    (hkinds : s.kinds = kind :: ks) :
    ∃ token t, Pass.advance s = .ok token t ∧ token.kind = kind ∧ token.Spelled ∧
      s.cursor.rest.head? = some token ∧ t.Fit ∧ t.kinds = ks := by
  unfold kinds at hkinds
  rw [List.map_eq_cons_iff] at hkinds
  obtain ⟨token, rest, hrest, hkind, hks⟩ := hkinds
  refine ⟨token, _, Pass.advance_eq_ok.2 ⟨rest, hrest, rfl⟩, hkind, ?_, ?_, ?_, hks⟩
  · apply hfit.spelled
    rw [hrest]
    exact List.mem_cons_self
  · rw [hrest]
    rfl
  · refine ⟨hfit.unlimited, hfit.flushes, ?_, hfit.regular⟩
    intro later hlater
    apply hfit.spelled
    rw [hrest]
    exact List.mem_cons_of_mem token hlater

end State

namespace Pass

open Grammar

variable {α β ι : Type}

/-- From every fit state in front of the kinds `ks` and then `rest`, the step succeeds and leaves
a fit state in front of `rest`. -/
def Yields (step : Pass α) (ks rest : List TokenKind) (result : α → Prop) : Prop :=
  ∀ s : State, s.Fit → s.kinds = ks ++ rest →
    ∃ a t, step s = .ok a t ∧ t.Fit ∧ t.kinds = rest ∧ result a

/-- Yields, whatever the result. -/
def Reads (step : Pass α) (ks rest : List TokenKind) : Prop :=
  Yields step ks rest fun _ => True

section Composition

variable {step : Pass α} {next : α → Pass β} {front back ks rest : List TokenKind}
  {found : α → Prop} {result : β → Prop}

theorem Yields.bind (hstep : Yields step front (back ++ rest) found)
    (hnext : ∀ a, found a → Yields (next a) back rest result) :
    Yields (step >>= next) (front ++ back) rest result := by
  intro s hfit hkinds
  rw [List.append_assoc] at hkinds
  obtain ⟨a, u, ha, hufit, hukinds, hfound⟩ := hstep s hfit hkinds
  obtain ⟨b, t, hb, htfit, htkinds, hresult⟩ := hnext a hfound u hufit hukinds
  exact ⟨b, t, bind_eq_ok.2 ⟨a, u, ha, hb⟩, htfit, htkinds, hresult⟩

theorem Reads.bind (hstep : Reads step front (back ++ rest))
    (hnext : ∀ a, Yields (next a) back rest result) :
    Yields (step >>= next) (front ++ back) rest result :=
  Yields.bind hstep fun a _ => hnext a

/-- A step that reads nothing, in front of others. -/
theorem Yields.andThen (hstep : Yields step [] (ks ++ rest) found)
    (hnext : ∀ a, found a → Yields (next a) ks rest result) :
    Yields (step >>= next) ks rest result :=
  hstep.bind hnext

theorem Reads.andThen (hstep : Reads step [] (ks ++ rest))
    (hnext : ∀ a, Yields (next a) ks rest result) : Yields (step >>= next) ks rest result :=
  hstep.bind hnext

/-- A step that reads all there is to read, in front of others. -/
theorem Reads.before (hstep : Reads step ks rest)
    (hnext : ∀ a, Yields (next a) [] rest result) : Yields (step >>= next) ks rest result := by
  have h : Yields (step >>= next) (ks ++ []) rest result := Reads.bind hstep hnext
  rwa [List.append_nil] at h

theorem yields_pure {a : α} (h : found a) : Yields (pure a) [] rest found := by
  intro s hfit hkinds
  exact ⟨a, s, rfl, hfit, hkinds, h⟩

theorem reads_pure (a : α) : Reads (pure a) [] rest :=
  yields_pure trivial

/-- A step that reads nothing is made under a condition, in front of others. -/
theorem Reads.joined {condition : Prop} [Decidable condition] {step : Pass Unit}
    {next : Unit → Pass β} (hstep : condition → Reads step [] (ks ++ rest))
    (hnext : Yields (next ()) ks rest result) :
    Yields (if condition then step >>= next else next ()) ks rest result := by
  by_cases hcondition : condition
  · rw [if_pos hcondition]
    exact (hstep hcondition).andThen fun _ => hnext
  · rw [if_neg hcondition]
    exact hnext

end Composition

section Tokens

variable {kind : TokenKind} {ks rest : List TokenKind} {result : β → Prop}

theorem yields_advance : Yields advance [kind] rest fun token => token.kind = kind := by
  intro s hfit hkinds
  obtain ⟨token, t, hadvance, hkind, _, _, htfit, htkinds⟩ := State.exists_token hfit hkinds
  exact ⟨token, t, hadvance, htfit, htkinds, hkind⟩

theorem reads_advance {next : Token → Pass β}
    (hnext : ∀ token, Yields (next token) ks rest result) :
    Yields (advance >>= next) (kind :: ks) rest result :=
  Yields.bind yields_advance fun token _ => hnext token

theorem yields_expect :
    Yields (expect kind) [kind] rest fun token => token.kind = kind ∧ token.Spelled := by
  intro s hfit hkinds
  obtain ⟨token, t, hadvance, hkind, hspelled, _, htfit, htkinds⟩ := State.exists_token hfit hkinds
  exact ⟨token, t, expect_eq_ok.2 ⟨hkind, hadvance⟩, htfit, htkinds, hkind, hspelled⟩

theorem reads_expect {next : Token → Pass β} (hnext : ∀ token, Yields (next token) ks rest result) :
    Yields (expect kind >>= next) (kind :: ks) rest result :=
  Yields.bind yields_expect fun token _ => hnext token

/-- The next token is looked at, and its kind is known. -/
theorem reads_current {next : Token → Pass β} (hhead : (ks ++ rest).head? = some kind)
    (hnext : ∀ token, token.kind = kind → Yields (next token) ks rest result) :
    Yields (current >>= next) ks rest result := by
  intro s hfit hkinds
  rw [← hkinds, List.head?_eq_some_iff] at hhead
  obtain ⟨tail, htail⟩ := hhead
  obtain ⟨token, _, _, hkind, _, hnow, _, _⟩ := State.exists_token hfit htail
  obtain ⟨b, t, hb, h⟩ := hnext token hkind s hfit hkinds
  exact ⟨b, t, bind_eq_ok.2 ⟨token, s, current_eq_ok.2 ⟨hnow, rfl⟩, hb⟩, h⟩

theorem reads_accept {next : Option Token → Pass β}
    (hnext : ∀ token, Yields (next (some token)) ks rest result) :
    Yields (accept kind >>= next) (kind :: ks) rest result := by
  have haccept : Yields (accept kind) [kind] (ks ++ rest) fun found =>
      ∃ token, found = some token := by
    intro s hfit hkinds
    obtain ⟨token, t, hadvance, hkind, _, _, htfit, htkinds⟩ := State.exists_token hfit hkinds
    exact ⟨_, t, accept_eq_some.2 ⟨hkind, hadvance⟩, htfit, htkinds, token, rfl⟩
  apply Yields.bind haccept
  rintro _ ⟨token, rfl⟩
  exact hnext token

/-- A token of another kind is not accepted. -/
theorem reads_decline {next : Option Token → Pass β} (hhead : (ks ++ rest).head? ≠ some kind)
    (hnext : Yields (next none) ks rest result) :
    Yields (accept kind >>= next) ks rest result := by
  intro s hfit hkinds
  obtain ⟨b, t, hb, h⟩ := hnext s hfit hkinds
  have hdeclined : accept kind s = .ok none s := by
    rw [accept_eq_none, State.head?_kinds, hkinds]
    exact ⟨rfl, hhead⟩
  exact ⟨b, t, bind_eq_ok.2 ⟨none, s, hdeclined, hb⟩, h⟩

theorem reads_acceptAs {meaning? : TokenKind → Option α} {next : Option (α × Token) → Pass β}
    (hmeaning : (meaning? kind).isSome = true)
    (hnext : ∀ meaning token, Yields (next (some (meaning, token))) ks rest result) :
    Yields (acceptAs meaning? >>= next) (kind :: ks) rest result := by
  obtain ⟨meaning, hmeaning⟩ := Option.isSome_iff_exists.1 hmeaning
  have haccept : Yields (acceptAs meaning?) [kind] (ks ++ rest) fun found =>
      ∃ token, found = some (meaning, token) := by
    intro s hfit hkinds
    obtain ⟨token, t, hadvance, hkind, _, _, htfit, htkinds⟩ := State.exists_token hfit hkinds
    refine ⟨_, t, acceptAs_eq_some.2 ⟨?_, hadvance⟩, htfit, htkinds, token, rfl⟩
    rw [hkind, hmeaning]
  apply Yields.bind haccept
  rintro _ ⟨token, rfl⟩
  exact hnext meaning token

/-- A token whose kind stands for nothing is not accepted. -/
theorem reads_declineAs {meaning? : TokenKind → Option α} {next : Option (α × Token) → Pass β}
    (hhead : (ks ++ rest).head?.bind meaning? = none) (hnext : Yields (next none) ks rest result) :
    Yields (acceptAs meaning? >>= next) ks rest result := by
  intro s hfit hkinds
  obtain ⟨b, t, hb, h⟩ := hnext s hfit hkinds
  have hdeclined : acceptAs meaning? s = .ok none s := by
    rw [acceptAs_eq_none, State.head?_kinds, hkinds]
    exact ⟨rfl, hhead⟩
  exact ⟨b, t, bind_eq_ok.2 ⟨none, s, hdeclined, hb⟩, h⟩

theorem reads_peekKind {offset : Nat} {next : Option TokenKind → Pass β}
    (hnext : Yields (next (ks ++ rest)[offset]?) ks rest result) :
    Yields (peekKind offset >>= next) ks rest result := by
  intro s hfit hkinds
  obtain ⟨b, t, hb, h⟩ := hnext s hfit hkinds
  rw [← hkinds, ← State.peekKind?_eq] at hb
  exact ⟨b, t, bind_eq_ok.2 ⟨_, s, rfl, hb⟩, h⟩

theorem reads_nextIs {next : Bool → Pass β} (hhead : (ks ++ rest).head? = some kind)
    (hnext : Yields (next true) ks rest result) : Yields (nextIs kind >>= next) ks rest result := by
  intro s hfit hkinds
  obtain ⟨b, t, hb, h⟩ := hnext s hfit hkinds
  have hnow : nextIs kind s = .ok true s := by
    rw [nextIs_eq_ok, Cursor.nextIs, State.head?_kinds, hkinds, hhead]
    exact ⟨(beq_self_eq_true _).symm, rfl⟩
  exact ⟨b, t, bind_eq_ok.2 ⟨true, s, hnow, hb⟩, h⟩

theorem reads_nextIsNot {next : Bool → Pass β} (hhead : (ks ++ rest).head? ≠ some kind)
    (hnext : Yields (next false) ks rest result) :
    Yields (nextIs kind >>= next) ks rest result := by
  intro s hfit hkinds
  obtain ⟨b, t, hb, h⟩ := hnext s hfit hkinds
  have hnot : nextIs kind s = .ok false s := by
    rw [nextIs_eq_ok, Cursor.nextIs, State.head?_kinds, hkinds, eq_comm, beq_eq_false_iff_ne]
    exact ⟨hhead, rfl⟩
  exact ⟨b, t, bind_eq_ok.2 ⟨false, s, hnot, hb⟩, h⟩

/-- A token that may be left out, where it stands. -/
theorem reads_recover {missing : DiagnosticKind} {next : Option Token → Pass β}
    (hnext : ∀ found, Yields (next found) ks rest result) :
    Yields (recover kind missing >>= next) (kind :: ks) rest result := by
  have hrecover : Reads (recover kind missing) [kind] (ks ++ rest) := by
    rw [recover_eq]
    apply reads_accept
    intro token
    exact reads_pure _
  exact hrecover.bind hnext

/-- A step of the cursor that consumes whatever tokens have the given kinds. -/
theorem reads_onCursor {step : Cursor.Step α}
    (h : ∀ consumed front back, front.map Token.kind = ks →
      ∃ a passed, step { consumed, rest := front ++ back } =
        .ok a { consumed := passed, rest := back }) :
    Reads (onCursor step) ks rest := by
  intro s hfit hkinds
  obtain ⟨front, back, hrest, hfront, hback⟩ := List.map_eq_append_iff.1 hkinds
  obtain ⟨a, passed, hstep⟩ := h s.cursor.consumed front back hfront
  rw [← hrest] at hstep
  refine ⟨a, _, onCursor_eq_ok.2 ⟨_, hstep, rfl⟩, ?_, hback, trivial⟩
  refine ⟨hfit.unlimited, hfit.flushes, ?_, hfit.regular⟩
  intro token htoken
  apply hfit.spelled
  rw [hrest]
  exact List.mem_append_right front htoken

theorem reads_unsigned : Reads unsigned [.intLit] rest := by
  apply Yields.bind yields_expect
  rintro token ⟨hkind, hspelled⟩
  obtain ⟨value, hvalue⟩ := hspelled hkind
  simp only [hvalue]
  exact reads_pure _

end Tokens

section Quiet

variable {rest : List TokenKind}

/-- A step that moves nothing and keeps a state fit reads nothing. -/
theorem reads_nothing {step : Pass α}
    (h : ∀ s : State, s.Fit → ∃ a t, step s = .ok a t ∧ t.Fit ∧ t.cursor = s.cursor) :
    Reads step [] rest := by
  intro s hfit hkinds
  obtain ⟨a, t, hstep, htfit, hcursor⟩ := h s hfit
  refine ⟨a, t, hstep, htfit, ?_, trivial⟩
  rw [State.kinds, hcursor]
  exact hkinds

theorem reads_report (line : UInt64) {kind : DiagnosticKind} (h : kind.isStructural = false) :
    Reads (report line kind) [] rest := by
  apply reads_nothing
  intro s hfit
  refine ⟨(), _, rfl, ⟨hfit.unlimited, hfit.flushes, hfit.spelled, ?_⟩, rfl⟩
  intro d hd
  rcases Array.mem_push.1 hd with hd | rfl
  · exact hfit.regular d hd
  · exact h

theorem reads_emit (instr : Instr) : Reads (emit instr) [] rest := by
  apply reads_nothing
  intro s hfit
  unfold emit Emitter.emit
  rw [Sink.write_of_unlimited hfit.unlimited]
  exact ⟨(), _, rfl, ⟨hfit.unlimited, hfit.flushes, hfit.spelled, hfit.regular⟩, rfl⟩

/-- A step that moves nothing, writes nothing and records nothing reads nothing. -/
theorem reads_aside {step : Pass α}
    (h : ∀ s : State, ∃ a t, step s = .ok a t ∧ t.cursor = s.cursor ∧
      t.emitter = s.emitter ∧ t.diagnostics = s.diagnostics) : Reads step [] rest := by
  apply reads_nothing
  intro s hfit
  obtain ⟨a, t, hstep, hcursor, hemitter, hdiagnostics⟩ := h s
  refine ⟨a, t, hstep, ⟨?_, ?_, ?_, ?_⟩, hcursor⟩
  · rw [hemitter]
    exact hfit.unlimited
  · rw [hemitter]
    exact hfit.flushes
  · rw [hcursor]
    exact hfit.spelled
  · rw [hdiagnostics]
    exact hfit.regular

theorem reads_lastLine : Reads lastLine [] rest :=
  reads_aside fun s => ⟨_, s, rfl, rfl, rfl, rfl⟩

theorem reads_nearest? (name : String) : Reads (nearest? name) [] rest :=
  reads_aside fun s => ⟨_, s, rfl, rfl, rfl, rfl⟩

theorem reads_function? (name : String) : Reads (function? name) [] rest :=
  reads_aside fun s => ⟨_, s, rfl, rfl, rfl, rfl⟩

theorem reads_freshReg : Reads freshReg [] rest :=
  reads_aside fun _ => ⟨_, _, rfl, rfl, rfl, rfl⟩

theorem reads_freshLabel : Reads freshLabel [] rest :=
  reads_aside fun _ => ⟨_, _, rfl, rfl, rfl, rfl⟩

theorem reads_intern (text : String) : Reads (intern text) [] rest :=
  reads_aside fun _ => ⟨_, _, rfl, rfl, rfl, rfl⟩

theorem reads_declare (scope : Scope) (symbol : Symbol) : Reads (declare scope symbol) [] rest :=
  reads_aside fun _ => ⟨_, _, rfl, rfl, rfl, rfl⟩

theorem reads_resetLocals : Reads resetLocals [] rest :=
  reads_aside fun _ => ⟨_, _, rfl, rfl, rfl, rfl⟩

theorem reads_keepTable (name : String) (scope : Scope) : Reads (keepTable name scope) [] rest :=
  reads_aside fun _ => ⟨_, _, rfl, rfl, rfl, rfl⟩

theorem reads_noteOverflow (overflows : Bool) : Reads (noteOverflow overflows) [] rest :=
  reads_aside fun _ => ⟨_, _, rfl, rfl, rfl, rfl⟩

/-- A parameter of a type that has a code is added. -/
theorem reads_addParameter (function : String) {ty : Ty} (h : ty ≠ .void) :
    Reads (addParameter function ty) [] rest := by
  have hcode : ty.signatureCode?.isNone ≠ true := by
    rw [Ne, Option.isNone_iff_eq_none, Ty.signatureCode?_eq_none_iff]
    exact h
  apply reads_aside
  intro s
  unfold addParameter
  rw [if_neg hcode]
  exact ⟨_, _, rfl, rfl, rfl, rfl⟩

theorem reads_checkRedefinition (scope : Scope) (name : Token) :
    Reads (checkRedefinition scope name) [] rest := by
  have hlookup : Reads (lookup? scope name.value) [] rest :=
    reads_aside fun s => ⟨_, s, rfl, rfl, rfl, rfl⟩
  apply hlookup.andThen
  intro found
  split
  · exact reads_report _ rfl
  · exact reads_pure ()

theorem reads_resolve (name : Token) : Reads (resolve name) [] rest :=
  (reads_nearest? _).andThen fun _ => reads_pure _

end Quiet

section Nesting

variable {ks rest : List TokenKind}

/-- A phrase that calls itself for shorter lists of kinds only succeeds whenever the bound on its
depth exceeds the number of kinds. -/
theorem reads_nestUpTo {phrase : (ι → Pass α) → ι → Pass α}
    {P : ι → List TokenKind → List TokenKind → Prop}
    (hphrase : ∀ again i ks rest, P i ks rest →
      (∀ j front back, P j front back → front.length < ks.length → Reads (again j) front back) →
      Reads (phrase again i) ks rest) (bound : Nat) :
    ∀ i ks rest, P i ks rest → ks.length < bound → Reads (nestUpTo phrase bound i) ks rest := by
  induction bound with
  | zero =>
      intro i ks rest _ hbound
      exact absurd hbound (Nat.not_lt_zero _)
  | succ bound ih =>
      intro i ks rest h hbound
      apply hphrase _ i ks rest h
      intro j front back hfront hshort
      exact ih j front back hfront (by omega)

theorem reads_nestFrom {phrase : (ι → Pass α) → ι → Pass α}
    {P : ι → List TokenKind → List TokenKind → Prop}
    (hphrase : ∀ again i ks rest, P i ks rest →
      (∀ j front back, P j front back → front.length < ks.length → Reads (again j) front back) →
      Reads (phrase again i) ks rest)
    {i : ι} (h : P i ks rest) : Reads (nestFrom phrase i) ks rest := by
  intro s hfit hkinds
  have hbound : ks.length < s.cursor.rest.length + 1 := by
    have hlength := congrArg List.length hkinds
    rw [State.kinds, List.length_map, List.length_append] at hlength
    omega
  obtain ⟨a, t, hrun, ht⟩ := reads_nestUpTo hphrase _ i ks rest h hbound s hfit hkinds
  exact ⟨a, t, bind_eq_ok.2 ⟨_, s, rfl, hrun⟩, ht⟩

theorem reads_nest {phrase : Pass α → Pass α} {P : List TokenKind → List TokenKind → Prop}
    (hphrase : ∀ again ks rest, P ks rest →
      (∀ front back, P front back → front.length < ks.length → Reads again front back) →
      Reads (phrase again) ks rest)
    (h : P ks rest) : Reads (nest phrase) ks rest := by
  refine reads_nestFrom (P := fun _ => P) ?_ h
  intro again _ ks rest hks hagain
  exact hphrase (again ()) ks rest hks (hagain ())

/-- A list of kinds that a step reads part by part, until it declines in front of `rest`. -/
inductive Rounds (step : ι → Pass (Option α)) (rest : List TokenKind) : List TokenKind → Prop where
  | stop (hstep : ∀ i, Yields (step i) [] rest fun found => found = none) : Rounds step rest []
  | go {first tail : List TokenKind} (hfirst : first ≠ [])
      (hstep : ∀ i, Yields (step i) first (tail ++ rest) fun found => ∃ a, found = some a)
      (htail : Rounds step rest tail) : Rounds step rest (first ++ tail)

/-- A repetition is read part by part, if each part is. -/
theorem rounds_of_repeated {step : ι → Pass (Option α)} {phrase : List TokenKind → Prop}
    {bound : Nat}
    (hstop : ∀ i, Yields (step i) [] rest fun found => found = none)
    (hphrase : ∀ part, phrase part → part ≠ [])
    (hgo : ∀ i part more, phrase part → Repeated phrase more → part.length ≤ bound →
      Yields (step i) part (more ++ rest) fun found => ∃ a, found = some a)
    (h : Repeated phrase ks) (hbound : ks.length ≤ bound) : Rounds step rest ks := by
  induction h with
  | nil => exact .stop hstop
  | cons hfirst hrest ih =>
      rw [List.length_append] at hbound
      refine .go (hphrase _ hfirst) ?_ (ih (by omega))
      intro i
      exact hgo i _ _ hfirst hrest (by omega)

theorem rounds_of_linked {step : ι → Pass (Option α)} {links : List TokenKind}
    {phrase : List TokenKind → Prop} {bound : Nat}
    (hstop : ∀ i, Yields (step i) [] rest fun found => found = none)
    (hgo : ∀ i link operand more, link ∈ links → phrase operand →
      Repeated (Linked links phrase) more → operand.length < bound →
      Yields (step i) (link :: operand) (more ++ rest) fun found => ∃ a, found = some a)
    (h : Repeated (Linked links phrase) ks) (hbound : ks.length ≤ bound) : Rounds step rest ks := by
  refine rounds_of_repeated hstop ?_ ?_ h hbound
  · rintro _ ⟨link, _, operand, _, rfl⟩
    exact List.cons_ne_nil link operand
  · rintro i _ more ⟨link, hlink, operand, hoperand, rfl⟩ hmore hlength
    exact hgo i link operand more hlink hoperand hmore hlength

theorem length_lt_append {first tail : List TokenKind} (h : first ≠ []) :
    tail.length < (first ++ tail).length := by
  rw [List.length_append]
  have hpos := List.length_pos_iff.2 h
  omega

theorem reads_many {item : Pass (Option α)} (h : Rounds (fun _ : Unit => item) rest ks) :
    Reads (many item) ks rest := by
  refine reads_nest (P := fun ks rest => Rounds (fun _ : Unit => item) rest ks) ?_ h
  intro again ks rest h hagain
  cases h with
  | stop hstep =>
      refine (hstep ()).andThen ?_
      rintro _ rfl
      exact reads_pure []
  | go hfirst hstep htail =>
      refine (hstep ()).bind ?_
      rintro _ ⟨a, rfl⟩
      refine (hagain _ rest htail (length_lt_append hfirst)).before ?_
      intro as
      exact reads_pure (a :: as)

theorem reads_extend {link : α → Pass (Option α)} (h : Rounds link rest ks) (a : α) :
    Reads (extend link a) ks rest := by
  refine reads_nestFrom (P := fun _ ks rest => Rounds link rest ks) ?_ h
  intro again a ks rest h hagain
  cases h with
  | stop hstep =>
      refine (hstep a).andThen ?_
      rintro _ rfl
      exact reads_pure a
  | go hfirst hstep htail =>
      refine (hstep a).bind ?_
      rintro _ ⟨longer, rfl⟩
      exact hagain longer _ rest htail (length_lt_append hfirst)

/-- A list with commas, whose items are read in front of commas and in front of `rest`. -/
theorem reads_commaList {item : Pass α} {phrase : List TokenKind → Prop} {stops : List TokenKind}
    (hitem : ∀ ks rest, phrase ks → NotNext stops rest → Reads item ks rest)
    (hcomma : .comma ∉ stops) (h : Listed phrase ks)
    (hrest : NotNext (.comma :: stops) rest) : Reads (commaList item) ks rest := by
  refine reads_nest
    (P := fun ks rest => Listed phrase ks ∧ NotNext (.comma :: stops) rest) ?_ ⟨h, hrest⟩
  rintro again ks rest ⟨h, hrest⟩ hagain
  have hends : NotNext stops rest := hrest.mono fun _ => List.mem_cons_of_mem _
  cases h with
  | one hone =>
      refine (hitem ks rest hone hends).before ?_
      intro a
      exact reads_decline (hrest.ne List.mem_cons_self) (reads_pure _)
  | cons hone htail =>
      refine (hitem _ _ hone (notNext_cons hcomma)).bind ?_
      intro a
      apply reads_accept
      intro comma
      refine (hagain _ rest ⟨htail, hrest⟩ ?_).before ?_
      · simp only [List.length_append, List.length_cons]
        omega
      · intro items
        exact reads_pure _

end Nesting

end Pass

end OnePass
