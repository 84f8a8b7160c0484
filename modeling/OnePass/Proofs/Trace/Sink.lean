import OnePass.Proofs.Progress.Passes

/-!
The text that a compilation writes is the text of its code, as far as the sink takes it. A sink
with a limit holds the first bytes of what a sink without one holds, and the compilation ends as
it does without a limit or, when the limit is met, with an error of the sink.
-/

namespace OnePass

/-- The bytes within a limit. -/
def cut : Option Nat → ByteArray → ByteArray
  | none, bytes => bytes
  | some n, bytes => bytes.extract 0 n

theorem extract_of_size_le {bytes : ByteArray} {n : Nat} (h : bytes.size ≤ n) :
    bytes.extract 0 n = bytes := by
  have hrest : bytes.extract bytes.size n = .empty :=
    ByteArray.extract_eq_empty_iff.2 (Nat.min_le_right n bytes.size)
  rw [ByteArray.extract_eq_extract_append_extract bytes.size (Nat.zero_le _) h, hrest,
    ByteArray.extract_zero_size, ByteArray.append_empty]

theorem extract_min_size (bytes : ByteArray) (n : Nat) :
    bytes.extract 0 (min n bytes.size) = bytes.extract 0 n := by
  by_cases h : n ≤ bytes.size
  · rw [Nat.min_eq_left h]
  · rw [Nat.min_eq_right (by omega), ByteArray.extract_zero_size, extract_of_size_le (by omega)]

namespace Instr

theorem toUTF8_render_append (front back : List Instr) :
    (render (front ++ back)).toUTF8 = (render front).toUTF8 ++ (render back).toUTF8 := by
  simp [render, String.toUTF8]

theorem toUTF8_render_singleton (instr : Instr) : (render [instr]).toUTF8 = instr.line.toUTF8 := by
  simp [render]

end Instr

namespace Sink

/-- Whether all that was written lies within a limit. -/
def fits (limit : Option Nat) (sink : Sink) : Bool :=
  limit.all (sink.written.size ≤ ·)

/-- The sink with a limit that was given the same texts. -/
def narrow (limit : Option Nat) (flushFails : Bool) (sink : Sink) : Sink :=
  { written := cut limit sink.written, limit, flushFails }

variable {limit : Option Nat} {sink : Sink}

/-- A sink with a limit takes a text as far as the limit, and whole if that is not met. -/
theorem write_narrow (hlimit : sink.limit = none) (hfits : sink.fits limit = true)
    (flushFails : Bool) (text : String) :
    (sink.narrow limit flushFails).write text =
      ((sink.write text).1.narrow limit flushFails, (sink.write text).1.fits limit) := by
  rw [write_of_unlimited hlimit, write]
  cases limit with
  | none => rfl
  | some n =>
      have hsize : sink.written.size ≤ n := by simpa [fits] using hfits
      have hcut : cut (some n) sink.written = sink.written := extract_of_size_le hsize
      have hwhole : cut (some n) (sink.written ++ text.toUTF8) =
          sink.written ++ text.toUTF8.extract 0 (n - sink.written.size) := by
        rw [cut, ByteArray.extract_append, extract_of_size_le hsize, Nat.zero_sub]
      simp only [narrow, hcut, hwhole, fits, Option.all_some, ByteArray.size_append]
      by_cases hroom : text.toUTF8.size ≤ n - sink.written.size
      · have hall : sink.written.size + text.toUTF8.size ≤ n := by omega
        rw [if_pos hroom, extract_of_size_le hroom, decide_eq_true hall]
      · have hmore : ¬ sink.written.size + text.toUTF8.size ≤ n := by omega
        rw [if_neg hroom, decide_eq_false hmore]

end Sink

/-- Code and text grow by the same instructions. -/
structure Emitter.Grows (before after : Emitter) (emitted : List Instr) : Prop where
  code : after.code.toList = before.code.toList ++ emitted
  sink : after.sink =
    { before.sink with written := before.sink.written ++ (Instr.render emitted).toUTF8 }

namespace Emitter.Grows

variable {before between after : Emitter} {front back : List Instr}

theorem refl (emitter : Emitter) : emitter.Grows emitter [] :=
  ⟨by simp, by simp [Instr.render]⟩

theorem limit_eq (h : before.Grows after front) : after.sink.limit = before.sink.limit := by
  rw [h.sink]

theorem trans (hfront : before.Grows between front) (hback : between.Grows after back) :
    before.Grows after (front ++ back) := by
  constructor
  · rw [hback.code, hfront.code, List.append_assoc]
  · rw [hback.sink, hfront.sink, Instr.toUTF8_render_append, ByteArray.append_assoc]

theorem emit {instr : Instr} (h : before.sink.limit = none) :
    before.Grows (before.emit instr).1 [instr] := by
  unfold Emitter.emit
  rw [Sink.write_of_unlimited h]
  exact ⟨by simp, by rw [Instr.toUTF8_render_singleton]⟩

/-- What is written after a limit was met is lost. -/
theorem narrow_of_not_fits {limit : Option Nat} (h : before.Grows after front) (flushFails : Bool)
    (hfits : before.sink.fits limit = false) :
    after.sink.fits limit = false ∧
      after.sink.narrow limit flushFails = before.sink.narrow limit flushFails := by
  cases limit with
  | none => cases hfits
  | some n =>
      have hsize : n < before.sink.written.size := by simpa [Sink.fits] using hfits
      have hnone : ((Instr.render front).toUTF8).extract 0 (n - before.sink.written.size) = .empty := by
        rw [ByteArray.extract_eq_empty_iff]
        omega
      constructor
      · simp only [Sink.fits, Option.all_some, h.sink, ByteArray.size_append,
          decide_eq_false_iff_not]
        omega
      · simp only [Sink.narrow, cut, h.sink, ByteArray.extract_append, Nat.zero_sub, hnone,
          ByteArray.append_empty]

end Emitter.Grows

/-- The state of a compilation to a sink with a limit. -/
def State.narrow (limit : Option Nat) (flushFails : Bool) (s : State) : State :=
  { s with emitter := { s.emitter with sink := s.emitter.sink.narrow limit flushFails } }

namespace Pass

variable {α : Type}

theorem IsSilent.emitter_eq {step : Pass α} (h : step.IsSilent) (s : State) :
    (endState (step s)).emitter = s.emitter := by
  have hsame : step s = mapState (fun t => { t with emitter := s.emitter }) (step s) :=
    h s s.emitter
  rw [hsame]
  cases step s <;> rfl

/-- However it ends, a run without a limit adds the same to the code and to the text. -/
theorem Composed.grows {pass : Pass α} (h : Composed pass) (s : State)
    (hlimit : s.emitter.sink.limit = none) :
    ∃ emitted, s.emitter.Grows (endState (pass s)).emitter emitted := by
  induction h generalizing s with
  | silent hsilent => exact ⟨[], hsilent.emitter_eq s ▸ .refl _⟩
  | emit instr =>
      rw [emit_of_unlimited hlimit]
      exact ⟨[instr], .emit hlimit⟩
  | @bind _ _ step next hstep hnext ihstep ihnext =>
      obtain ⟨front, hfront⟩ := ihstep s hlimit
      cases hrun : step s with
      | error error u =>
          rw [hrun] at hfront
          rw [bind_of_error hrun]
          exact ⟨front, hfront⟩
      | ok a u =>
          rw [hrun] at hfront
          obtain ⟨back, hback⟩ := ihnext a u (hfront.limit_eq.trans hlimit)
          rw [bind_of_ok hrun]
          exact ⟨front ++ back, hfront.trans hback⟩

/-- What becomes of a run when its sink is given a limit. -/
def Narrowed (limit : Option Nat) (flushFails : Bool)
    (free narrow : EStateM.Result ParseError State α) : Prop :=
  ((endState free).emitter.sink.fits limit = true ∧
      narrow = mapState (State.narrow limit flushFails) free) ∨
    ((endState free).emitter.sink.fits limit = false ∧ ∃ t, narrow = .error .trace t ∧
      t.emitter.sink = (endState free).emitter.sink.narrow limit flushFails)

theorem IsSilent.narrowed {step : Pass α} (h : step.IsSilent) (s : State) {limit : Option Nat}
    (hfits : s.emitter.sink.fits limit = true) (flushFails : Bool) :
    Narrowed limit flushFails (step s) (step (s.narrow limit flushFails)) := by
  have hemitter := h.emitter_eq s
  refine .inl ⟨by rw [hemitter, hfits], ?_⟩
  rw [State.narrow, h s]
  cases hrun : step s with
  | ok a t =>
      rw [hrun, endState] at hemitter
      rw [mapState, mapState, State.narrow, hemitter]
  | error error t =>
      rw [hrun, endState] at hemitter
      rw [mapState, mapState, State.narrow, hemitter]

theorem narrowed_emit (instr : Instr) (s : State) (hlimit : s.emitter.sink.limit = none)
    {limit : Option Nat} (hfits : s.emitter.sink.fits limit = true) (flushFails : Bool) :
    Narrowed limit flushFails (Pass.emit instr s) (Pass.emit instr (s.narrow limit flushFails)) := by
  have hwrite := Sink.write_narrow hlimit hfits flushFails instr.line
  have hfree : Pass.emit instr s = .ok () { s with emitter :=
      { code := s.emitter.code.push instr, sink := (s.emitter.sink.write instr.line).1 } } := by
    rw [emit_of_unlimited hlimit, Emitter.emit, Sink.write_of_unlimited hlimit]
  rw [hfree]
  unfold Pass.emit Emitter.emit
  rw [State.narrow, hwrite]
  cases hall : (s.emitter.sink.write instr.line).1.fits limit with
  | true => exact .inl ⟨hall, rfl⟩
  | false => exact .inr ⟨hall, _, rfl, rfl⟩

/-- A run with a limit goes as without one, up to where the limit is met. -/
theorem Composed.narrowed {pass : Pass α} (h : Composed pass) (s : State)
    (hlimit : s.emitter.sink.limit = none) {limit : Option Nat}
    (hfits : s.emitter.sink.fits limit = true) (flushFails : Bool) :
    Narrowed limit flushFails (pass s) (pass (s.narrow limit flushFails)) := by
  induction h generalizing s with
  | silent hsilent => exact hsilent.narrowed s hfits flushFails
  | emit instr => exact narrowed_emit instr s hlimit hfits flushFails
  | @bind _ _ step next hstep hnext ihstep ihnext =>
      have hfirst := ihstep s hlimit hfits
      cases hrun : step s with
      | error error u =>
          rw [hrun] at hfirst
          rw [bind_of_error hrun]
          rcases hfirst with ⟨hwithin, hsame⟩ | ⟨hmet, t, hfailed, hsink⟩
          · exact .inl ⟨hwithin, bind_of_error hsame⟩
          · exact .inr ⟨hmet, t, bind_of_error hfailed, hsink⟩
      | ok a u =>
          rw [hrun] at hfirst
          rw [bind_of_ok hrun]
          obtain ⟨front, hfront⟩ := hstep.grows s hlimit
          rw [hrun] at hfront
          have hu := hfront.limit_eq.trans hlimit
          rcases hfirst with ⟨hwithin, hsame⟩ | ⟨hmet, t, hfailed, hsink⟩
          · rw [bind_of_ok hsame]
            exact ihnext a u hu hwithin
          · -- the limit was met before, and nothing that follows is seen
            obtain ⟨back, hback⟩ := (hnext a).grows u hu
            obtain ⟨hstill, hlost⟩ := hback.narrow_of_not_fits flushFails hmet
            exact .inr ⟨hstill, t, bind_of_error hfailed, hsink.trans hlost.symm⟩

end Pass

/-- A compilation that succeeds becomes an error when its sink cannot be flushed. -/
def flushed (flushFails : Bool) (result : Except ParseError Compilation) :
    Except ParseError Compilation :=
  if flushFails then result.bind fun _ => .error .trace else result

/-- The result of a compilation does not depend on the sink, unless that cannot be flushed. -/
theorem State.finish_narrow {s : State} (hflush : s.emitter.sink.flushFails = false)
    (limit : Option Nat) (flushFails : Bool) (program : Program) :
    (s.narrow limit flushFails).finish program = flushed flushFails (s.finish program) := by
  have hfree : s.emitter.finish? = some s.emitter.code.toList := by
    rw [Emitter.finish?, if_neg (by simp [hflush])]
  unfold State.finish
  rw [hfree]
  cases flushFails <;> rfl

theorem State.code_of_finish {s : State} {program : Program} {c : Compilation}
    (h : s.finish program = .ok c) : c.code = s.emitter.code.toList := by
  unfold State.finish Emitter.finish? at h
  by_cases hflush : s.emitter.sink.flushFails = true
  · simp [hflush] at h
  · simp only [if_neg hflush] at h
    cases h
    rfl

/-- A compilation to a sink with a limit, as it follows from the one without. -/
theorem compileTo_narrow (tokens : List Token) (limit : Option Nat) (flushFails : Bool) :
    compileTo { limit, flushFails } tokens =
      (if (compileTo {} tokens).2.fits limit then flushed flushFails (compileTo {} tokens).1
        else .error .trace,
      (compileTo {} tokens).2.narrow limit flushFails) := by
  have hstart : ({ cursor := .ofTokens tokens, emitter := { sink := { limit, flushFails } } } : State) =
      State.narrow limit flushFails { cursor := .ofTokens tokens } := by
    cases limit with
    | none => rfl
    | some n =>
        have hempty : ByteArray.empty.extract 0 n = .empty := extract_of_size_le (Nat.zero_le n)
        simp [State.narrow, Sink.narrow, cut, hempty]
  have hfits : (Sink.fits limit {}) = true := by
    cases limit with
    | none => rfl
    | some n => simp [Sink.fits]
  have hnarrowed := Pass.Composed.program.narrowed { cursor := .ofTokens tokens } rfl hfits flushFails
  obtain ⟨emitted, hgrows⟩ := Pass.Composed.program.grows { cursor := .ofTokens tokens } rfl
  unfold compileTo
  rw [hstart]
  cases hrun : Pass.program { cursor := .ofTokens tokens } with
  | ok program t =>
      rw [hrun] at hnarrowed hgrows
      have hflush : t.emitter.sink.flushFails = false := congrArg Sink.flushFails hgrows.sink
      rcases hnarrowed with ⟨hwithin, hsame⟩ | ⟨hmet, u, hfailed, hsink⟩
      · rw [Pass.endState] at hwithin
        simp only [hsame, Pass.mapState, hwithin, if_true, State.finish_narrow hflush]
        rfl
      · rw [Pass.endState] at hmet hsink
        simp [hfailed, hmet, hsink]
  | error error t =>
      rw [hrun] at hnarrowed
      rcases hnarrowed with ⟨hwithin, hsame⟩ | ⟨hmet, u, hfailed, hsink⟩
      · rw [Pass.endState] at hwithin
        simp only [hsame, Pass.mapState, hwithin, if_true]
        cases flushFails <;> rfl
      · rw [Pass.endState] at hmet hsink
        simp [hfailed, hmet, hsink]

theorem compileTo_unflushed (tokens : List Token) (limit : Option Nat) :
    (compileTo { limit, flushFails := true } tokens).1 =
      flushed true (compileTo { limit } tokens).1 := by
  rw [compileTo_narrow tokens limit true, compileTo_narrow tokens limit false]
  cases (compileTo {} tokens).2.fits limit <;> rfl

/-- What a compilation writes and gives, whatever its sink does, in terms of what it writes and
gives when the sink takes everything. -/
structure TraceFollows (tokens : List Token) : Prop where
  rendered : ∀ c, (compileTo {} tokens).1 = .ok c →
    (compileTo {} tokens).2.written = (Instr.render c.code).toUTF8
  written : ∀ n, (compileTo { limit := some n } tokens).2.written =
    (compileTo {} tokens).2.written.extract 0 (min n (compileTo {} tokens).2.written.size)
  result : ∀ n, (compileTo { limit := some n } tokens).1 =
    if (compileTo {} tokens).2.written.size ≤ n then (compileTo {} tokens).1 else .error .trace
  unflushed_written : ∀ limit, (compileTo { limit, flushFails := true } tokens).2.written =
    (compileTo { limit } tokens).2.written
  unflushed_ok : ∀ limit c, (compileTo { limit } tokens).1 = .ok c →
    (compileTo { limit, flushFails := true } tokens).1 = .error .trace
  unflushed_error : ∀ limit error, (compileTo { limit } tokens).1 = .error error →
    (compileTo { limit, flushFails := true } tokens).1 = .error error

/-- Trace and code never drift apart. -/
theorem compileTo_traceFollows (tokens : List Token) : TraceFollows tokens := by
  refine ⟨?_, ?_, ?_, ?_, ?_, ?_⟩
  · intro c hc
    obtain ⟨emitted, hgrows⟩ := Pass.Composed.program.grows { cursor := .ofTokens tokens } rfl
    unfold compileTo at hc ⊢
    cases hrun : Pass.program { cursor := .ofTokens tokens } with
    | error error t =>
        rw [hrun] at hc
        cases hc
    | ok program t =>
        rw [hrun] at hc hgrows
        have hcode : c.code = emitted := by
          rw [State.code_of_finish hc, ← List.nil_append emitted]
          exact hgrows.code
        have hwritten := congrArg Sink.written hgrows.sink
        rw [hcode, ← ByteArray.empty_append (b := (Instr.render emitted).toUTF8)]
        exact hwritten
  · intro n
    rw [compileTo_narrow, extract_min_size]
    rfl
  · intro n
    rw [compileTo_narrow]
    simp [Sink.fits, flushed]
  · intro limit
    rw [compileTo_narrow tokens limit true, compileTo_narrow tokens limit false]
    rfl
  · intro limit c hc
    rw [compileTo_unflushed, hc]
    rfl
  · intro limit error herror
    rw [compileTo_unflushed, herror]
    rfl

end OnePass
