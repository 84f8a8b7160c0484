import OnePass.Proofs.Feed.Program

/-!
How a compilation fails says whether its tokens are wrong or only too few: what stops at a token
stops there whatever follows, and what stops at the end of the tokens can be completed.
-/

namespace OnePass

open Pass

/-- What the error of a compilation says about the tokens put behind. -/
structure TellsErrors (tokens : List Token) : Prop where
  /-- No continuation repairs an error at a token, or has anything more emitted. -/
  wrong : ∀ error, compile tokens = .error error → error.isWrong = true → ∀ more,
    (∃ error', compile (tokens ++ more) = .error error' ∧ error'.isWrong = true) ∧
      (compileTo {} (tokens ++ more)).2.written = (compileTo {} tokens).2.written
  /-- Some continuation completes what ends too early. -/
  unfinished : ∀ expected, compile tokens = .error (.unexpectedEof expected) →
    ∃ more c, compile (tokens ++ more) = .ok c

/-- Errors tell a wrong program from an unfinished one. -/
theorem compile_tellsErrors (tokens : List Token) : TellsErrors tokens := by
  have hfeeds := Steady.parts.feeds (.start {} tokens) rfl
  refine ⟨?_, ?_⟩
  · intro error herror hwrong more
    obtain ⟨t, hrun⟩ := compile_eq_error_iff.1 herror
    obtain ⟨error', t', hrun', hwrong', hemitter⟩ := hfeeds.fails error t hrun hwrong more
    rw [State.feed_start] at hrun'
    refine ⟨⟨error', compile_eq_error_iff.2 ⟨t', hrun'⟩, hwrong'⟩, ?_⟩
    rw [compileTo_sink, compileTo_sink, hrun, hrun', endState, endState, hemitter]
  · intro expected herror
    obtain ⟨t, hrun⟩ := compile_eq_error_iff.1 herror
    have hne : (State.start {} tokens).cursor.rest ≠ [] := by
      intro hnil
      rw [parts_nil hnil] at hrun
      cases hrun
    obtain ⟨more, hmore⟩ := hfeeds.closes hne (.inr ⟨expected, t, hrun⟩)
    obtain ⟨items, u, hcloses, _⟩ := hmore [] rfl
    rw [List.append_nil, State.feed_start] at hcloses
    exact ⟨more, u.compilation items, compile_eq_ok_iff.2 ⟨items, u, hcloses, rfl⟩⟩

/-- `void main() { f(1`, where the unknown call is skipped to the end of the tokens. -/
def unfinishedTokens : List Token :=
  scan 1 ["void main ( ) \x7b f ( 1"]

/-- `void main() { f() else`, where nothing that follows helps. -/
def wrongTokens : List Token :=
  scan 1 ["void main ( ) \x7b f ( ) else"]

theorem tellsErrors_unfinished_wrong :
    (∃ more c, compile (unfinishedTokens ++ more) = .ok c) ∧
      ∀ more, ∃ error, compile (wrongTokens ++ more) = .error error ∧ error.isWrong = true := by
  have hunfinished : failure? (compile unfinishedTokens) =
      some (.unexpectedEof (.kind .rparen)) := by
    decide +kernel
  have hwrong : failure? (compile wrongTokens) =
      some (.unexpectedToken .statement ⟨.kwElse, "else", 1⟩) := by
    decide +kernel
  constructor
  · exact (compile_tellsErrors unfinishedTokens).unfinished _ (failure?_eq_some_iff.1 hunfinished)
  · intro more
    exact ((compile_tellsErrors wrongTokens).wrong _ (failure?_eq_some_iff.1 hwrong) rfl more).1

end OnePass
