import OnePass.Proofs.Feed.Pieces
import OnePass.Proofs.Recovery.Passes

/-!
A semicolon that is left out is put back. Where a program compiles without a diagnostic, and one of
the semicolons that end its declarations and statements is deleted, the program compiles as before,
and what is recorded is that a semicolon is missing behind the last token in front of it.

If another semicolon follows, that one ends the statement, and nothing is recorded.
-/

namespace OnePass

open Pass

/-- The second compilation gives what the first does, and records one missing semicolon. -/
structure Compilation.Repairs (line : UInt64) (c d : Compilation) : Prop
    extends c.SameOutput d where
  diagnostics : d.diagnostics = [⟨line, .missingSemicolon⟩]

theorem Gap.Behind.repairs {γ : Gap} {t t' : State} (h : γ.Behind false t t')
    (hquiet : t.diagnostics = #[]) (items items' : List TopLevel) :
    (t.compilation items).Repairs (γ.front.getLast γ.front_ne_nil).line
      (t'.compilation items') where
  toSameOutput := Mirrors.sameOutput h items items'
  diagnostics := by
    have hdiagnostics := h.diagnostics
    rw [hquiet] at hdiagnostics
    exact hdiagnostics

/-- An ending of a program stands behind a semicolon, and what follows cannot be read on from what
stands before it. -/
theorem exists_gap {tokens back : List Token} {items : List TopLevel} {t : State}
    (h : parts (.start {} tokens) = .ok items t) (hquiet : t.diagnostics = #[])
    (hends : back ∈ endingsOf TopLevel.tokens TopLevel.endings items t.cursor.rest)
    (hnext : headKind back ≠ some .semicolon) :
    ∃ γ : Gap, γ.back = back ∧ tokens = γ.front ++ γ.old ∧ Calm γ.back := by
  -- where the ending is and what follows it does not depend on the tokens in front of it
  let γ : Gap := ⟨[⟨.semicolon, ";", 0⟩], ⟨.semicolon, ";", 0⟩, back, nofun, rfl, hnext⟩
  have hit : Hits (tokens.length + 1)
      (fun _ items r => γ.back ∈ endingsOf TopLevel.tokens TopLevel.endings items r) parts
      (.start {} tokens) items t :=
    ⟨Nat.lt_succ_self _, rfl, h, hquiet, hends⟩
  obtain ⟨front, semicolon, hkind, htokens, hlong⟩ := Crosses.parts.place _ _ _ hit
  have hfront : front ≠ [] := List.length_pos_iff.1 (Nat.lt_of_lt_of_le Nat.two_pos hlong)
  refine ⟨⟨front, semicolon, back, hfront, hkind, hnext⟩, rfl, htokens, ?_⟩
  rcases Crosses.parts.calm _ _ _ hit with hcalm | hback
  · exact hcalm
  · have hnil : back = [] := hback.trans (rest_of_parts h)
    exact hnil ▸ Calm.nil

/-- Each semicolon that ends a declaration or a statement may be left out: nothing that follows is
drawn into what it ended. -/
theorem compile_without_semicolon {tokens back : List Token} {c : Compilation}
    (hcompile : compile tokens = .ok c) (hclean : c.diagnostics = [])
    (hends : back ∈ c.program.endings) (hnext : headKind back ≠ some .semicolon) :
    ∃ front last semicolon d, tokens = front ++ last :: semicolon :: back ∧
      semicolon.kind = .semicolon ∧ compile (front ++ last :: back) = .ok d ∧
        c.Repairs last.line d := by
  obtain ⟨items, t, hparts, rfl⟩ := compile_eq_ok_iff.1 hcompile
  have hquiet : t.diagnostics = #[] := Array.toList_eq_nil_iff.1 hclean
  have hbehind : back ∈ endingsOf TopLevel.tokens TopLevel.endings items t.cursor.rest := by
    rw [rest_of_parts hparts]
    exact hends
  obtain ⟨γ, rfl, rfl, hcalm⟩ := exists_gap hparts hquiet hbehind hnext
  obtain ⟨items', t', hparts', hrepaired, _⟩ := Crosses.parts.runs hcalm (.start {} γ.front)
    items t rfl ⟨Nat.lt_succ_self _, rfl, hparts, hquiet, hbehind⟩
  have hfront := List.dropLast_concat_getLast γ.front_ne_nil
  refine ⟨γ.front.dropLast, γ.front.getLast γ.front_ne_nil, γ.semicolon, t'.compilation items', ?_,
    γ.kind_eq, ?_, hrepaired.repairs hquiet items items'⟩
  · rw [List.append_cons, hfront]
    rfl
  · rw [List.append_cons, hfront]
    exact compile_eq_ok_iff.2 ⟨items', t', hparts', rfl⟩

/-- A program with six endings, a counting loop and an empty statement. -/
def endedTokens : List Token :=
  scan 1 ["const int k = 3 ;", "int g ;", "void main ( ) \x7b", "int i ;",
    "for ( i = 0 ; i < k ; i = i + 1 )", "if ( i )", "g = i ;", "else scanf ( g ) ; ;", "return ;",
    "\x7d"]

/-- The semicolon of the assignment in front of `else` can be left out as well as that of a
declaration. The one in front of the empty statement is not among these. -/
theorem repairs_endedTokens : ∃ c, compile endedTokens = .ok c ∧ c.diagnostics = [] ∧
    c.program.endings = [6, 9, 17, 41, 47, 50].map endedTokens.drop ∧
      ∀ n ∈ [6, 9, 17, 41, 50], headKind (endedTokens.drop n) ≠ some .semicolon ∧
        ∃ front last semicolon d, endedTokens = front ++ last :: semicolon :: endedTokens.drop n ∧
          semicolon.kind = .semicolon ∧ compile (front ++ last :: endedTokens.drop n) = .ok d ∧
            c.Repairs last.line d := by
  have hc := eq_ok_get (compile endedTokens) (by decide +kernel)
  refine ⟨_, hc, by decide +kernel, by decide +kernel, fun n hn => ?_⟩
  have hends : ∀ n ∈ [6, 9, 17, 41, 50], headKind (endedTokens.drop n) ≠ some .semicolon ∧
      endedTokens.drop n ∈ ((compile endedTokens).toOption.get (by decide +kernel)).program.endings := by
    decide +kernel
  obtain ⟨hnext, hends⟩ := hends n hn
  exact ⟨hnext, compile_without_semicolon hc (by decide +kernel) hends hnext⟩

end OnePass
