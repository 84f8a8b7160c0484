import OnePass.Proofs.Labels
import OnePass.Proofs.Lossless
import OnePass.Proofs.Rename.Lines

/-!
Compilation is incremental. What is put behind a program without diagnostics adds to its text, its
code and its strings, takes numbers that are not in use yet, and is all that diagnostics are about.
-/

namespace OnePass

open Pass

section Numbers

variable {ρ : Renaming}

theorem Instr.dst?_rename (instr : Instr) :
    (instr.rename ρ).dst? = instr.dst?.map (Reg.rename ρ) := by
  cases instr <;> rfl

theorem Instr.label?_rename (instr : Instr) :
    (instr.rename ρ).label? = instr.label?.map (Label.rename ρ) := by
  cases instr <;> rfl

theorem Instr.target?_rename (instr : Instr) :
    (instr.rename ρ).target? = instr.target?.map (Label.rename ρ) := by
  cases instr <;> rfl

/-- An instruction that writes no register below a number and has no label below another. -/
structure Instr.AtLeast (regs labels : Nat) (instr : Instr) : Prop where
  written : ∀ r : Reg, instr.dst? = some r → regs ≤ r.number
  labelled : ∀ l : Label, instr.label? = some l ∨ instr.target? = some l → labels ≤ l.number

theorem Instr.atLeast_rename (ρ : Renaming) (instr : Instr) :
    (instr.rename ρ).AtLeast ρ.regs ρ.labels := by
  constructor
  · intro r hr
    rw [dst?_rename] at hr
    obtain ⟨r, _, rfl⟩ := Option.map_eq_some_iff.1 hr
    exact Nat.le_add_right ρ.regs r.number
  · intro l hl
    rw [label?_rename, target?_rename, Option.map_eq_some_iff, Option.map_eq_some_iff] at hl
    rcases hl with ⟨l, _, rfl⟩ | ⟨l, _, rfl⟩ <;> exact Nat.le_add_right ρ.labels l.number

end Numbers

section Lines

/-- A run that does not notice when all other lines are moved records none of them. -/
theorem exists_line_of_afresh {globals : SymbolTable} {tokens : List Token}
    {items : List TopLevel} {t : State} (h : parts (.afresh globals tokens) = .ok items t)
    {diagnostic : Diagnostic} (hmem : diagnostic ∈ t.diagnostics.toList) :
    ∃ token ∈ tokens, token.line = diagnostic.line := by
  have hagree := Sim.parts rfl _ _ (mirrors_lines (shiftOthers tokens) globals tokens)
  rw [map_rename_shiftOthers, h] at hagree
  obtain ⟨t', hsame, hmirrors⟩ := hagree.exists_ok
  obtain ⟨_, rfl⟩ := EStateM.Result.ok.inj hsame
  have hfixed : t.diagnostics.toList.map id =
      t.diagnostics.toList.map (Diagnostic.rename (.lines (shiftOthers tokens))) := by
    rw [List.map_id]
    exact hmirrors.diagnostics
  exact exists_of_shiftOthers_eq
    (congrArg Diagnostic.line (List.map_inj_left.1 hfixed diagnostic hmem)).symm

end Lines

section Trace

/-- What is within a limit of a longer text starts with what is of its front. -/
theorem exists_cut_append (limit : Option Nat) (front back : ByteArray) :
    ∃ tail, cut limit (front ++ back) = cut limit front ++ tail := by
  cases limit with
  | none => exact ⟨back, rfl⟩
  | some n => exact ⟨_, ByteArray.extract_append⟩

theorem exists_written_append {p : List Token} {c : Compilation} (h : compile p = .ok c)
    (hclean : c.diagnostics = []) (q : List Token) :
    ∃ tail, (compileTo {} (p ++ q)).2.written = (compileTo {} p).2.written ++ tail := by
  obtain ⟨items, u, hparts, _, hfree, hskim⟩ := exists_behind_of_compile h hclean
  obtain ⟨emitted, hgrows⟩ := Composed.parts.grows (u.feed q) hfree
  have hend : endState (parts (.start {} (p ++ q))) = endState (parts (u.feed q)) := by
    rw [← endState_skim, hskim, endState_skim]
  refine ⟨(Instr.render emitted).toUTF8, ?_⟩
  rw [compileTo_of_ok hparts, compileTo_sink, hend]
  exact congrArg Sink.written hgrows.sink

end Trace

/-- A compilation that goes on with another, by what was put behind the tokens of that. -/
structure Extends (c : Compilation) (q : List Token) (d : Compilation) : Prop where
  code : ∃ code, d.code = c.code ++ code ∧ ∀ instr ∈ code, instr.AtLeast c.regCount c.labelCount
  strings : ∃ texts, d.strings.toList = c.strings.toList ++ texts
  lines : ∀ diagnostic ∈ d.diagnostics, ∃ token ∈ q, token.line = diagnostic.line

/-- Whatever is put behind a program without diagnostics, and wherever the text goes, what has been
written stays, and so does what has been compiled. -/
theorem compile_append_extends {p : List Token} {c : Compilation} (h : compile p = .ok c)
    (hclean : c.diagnostics = []) (q : List Token) :
    (∀ limit flushFails, ∃ tail, (compileTo { limit, flushFails } (p ++ q)).2.written =
        (compileTo { limit, flushFails } p).2.written ++ tail) ∧
      ∀ d, compile (p ++ q) = .ok d → Extends c q d := by
  constructor
  · intro limit flushFails
    obtain ⟨tail, htail⟩ := exists_written_append h hclean q
    rw [compileTo_narrow, compileTo_narrow p, Sink.narrow, Sink.narrow, htail]
    exact exists_cut_append limit _ tail
  · intro d hd
    cases hrun : parts (.afresh c.globals q) with
    | error error t =>
        rw [compile_append_of_error h hclean hrun] at hd
        cases hd
    | ok items t =>
        obtain ⟨d', hd', hresumes⟩ := resumes_of_ok h hclean hrun
        obtain rfl := Except.ok.inj (hd'.symm.trans hd)
        refine ⟨⟨_, hresumes.code, ?_⟩, ⟨_, hresumes.texts⟩, ?_⟩
        · intro instr hinstr
          obtain ⟨instr, _, rfl⟩ := List.mem_map.1 hinstr
          exact instr.atLeast_rename c.offsets
        · intro diagnostic hdiagnostic
          rw [hresumes.diagnostics, hclean] at hdiagnostic
          exact exists_line_of_afresh hrun hdiagnostic

/-- `int n; void f() { while (n) n = n + 1; }` -/
def frontTokens : List Token :=
  scan 1 ["int n ; void f ( ) \x7b while ( n ) n = n + 1 ; \x7d"]

/-- `void main() { f(); n = n + 2 }`, in which a semicolon is missing. -/
def backTokens : List Token :=
  scan 2 ["void main ( ) \x7b f ( ) ; n = n + 2 \x7d"]

theorem extends_front_back : ∃ c d, compile frontTokens = .ok c ∧ c.diagnostics = [] ∧
    (c.regCount, c.labelCount) = (1, 2) ∧ compile (frontTokens ++ backTokens) = .ok d ∧
    d.diagnostics = [⟨2, .missingSemicolon⟩] ∧ Extends c backTokens d := by
  have hc := eq_ok_get (compile frontTokens) (by decide +kernel)
  have hd := eq_ok_get (compile (frontTokens ++ backTokens)) (by decide +kernel)
  refine ⟨_, _, hc, by decide +kernel, by decide +kernel, hd, by decide +kernel, ?_⟩
  exact (compile_append_extends hc (by decide +kernel) backTokens).2 _ hd

end OnePass
