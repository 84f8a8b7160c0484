import OnePass.Proofs.Feed.Pieces
import OnePass.Proofs.Rename.Passes

/-!
How a program goes on behind one that compiles without a diagnostic. All that the rest needs from
what was before it are the global names: compiled from nothing else, it gives the same errors and
diagnostics, and the same code with lower numbers.
-/

namespace OnePass

open Pass

section NoLines

variable {ρ : Renaming} (hline : ρ.line = id)

include hline

theorem Token.rename_of_line_id (token : Token) : token.rename ρ = token := by
  rw [rename, hline, id]

theorem Diagnostic.rename_of_line_id (diagnostic : Diagnostic) :
    diagnostic.rename ρ = diagnostic := by
  rw [rename, hline, id]

theorem ParseError.rename_of_line_id (error : ParseError) : error.rename ρ = error := by
  cases error with
  | unexpectedToken expected found => rw [rename, Token.rename_of_line_id hline]
  | invalidInteger numeral => rw [rename, Token.rename_of_line_id hline]
  | _ => rfl

end NoLines

theorem Sim.parts {ρ : Renaming} {old : Residue} (htexts : ρ.texts = old.texts.length) :
    Respects ρ old .outer .outer (List.map (TopLevel.rename ρ)) Pass.parts :=
  .many (.topLevel? htexts)

/-- The start of a compilation that has only some global names. -/
def State.afresh (globals : SymbolTable) (tokens : List Token) : State :=
  { cursor := .ofTokens tokens, scopes := { globals } }

namespace Compilation

/-- The global names at the end. -/
def globals (c : Compilation) : SymbolTable :=
  c.tables[globalName]?.getD {}

/-- From numbers that are counted from zero to those that come next. -/
def offsets (c : Compilation) : Renaming :=
  { regs := c.regCount, labels := c.labelCount, texts := c.strings.toList.length }

end Compilation

@[simp]
theorem State.globals_compilation (u : State) (items : List TopLevel) :
    (u.compilation items).globals = u.scopes.globals := by
  simp [Compilation.globals, State.compilation, Scopes.table]

theorem getElem?_insert_of_ne (tables : SymbolTables) {name key : String} (h : key ≠ name)
    (table : SymbolTable) : (tables.insert name table)[key]? = tables[key]? := by
  have hne : compare name key ≠ .eq := fun heq => h (Std.LawfulEqOrd.eq_of_compare heq).symm
  rw [Std.TreeMap.getElem?_insert, if_neg hne]

/-- What the second of two compilations puts behind the first, where the state is that of a
compilation of its own. -/
structure Resumes (c : Compilation) (t : State) (d : Compilation) : Prop where
  code : d.code = c.code ++ t.emitter.code.toList.map (Instr.rename c.offsets)
  texts : d.strings.toList = c.strings.toList ++ t.strings.toList
  diagnostics : d.diagnostics = c.diagnostics ++ t.diagnostics.toList
  globals : d.tables[globalName]? = some t.scopes.globals
  tables : ∀ key : String, key ≠ globalName → d.tables[key]? = t.tables[key]?.or c.tables[key]?

section Behind

variable {u : State} {items : List TopLevel}

/-- What the state has behind it. -/
def State.residue (u : State) : Residue :=
  { code := u.emitter.code.toList
    texts := u.strings.toList
    diagnostics := u.diagnostics.toList
    tables := u.tables }

theorem mirrors_afresh (hfree : u.Free) (hrest : u.cursor.rest = []) (items : List TopLevel)
    (tokens : List Token) : Mirrors (u.compilation items).offsets u.residue .outer
      (.afresh u.scopes.globals tokens) (u.feed tokens) where
  rest := by
    have hid : tokens.map (Token.rename (u.compilation items).offsets) = tokens :=
      List.map_id'' (fun token => token.rename_of_line_id rfl) tokens
    rw [State.afresh, Cursor.ofTokens, hid, State.feed, hrest]
    rfl
  lastLine := fun h => absurd h (by decide)
  globals := rfl
  locals := fun h => absurd h (by decide)
  texts := by simp [State.feed, State.afresh, State.residue, StringTable.toList]
  code := by simp [State.feed, State.afresh, State.residue]
  free := rfl
  free' := hfree
  regs := rfl
  labels := rfl
  diagnostics := by simp [State.feed, State.afresh, State.residue]
  tables := by simp [State.feed, State.afresh, State.residue]

theorem resumes_of_mirrors {t t' : State} {items' : List TopLevel}
    (h : Mirrors (u.compilation items).offsets u.residue .outer t t') :
    Resumes (u.compilation items) t (t'.compilation items') where
  code := h.code
  texts := h.texts
  diagnostics := by
    have hid : t.diagnostics.toList.map (Diagnostic.rename (u.compilation items).offsets) =
        t.diagnostics.toList :=
      List.map_id'' (fun diagnostic => diagnostic.rename_of_line_id rfl) _
    exact hid ▸ h.diagnostics
  globals := by simp [State.compilation, Scopes.table, h.globals]
  tables := by
    intro key hkey
    rw [State.compilation, State.compilation, getElem?_insert_of_ne _ hkey,
      getElem?_insert_of_ne _ hkey]
    exact h.tables key

end Behind

section Compilations

variable {p q : List Token} {c : Compilation} {items : List TopLevel} {t : State}

/-- What compiles from the global names alone compiles behind the program that has them. -/
theorem resumes_of_ok (h : compile p = .ok c) (hclean : c.diagnostics = [])
    (hrun : parts (.afresh c.globals q) = .ok items t) :
    ∃ d, compile (p ++ q) = .ok d ∧ Resumes c t d := by
  obtain ⟨before, u, hparts, rfl, hfree, hskim⟩ := exists_behind_of_compile h hclean
  have hagree := Sim.parts rfl _ _ (mirrors_afresh hfree (rest_of_parts hparts) before q)
  rw [State.globals_compilation] at hrun
  rw [hrun] at hagree
  obtain ⟨t', hafter, hmirrors⟩ := hagree.exists_ok
  obtain ⟨all, hall⟩ := parts_of_skim ((hskim q).trans (skim_of_ok hafter))
  exact ⟨t'.compilation all, compile_eq_ok_iff.2 ⟨all, t', hall, rfl⟩,
    resumes_of_mirrors hmirrors⟩

/-- What fails from the global names alone fails with the same error behind the program. -/
theorem compile_append_of_error (h : compile p = .ok c) (hclean : c.diagnostics = [])
    {error : ParseError} (hrun : parts (.afresh c.globals q) = .error error t) :
    compile (p ++ q) = .error error := by
  obtain ⟨before, u, hparts, rfl, hfree, hskim⟩ := exists_behind_of_compile h hclean
  have hagree := Sim.parts rfl _ _ (mirrors_afresh hfree (rest_of_parts hparts) before q)
  rw [State.globals_compilation] at hrun
  rw [hrun] at hagree
  obtain ⟨t', hafter, _⟩ := hagree.exists_error
  rw [ParseError.rename_of_line_id rfl] at hafter
  exact compile_eq_error_iff.2 ⟨t', parts_of_skim_error ((hskim q).trans (skim_of_error hafter))⟩

end Compilations

end OnePass
