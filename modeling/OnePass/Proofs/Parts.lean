import Mathlib.Data.List.Forall2
import OnePass.Proofs.Names.Redefinitions
import OnePass.Proofs.Names.Resolution

/-!
How the code of a program is laid out. The parts of the program leave their code one after the
other: constants leave none, variables are announced, and a function leaves a block in which its
parameters and variables come first. A block ends before the next one starts. Whatever has been
recorded, the parameters that are announced are those of the signature that is kept for the
function, as long as nothing else is declared under its name behind it.
-/

namespace OnePass

section Pieces

/-- What a part of a program may leave as its code. The code of the statements of a function is left
open, but it announces nothing and ends no block. -/
inductive TopLevel.Announces : TopLevel → List Instr → Prop where
  | consts (decls : List ConstDecl) : Announces (.consts decls) []
  | vars (decls : List VarDecl) : Announces (.vars decls) (decls.flatMap VarDecl.code)
  | function (f : Function) {statements : List Instr}
      (hstatements : ∀ instr ∈ statements, instr.isFraming = false) :
      Announces (.function f)
        (.funcDeclare f.head.ty f.head.name.value ::
          ((f.head.params.map fun param => .param param.type.ty param.name.value) ++
            (f.body.vars.flatMap VarDecl.code ++ (statements ++
              ((if f.head.ty = .void then [.retVoid] else []) ++ [.functionEnd])))))

theorem TopLevel.announces_code : (item : TopLevel) → item.Announces item.code
  | .consts decls => .consts decls
  | .vars decls => .vars decls
  | .function f => .function f fun _ hinstr => Stmt.isFraming_of_mem_codes hinstr

/-- Whether a block is open behind an instruction, given whether one is open in front of it. Outside
of blocks only variables are announced, and no block starts inside another. -/
def Instr.openBehind? (inside : Bool) : Instr → Option Bool
  | funcDeclare _ _ => if inside then none else some true
  | functionEnd => if inside then some false else none
  | var _ _ _ => some inside
  | _ => if inside then some true else none

variable {code : List Instr}

/-- What neither opens nor closes a block stays inside. -/
theorem openBehind?_inside
    (h : ∀ instr ∈ code, instr ≠ .functionEnd ∧ ∀ ty name, instr ≠ .funcDeclare ty name) :
    code.foldlM Instr.openBehind? true = some true := by
  induction code with
  | nil => rfl
  | cons instr code ih =>
      rw [List.forall_mem_cons] at h
      have hinstr : instr.openBehind? true = some true := by
        cases instr with
        | funcDeclare ty name => exact absurd rfl (h.1.2 ty name)
        | functionEnd => exact absurd rfl h.1.1
        | _ => rfl
      rw [List.foldlM_cons, hinstr]
      exact ih h.2

/-- Variables may be announced outside of blocks. -/
theorem openBehind?_outside (h : ∀ instr ∈ code, ∃ ty name length, instr = .var ty name length) :
    code.foldlM Instr.openBehind? false = some false := by
  induction code with
  | nil => rfl
  | cons instr code ih =>
      rw [List.forall_mem_cons] at h
      obtain ⟨⟨ty, name, length, rfl⟩, hcode⟩ := h
      exact ih hcode

/-- Every part of a program closes the block that it opens. -/
theorem TopLevel.openBehind?_code (item : TopLevel) :
    item.code.foldlM Instr.openBehind? false = some false := by
  cases item with
  | consts decls => rfl
  | vars decls => exact openBehind?_outside fun _ hinstr => VarDecl.eq_var_of_mem_code hinstr
  | function f =>
      have hinner : f.inner.foldlM Instr.openBehind? true = some true :=
        openBehind?_inside fun _ hinstr => Function.ne_of_mem_inner hinstr
      rw [TopLevel.code, f.code_eq, List.foldlM_cons]
      change (f.inner ++ [Instr.functionEnd]).foldlM Instr.openBehind? true = some false
      rw [List.foldlM_append, hinner]
      rfl

theorem openBehind?_items (items : List TopLevel) :
    (items.flatMap TopLevel.code).foldlM Instr.openBehind? false = some false := by
  induction items with
  | nil => rfl
  | cons item items ih =>
      rw [List.flatMap_cons, List.foldlM_append, item.openBehind?_code]
      exact ih

end Pieces

section Keywords

/-- The keyword that a function starts with. -/
def FunctionHead.keyword : FunctionHead → Token
  | value type _ _ _ _ => type.token
  | void keyword _ _ _ _ => keyword
  | main keyword _ _ _ => keyword

/-- The types in what a part of a program announces, with their keywords. -/
def TopLevel.typeNames : TopLevel → List TypeName
  | consts _ => []
  | vars decls => decls.map VarDecl.type
  | function f =>
    ⟨f.head.keyword, f.head.ty⟩ :: (f.head.params.map Param.type ++ f.body.vars.map VarDecl.type)

/-- A type is the one that its keyword names. -/
def TypeName.Fits (type : TypeName) : Prop :=
  (type.token.kind, type.ty) ∈ [(.kwInt, .int), (.kwChar, .char), (.kwVoid, .void)]

variable {log : List Action} {s t : State}

theorem Plays.fits_of_typeName (h : Plays log s t) {type : TypeName} (hlog : type.log ⊆ log) :
    type.Fits := by
  rcases h.of_typeName hlog with ⟨hkind, hty⟩ | ⟨hkind, hty⟩ <;> simp [TypeName.Fits, hkind, hty]

theorem FunctionHead.fits_keyword {head : FunctionHead} (h : Plays head.log s t) :
    TypeName.Fits ⟨head.keyword, head.ty⟩ := by
  cases head with
  | value type name lparen params rparen =>
      exact h.fits_of_typeName (List.subset_append_left _ _)
  | void keyword name lparen params rparen | main keyword name lparen rparen =>
      obtain ⟨u, ⟨hkind, _⟩, _⟩ := h
      simp [TypeName.Fits, FunctionHead.keyword, hkind, FunctionHead.ty]

theorem VarDecl.typeLog_subset (scope : Scope) {decls : List VarDecl} {decl : VarDecl}
    (h : decl ∈ decls) : decl.type.log ⊆ decls.flatMap (VarDecl.log scope) := fun _ haction =>
  List.mem_flatMap.2 ⟨decl, h, List.mem_append_left _ haction⟩

/-- The types that are announced are those of the keywords that were read. -/
theorem TopLevel.fits_of_plays {item : TopLevel} (h : Plays item.log s t) {type : TypeName}
    (htype : type ∈ item.typeNames) : type.Fits := by
  cases item with
  | consts decls => cases htype
  | vars decls =>
      obtain ⟨decl, hdecl, rfl⟩ := List.mem_map.1 htype
      exact h.fits_of_typeName (VarDecl.typeLog_subset .global hdecl)
  | function f =>
      rcases List.mem_cons.1 htype with rfl | htype
      · obtain ⟨u, hhead, _⟩ := plays_append.1 h
        exact FunctionHead.fits_keyword hhead
      rcases List.mem_append.1 htype with htype | htype
      · obtain ⟨param, hparam, rfl⟩ := List.mem_map.1 htype
        refine h.fits_of_typeName fun action haction => ?_
        exact List.mem_append_left _ (FunctionHead.subset_log hparam (List.mem_append_left _ haction))
      · obtain ⟨decl, hdecl, rfl⟩ := List.mem_map.1 htype
        refine h.fits_of_typeName fun action haction => ?_
        have hmem := VarDecl.typeLog_subset .local hdecl haction
        rw [TopLevel.log, f.log_eq, Function.prelude]
        simp [hmem]

end Keywords

section Signatures

/-- A text has the codes of some types, in their order. -/
def Ty.Spell (tys : List Ty) (signature : String) : Prop :=
  signature.toList.map some = tys.map Ty.signatureCode?

theorem Ty.Spell.withParameters {symbol : Symbol} {front back : List Ty}
    (h : Ty.Spell front symbol.signature) (hback : ∀ ty ∈ back, ty ≠ .void) :
    Ty.Spell (front ++ back) (symbol.withParameters back).signature := by
  induction back generalizing symbol front with
  | nil => simpa [Symbol.withParameters] using h
  | cons ty back ih =>
      rw [List.forall_mem_cons] at hback
      obtain ⟨code, hcode⟩ : ∃ code, ty.signatureCode? = some code :=
        Option.ne_none_iff_exists'.1 (mt Ty.signatureCode?_eq_none_iff.1 hback.1)
      have hone : Ty.Spell (front ++ [ty]) (symbol.withParameter ty).signature := by
        rw [Symbol.withParameter_eq hcode]
        simp only [Spell] at h ⊢
        simp [h, hcode]
      rw [List.append_cons]
      exact ih hone hback.2

theorem FunctionHead.spell_symbol {head : FunctionHead} (h : ∀ ty ∈ head.paramTypes, ty ≠ .void) :
    Ty.Spell head.paramTypes head.symbol.signature := by
  let opened : Symbol := { name := head.name.value, kind := .function, ty := head.ty }
  have hnone : Ty.Spell [] opened.signature := rfl
  exact hnone.withParameters h

open Occurrence

variable {name : String} {front back : List Occurrence} {symbol : Symbol} {d : Declarator}

/-- A declarator of a name among the later ones hides those among the earlier ones. -/
theorem Occurrence.last?_append_eq_or {group : DeclaratorGroup} :
    last? group name (front ++ back) = (last? group name back).or (last? group name front) := by
  unfold last?
  rw [List.reverse_append, List.find?_append, Option.map_or]

theorem Occurrence.exists_of_last? {group : DeclaratorGroup}
    (h : last? group name front = some d) :
    ∃ occurrence ∈ front, isOf group name occurrence = true ∧ occurrence.2 = d := by
  obtain ⟨occurrence, hfind, rfl⟩ := Option.map_eq_some_iff.1 h
  exact ⟨occurrence, List.mem_reverse.1 (List.mem_of_find?_eq_some hfind), List.find?_some hfind,
    rfl⟩

/-- A global declarator declares a symbol of its part. -/
theorem TopLevel.mem_symbols_of_occurrence {item : TopLevel} {place : Nat} {occurrence : Occurrence}
    (h : occurrence ∈ item.occurrences place) (hof : isOf none name occurrence = true) :
    occurrence.2.entry ∈ item.symbols ∧ occurrence.2.entry.name = name := by
  obtain ⟨hglobal, hname⟩ := of_decide_eq_true hof
  cases item with
  | consts decls | vars decls =>
      obtain ⟨declarator, hdeclarator, rfl⟩ := List.mem_map.1 h
      obtain ⟨decl, hdecl, hown⟩ := List.mem_flatMap.1 hdeclarator
      obtain ⟨item, hitem, rfl⟩ := List.mem_map.1 hown
      exact ⟨List.mem_flatMap.2 ⟨decl, hdecl, List.mem_map_of_mem hitem⟩, hname⟩
  | function f =>
      rcases List.mem_cons.1 h with rfl | hlocal
      · exact ⟨List.mem_singleton_self _, f.head.name_symbol.trans hname⟩
      · obtain ⟨declarator, _, rfl⟩ := List.mem_map.1 hlocal
        cases hglobal

/-- Only the symbol of a function is a function. -/
theorem TopLevel.eq_function_of_symbols {item : TopLevel} (h : symbol ∈ item.symbols)
    (hkind : symbol.kind = .function) : ∃ f, item = .function f ∧ symbol = f.head.symbol := by
  cases item with
  | consts decls =>
      obtain ⟨decl, _, hdecl⟩ := List.mem_flatMap.1 h
      obtain ⟨item, _, rfl⟩ := List.mem_map.1 hdecl
      cases hkind
  | vars decls =>
      obtain ⟨decl, _, hdecl⟩ := List.mem_flatMap.1 h
      obtain ⟨item, _, rfl⟩ := List.mem_map.1 hdecl
      cases hsize : item.size <;> simp [VarItem.symbol, hsize] at hkind
  | function f => exact ⟨f, rfl, List.mem_singleton.1 h⟩

/-- The last symbol under the name of a function is the function's own, unless something else is
declared under it behind the function. -/
theorem Function.exists_last? (before : List TopLevel) (f : Function) (after : List TopLevel) :
    ∃ d, last? none f.head.name.value (occurrencesFrom 0 (before ++ .function f :: after)) =
      some d ∧ (d.entry = f.head.symbol ∨
        ∃ item ∈ after, d.entry ∈ item.symbols ∧ d.entry.name = f.head.name.value) := by
  have hown : last? none f.head.name.value
      (occurrencesFrom 0 before ++ (TopLevel.function f).occurrences (0 + before.length)) =
        some (.function f.head) := by
    rw [TopLevel.occurrences, List.append_cons, last?_append (any_isOf_map (by simp) _),
      last?_concat]
    simp [isOf, Declarator.name]
  rw [occurrencesFrom_append, occurrencesFrom, ← List.append_assoc, last?_append_eq_or, hown]
  cases hlater : last? none f.head.name.value (occurrencesFrom (0 + before.length + 1) after) with
  | none => exact ⟨.function f.head, rfl, .inl rfl⟩
  | some d =>
      obtain ⟨occurrence, hmem, hof, rfl⟩ := exists_of_last? hlater
      obtain ⟨item, hitem, place, hplace⟩ := exists_item_of_occurrence hmem
      exact ⟨_, rfl, .inr ⟨item, hitem, TopLevel.mem_symbols_of_occurrence hplace hof⟩⟩

end Signatures

section Compile

variable {tokens : List Token} {c : Compilation}

/-- The kept globals have the last declarator of each name. -/
theorem symbol?_of_compile (h : compile tokens = .ok c) (name : String) :
    c.symbol? Pass.globalName name =
      (Occurrence.last? none name c.program.occurrences).map Declarator.entry := by
  obtain ⟨u, _, htables, hglobals, _⟩ := declared_of_compile h
  rw [Compilation.symbol?, htables, Std.TreeMap.getElem?_insert_self]
  exact hglobals name

/-- The code of a compilation has the layout that the parts of its program give. -/
structure Compilation.LaidOut (c : Compilation) : Prop where
  tree : c.tree = .inner .program (c.program.items.map TopLevel.tree)
  pieces : ∃ pieces, List.Forall₂ TopLevel.Announces c.program.items pieces ∧
    c.code = pieces.flatten
  types : ∀ item ∈ c.program.items, ∀ type ∈ item.typeNames, type.Fits
  blocks : c.code.foldlM Instr.openBehind? false = some false
  signature : ∀ before f after, c.program.items = before ++ .function f :: after →
    (∀ g, .function g ∈ after → g.head.name.value ≠ f.head.name.value) →
    ∃ symbol, c.symbol? Pass.globalName f.head.name.value = some symbol ∧
      (symbol.kind = .function ∧ Ty.Spell f.head.paramTypes symbol.signature ∨
        symbol.kind ≠ .function ∧
          ∃ item ∈ after, symbol ∈ item.symbols ∧ symbol.name = f.head.name.value)

theorem compile_laidOut (h : compile tokens = .ok c) : c.LaidOut where
  tree := rfl
  pieces := by
    refine ⟨c.program.items.map TopLevel.code, ?_, ?_⟩
    · rw [List.forall₂_map_right_iff, List.forall₂_same]
      exact fun item _ => item.announces_code
    · rw [code_of_compile h, List.flatMap_def]
  types := by
    intro item hitem type htype
    obtain ⟨t, hplays, _⟩ := plays_of_compile h
    obtain ⟨before, after, hsplit⟩ := List.append_of_mem hitem
    rw [Program.log, hsplit, List.flatMap_append, List.flatMap_cons, List.append_assoc,
      List.append_assoc] at hplays
    obtain ⟨u, _, hrest⟩ := plays_append.1 hplays
    obtain ⟨v, hplays, _⟩ := plays_append.1 hrest
    exact TopLevel.fits_of_plays hplays htype
  blocks := by
    rw [code_of_compile h]
    exact openBehind?_items c.program.items
  signature := by
    intro before f after hitems hlast
    have hf : .function f ∈ c.program.items := by simp [hitems]
    obtain ⟨d, hlast?, hcases⟩ := Function.exists_last? before f after
    rw [← hitems] at hlast?
    refine ⟨d.entry, ?_, ?_⟩
    · rw [symbol?_of_compile h, Program.occurrences, hlast?, Option.map_some]
    rcases hcases with hown | ⟨item, hitem, hmem, hname⟩
    · rw [hown]
      exact .inl ⟨f.head.kind_symbol,
        FunctionHead.spell_symbol (FunctionHead.ne_void_of_compile h hf)⟩
    · refine .inr ⟨fun hkind => ?_, item, hitem, hmem, hname⟩
      obtain ⟨g, rfl, hg⟩ := TopLevel.eq_function_of_symbols hmem hkind
      exact hlast g hitem (g.head.name_symbol.symm.trans (hg ▸ hname))

end Compile

/-- Blocks are in order although names are declared three times. -/
theorem laidOut_repeatedTokens : ∃ c, compile repeatedTokens = .ok c ∧ c.diagnostics.length = 4 ∧
    c.code = [.var .int "a" none, .var .char "a" (some 2), .funcDeclare .int "a", .param .int "x",
      .param .char "x", .ret (.named "3"), .functionEnd, .funcDeclare .void "main", .retVoid,
      .functionEnd] ∧
    c.LaidOut := by
  have hc := eq_ok_get (compile repeatedTokens) (by decide +kernel)
  exact ⟨_, hc, by decide +kernel, by decide +kernel, compile_laidOut hc⟩

end OnePass
