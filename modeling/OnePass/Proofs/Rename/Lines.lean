import OnePass.Proofs.Lossless
import OnePass.Proofs.Rename.Resume

/-!
Lines only decorate. A program whose tokens stand on other lines compiles to the same code, texts
and tables and to the same tree and messages, but for the lines in these; and it fails where the
program fails. A line that is reported was therefore read: if it were none of the program's, another
one could be put in its place without a change of the program.
-/

namespace OnePass

open Pass

/-- A change of lines alone. -/
def Renaming.lines (g : UInt64 → UInt64) : Renaming :=
  { line := g }

section Others

/-- Moves the lines that no token is on. -/
def shiftOthers (tokens : List Token) (line : UInt64) : UInt64 :=
  if ∃ token ∈ tokens, token.line = line then line else line + 1

theorem exists_of_shiftOthers_eq {tokens : List Token} {line : UInt64}
    (h : shiftOthers tokens line = line) : ∃ token ∈ tokens, token.line = line := by
  by_cases hline : ∃ token ∈ tokens, token.line = line
  · exact hline
  · rw [shiftOthers, if_neg hline] at h
    simp at h

theorem map_rename_shiftOthers (tokens : List Token) :
    tokens.map (Token.rename (.lines (shiftOthers tokens))) = tokens := by
  have hid : ∀ token ∈ tokens, id token = token.rename (.lines (shiftOthers tokens)) := by
    intro token htoken
    have hline : shiftOthers tokens token.line = token.line := if_pos ⟨token, htoken, rfl⟩
    simp only [Token.rename, Renaming.lines, hline, id]
  exact (List.map_congr_left hid).symm.trans (List.map_id tokens)

end Others

namespace Tree

mutual

/-- The tree with another token at each leaf. -/
def mapTokens (f : Token → Token) : Tree → Tree
  | token t => token (f t)
  | node rule operand children => node rule operand (mapForest f children)

def mapForest (f : Token → Token) : List Tree → List Tree
  | [] => []
  | tree :: forest => mapTokens f tree :: mapForest f forest

end

variable {f : Token → Token}

attribute [simp] mapTokens mapForest

@[simp]
theorem mapTokens_inner (rule : Rule) (children : List Tree) :
    (inner rule children).mapTokens f = inner rule (mapForest f children) := by
  simp [inner]

@[simp]
theorem mapForest_append (front back : List Tree) :
    mapForest f (front ++ back) = mapForest f front ++ mapForest f back := by
  induction front with
  | nil => simp
  | cons tree front ih => simp [ih]

@[simp]
theorem mapForest_optional (found : Option Token) :
    mapForest f (optional found) = optional (found.map f) := by
  cases found <;> simp [optional]

theorem mapForest_flatMap {α : Type} (trees : α → List Tree) (items : List α) :
    mapForest f (items.flatMap trees) = items.flatMap fun item => mapForest f (trees item) := by
  induction items with
  | nil => simp
  | cons item items ih => simp [ih]

theorem mapForest_map {α : Type} (tree : α → Tree) (items : List α) :
    mapForest f (items.map tree) = items.map fun item => (tree item).mapTokens f := by
  induction items with
  | nil => simp
  | cons item items ih => simp [ih]

end Tree

section Numbers

variable {g : UInt64 → UInt64}

@[simp]
theorem Reg.rename_lines (reg : Reg) : reg.rename (.lines g) = reg := by
  simp [rename, Renaming.lines]

@[simp]
theorem Label.rename_lines (label : Label) : label.rename (.lines g) = label := by
  simp [rename, Renaming.lines]

@[simp]
theorem Operand.rename_lines (operand : Operand) : operand.rename (.lines g) = operand := by
  cases operand <;> simp [rename]

/-- The code knows no lines. -/
@[simp]
theorem Instr.rename_lines (instr : Instr) : instr.rename (.lines g) = instr := by
  cases instr with
  | printString index => simp [rename, Renaming.lines]
  | _ => simp [rename]

end Numbers

section Trees

variable {g : UInt64 → UInt64}

@[simp]
theorem UnsignedLit.tree_rename (lit : UnsignedLit) :
    (lit.rename (.lines g)).tree = lit.tree.mapTokens (Token.rename (.lines g)) := by
  simp [tree, rename]

@[simp]
theorem IntLit.tree_rename (lit : IntLit) :
    (lit.rename (.lines g)).tree = lit.tree.mapTokens (Token.rename (.lines g)) := by
  cases lit with
  | mk sign digits => simp [tree, rename]

mutual

/-- The nodes of an expression keep their rules and operands. -/
@[simp]
theorem Expr.children_rename : (e : Expr) → (e.rename (.lines g)).children =
    Tree.mapForest (Token.rename (.lines g)) e.children
  | .term t | .positive _ t | .negative _ t _ => by
      simp [Expr.rename, Expr.children, t.children_rename]
  | .chain lhs op opToken rhs dst => by
      simp [Expr.rename, Expr.children, lhs.children_rename, rhs.children_rename]

@[simp]
theorem Term.children_rename : (t : Term) → (t.rename (.lines g)).children =
    Tree.mapForest (Token.rename (.lines g)) t.children
  | .factor f => by
      simp [Term.rename, Term.children, f.children_rename]
  | .chain lhs op opToken rhs dst => by
      simp [Term.rename, Term.children, lhs.children_rename, rhs.children_rename]

@[simp]
theorem Factor.children_rename : (f : Factor) → (f.rename (.lines g)).children =
    Tree.mapForest (Token.rename (.lines g)) f.children
  | .element _ _ inner _ _ | .paren _ inner _ => by
      simp [Factor.rename, Factor.children, NameRef.rename, inner.children_rename]
  | .call c _ => by
      simp [Factor.rename, Factor.children, c.children_rename]
  | .name _ | .unknownCall _ | .char _ | .int _ => by
      simp [Factor.rename, Factor.children, NameRef.rename]

@[simp]
theorem Call.children_rename : (c : Call) → (c.rename (.lines g)).children =
    Tree.mapForest (Token.rename (.lines g)) c.children
  | .mk name lparen callee args rparen => by
      simp [Call.rename, Call.children, args.children_rename]

@[simp]
theorem Args.children_rename : (args : Args) → (args.rename (.lines g)).children =
    Tree.mapForest (Token.rename (.lines g)) args.children
  | .nil => by
      simp [Args.rename, Args.children]
  | .first expr => by
      simp [Args.rename, Args.children, expr.children_rename]
  | .more init comma expr => by
      simp [Args.rename, Args.children, init.children_rename, expr.children_rename]

end

@[simp]
theorem Expr.tree_rename (e : Expr) :
    (e.rename (.lines g)).tree = e.tree.mapTokens (Token.rename (.lines g)) := by
  simp [tree]

@[simp]
theorem Condition.tree_rename (condition : Condition) :
    (condition.rename (.lines g)).tree = condition.tree.mapTokens (Token.rename (.lines g)) := by
  cases condition <;> simp [rename, tree]

@[simp]
theorem Guard.children_rename (guard : Guard) : (guard.rename (.lines g)).children =
    Tree.mapForest (Token.rename (.lines g)) guard.children := by
  simp [children, rename]

@[simp]
theorem ForHeader.children_rename (header : ForHeader) : (header.rename (.lines g)).children =
    Tree.mapForest (Token.rename (.lines g)) header.children := by
  simp [children, rename, NameRef.rename]

@[simp]
theorem PrintItem.children_rename (item : PrintItem) : (item.rename (.lines g)).children =
    Tree.mapForest (Token.rename (.lines g)) item.children := by
  cases item <;> simp [children, rename]

/-- Items with commas between them, if each item's trees keep their shape. -/
theorem CommaList.children_rename {α : Type} {item : α → α} (trees : α → List Tree)
    (hitem : ∀ a, trees (item a) = Tree.mapForest (Token.rename (.lines g)) (trees a))
    (list : CommaList α) : (list.rename (.lines g) item).children trees =
      Tree.mapForest (Token.rename (.lines g)) (list.children trees) := by
  induction list with
  | one a => simp [rename, children, hitem]
  | cons a comma rest ih => simp [rename, children, hitem, ih]

theorem Call.statementRule_rename {ρ : Renaming} (c : Call) :
    (c.rename ρ).statementRule = c.statementRule := by
  cases c
  rfl

mutual

@[simp]
theorem Stmt.children_rename : (stmt : Stmt) → (stmt.rename (.lines g)).children =
    Tree.mapForest (Token.rename (.lines g)) stmt.children
  | .ifThen _ _ body _ _ | .whileLoop _ _ body _ _ | .doLoop _ body _ _ _
  | .forLoop _ _ body _ _ => by
      simp [Stmt.rename, Stmt.children, body.children_rename]
  | .ifElse _ _ body _ alternative _ _ => by
      simp [Stmt.rename, Stmt.children, body.children_rename, alternative.children_rename]
  | .block lbrace body rbrace => by
      simp [Stmt.rename, Stmt.children, Stmt.forest_renameAll body]
  | .call c semicolon => by
      simp [Stmt.rename, Stmt.children, c.statementRule_rename]
  | .scan keyword lparen targets rparen semicolon => by
      have hleaf : ∀ ref : NameRef, [Tree.token (ref.rename (.lines g)).token] =
          Tree.mapForest (Token.rename (.lines g)) [.token ref.token] := by simp [NameRef.rename]
      simp [Stmt.rename, Stmt.children,
        CommaList.children_rename (fun ref : NameRef => [.token ref.token]) hleaf]
  | .unknownCall _ _ | .skipped | .assign _ _ _ _ | .assignElement _ _ _ _ _ _ _
  | .print _ _ _ _ _ | .ret _ _ | .retValue _ _ _ _ _ | .empty _ => by
      simp [Stmt.rename, Stmt.children, NameRef.rename]

theorem Stmt.forest_renameAll : (stmts : List Stmt) → Stmt.forest (Stmt.renameAll (.lines g) stmts) =
    Tree.mapForest (Token.rename (.lines g)) (Stmt.forest stmts)
  | [] => by
      simp [Stmt.renameAll, Stmt.forest]
  | stmt :: stmts => by
      simp [Stmt.renameAll, Stmt.forest, stmt.children_rename, Stmt.forest_renameAll stmts]

end

theorem ConstInit.tree_rename (init : ConstInit) :
    (init.rename (.lines g)).tree = init.tree.mapTokens (Token.rename (.lines g)) := by
  cases init <;> simp [rename, tree]

theorem ConstItem.children_rename (item : ConstItem) : (item.rename (.lines g)).children =
    Tree.mapForest (Token.rename (.lines g)) item.children := by
  simp [children, rename, ConstInit.tree_rename]

theorem ConstDecl.children_rename (decl : ConstDecl) : (decl.rename (.lines g)).children =
    Tree.mapForest (Token.rename (.lines g)) decl.children := by
  simp [children, rename, TypeName.rename, CommaList.children_rename _ ConstItem.children_rename]

theorem VarItem.children_rename (item : VarItem) : (item.rename (.lines g)).children =
    Tree.mapForest (Token.rename (.lines g)) item.children := by
  cases item with
  | mk name size => cases size <;> simp [children, rename, ArraySize.children, ArraySize.rename]

theorem VarDecl.children_rename (decl : VarDecl) : (decl.rename (.lines g)).children =
    Tree.mapForest (Token.rename (.lines g)) decl.children := by
  simp [children, rename, TypeName.rename, CommaList.children_rename _ VarItem.children_rename]

theorem Params.children_rename (params : Params) : (params.rename (.lines g)).children =
    Tree.mapForest (Token.rename (.lines g)) params.children := by
  induction params with
  | nil => simp [rename, children]
  | last param => simp [rename, children, Param.children, Param.rename, TypeName.rename]
  | cons param comma rest ih =>
      simp [rename, children, Param.children, Param.rename, TypeName.rename, ih]

theorem FunctionHead.children_rename (head : FunctionHead) : (head.rename (.lines g)).children =
    Tree.mapForest (Token.rename (.lines g)) head.children := by
  cases head <;> simp [rename, children, TypeName.rename, Params.children_rename]

theorem Body.run_mapForest (f : Token → Token) (rule : Rule) (children : List Tree) :
    run rule (Tree.mapForest f children) = Tree.mapForest f (run rule children) := by
  cases children <;> simp [run]

theorem Body.tree_rename (body : Body) :
    (body.rename (.lines g)).tree = body.tree.mapTokens (Token.rename (.lines g)) := by
  simp only [tree, rename, List.flatMap_map, ConstDecl.children_rename, VarDecl.children_rename,
    ← Tree.mapForest_flatMap, run_mapForest, ← Stmt.renameAll_eq_map, Stmt.forest_renameAll]
  simp

theorem Function.tree_rename (f : Function) :
    (f.rename (.lines g)).tree = f.tree.mapTokens (Token.rename (.lines g)) := by
  have hrule : (f.head.rename (.lines g)).rule = f.head.rule := by cases f.head <;> rfl
  simp [tree, rename, hrule, FunctionHead.children_rename, Body.tree_rename]

theorem TopLevel.tree_rename (item : TopLevel) :
    (item.rename (.lines g)).tree = item.tree.mapTokens (Token.rename (.lines g)) := by
  cases item with
  | consts decls =>
      simp only [rename, tree, List.flatMap_map, ConstDecl.children_rename,
        ← Tree.mapForest_flatMap, Tree.mapTokens_inner]
  | vars decls =>
      simp only [rename, tree, List.flatMap_map, VarDecl.children_rename,
        ← Tree.mapForest_flatMap, Tree.mapTokens_inner]
  | function f => exact f.tree_rename

end Trees

/-- The second compilation gives the same code, texts, tables and counts as the first. -/
structure Compilation.SameOutput (c d : Compilation) : Prop where
  code : d.code = c.code
  trace : d.trace = c.trace
  strings : d.strings = c.strings
  tables : d.tables.toList = c.tables.toList
  regCount : d.regCount = c.regCount
  labelCount : d.labelCount = c.labelCount

/-- Two compilations that give the same output as a third. -/
theorem Compilation.SameOutput.of_base {base c d : Compilation} (hc : base.SameOutput c)
    (hd : base.SameOutput d) : c.SameOutput d where
  code := hd.code.trans hc.code.symm
  trace := hd.trace.trans hc.trace.symm
  strings := hd.strings.trans hc.strings.symm
  tables := hd.tables.trans hc.tables.symm
  regCount := hd.regCount.trans hc.regCount.symm
  labelCount := hd.labelCount.trans hc.labelCount.symm

/-- The second compilation is the first on other lines. -/
structure Compilation.Relined (g : UInt64 → UInt64) (c d : Compilation) : Prop
    extends c.SameOutput d where
  tree : d.tree = c.tree.mapTokens (Token.rename (.lines g))
  diagnostics : d.diagnostics = c.diagnostics.map (Diagnostic.rename (.lines g))

/-- Both compilations succeed, the second on other lines, or both fail with the same error. -/
inductive Relined (g : UInt64 → UInt64) :
    Except ParseError Compilation → Except ParseError Compilation → Prop where
  | ok {c d : Compilation} : c.Relined g d → Relined g (.ok c) (.ok d)
  | error (error : ParseError) : Relined g (.error error) (.error (error.rename (.lines g)))

section Runs

variable {g : UInt64 → UInt64} {tokens : List Token}

/-- Tokens on other lines, read with the same global names. -/
theorem mirrors_lines (g : UInt64 → UInt64) (globals : SymbolTable) (tokens : List Token) :
    Mirrors (.lines g) {} .outer (.afresh globals tokens)
      (.afresh globals (tokens.map (Token.rename (.lines g)))) where
  rest := rfl
  lastLine := fun h => absurd h (by decide)
  globals := rfl
  locals := fun h => absurd h (by decide)
  texts := rfl
  code := rfl
  free := rfl
  free' := rfl
  regs := rfl
  labels := rfl
  diagnostics := rfl
  tables := by simp [State.afresh]

theorem Mirrors.code_lines {t t' : State} {earlier : List Diagnostic} {stage : Stage}
    (h : Mirrors (.lines g) { diagnostics := earlier } stage t t') :
    t'.emitter.code.toList = t.emitter.code.toList :=
  h.code.trans (List.map_id'' Instr.rename_lines _)

/-- Two runs on different lines give the same output, whatever was recorded before. -/
theorem Mirrors.sameOutput {t t' : State} {earlier : List Diagnostic} {stage : Stage}
    (h : Mirrors (.lines g) { diagnostics := earlier } stage t t') (items items' : List TopLevel) :
    (t.compilation items).SameOutput (t'.compilation items') where
  code := h.code_lines
  trace := congrArg Instr.render h.code_lines
  strings := by
    have htexts : t'.strings.texts.toList = t.strings.texts.toList := h.texts
    exact congrArg StringTable.mk (Array.toList_inj.1 htexts)
  tables := by
    have htables : ∀ key : String, t'.tables[key]? = t.tables[key]? := by
      simpa using h.tables
    refine (Std.TreeMap.Equiv.of_forall_constGet?_eq fun key => ?_).toList_eq
    change (t'.tables.insert _ _)[key]? = (t.tables.insert _ _)[key]?
    simp only [Std.TreeMap.getElem?_insert, htables, Scopes.table, h.globals]
  regCount := h.regs.trans (Nat.zero_add _)
  labelCount := h.labels.trans (Nat.zero_add _)

theorem Mirrors.relined {t t' : State} (h : Mirrors (.lines g) {} .outer t t')
    (items : List TopLevel) : (t.compilation items).Relined g
      (t'.compilation (items.map (TopLevel.rename (.lines g)))) where
  toSameOutput := h.sameOutput _ _
  tree := by
    simp [Compilation.tree, State.compilation, Program.tree, Tree.mapForest_map,
      Function.comp_def, TopLevel.tree_rename]
  diagnostics := h.diagnostics

/-- The text that is written is that of the code, also when the compilation fails. -/
theorem sink_eq_of_code {tokens' : List Token}
    (h : (endState (parts (.start {} tokens'))).emitter.code.toList =
      (endState (parts (.start {} tokens))).emitter.code.toList) :
    (compileTo {} tokens').2 = (compileTo {} tokens).2 := by
  have hsink : ∀ tokens, (compileTo {} tokens).2 = { written := .empty ++
      (Instr.render (endState (parts (.start {} tokens))).emitter.code.toList).toUTF8 } := by
    intro tokens
    obtain ⟨emitted, hgrows⟩ := Composed.parts.grows (.start {} tokens) rfl
    rw [compileTo_sink, show parts = Pass.many topLevel? from rfl, hgrows.sink, hgrows.code]
    rfl
  rw [hsink, hsink, h]

theorem compileTo_relined (g : UInt64 → UInt64) (tokens : List Token) :
    Relined g (compileTo {} tokens).1
        (compileTo {} (tokens.map (Token.rename (.lines g)))).1 ∧
      (compileTo {} (tokens.map (Token.rename (.lines g)))).2 = (compileTo {} tokens).2 := by
  have hagree := Sim.parts rfl (.start {} tokens) (.start {} (tokens.map _))
    (mirrors_lines g {} tokens)
  cases hrun : parts (.start {} tokens) with
  | ok items t =>
      rw [hrun] at hagree
      obtain ⟨t', hrun', hmirrors⟩ := hagree.exists_ok
      refine ⟨?_, sink_eq_of_code ?_⟩
      · rw [compileTo_of_ok hrun, compileTo_of_ok hrun']
        exact .ok (hmirrors.relined items)
      · rw [hrun, hrun']
        exact hmirrors.code_lines
  | error error t =>
      rw [hrun] at hagree
      obtain ⟨t', hrun', hmirrors⟩ := hagree.exists_error
      refine ⟨?_, sink_eq_of_code ?_⟩
      · rw [compileTo_of_error hrun, compileTo_of_error hrun']
        exact .error error
      · rw [hrun, hrun']
        exact hmirrors.code_lines

theorem Relined.flushed {r r' : Except ParseError Compilation} (h : Relined g r r')
    (flushFails : Bool) : Relined g (flushed flushFails r) (flushed flushFails r') := by
  cases flushFails with
  | false => exact h
  | true =>
      cases h with
      | ok hc => exact .error .trace
      | error error => exact .error error

end Runs

section Reported

/-- The line of the token that an error names. -/
def ParseError.line? : ParseError → Option UInt64
  | unexpectedToken _ found => some found.line
  | invalidInteger numeral => some numeral.line
  | _ => none

/-- The lines that a result names: in the messages and the tree, or in the error. -/
def reportedLines : Except ParseError Compilation → List UInt64
  | .ok c => c.diagnostics.map Diagnostic.line ++ c.tree.tokens.map Token.line
  | .error error => error.line?.toList

theorem Tree.tokensOf_mapForest (f : Token → Token) (forest : List Tree) :
    tokensOf (mapForest f forest) = (tokensOf forest).map f := by
  induction forest using tokensOf.induct with
  | case1 => simp
  | case2 t stack ih => simp [ih]
  | case3 rule operand children stack ih => simpa using ih

theorem Tree.tokens_mapTokens (f : Token → Token) (tree : Tree) :
    (tree.mapTokens f).tokens = tree.tokens.map f := by
  have h := tokensOf_mapForest f [tree]
  rwa [mapForest, mapForest] at h

theorem reportedLines_of_relined {g : UInt64 → UInt64} {r r' : Except ParseError Compilation}
    (h : Relined g r r') : reportedLines r' = (reportedLines r).map g := by
  cases h with
  | @ok c d hc =>
      simp only [reportedLines, hc.diagnostics, hc.tree, Tree.tokens_mapTokens, List.map_append,
        List.map_map]
      rfl
  | error error => cases error <;> rfl

/-- Only lines that were read are reported: another line could be moved, and nothing would have
changed. -/
theorem exists_line_of_relined {r : Except ParseError Compilation} {tokens : List Token}
    (h : Relined (shiftOthers tokens) r r) {line : UInt64} (hline : line ∈ reportedLines r) :
    ∃ token ∈ tokens, token.line = line := by
  have hfixed : (reportedLines r).map (shiftOthers tokens) = (reportedLines r).map id := by
    rw [List.map_id, ← reportedLines_of_relined h]
  exact exists_of_shiftOthers_eq (List.map_inj_left.1 hfixed line hline)

end Reported

/-- Lines only decorate. With every token's line moved, the result is the same but for the lines,
and so is what the sink holds; and every line that is reported is that of a token. -/
theorem compileTo_lines (g : UInt64 → UInt64) (tokens : List Token) (limit : Option Nat)
    (flushFails : Bool) :
    Relined g (compileTo { limit, flushFails } tokens).1
        (compileTo { limit, flushFails } (tokens.map (Token.rename (.lines g)))).1 ∧
      (compileTo { limit, flushFails } (tokens.map (Token.rename (.lines g)))).2 =
        (compileTo { limit, flushFails } tokens).2 ∧
      ∀ line ∈ reportedLines (compileTo { limit, flushFails } tokens).1,
        ∃ token ∈ tokens, token.line = line := by
  have hresult : ∀ g, Relined g (compileTo { limit, flushFails } tokens).1
      (compileTo { limit, flushFails } (tokens.map (Token.rename (.lines g)))).1 := by
    intro g
    obtain ⟨hrelined, hsink⟩ := compileTo_relined g tokens
    rw [compileTo_narrow tokens, compileTo_narrow (tokens.map _) limit flushFails, hsink]
    by_cases hfits : (compileTo {} tokens).2.fits limit = true
    · simp only [hfits, if_true]
      exact hrelined.flushed flushFails
    · simp only [hfits]
      exact .error .trace
  refine ⟨hresult g, ?_, fun line => exists_line_of_relined ?_⟩
  · rw [compileTo_narrow (tokens.map _) limit, compileTo_narrow tokens limit,
      (compileTo_relined g tokens).2]
  · have hsame := hresult (shiftOthers tokens)
    rwa [map_rename_shiftOthers] at hsame

end OnePass
