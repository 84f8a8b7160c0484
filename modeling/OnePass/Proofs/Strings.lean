import OnePass.Proofs.Lossless
import OnePass.Proofs.Skips
import OnePass.Proofs.Trees

/-!
The string table, the code and the syntax tree agree. A literal that is printed is put into the
table, printed by its index and left in the tree in one go, so that all three have the same texts in
the same order. A string that a constant is set to is left in the tree only, and one that is skipped
with an unknown name is left nowhere.
-/

namespace OnePass

namespace Tree

/-- The leaves that hang on the nodes of string literals, in pre-order. -/
def literals (forest : List Tree) : List Token :=
  (forest.flatMap preorder).flatMap fun tree =>
    if tree.rule? = some .stringLit then tree.children.filterMap token? else []

@[simp]
theorem literals_nil : literals [] = [] := rfl

@[simp]
theorem literals_append (front back : List Tree) :
    literals (front ++ back) = literals front ++ literals back := by
  simp [literals]

@[simp]
theorem literals_token (t : Token) (forest : List Tree) :
    literals (token t :: forest) = literals forest := by
  simp [literals, rule?]

@[simp]
theorem literals_node {rule : Rule} (h : rule ≠ .stringLit) (operand : Option Operand)
    (children forest : List Tree) :
    literals (node rule operand children :: forest) = literals children ++ literals forest := by
  simp [literals, rule?, h]

@[simp]
theorem literals_inner {rule : Rule} (h : rule ≠ .stringLit) (children forest : List Tree) :
    literals (inner rule children :: forest) = literals children ++ literals forest :=
  literals_node h none children forest

@[simp]
theorem literals_stringLit (t : Token) (forest : List Tree) :
    literals (inner .stringLit [token t] :: forest) = t :: literals forest := by
  simp [literals, inner, rule?, Tree.children, token?]

@[simp]
theorem literals_optional (found : Option Token) : literals (optional found) = [] := by
  cases found <;> simp [optional]

end Tree

/-- The index of the text that an instruction prints. -/
@[simp]
def Instr.printed? : Instr → Option Nat
  | printString index => some index
  | _ => none

namespace Action

/-- A text that an action puts into the table, and its index. -/
@[simp]
def interned? : Action → Option (String × Nat)
  | intern text index => some (text, index)
  | _ => none

/-- Whether an action has nothing to do with texts. -/
def quiet (action : Action) : Bool :=
  action.interned?.isNone && (action.code.filterMap Instr.printed?).isEmpty

instance : Passive quiet := {}

instance : Evaluative quiet where
  emit instr h := by
    cases instr with
    | printString index => cases h
    | _ => rfl

instance : Declarative quiet := {}

end Action

/-- The texts that a log puts into the table, each with its index. -/
def internedOf (log : List Action) : List (String × Nat) :=
  log.filterMap Action.interned?

/-- The indices of the texts that the code of a log prints. -/
def printedOf (log : List Action) : List Nat :=
  (log.flatMap Action.code).filterMap Instr.printed?

section Logs

variable {log : List Action}

@[simp]
theorem internedOf_nil : internedOf [] = [] := rfl

@[simp]
theorem printedOf_nil : printedOf [] = [] := rfl

@[simp]
theorem internedOf_cons (action : Action) (log : List Action) :
    internedOf (action :: log) = action.interned?.toList ++ internedOf log := by
  rw [internedOf, List.filterMap_cons]
  cases action.interned? <;> rfl

@[simp]
theorem internedOf_append (front back : List Action) :
    internedOf (front ++ back) = internedOf front ++ internedOf back :=
  List.filterMap_append

@[simp]
theorem printedOf_append (front back : List Action) :
    printedOf (front ++ back) = printedOf front ++ printedOf back := by
  simp [printedOf]

@[simp]
theorem printedOf_cons (action : Action) (log : List Action) : printedOf (action :: log) =
    (action.code.flatMap fun instr => instr.printed?.toList) ++ printedOf log := by
  rw [printedOf, List.flatMap_cons, List.filterMap_append]
  congr 1
  cases action with
  | emit instr => cases instr <;> rfl
  | _ => rfl

@[simp]
theorem internedOf_of_quiet (h : log.all Action.quiet = true) : internedOf log = [] := by
  refine List.filterMap_eq_nil_iff.2 fun action haction => ?_
  have hquiet := List.all_eq_true.1 h action haction
  simp only [Action.quiet, Bool.and_eq_true, Option.isNone_iff_eq_none] at hquiet
  exact hquiet.1

@[simp]
theorem printedOf_of_quiet (h : log.all Action.quiet = true) : printedOf log = [] := by
  rw [printedOf, List.filterMap_flatMap]
  refine List.flatMap_eq_nil_iff.2 fun action haction => ?_
  have hquiet := List.all_eq_true.1 h action haction
  simp only [Action.quiet, Bool.and_eq_true, List.isEmpty_iff] at hquiet
  exact hquiet.2

end Logs

section Expressions

mutual

/-- No text is printed within an expression. -/
@[simp]
theorem Expr.literals_children : (e : Expr) → Tree.literals e.children = []
  | .term t | .positive _ t | .negative _ t _ => by simp [Expr.children, t.literals_children]
  | .chain lhs _ _ rhs _ => by
      simp [Expr.children, lhs.literals_children, rhs.literals_children]

theorem Term.literals_children : (t : Term) → Tree.literals t.children = []
  | .factor f => by simp [Term.children, f.literals_children]
  | .chain lhs _ _ rhs _ => by
      simp [Term.children, lhs.literals_children, rhs.literals_children]

theorem Factor.literals_children : (f : Factor) → Tree.literals f.children = []
  | .element _ _ index _ _ => by simp [Factor.children, index.literals_children]
  | .call c _ => by simp [Factor.children, c.literals_children]
  | .paren _ inner _ => by simp [Factor.children, inner.literals_children]
  | .int literal => by simp [Factor.children, IntLit.tree, UnsignedLit.tree]
  | .name _ | .unknownCall _ | .char _ => by simp [Factor.children]

@[simp]
theorem Call.literals_children : (c : Call) → Tree.literals c.children = []
  | .mk _ _ _ args _ => by simp [Call.children, args.literals_children]

theorem Args.literals_children : (args : Args) → Tree.literals args.children = []
  | .nil => by simp [Args.children]
  | .first expr => by simp [Args.children, expr.literals_children]
  | .more init _ expr => by
      simp [Args.children, init.literals_children, expr.literals_children]

end

@[simp]
theorem Condition.literals_tree (c : Condition) (forest : List Tree) :
    Tree.literals (c.tree :: forest) = Tree.literals forest := by
  cases c <;> simp [tree, Expr.tree]

theorem Condition.quiet_log (label : Label) (sense : Sense) (c : Condition) :
    (c.log label sense).all Action.quiet = true := by
  cases c with
  | test value => cases sense <;> simp [log, value.all_log, Instr.test, Action.quiet, Action.code]
  | compare lhs relation opToken rhs =>
      simp [log, lhs.all_log, rhs.all_log, Instr.compare, Action.quiet, Action.code]

theorem ForHeader.quiet_log (header : ForHeader) (loopLabel endLabel : Label) :
    (header.log loopLabel endLabel).all Action.quiet = true := by
  simp [log, header.start.all_log, header.condition.quiet_log, Action.quiet, Action.code]

theorem CommaList.quiet_scanLog (targets : CommaList NameRef) :
    (targets.log NameRef.scanLog).all Action.quiet = true := by
  refine targets.all_log fun ref => ?_
  unfold NameRef.scanLog
  cases ref.symbol <;> simp [NameRef.log, Action.quiet, Action.code]

theorem quiet_printValueLog (value : Expr) : (printValueLog value).all Action.quiet = true := by
  have hprint : (Action.emit value.printInstr).quiet = true := by
    unfold Expr.printInstr
    split <;> rfl
  have hend : (Action.emit .printEnd).quiet = true := rfl
  simp [printValueLog, value.all_log, hprint, hend]

theorem CommaList.literals_children {α : Type} {itemChildren : α → List Tree}
    (hitem : ∀ item, Tree.literals (itemChildren item) = []) (items : CommaList α) :
    Tree.literals (items.children itemChildren) = [] := by
  induction items with
  | one item => exact hitem item
  | cons item comma rest ih => simp [children, hitem, ih]

end Expressions

section Statements

/-- The literals of a phrase have the texts that its log puts into the table, their indices are the
printed ones, and they are taken as strings. -/
abbrev Voiced (forest : List Tree) (log : List Action) : Prop :=
  (Tree.literals forest).map Token.value = (internedOf log).map Prod.fst ∧
    printedOf log = (internedOf log).map Prod.snd ∧
      ∀ t ∈ Tree.literals forest, .take .strLit t ∈ log

theorem PrintItem.voiced (item : PrintItem) : Voiced item.children item.log := by
  cases item <;>
    simp [Voiced, children, log, Expr.tree, Action.code, quiet_printValueLog]

mutual

/-- A statement voices what it prints. -/
theorem Stmt.voiced (returnType : Ty) : (stmt : Stmt) →
    Voiced stmt.children (stmt.log returnType)
  | .ifThen _ _ body _ _ | .whileLoop _ _ body _ _ | .doLoop _ body _ _ _ => by
      simp +contextual [Voiced, Stmt.children, Stmt.log, Guard.children, Guard.log,
        Condition.quiet_log, Action.code, body.voiced returnType]
  | .ifElse _ _ body _ alternative _ _ => by
      simp +contextual [Voiced, Stmt.children, Stmt.log, Guard.children, Guard.log,
        Condition.quiet_log, Action.code, body.voiced returnType, alternative.voiced returnType,
        or_imp]
  | .forLoop _ header body _ _ => by
      simp +contextual [Voiced, Stmt.children, Stmt.log, ForHeader.children, header.quiet_log,
        ForHeader.stepInstr, Expr.tree, UnsignedLit.tree, Action.code, body.voiced returnType]
  | .block _ body _ => by
      simp +contextual [Voiced, Stmt.children, Stmt.log, Action.code,
        Stmt.voiced_forest returnType body]
  | .print _ _ item _ _ => by
      simp +contextual [Voiced, Stmt.children, Stmt.log, Action.code, item.voiced]
  | .call c _ => by
      have hrule : c.statementRule ≠ .stringLit := by
        unfold Call.statementRule
        split <;> decide
      simp [Voiced, Stmt.children, Stmt.log, Action.code, hrule, c.all_log]
  | .scan _ _ targets _ _ => by
      simp [Voiced, Stmt.children, Stmt.log, Action.code, targets.quiet_scanLog,
        targets.literals_children]
  | .unknownCall _ _ | .skipped | .assign _ _ _ _ | .assignElement _ _ _ _ _ _ _ | .ret _ _
  | .retValue _ _ _ _ _ | .empty _ => by
      simp [Voiced, Stmt.children, Stmt.log, unknownCallLog, Expr.tree, Expr.all_log, Action.code]

theorem Stmt.voiced_forest (returnType : Ty) : (stmts : List Stmt) →
    Voiced (Stmt.forest stmts) (Stmt.logs returnType stmts)
  | [] => by
      simp [Voiced, Stmt.forest, Stmt.logs]
  | stmt :: stmts => by
      simp +contextual [Voiced, Stmt.forest, Stmt.logs, stmt.voiced returnType,
        Stmt.voiced_forest returnType stmts, or_imp]

end

end Statements

section Programs

@[simp]
theorem ConstDecl.literals_children (decl : ConstDecl) : Tree.literals decl.children = [] := by
  have hitem : ∀ item : ConstItem, Tree.literals item.children = [] := by
    intro item
    cases hinit : item.init <;>
      simp [ConstItem.children, ConstInit.tree, hinit, IntLit.tree, UnsignedLit.tree]
  simp [children, decl.items.literals_children hitem]

@[simp]
theorem VarDecl.literals_children (decl : VarDecl) : Tree.literals decl.children = [] := by
  have hitem : ∀ item : VarItem, Tree.literals item.children = [] := by
    intro item
    cases hsize : item.size <;>
      simp [VarItem.children, ArraySize.children, hsize, UnsignedLit.tree]
  simp [children, decl.items.literals_children hitem]

theorem VarDecl.quiet_log (scope : Scope) (decl : VarDecl) :
    (decl.log scope).all Action.quiet = true :=
  decl.all_log_of (fun _ => rfl) (fun _ _ => rfl) fun _ _ _ => rfl

@[simp]
theorem FunctionHead.literals_children (head : FunctionHead) :
    Tree.literals head.children = [] := by
  have hparams : ∀ params : Params, Tree.literals params.children = [] := by
    intro params
    induction params <;> simp [Params.children, Param.children, *]
  cases head <;> simp [children, hparams]

theorem Tree.literals_flatMap {α : Type} {trees : α → List Tree}
    (h : ∀ item, literals (trees item) = []) (items : List α) :
    literals (items.flatMap trees) = [] := by
  induction items <;> simp [*]

theorem Body.voiced (returnType : Ty) (line : UInt64) (body : Body) :
    Voiced [body.tree] (body.log returnType line) := by
  have hrun : ∀ (rule : Rule) (children : List Tree), rule ≠ .stringLit →
      Tree.literals (run rule children) = Tree.literals children := by
    intro rule children hrule
    unfold run
    cases children <;> simp [hrule]
  have hreport : (Action.when (returnType ≠ .void ∧ Stmt.anyAlwaysReturns body.stmts = false)
      (.report line .missingReturn)).all Action.quiet = true := all_when _ _ rfl
  simp +contextual [Voiced, tree, log, hrun, Tree.literals_flatMap, ConstDecl.all_log,
    VarDecl.quiet_log, hreport, Stmt.voiced_forest returnType body.stmts]

theorem Function.voiced (f : Function) : Voiced [f.tree] f.log := by
  have hrule : f.head.rule ≠ .stringLit := by cases f.head <;> exact Rule.noConfusion
  have hannounce : f.head.announceLog.all Action.quiet = true := by
    simp [FunctionHead.announceLog, Action.quiet, Action.code]
  have hret : (Action.when (f.head.ty = .void) (.emit .retVoid)).all Action.quiet = true :=
    all_when _ _ rfl
  have hbrace : Tree.literals [f.body.tree, .token f.rbrace] = Tree.literals [f.body.tree] := by
    simp [Body.tree]
  simp +contextual [Voiced, tree, log, hrule, f.head.all_log, hannounce, hret, hbrace, Action.code,
    f.body.voiced f.head.ty f.rbrace.line]

/-- A program voices what it prints. -/
theorem Program.voiced (program : Program) : Voiced [program.tree] program.log := by
  have hitem : ∀ item : TopLevel, Voiced [item.tree] item.log := by
    intro item
    cases item with
    | consts decls =>
        simp [Voiced, TopLevel.tree, TopLevel.log, Tree.literals_flatMap, ConstDecl.all_log]
    | vars decls =>
        simp [Voiced, TopLevel.tree, TopLevel.log, Tree.literals_flatMap, VarDecl.quiet_log]
    | function f => exact f.voiced
  have hitems : Voiced (program.items.map TopLevel.tree) (program.items.flatMap TopLevel.log) := by
    induction program.items with
    | nil => simp [Voiced]
    | cons item items ih =>
        have hcons := Tree.literals_append [item.tree] (items.map TopLevel.tree)
        rw [List.singleton_append] at hcons
        simp +contextual [Voiced, hcons, hitem item, ih, or_imp, -List.mem_flatMap]
  simpa [Voiced, tree, log, Action.code] using hitems

end Programs

section Runs

open Cursor (Level Shortest)

variable {log : List Action} {s t : State}

/-- The texts of a log are added to the table, at consecutive indices. -/
theorem Plays.strings (h : Plays log s t) :
    t.strings.toList = s.strings.toList ++ (internedOf log).map Prod.fst ∧
      (internedOf log).map Prod.snd = List.range' s.strings.size (internedOf log).length := by
  induction h using Plays.induction with
  | nil => simp
  | @cons s u action log haction _ ih =>
      obtain ⟨hlist, hindices⟩ := ih
      have heffect := haction.effect.strings
      cases action with
      | intern text index =>
          obtain rfl : s.strings.size = index := by
            cases haction
            rfl
          have hsize : u.strings.size = s.strings.size + 1 := by
            simp [heffect, Action.strings, StringTable.intern, StringTable.size]
          rw [hlist, heffect, internedOf_cons]
          simp [Action.strings, hindices, hsize, List.range'_succ]
      | _ =>
          rw [heffect] at hlist hindices
          exact ⟨hlist, hindices⟩

/-- What a tree keeps of the tokens that it is read from. Of a call with an unknown name only that
name is kept, and of another statement that begins with one, nothing. -/
inductive Retains : List Token → List Token → Prop where
  | nil : Retains [] []
  | leaf (token : Token) {tokens kept : List Token} (h : Retains tokens kept) :
      Retains (token :: tokens) (token :: kept)
  | call {name lparen : Token} {group tokens kept : List Token} (hname : name.kind = .ident)
      (hlparen : lparen.kind = .lparen)
      (hgroup : Shortest Level (lparen :: (group ++ tokens)) (lparen :: group) tokens)
      (h : Retains tokens kept) : Retains (name :: lparen :: (group ++ tokens)) (name :: kept)
  | statement (name : Token) {skipped tokens kept : List Token} {semicolon : Token}
      (hskipped : ∀ token ∈ skipped, token.kind ≠ .semicolon)
      (hsemicolon : semicolon.kind = .semicolon) (h : Retains tokens kept) :
      Retains (name :: (skipped ++ semicolon :: tokens)) kept

/-- An action keeps its leaves, and what is kept behind it. -/
theorem Action.Performs.retains {action : Action} (h : action.Performs s t) {kept : List Token}
    (hkept : Retains t.cursor.rest kept) : Retains s.cursor.rest (action.leaves ++ kept) := by
  cases action with
  | take kind token =>
      obtain ⟨rest, hrest, rfl⟩ := Pass.advance_eq_ok.1 h.2
      rw [hrest]
      exact .leaf token hkept
  | skipCall name =>
      obtain ⟨hname, u, v, hadvance, hreport, hskip⟩ := h
      obtain ⟨rest, hrest, rfl⟩ := Pass.advance_eq_ok.1 hadvance
      cases hreport
      obtain ⟨cursor, hstep, rfl⟩ := Pass.onCursor_eq_ok.1 hskip
      have hnext := Cursor.nextIs_of_skipParens hstep
      obtain ⟨lparen, inside, hinside, hlparen⟩ := Cursor.nextIs_eq_true_iff.1 hnext
      obtain ⟨group, back, hgroup, rfl⟩ := Cursor.shortest_of_skipParens hnext hstep
      rw [hinside] at hgroup
      obtain ⟨tail, rfl, rfl⟩ := hgroup.exists_cons
      rw [hrest, show rest = _ from hinside]
      exact .call hname hlparen hgroup hkept
  | skipStatement =>
      obtain ⟨name, u, v, hadvance, hreport, hskip⟩ := h
      obtain ⟨rest, hrest, rfl⟩ := Pass.advance_eq_ok.1 hadvance
      cases hreport
      obtain ⟨cursor, hstep, rfl⟩ := Pass.onCursor_eq_ok.1 hskip
      obtain ⟨skipped, semicolon, back, hsplit, hskipped, hsemicolon, rfl⟩ :=
        Cursor.first_of_skipPast hstep
      have hrest' : rest = skipped ++ semicolon :: back := hsplit
      rw [hrest, hrest']
      exact .statement name hskipped hsemicolon hkept
  | report line kind | reportHere kind =>
      cases h
      exact hkept
  | _ =>
      rw [h.rest List.not_mem_nil]
      exact hkept

theorem Plays.retains (h : Plays log s t) {kept : List Token} (hkept : Retains t.cursor.rest kept) :
    Retains s.cursor.rest (leavesOf log ++ kept) := by
  induction h using Plays.induction with
  | nil => exact hkept
  | cons haction _ ih =>
      rw [leavesOf_cons, List.append_assoc]
      exact haction.retains ih

end Runs

/-- The declarations of constants in a part of a program. -/
def TopLevel.constants : TopLevel → List ConstDecl
  | consts decls => decls
  | vars _ => []
  | function f => f.body.consts

/-- The table of a compilation has the strings that hang on the nodes of literals, and the code
prints one after the other. -/
structure Compilation.StringsAgree (tokens : List Token) (c : Compilation) : Prop where
  indices : c.code.filterMap Instr.printed? = List.range c.strings.size
  texts : ∀ index, c.strings.resolve? index =
    ((Tree.literals [c.tree]).filter fun t => t.kind = .strLit)[index]?.map Token.value
  constants : ∀ item ∈ c.program.items, ∀ decl ∈ item.constants, Tree.literals decl.children = []
  source : Retains tokens c.tree.tokens

theorem stringsAgree_of_compile {tokens : List Token} {c : Compilation}
    (h : compile tokens = .ok c) : c.StringsAgree tokens := by
  obtain ⟨t, hplays, hrest, hc⟩ := plays_of_compile h
  obtain ⟨htexts, hprinted, htaken⟩ := c.program.voiced
  obtain ⟨hlist, hindices⟩ := hplays.strings
  have hkinds : ∀ token ∈ Tree.literals [c.tree], token.kind = .strLit := by
    intro token htoken
    obtain ⟨front, back, hlog⟩ := List.append_of_mem (htaken token htoken)
    rw [hlog] at hplays
    obtain ⟨u, _, v, ⟨hkind, _⟩, _⟩ := plays_append.1 hplays
    exact hkind
  have hstrings : c.strings.texts.toList = (Tree.literals [c.tree]).map Token.value := by
    rw [hc, Compilation.tree, htexts]
    exact hlist
  refine ⟨?_, fun index => ?_, fun _ _ decl _ => decl.literals_children, ?_⟩
  · have hcode : c.code = c.program.log.flatMap Action.code := by
      rw [hc]
      exact hplays.code
    have hsize : c.strings.size = (internedOf c.program.log).length := by
      rw [StringTable.size, ← Array.length_toList, hstrings, Compilation.tree, htexts,
        List.length_map]
    rw [hcode, hsize, List.range_eq_range']
    exact hprinted.trans hindices
  · rw [List.filter_eq_self.2 fun token htoken => decide_eq_true (hkinds token htoken),
      ← List.getElem?_map, ← hstrings, Array.getElem?_toList]
    rfl
  · rw [Compilation.tree, c.program.tokens_tree, ← List.append_nil (leavesOf _)]
    refine hplays.retains ?_
    rw [hrest]
    exact .nil

/-- `const int k = "c"; void main() { printf("a", g(("s"))); h "t"; { printf("b"); } printf("a"); }`,
in which `g` and `h` are unknown. -/
def voicedTokens : List Token :=
  scan 1 ["const int k = \"c\" ; void main ( ) \x7b printf ( \"a\" , g ( ( \"s\" ) ) ) ;"] ++
    scan 1 ["h \"t\" ; \x7b printf ( \"b\" ) ; \x7d printf ( \"a\" ) ; \x7d"]

/-- One text is printed twice, and three strings are printed nowhere. -/
theorem stringsAgree_voicedTokens : ∃ c, compile voicedTokens = .ok c ∧
    c.strings.toList = ["a", "b", "a"] ∧ c.code.filterMap Instr.printed? = [0, 1, 2] ∧
    c.StringsAgree voicedTokens := by
  have hc := eq_ok_get (compile voicedTokens) (by decide +kernel)
  exact ⟨_, hc, by decide +kernel, by decide +kernel, stringsAgree_of_compile hc⟩

end OnePass
