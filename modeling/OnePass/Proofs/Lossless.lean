import OnePass.Proofs.Log.Program
import OnePass.Proofs.Trace.Composed

/-!
The syntax tree keeps the tokens it was read from. The leaves of a phrase are what its log takes,
in the order in which it takes them, so that a tree holds a subsequence of the tokens. Only an
unknown name makes a pass drop tokens; where none is recorded, the tree holds every token once.
-/

namespace OnePass

namespace Tree

@[simp]
theorem tokensOf_nil : tokensOf [] = [] := by
  rw [tokensOf]

@[simp]
theorem tokensOf_token (t : Token) (stack : List Tree) :
    tokensOf (token t :: stack) = t :: tokensOf stack := by
  rw [tokensOf]

@[simp]
theorem tokensOf_append (front back : List Tree) :
    tokensOf (front ++ back) = tokensOf front ++ tokensOf back := by
  induction front using tokensOf.induct with
  | case1 => simp
  | case2 t stack ih => simp [ih]
  | case3 rule operand children stack ih =>
      rw [List.cons_append, tokensOf, tokensOf, ← List.append_assoc, ih]

@[simp]
theorem tokensOf_node (rule : Rule) (operand : Option Operand) (children stack : List Tree) :
    tokensOf (node rule operand children :: stack) = tokensOf children ++ tokensOf stack := by
  rw [tokensOf, tokensOf_append]

@[simp]
theorem tokensOf_inner (rule : Rule) (children stack : List Tree) :
    tokensOf (inner rule children :: stack) = tokensOf children ++ tokensOf stack :=
  tokensOf_node rule none children stack

@[simp]
theorem tokensOf_optional (found : Option Token) : tokensOf (optional found) = found.toList := by
  cases found <;> simp [optional]

theorem tokensOf_flatMap {α : Type} (trees : α → List Tree) (items : List α) :
    tokensOf (items.flatMap trees) = items.flatMap fun item => tokensOf (trees item) := by
  induction items with
  | nil => simp
  | cons item items ih => rw [List.flatMap_cons, tokensOf_append, ih, List.flatMap_cons]

end Tree

namespace Action

/-- The tokens that an action leaves in the tree. Of a call that is skipped, the name stays. -/
def leaves : Action → List Token
  | take _ token => [token]
  | skipCall name => [name]
  | _ => []

theorem leaves_eq_tokens {action : Action} (h : .undefined ∉ action.records) :
    action.leaves = action.tokens := by
  cases action with
  | skipCall name => exact absurd List.mem_cons_self h
  | _ => rfl

end Action

/-- The tokens that a log leaves in the tree. -/
def leavesOf (log : List Action) : List Token :=
  log.flatMap Action.leaves

section Leaves

@[simp]
theorem leavesOf_nil : leavesOf [] = [] := rfl

@[simp]
theorem leavesOf_cons (action : Action) (log : List Action) :
    leavesOf (action :: log) = action.leaves ++ leavesOf log :=
  List.flatMap_cons

@[simp]
theorem leavesOf_append (front back : List Action) :
    leavesOf (front ++ back) = leavesOf front ++ leavesOf back :=
  List.flatMap_append

theorem leavesOf_flatMap {α : Type} (itemLog : α → List Action) (items : List α) :
    leavesOf (items.flatMap itemLog) = items.flatMap fun item => leavesOf (itemLog item) :=
  List.flatMap_assoc

theorem leavesOf_when (condition : Prop) [Decidable condition] (action : Action)
    (haction : action.leaves = []) : leavesOf (Action.when condition action) = [] := by
  unfold Action.when
  split
  · rw [leavesOf_cons, haction]
    rfl
  · rfl

@[simp]
theorem leavesOf_recoverLog (kind : TokenKind) (missing : DiagnosticKind) (found : Option Token) :
    leavesOf (recoverLog kind missing found) = found.toList := by
  cases found <;> rfl

@[simp]
theorem leavesOf_semicolonLog (semicolon : Option Token) :
    leavesOf (semicolonLog semicolon) = semicolon.toList :=
  leavesOf_recoverLog _ _ _

@[simp]
theorem leavesOf_readLog (ref : NameRef) : leavesOf ref.readLog = [ref.token] := by
  rw [NameRef.readLog, leavesOf_append, leavesOf_when _ _ rfl]
  rfl

@[simp]
theorem leavesOf_targetLog (ref : NameRef) : leavesOf ref.targetLog = [ref.token] := by
  unfold NameRef.targetLog
  cases ref.symbol with
  | none => rfl
  | some symbol =>
      rw [leavesOf_append, leavesOf_when _ _ rfl]
      rfl

@[simp]
theorem leavesOf_scanLog (ref : NameRef) : leavesOf ref.scanLog = [ref.token] := by
  unfold NameRef.scanLog
  cases ref.symbol <;> rfl

@[simp]
theorem leavesOf_negateLog (value result : Operand) : leavesOf (negateLog value result) = [] := by
  cases result <;> rfl

@[simp]
theorem leavesOf_combineLog (accumulator : Option Reg) (op : ArithOp) (dst : Reg)
    (lhs rhs : Operand) : leavesOf (combineLog accumulator op dst lhs rhs) = [] := by
  cases accumulator <;> rfl

@[simp]
theorem leavesOf_checkIndexLog (index : Expr) : leavesOf (checkIndexLog index) = [] :=
  leavesOf_when _ _ rfl

@[simp]
theorem leavesOf_checkConditionLog (operand : Expr) : leavesOf (checkConditionLog operand) = [] :=
  leavesOf_when _ _ rfl

@[simp]
theorem leavesOf_checkArgumentsLog (name : Token) (callee : Symbol) (args : Args) :
    leavesOf (checkArgumentsLog name callee args) = [] := by
  unfold checkArgumentsLog
  split
  · rfl
  · exact leavesOf_when _ _ rfl

@[simp]
theorem leavesOf_checkReturnLog (returnType ty : Ty) :
    leavesOf (checkReturnLog returnType ty) = [] := by
  unfold checkReturnLog
  split
  · rfl
  · exact leavesOf_when _ _ rfl

end Leaves

section Phrases

@[simp]
theorem UnsignedLit.tokensOf_tree (lit : UnsignedLit) (stack : List Tree) :
    Tree.tokensOf (lit.tree :: stack) = leavesOf lit.log ++ Tree.tokensOf stack := by
  simp [tree, log, Action.leaves]

@[simp]
theorem IntLit.tokensOf_tree (lit : IntLit) (stack : List Tree) :
    Tree.tokensOf (lit.tree :: stack) = leavesOf lit.log ++ Tree.tokensOf stack := by
  unfold log
  cases hsign : lit.sign <;> simp [tree, hsign, Tree.optional, Action.leaves]

mutual

/-- The leaves of an expression are what its log takes. -/
theorem Expr.tokensOf_children : (e : Expr) → Tree.tokensOf e.children = leavesOf e.log
  | .term t | .positive _ t | .negative _ t _ => by
      simp [Expr.children, Expr.log, Action.leaves, t.tokensOf_children]
  | .chain lhs _ _ rhs _ => by
      simp [Expr.children, Expr.log, Action.leaves, lhs.tokensOf_children, rhs.tokensOf_children]

theorem Term.tokensOf_children : (t : Term) → Tree.tokensOf t.children = leavesOf t.log
  | .factor f => by
      simp [Term.children, Term.log, f.tokensOf_children]
  | .chain lhs _ _ rhs _ => by
      simp [Term.children, Term.log, Action.leaves, lhs.tokensOf_children, rhs.tokensOf_children]

theorem Factor.tokensOf_children : (f : Factor) → Tree.tokensOf f.children = leavesOf f.log
  | .element _ _ inner _ _ | .paren _ inner _ => by
      simp [Factor.children, Factor.log, Action.leaves, inner.tokensOf_children]
  | .call c _ => by
      simp [Factor.children, Factor.log, Action.leaves, c.tokensOf_children]
  | .name _ | .unknownCall _ | .char _ | .int _ => by
      simp [Factor.children, Factor.log, unknownCallLog, Action.leaves]

theorem Call.tokensOf_children : (c : Call) → Tree.tokensOf c.children = leavesOf c.log
  | .mk name lparen callee args rparen => by
      simp [Call.children, Call.log, Action.leaves, args.tokensOf_children name.value]

theorem Args.tokensOf_children : (args : Args) → (function : String) →
    Tree.tokensOf args.children = leavesOf (args.log function)
  | .nil, function => by
      simp [Args.children, Args.log]
  | .first expr, function => by
      simp [Args.children, Args.log, Action.leaves, expr.tokensOf_children]
  | .more init comma expr, function => by
      simp [Args.children, Args.log, Action.leaves, init.tokensOf_children function,
        expr.tokensOf_children]

end

@[simp]
theorem Expr.tokensOf_tree (e : Expr) (stack : List Tree) :
    Tree.tokensOf (e.tree :: stack) = leavesOf e.log ++ Tree.tokensOf stack := by
  rw [Expr.tree, Tree.tokensOf_node, e.tokensOf_children]

@[simp]
theorem Condition.tokensOf_tree (label : Label) (sense : Sense) (c : Condition)
    (stack : List Tree) :
    Tree.tokensOf (c.tree :: stack) = leavesOf (c.log label sense) ++ Tree.tokensOf stack := by
  cases c <;> simp [Condition.tree, Condition.log, Action.leaves]

theorem CommaList.tokensOf_children {α : Type} {itemChildren : α → List Tree}
    {itemLog : α → List Action}
    (hitem : ∀ item, Tree.tokensOf (itemChildren item) = leavesOf (itemLog item))
    (items : CommaList α) :
    Tree.tokensOf (items.children itemChildren) = leavesOf (items.log itemLog) := by
  induction items with
  | one item => exact hitem item
  | cons item comma rest ih =>
      simp [CommaList.children, CommaList.log, Action.leaves, hitem, ih]

theorem Guard.tokensOf_children (label : Label) (sense : Sense) (guard : Guard) :
    Tree.tokensOf guard.children = leavesOf (guard.log label sense) := by
  simp [children, log, Action.leaves, guard.condition.tokensOf_tree label sense]

theorem PrintItem.tokensOf_children (item : PrintItem) :
    Tree.tokensOf item.children = leavesOf item.log := by
  cases item <;> simp [children, log, printValueLog, Action.leaves]

theorem ForHeader.tokensOf_children (header : ForHeader) (loopLabel endLabel : Label) :
    Tree.tokensOf header.children = leavesOf (header.log loopLabel endLabel) := by
  simp [children, log, Action.leaves, header.condition.tokensOf_tree endLabel .onFalse]

mutual

/-- The leaves of a statement are what its log takes. -/
theorem Stmt.tokensOf_children (returnType : Ty) : (stmt : Stmt) →
    Tree.tokensOf stmt.children = leavesOf (stmt.log returnType)
  | .ifThen _ guard body label _ | .whileLoop _ guard body _ label => by
      simp [Stmt.children, Stmt.log, Guard.log, Action.leaves,
        guard.tokensOf_children label .onFalse, body.tokensOf_children returnType]
  | .ifElse _ guard body _ alternative elseLabel _ => by
      simp [Stmt.children, Stmt.log, Action.leaves, guard.tokensOf_children elseLabel .onFalse,
        body.tokensOf_children returnType, alternative.tokensOf_children returnType]
  | .doLoop _ body _ guard loopLabel => by
      simp [Stmt.children, Stmt.log, Action.leaves, guard.tokensOf_children loopLabel .onTrue,
        body.tokensOf_children returnType]
  | .forLoop _ header body loopLabel endLabel => by
      simp [Stmt.children, Stmt.log, Action.leaves, header.tokensOf_children loopLabel endLabel,
        body.tokensOf_children returnType]
  | .block _ body _ => by
      simp [Stmt.children, Stmt.log, Action.leaves, Stmt.tokensOf_forest returnType body]
  | .scan _ _ targets _ _ => by
      have htargets : Tree.tokensOf (targets.children fun ref => [.token ref.token]) =
          leavesOf (targets.log NameRef.scanLog) :=
        targets.tokensOf_children fun ref => by simp
      simp [Stmt.children, Stmt.log, Action.leaves, htargets]
  | .call _ _ | .unknownCall _ _ | .skipped | .assign _ _ _ _ | .assignElement _ _ _ _ _ _ _
  | .print _ _ _ _ _ | .ret _ _ | .retValue _ _ _ _ _ | .empty _ => by
      simp [Stmt.children, Stmt.log, unknownCallLog, Action.leaves, Call.tokensOf_children,
        PrintItem.tokensOf_children]

theorem Stmt.tokensOf_forest (returnType : Ty) : (stmts : List Stmt) →
    Tree.tokensOf (Stmt.forest stmts) = leavesOf (Stmt.logs returnType stmts)
  | [] => by
      simp [Stmt.forest, Stmt.logs]
  | stmt :: stmts => by
      simp [Stmt.forest, Stmt.logs, stmt.tokensOf_children returnType,
        Stmt.tokensOf_forest returnType stmts]

end

theorem ConstDecl.tokensOf_children (scope : Scope) (decl : ConstDecl) :
    Tree.tokensOf decl.children = leavesOf (decl.log scope) := by
  have hitem : ∀ item : ConstItem,
      Tree.tokensOf item.children = leavesOf (item.log scope decl.type.ty) := by
    intro item
    have hreport := leavesOf_when (item.init.fits decl.type.ty = false)
      (.report item.init.token.line .constInitialiser) rfl
    have hinit : Tree.tokensOf [item.init.tree] = leavesOf item.init.takeLog := by
      cases item.init <;> simp [ConstInit.tree, ConstInit.takeLog, Action.leaves]
    simp [ConstItem.children, ConstItem.log, ConstInit.log, Action.leaves, hreport, hinit]
  simp [children, log, TypeName.log, Action.leaves, decl.items.tokensOf_children hitem]

theorem VarDecl.tokensOf_children (scope : Scope) (decl : VarDecl) :
    Tree.tokensOf decl.children = leavesOf (decl.log scope) := by
  have hitem : ∀ item : VarItem,
      Tree.tokensOf item.children = leavesOf (item.log scope decl.type.ty) := by
    intro item
    cases hsize : item.size <;>
      simp [VarItem.children, VarItem.log, hsize, ArraySize.children, ArraySize.log, Action.leaves]
  simp [children, log, TypeName.log, Action.leaves, decl.items.tokensOf_children hitem]

theorem Params.tokensOf_children (function : String) (params : Params) :
    Tree.tokensOf params.children = leavesOf (params.log function) := by
  have hparam : ∀ param : Param,
      Tree.tokensOf param.children = leavesOf (param.log function) := by
    intro param
    simp [Param.children, Param.log, TypeName.log, Action.leaves]
  induction params with
  | nil => simp [children, log]
  | last param => exact hparam param
  | cons param comma rest ih => simp [children, log, Action.leaves, hparam, ih]

theorem FunctionHead.tokensOf_children (head : FunctionHead) :
    Tree.tokensOf head.children = leavesOf head.log := by
  cases head with
  | value type name lparen params rparen | void keyword name lparen params rparen =>
      simp [children, log, openFunctionLog, TypeName.log, Action.leaves,
        params.tokensOf_children name.value]
  | main keyword name lparen rparen => simp [children, log, openFunctionLog, Action.leaves]

/-- A run of declarations has the same leaves with and without a node above it. -/
@[simp]
theorem Body.tokensOf_run (rule : Rule) (children : List Tree) :
    Tree.tokensOf (run rule children) = Tree.tokensOf children := by
  cases children <;> simp [run]

theorem Body.tokensOf_tree (returnType : Ty) (line : UInt64) (body : Body) (stack : List Tree) :
    Tree.tokensOf (body.tree :: stack) =
      leavesOf (body.log returnType line) ++ Tree.tokensOf stack := by
  have hreport := leavesOf_when
    (returnType ≠ .void ∧ Stmt.anyAlwaysReturns body.stmts = false)
    (.report line .missingReturn) rfl
  simp only [tree, log, Tree.tokensOf_inner, Tree.tokensOf_append, tokensOf_run,
    Tree.tokensOf_flatMap, Tree.tokensOf_nil, leavesOf_append, leavesOf_flatMap, hreport,
    ConstDecl.tokensOf_children .local, VarDecl.tokensOf_children .local,
    Stmt.tokensOf_forest returnType, List.append_nil, List.append_assoc]

theorem Function.tokensOf_tree (f : Function) (stack : List Tree) :
    Tree.tokensOf (f.tree :: stack) = leavesOf f.log ++ Tree.tokensOf stack := by
  have hannounce : leavesOf f.head.announceLog = [] := by
    simp [FunctionHead.announceLog, leavesOf, Action.leaves]
  have hret := leavesOf_when (f.head.ty = .void) (.emit .retVoid) rfl
  simp [tree, log, Action.leaves, hannounce, hret, f.head.tokensOf_children,
    f.body.tokensOf_tree f.head.ty f.rbrace.line]

theorem TopLevel.tokensOf_tree (item : TopLevel) (stack : List Tree) :
    Tree.tokensOf (item.tree :: stack) = leavesOf item.log ++ Tree.tokensOf stack := by
  cases item with
  | consts decls =>
      simp only [tree, log, Tree.tokensOf_inner, Tree.tokensOf_flatMap, leavesOf_flatMap,
        ConstDecl.tokensOf_children .global]
  | vars decls =>
      simp only [tree, log, Tree.tokensOf_inner, Tree.tokensOf_flatMap, leavesOf_flatMap,
        VarDecl.tokensOf_children .global]
  | function f => exact f.tokensOf_tree stack

/-- The leaves of a program are what its log takes. -/
theorem Program.tokens_tree (program : Program) : program.tree.tokens = leavesOf program.log := by
  have hitems : Tree.tokensOf (program.items.map TopLevel.tree) =
      leavesOf (program.items.flatMap TopLevel.log) := by
    induction program.items with
    | nil => simp
    | cons item items ih =>
        rw [List.map_cons, item.tokensOf_tree, ih, List.flatMap_cons, leavesOf_append]
  simp [tree, log, Tree.tokens, hitems, Action.leaves]

end Phrases

/-- An action consumes at least what it leaves in the tree. -/
theorem Action.Performs.leaves_sublist {action : Action} {s t : State}
    (h : action.Performs s t) : (action.leaves ++ t.cursor.rest).Sublist s.cursor.rest := by
  cases action with
  | skipCall name =>
      obtain ⟨_, u, v, hname, hreport, hskip⟩ := h
      obtain ⟨rest, hrest, rfl⟩ := Pass.advance_eq_ok.1 hname
      cases hreport
      rw [hrest]
      exact (Pass.Orderly.skipParens.reaches hskip).suffix.sublist.cons_cons name
  | skipStatement =>
      obtain ⟨token, u, v, htoken, hreport, hskip⟩ := h
      obtain ⟨rest, hrest, rfl⟩ := Pass.advance_eq_ok.1 htoken
      cases hreport
      rw [hrest]
      exact ((Pass.Orderly.skipPast .semicolon).reaches hskip).suffix.sublist.cons token
  | report line kind | reportHere kind =>
      cases h
      exact List.Sublist.refl _
  | _ =>
      rw [h.rest List.not_mem_nil]
      exact List.Sublist.refl _

theorem Plays.leaves_sublist {log : List Action} {s t : State} (h : Plays log s t) :
    (leavesOf log ++ t.cursor.rest).Sublist s.cursor.rest := by
  induction h using Plays.induction with
  | nil => exact List.Sublist.refl _
  | @cons s u action log haction _ ih =>
      rw [leavesOf_cons, List.append_assoc]
      exact (ih.append_left action.leaves).trans haction.leaves_sublist

/-- The syntax tree is lossless. Its tokens are a subsequence of those compiled, and all of them
unless an unknown name was recorded, whatever else was recorded. -/
theorem tree_tokens_of_compile {tokens : List Token} {c : Compilation}
    (h : compile tokens = .ok c) :
    c.tree.tokens.Sublist tokens ∧
      ((∀ d ∈ c.diagnostics, d.kind ≠ .undefined) → c.tree.tokens = tokens) := by
  obtain ⟨t, hplays, hrest, _⟩ := plays_of_compile h
  rw [Compilation.tree, c.program.tokens_tree]
  constructor
  · have hsublist := hplays.leaves_sublist
    rw [hrest, List.append_nil] at hsublist
    exact hsublist
  · intro hknown
    have hkept : ∀ action ∈ c.program.log, .undefined ∉ action.records := by
      intro action haction hrecord
      obtain ⟨d, hd, hkind⟩ := reported_of_compile h haction hrecord
      exact hknown d hd hkind
    have hleaves : leavesOf c.program.log = c.program.log.flatMap Action.tokens := by
      rw [leavesOf, List.flatMap_def, List.flatMap_def]
      congr 1
      apply List.map_congr_left
      intro action haction
      exact Action.leaves_eq_tokens (hkept action haction)
    have htokens := hplays.rest hkept
    rw [hrest, List.append_nil] at htokens
    rw [hleaves]
    exact htokens.symm

/-- `char c void main() { printf(c }`, in which a parenthesis and both semicolons are missing. -/
def unclosedTokens : List Token :=
  scan 1 ["char c void main ( ) \x7b printf ( c \x7d"]

/-- `void main() { f(1); }`, in which the function that is called is unknown. -/
def unknownCallTokens : List Token :=
  scan 1 ["void main ( ) \x7b f ( 1 ) ; \x7d"]

/-- What is missing makes no difference to the leaves, and of an unknown call they are some. -/
theorem tree_tokens_recovered :
    (∃ c, compile unclosedTokens = .ok c ∧ c.diagnostics ≠ [] ∧ c.tree.tokens = unclosedTokens) ∧
      ∃ c, compile unknownCallTokens = .ok c ∧ (∃ d ∈ c.diagnostics, d.kind = .undefined) ∧
        c.tree.tokens.Sublist unknownCallTokens := by
  have hunclosed := eq_ok_get (compile unclosedTokens) (by decide +kernel)
  have hunknown := eq_ok_get (compile unknownCallTokens) (by decide +kernel)
  constructor
  · exact ⟨_, hunclosed, by decide +kernel,
      (tree_tokens_of_compile hunclosed).2 (by decide +kernel)⟩
  · exact ⟨_, hunknown, by decide +kernel, (tree_tokens_of_compile hunknown).1⟩

end OnePass
