import OnePass.Proofs.Emission
import OnePass.Proofs.Trees

/-!
The expressions of a program and the names that are read in them. The operands that the nodes of a
program's tree carry are those of its expressions, and what a name stands for where it is read is
one of them.
-/

namespace OnePass

open OnePass.Tree (annotations)

section Names

mutual

/-- The names whose values an expression uses, from left to right. A name in front of an index is
not one of them: it is not replaced by what it stands for. -/
def Expr.readNames : Expr → List NameRef
  | .term t => t.readNames
  | .positive _ t => t.readNames
  | .negative _ t _ => t.readNames
  | .chain lhs _ _ rhs _ => lhs.readNames ++ rhs.readNames

def Term.readNames : Term → List NameRef
  | .factor f => f.readNames
  | .chain lhs _ _ rhs _ => lhs.readNames ++ rhs.readNames

def Factor.readNames : Factor → List NameRef
  | .name ref => [ref]
  | .element _ _ index _ _ => index.readNames
  | .call c _ => c.readNames
  | .paren _ inner _ => inner.readNames
  | .unknownCall _ | .char _ | .int _ => []

def Call.readNames : Call → List NameRef
  | .mk _ _ _ args _ => args.readNames

def Args.readNames : Args → List NameRef
  | .nil => []
  | .first expr => expr.readNames
  | .more init _ expr => init.readNames ++ expr.readNames

end

/-- A name is looked up in a log, and a node of some trees carries what it stands for. -/
structure NameRef.Shown (ref : NameRef) (log : List Action) (forest : List Tree) : Prop where
  looked : ∀ action ∈ ref.readLog, action ∈ log
  carried : ref.value ∈ annotations forest

variable {ref : NameRef}

mutual

/-- What an expression reads is looked up there, and the expression's nodes show it. -/
theorem Expr.shown : (e : Expr) → ref ∈ e.readNames → ref.Shown e.log e.children
  | .term t, h | .positive _ t, h | .negative _ t _, h => by
      rw [Expr.readNames] at h
      obtain ⟨hlog, hvalue⟩ := t.shown h
      exact ⟨by simp +contextual [Expr.log, hlog], by simp [Expr.children, hvalue]⟩
  | .chain lhs op opToken rhs dst, h => by
      rw [Expr.readNames, List.mem_append] at h
      rcases h with h | h
      · obtain ⟨hlog, hvalue⟩ := lhs.shown h
        exact ⟨by simp +contextual [Expr.log, hlog], by simp [Expr.children, hvalue]⟩
      · obtain ⟨hlog, hvalue⟩ := rhs.shown h
        exact ⟨by simp +contextual [Expr.log, hlog], by simp [Expr.children, hvalue]⟩

theorem Term.shown : (t : Term) → ref ∈ t.readNames → ref.Shown t.log t.children
  | .factor f, h => by
      rw [Term.readNames] at h
      rw [Term.log, Term.children]
      exact f.shown h
  | .chain lhs op opToken rhs dst, h => by
      rw [Term.readNames, List.mem_append] at h
      rcases h with h | h
      · obtain ⟨hlog, hvalue⟩ := lhs.shown h
        exact ⟨by simp +contextual [Term.log, hlog], by simp [Term.children, hvalue]⟩
      · obtain ⟨hlog, hvalue⟩ := rhs.shown h
        refine ⟨by simp +contextual [Term.log, hlog], ?_⟩
        rw [Term.children, Tree.annotations_append, Tree.annotations_token_cons]
        exact List.mem_append_right _ hvalue

theorem Factor.shown : (f : Factor) → ref ∈ f.readNames →
    ref.Shown f.log [.node .factor (some f.value) f.children]
  | .name other, h => by
      rw [Factor.readNames, List.mem_singleton] at h
      rw [h]
      exact ⟨by simp [Factor.log], by simp [Factor.value]⟩
  | .call c dst, h => by
      rw [Factor.readNames] at h
      obtain ⟨hlog, hvalue⟩ := c.shown h
      exact ⟨by simp +contextual [Factor.log, hlog], by simp [Factor.children, hvalue]⟩
  | .element _ _ inner _ _, h | .paren _ inner _, h => by
      rw [Factor.readNames] at h
      obtain ⟨hlog, hvalue⟩ := inner.shown h
      exact ⟨by simp +contextual [Factor.log, hlog], by simp [Factor.children, hvalue]⟩
  | .unknownCall _, h | .char _, h | .int _, h => by
      rw [Factor.readNames] at h
      cases h

theorem Call.shown : (c : Call) → ref ∈ c.readNames → ref.Shown c.log c.children
  | .mk name lparen callee args rparen, h => by
      rw [Call.readNames] at h
      obtain ⟨hlog, hvalue⟩ := args.shown name.value h
      exact ⟨by simp +contextual [Call.log, hlog], by simp [Call.children, hvalue]⟩

theorem Args.shown (function : String) : (args : Args) → ref ∈ args.readNames →
    ref.Shown (args.log function) args.children
  | .nil, h => by
      rw [Args.readNames] at h
      cases h
  | .first expr, h => by
      rw [Args.readNames] at h
      obtain ⟨hlog, hvalue⟩ := expr.shown h
      exact ⟨by simp +contextual [Args.log, hlog], by simp [Args.children, hvalue]⟩
  | .more init comma expr, h => by
      rw [Args.readNames, List.mem_append] at h
      rcases h with h | h
      · obtain ⟨hlog, hvalue⟩ := init.shown function h
        exact ⟨by simp +contextual [Args.log, hlog], by simp [Args.children, hvalue]⟩
      · obtain ⟨hlog, hvalue⟩ := expr.shown h
        exact ⟨by simp +contextual [Args.log, hlog], by simp [Args.children, hvalue]⟩

end

end Names

section Expressions

/-- The arguments as a list. -/
def Args.exprs : Args → List Expr
  | nil => []
  | first expr => [expr]
  | more init _ expr => init.exprs ++ [expr]

def Condition.exprs : Condition → List Expr
  | test value => [value]
  | compare lhs _ _ rhs => [lhs, rhs]

def ForHeader.exprs (header : ForHeader) : List Expr :=
  header.start :: header.condition.exprs

def PrintItem.exprs : PrintItem → List Expr
  | text _ _ => []
  | textValue _ _ _ v => [v]
  | value v => [v]

mutual

/-- The expressions of a statement, but for those that are part of another. -/
def Stmt.exprs : Stmt → List Expr
  | .ifThen _ guard body _ _ => guard.condition.exprs ++ body.exprs
  | .ifElse _ guard body _ alternative _ _ =>
    guard.condition.exprs ++ (body.exprs ++ alternative.exprs)
  | .whileLoop _ guard body _ _ => guard.condition.exprs ++ body.exprs
  | .doLoop _ body _ guard _ => body.exprs ++ guard.condition.exprs
  | .forLoop _ header body _ _ => header.exprs ++ body.exprs
  | .block _ body _ => Stmt.allExprs body
  | .call c _ => c.args.exprs
  | .assign _ _ value _ => [value]
  | .assignElement _ _ index _ _ value _ => [index, value]
  | .print _ _ item _ _ => item.exprs
  | .retValue _ _ value _ _ => [value]
  | .unknownCall _ _ | .skipped | .scan _ _ _ _ _ | .ret _ _ | .empty _ => []

def Stmt.allExprs : List Stmt → List Expr
  | [] => []
  | stmt :: stmts => stmt.exprs ++ Stmt.allExprs stmts

end

/-- The expressions of a program, but for those that are part of another. -/
def Program.exprs (program : Program) : List Expr :=
  program.functions.flatMap fun f => Stmt.allExprs f.body.stmts

/-- The names whose values a program uses. -/
def Program.readNames (program : Program) : List NameRef :=
  program.exprs.flatMap Expr.readNames

end Expressions

section Logs

/-- The actions of some expressions. -/
def Expr.logs (exprs : List Expr) : List Action :=
  exprs.flatMap Expr.log

@[simp]
theorem Expr.logs_nil : Expr.logs [] = [] := rfl

@[simp]
theorem Expr.logs_cons (e : Expr) (exprs : List Expr) :
    Expr.logs (e :: exprs) = e.log ++ Expr.logs exprs :=
  List.flatMap_cons

@[simp]
theorem Expr.logs_append (front back : List Expr) :
    Expr.logs (front ++ back) = Expr.logs front ++ Expr.logs back :=
  List.flatMap_append

theorem Args.log_of_exprs (function : String) (args : Args) :
    ∀ action ∈ Expr.logs args.exprs, action ∈ args.log function := by
  cases args with
  | nil => simp [exprs]
  | first expr => simp +contextual [exprs, log]
  | more init comma expr =>
      simp +contextual [exprs, log, or_imp, init.log_of_exprs function]

theorem Condition.log_of_exprs (label : Label) (sense : Sense) (condition : Condition) :
    ∀ action ∈ Expr.logs condition.exprs, action ∈ condition.log label sense := by
  cases condition <;> simp +contextual [exprs, log, or_imp]

theorem PrintItem.log_of_exprs (item : PrintItem) :
    ∀ action ∈ Expr.logs item.exprs, action ∈ item.log := by
  cases item <;> simp +contextual [exprs, log, printValueLog]

mutual

/-- The actions of a statement have those of its expressions among them. -/
theorem Stmt.log_of_exprs (returnType : Ty) : (stmt : Stmt) →
    ∀ action ∈ Expr.logs stmt.exprs, action ∈ stmt.log returnType
  | .ifThen _ _ body _ _ | .whileLoop _ _ body _ _ | .doLoop _ body _ _ _ => by
      simp +contextual [Stmt.exprs, Stmt.log, Guard.log, or_imp, Condition.log_of_exprs,
        body.log_of_exprs returnType]
  | .ifElse _ _ body _ alternative _ _ => by
      simp +contextual [Stmt.exprs, Stmt.log, Guard.log, or_imp, Condition.log_of_exprs,
        body.log_of_exprs returnType, alternative.log_of_exprs returnType]
  | .forLoop _ _ body _ _ => by
      simp +contextual [Stmt.exprs, Stmt.log, ForHeader.exprs, ForHeader.log, or_imp,
        Condition.log_of_exprs, body.log_of_exprs returnType]
  | .block _ body _ => by
      simp +contextual [Stmt.exprs, Stmt.log, Stmt.logs_of_exprs returnType body]
  | .call (.mk _ _ _ args _) _ => by
      simp +contextual [Stmt.exprs, Stmt.log, Call.args, Call.log, args.log_of_exprs]
  | .assign _ _ _ _ | .assignElement _ _ _ _ _ _ _ | .print _ _ _ _ _ | .retValue _ _ _ _ _ => by
      simp +contextual [Stmt.exprs, Stmt.log, or_imp, PrintItem.log_of_exprs]
  | .unknownCall _ _ | .skipped | .scan _ _ _ _ _ | .ret _ _ | .empty _ => by
      simp [Stmt.exprs]

theorem Stmt.logs_of_exprs (returnType : Ty) : (stmts : List Stmt) →
    ∀ action ∈ Expr.logs (Stmt.allExprs stmts), action ∈ Stmt.logs returnType stmts
  | [] => by
      simp [Stmt.allExprs]
  | stmt :: stmts => by
      simp +contextual [Stmt.allExprs, Stmt.logs, or_imp, stmt.log_of_exprs returnType,
        Stmt.logs_of_exprs returnType stmts]

end

/-- The actions of each expression are among those of the statements. -/
theorem Stmt.logs_of_mem_exprs (returnType : Ty) {stmts : List Stmt} {e : Expr}
    (h : e ∈ Stmt.allExprs stmts) : ∀ action ∈ e.log, action ∈ Stmt.logs returnType stmts :=
  fun action haction =>
    Stmt.logs_of_exprs returnType stmts action (List.mem_flatMap.2 ⟨e, h, haction⟩)

theorem Program.log_of_body {program : Program} {f : Function} (hf : f ∈ program.functions) :
    ∀ action ∈ Stmt.logs f.head.ty f.body.stmts, action ∈ program.log := by
  intro action haction
  rw [Program.mem_functions] at hf
  refine List.mem_append_left _ (List.mem_flatMap.2 ⟨_, hf, ?_⟩)
  rw [TopLevel.log, f.log_eq]
  simp [haction]

theorem Program.log_of_exprs {program : Program} {e : Expr} (h : e ∈ program.exprs) :
    ∀ action ∈ e.log, action ∈ program.log := by
  obtain ⟨f, hf, he⟩ := List.mem_flatMap.1 h
  exact fun action haction =>
    program.log_of_body hf action (Stmt.logs_of_mem_exprs f.head.ty he action haction)

end Logs

section Trees

open OnePass.Tree (gather gather_append gather_node_cons)

variable {α : Type} {f : Tree → Option α}

theorem Args.gather_children (hf : Tree.Sparse f) (args : Args) :
    gather f args.children = gather f (args.exprs.map Expr.tree) := by
  cases args with
  | nil => rfl
  | first expr => rfl
  | more init comma expr =>
      rw [children, exprs, List.map_append, gather_append, gather_append, init.gather_children hf,
        hf.token_cons]
      rfl

theorem Condition.gather_cons (hf : Tree.Sparse f) (condition : Condition) (forest : List Tree) :
    gather f (condition.tree :: forest) =
      gather f (condition.exprs.map Expr.tree) ++ gather f forest := by
  cases condition <;>
    simp [tree, exprs, Expr.tree, hf.inner_cons, hf.token_cons, gather_node_cons]

theorem Guard.gather_children (hf : Tree.Sparse f) (guard : Guard) :
    gather f guard.children = gather f (guard.condition.exprs.map Expr.tree) := by
  simp [children, guard.condition.gather_cons hf, hf.token_cons, hf.optional]

theorem UnsignedLit.gather_cons (hf : Tree.Sparse f) (lit : UnsignedLit) (forest : List Tree) :
    gather f (lit.tree :: forest) = gather f forest := by
  simp [tree, hf.inner_cons, hf.token_cons]

theorem IntLit.gather_cons (hf : Tree.Sparse f) (lit : IntLit) (forest : List Tree) :
    gather f (lit.tree :: forest) = gather f forest := by
  simp [tree, hf.inner_cons, hf.optional, UnsignedLit.gather_cons hf]

theorem ForHeader.gather_children (hf : Tree.Sparse f) (header : ForHeader) :
    gather f header.children = gather f (header.exprs.map Expr.tree) := by
  simp [children, exprs, Expr.tree, header.condition.gather_cons hf, header.amount.gather_cons hf,
    hf.token_cons, hf.inner_cons, hf.optional, gather_node_cons]

theorem PrintItem.gather_children (hf : Tree.Sparse f) (item : PrintItem) :
    gather f item.children = gather f (item.exprs.map Expr.tree) := by
  cases item <;> simp [children, exprs, hf.token_cons, hf.inner_cons]

theorem CommaList.gather_children {β : Type} {itemChildren : β → List Tree} (hf : Tree.Sparse f)
    (hitem : ∀ item, gather f (itemChildren item) = []) (items : CommaList β) :
    gather f (items.children itemChildren) = [] := by
  induction items with
  | one item => exact hitem item
  | cons item comma rest ih =>
      rw [CommaList.children, gather_append, hf.token_cons, hitem, ih]
      rfl

mutual

/-- What is found at the nodes of a statement is found at those of its expressions. -/
theorem Stmt.gather_children (hf : Tree.Sparse f) : (stmt : Stmt) →
    gather f stmt.children = gather f (stmt.exprs.map Expr.tree)
  | .ifThen _ guard body _ _ | .whileLoop _ guard body _ _ | .doLoop _ body _ guard _ => by
      simp [Stmt.children, Stmt.exprs, hf.token_cons, hf.inner_cons, hf.optional,
        guard.gather_children hf, body.gather_children hf]
  | .ifElse keyword guard body elseKeyword alternative _ _ => by
      simp [Stmt.children, Stmt.exprs, hf.token_cons, hf.inner_cons, guard.gather_children hf,
        body.gather_children hf, alternative.gather_children hf]
  | .forLoop keyword header body _ _ => by
      simp [Stmt.children, Stmt.exprs, hf.token_cons, hf.inner_cons, header.gather_children hf,
        body.gather_children hf]
  | .block lbrace body rbrace => by
      simp [Stmt.children, Stmt.exprs, hf.token_cons, hf.inner_cons, Stmt.gather_forest hf body]
  | .call (.mk name lparen callee args rparen) semicolon => by
      have hrule : (Call.mk name lparen callee args rparen).statementRule ≠ .parameters := by
        unfold Call.statementRule
        split <;> decide
      simp [Stmt.children, Stmt.exprs, Call.children, Call.args, hf.token_cons, hf.inner_cons,
        hf.optional, hrule, args.gather_children hf]
  | .assign _ _ _ _ | .assignElement _ _ _ _ _ _ _ | .retValue _ _ _ _ _ => by
      simp [Stmt.children, Stmt.exprs, Expr.tree, hf.token_cons, hf.inner_cons, hf.optional,
        gather_node_cons]
  | .print _ _ item _ _ => by
      simp [Stmt.children, Stmt.exprs, hf.token_cons, hf.inner_cons, hf.optional,
        item.gather_children hf]
  | .scan _ _ targets _ _ => by
      have htargets := targets.gather_children hf fun ref => hf.token_cons ref.token []
      simp [Stmt.children, Stmt.exprs, hf.token_cons, hf.inner_cons, hf.optional, htargets]
  | .unknownCall _ _ | .skipped | .ret _ _ | .empty _ => by
      simp [Stmt.children, Stmt.exprs, hf.token_cons, hf.inner_cons, hf.optional]

theorem Stmt.gather_forest (hf : Tree.Sparse f) : (stmts : List Stmt) →
    gather f (Stmt.forest stmts) = gather f ((Stmt.allExprs stmts).map Expr.tree)
  | [] => by
      rw [Stmt.forest, Stmt.allExprs]
      rfl
  | stmt :: stmts => by
      simp [Stmt.forest, Stmt.allExprs, hf.inner_cons, stmt.gather_children hf,
        Stmt.gather_forest hf stmts]

end

theorem ConstDecl.gather_children (hf : Tree.Sparse f) (decl : ConstDecl) :
    gather f decl.children = [] := by
  have hitem : ∀ item : ConstItem, gather f item.children = [] := by
    intro item
    cases hinit : item.init <;>
      simp [ConstItem.children, ConstInit.tree, hinit, hf.token_cons, IntLit.gather_cons hf]
  simp [children, hf.token_cons, hf.inner_cons, hf.optional, decl.items.gather_children hf hitem]

theorem VarDecl.gather_children (hf : Tree.Sparse f) (decl : VarDecl) :
    gather f decl.children = [] := by
  have hitem : ∀ item : VarItem, gather f item.children = [] := by
    intro item
    cases hsize : item.size <;>
      simp [VarItem.children, ArraySize.children, hsize, hf.token_cons, hf.optional,
        UnsignedLit.gather_cons hf]
  simp [children, hf.token_cons, hf.inner_cons, hf.optional, decl.items.gather_children hf hitem]

theorem Params.gather_children (hf : Tree.Sparse f) (params : Params) :
    gather f params.children = [] := by
  induction params with
  | nil => rfl
  | last param => simp [children, Param.children, hf.token_cons]
  | cons param comma rest ih => simp [children, Param.children, hf.token_cons, ih]

theorem Body.gather_cons (hf : Tree.Sparse f) (body : Body) (forest : List Tree) :
    gather f (body.tree :: forest) =
      gather f ((Stmt.allExprs body.stmts).map Expr.tree) ++ gather f forest := by
  have hrun : ∀ (rule : Rule) (children : List Tree), rule ≠ .parameters →
      gather f (run rule children) = gather f children := by
    intro rule children hrule
    unfold run
    cases children <;> simp [hf.inner_cons hrule]
  have hconsts := Tree.gather_flatMap_eq_nil (ConstDecl.gather_children hf) body.consts
  have hvars := Tree.gather_flatMap_eq_nil (VarDecl.gather_children hf) body.vars
  simp [tree, hf.inner_cons, hrun, hconsts, hvars, Stmt.gather_forest hf]

/-- What is found at the nodes of a function is found at those of its head and of its
expressions. -/
theorem Function.gather_tree (hf : Tree.Sparse f) (fn : Function) :
    gather f [fn.tree] = gather f fn.head.children ++
      gather f ((Stmt.allExprs fn.body.stmts).map Expr.tree) := by
  have hrule : fn.head.rule ≠ .parameters := by cases fn.head <;> exact Rule.noConfusion
  simp [tree, hf.inner_cons hrule, hf.token_cons, fn.body.gather_cons hf]

theorem Program.gather_tree (hf : Tree.Sparse f) (program : Program) :
    gather f [program.tree] = program.functions.flatMap fun fn => gather f [fn.tree] := by
  have hconsts := Tree.gather_flatMap_eq_nil (ConstDecl.gather_children hf)
  have hvars := Tree.gather_flatMap_eq_nil (VarDecl.gather_children hf)
  rw [tree, functions, hf.inner_cons (by decide), Tree.gather_nil, List.append_nil,
    List.map_eq_flatMap, Tree.gather_flatMap]
  induction program.items with
  | nil => rfl
  | cons item items ih =>
      rw [List.flatMap_cons, ih]
      cases item with
      | consts decls =>
          rw [List.filterMap_cons_none rfl]
          simp [TopLevel.tree, hf.inner_cons, hconsts decls]
      | vars decls =>
          rw [List.filterMap_cons_none rfl]
          simp [TopLevel.tree, hf.inner_cons, hvars decls]
      | function fn => simp [TopLevel.tree, TopLevel.function?]

theorem Expr.mem_annotations_trees {exprs : List Expr} {operand : Operand} :
    operand ∈ annotations (exprs.map Expr.tree) ↔
      ∃ e ∈ exprs, operand = e.value ∨ operand ∈ annotations e.children := by
  induction exprs with
  | nil => simp
  | cons e exprs ih => simp [Expr.tree, ih, or_assoc]

/-- The nodes of a program carry what the nodes of its expressions carry. -/
theorem Program.mem_annotations {program : Program} {operand : Operand} :
    operand ∈ annotations [program.tree] ↔
      ∃ e ∈ program.exprs, operand = e.value ∨ operand ∈ annotations e.children := by
  have hparams : ∀ params : Params, annotations params.children = [] :=
    Params.gather_children Tree.sparse_operand?
  have hhead : ∀ head : FunctionHead, annotations head.children = [] := by
    intro head
    cases head <;> simp [FunctionHead.children, hparams]
  have hfunction : ∀ fn : Function, annotations [fn.tree] =
      annotations ((Stmt.allExprs fn.body.stmts).map Expr.tree) := by
    intro fn
    refine (fn.gather_tree Tree.sparse_operand?).trans ?_
    rw [← annotations, hhead, List.nil_append]
    rfl
  have htree : annotations [program.tree] = _ := program.gather_tree Tree.sparse_operand?
  rw [htree, List.mem_flatMap]
  constructor
  · rintro ⟨fn, hfn, hmem⟩
    change operand ∈ annotations [fn.tree] at hmem
    rw [hfunction, Expr.mem_annotations_trees] at hmem
    obtain ⟨e, he, hoperand⟩ := hmem
    exact ⟨e, List.mem_flatMap.2 ⟨fn, hfn, he⟩, hoperand⟩
  · rintro ⟨e, he, hoperand⟩
    obtain ⟨fn, hfn, he⟩ := List.mem_flatMap.1 he
    refine ⟨fn, hfn, ?_⟩
    change operand ∈ annotations [fn.tree]
    rw [hfunction, Expr.mem_annotations_trees]
    exact ⟨e, he, hoperand⟩

end Trees

end OnePass
