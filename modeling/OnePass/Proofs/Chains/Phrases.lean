import OnePass.Proofs.Chains.Expr
import OnePass.Proofs.Lossless

/-!
Chains, operands and registers agree. The registers of every phrase are accounted for by its trees,
so those of a whole program are accounted for by the tree of the program.
-/

namespace OnePass

section Statements

theorem Condition.covers (label : Label) (sense : Sense) :
    (c : Condition) → Covers (c.log label sense) [c.tree]
  | .test value => by
      have htest : (Instr.test value.value label sense).dst? = none := by cases sense <;> rfl
      refine .inner (value.accumulates.covers.append_aside ?_) rfl
      simp [Action.writesNothing, htest]
  | .compare lhs relation opToken rhs => by
      refine .inner (lhs.accumulates.covers.append ?_) rfl
      refine .aside_append (all_checkConditionLog lhs) (.cons_aside rfl (.cons_aside rfl ?_))
      refine .leaf_cons opToken (rhs.accumulates.covers.append_aside ?_)
      simp [Action.writesNothing, Instr.compare, Instr.dst?]

theorem Guard.covers (label : Label) (sense : Sense) (guard : Guard) :
    Covers (guard.log label sense) guard.children := by
  refine .append_optional (.leaf_cons guard.lparen (.cons_aside rfl ?_)) guard.rparen
  exact (guard.condition.covers label sense).append_aside (all_recoverLog _ _ _)

theorem covers_printValueLog (value : Expr) : Covers (printValueLog value) [value.tree] := by
  have hprint : value.printInstr.dst? = none := by
    unfold Expr.printInstr
    split <;> rfl
  have hend : Instr.printEnd.dst? = none := rfl
  refine value.accumulates.covers.append_aside ?_
  simp [Action.writesNothing, hprint, hend]

theorem PrintItem.covers (item : PrintItem) : Covers item.log item.children := by
  have htext : ∀ literal : Token, Covers [] [.inner .stringLit [.token literal]] := fun literal =>
    .inner (.leaf literal) rfl
  cases item with
  | text literal index => exact (htext literal).append_aside rfl
  | textValue literal index comma v =>
      refine (htext literal).append (.leaf_cons comma (.cons_aside rfl (.cons_aside rfl ?_)))
      exact .cons_aside rfl (.cons_aside rfl (covers_printValueLog v))
  | value v => exact covers_printValueLog v

theorem CommaList.covers_children {α : Type} {itemChildren : α → List Tree}
    (hitem : ∀ item, Covers [] (itemChildren item)) (items : CommaList α) :
    Covers [] (items.children itemChildren) := by
  induction items with
  | one item => exact hitem item
  | cons item comma rest ih => exact (hitem item).append (.leaf_cons comma ih)

theorem NameRef.all_scanLog_writesNothing (ref : NameRef) :
    ref.scanLog.all Action.writesNothing = true := by
  unfold NameRef.scanLog NameRef.log
  cases ref.symbol <;> rfl

theorem ForHeader.covers (header : ForHeader) (loopLabel endLabel : Label) :
    Covers (header.log loopLabel endLabel) header.children := by
  have hstep : Covers [] (Tree.optional header.conditionEnd ++ (.token header.target.token ::
      .token header.stepAssign :: .token header.source.token :: .token header.opToken ::
        .inner .step [header.amount.tree] :: Tree.optional header.rparen)) := by
    refine .optional_append _ (.leaf_cons _ (.leaf_cons _ (.leaf_cons _ (.leaf_cons _ ?_))))
    exact .cons_optional (.inner header.amount.covers_tree rfl) header.rparen
  have hchildren : header.children = .token header.lparen :: .token header.init.token ::
      .token header.initAssign :: ([header.start.tree] ++ (Tree.optional header.initEnd ++
        ([header.condition.tree] ++ (Tree.optional header.conditionEnd ++
          (.token header.target.token :: .token header.stepAssign :: .token header.source.token ::
            .token header.opToken :: .inner .step [header.amount.tree] ::
              Tree.optional header.rparen))))) := by
    simp [ForHeader.children]
  rw [hchildren, ForHeader.log]
  refine .leaf_cons _ (.leaf_cons _ (.leaf_cons _ (.cons_aside rfl ?_)))
  refine .aside_append (all_targetLog header.init) (.cons_aside rfl ?_)
  refine header.start.accumulates.covers.append (.cons_aside rfl (.cons_aside rfl ?_))
  refine .cons_aside rfl (.aside_append (all_semicolonLog _) (.cons_aside rfl ?_))
  refine .optional_append _ ((header.condition.covers endLabel .onFalse).append ?_)
  refine hstep.append_aside ?_
  simp [Action.writesNothing]

mutual

theorem Stmt.covers (returnType : Ty) : (stmt : Stmt) → Covers (stmt.log returnType) stmt.children
  | .ifThen keyword guard body elseLabel endLabel => by
      unfold Stmt.log Stmt.children
      refine .inner (.cons_aside rfl (.cons_aside rfl (.leaf_cons keyword ?_))) rfl
      refine (guard.covers elseLabel .onFalse).append ?_
      exact (Covers.inner (body.covers returnType) rfl).append_aside rfl
  | .ifElse keyword guard body elseKeyword alternative elseLabel endLabel => by
      unfold Stmt.log Stmt.children
      refine .inner (.cons_aside rfl (.cons_aside rfl (.leaf_cons keyword ?_))) rfl
      refine (guard.covers elseLabel .onFalse).append ?_
      refine (Covers.inner (body.covers returnType) rfl).append (.cons_aside rfl (.cons_aside rfl ?_))
      refine .cons_aside rfl (.cons_aside rfl (.leaf_cons elseKeyword ?_))
      exact (Covers.inner (alternative.covers returnType) rfl).append_aside rfl
  | .whileLoop keyword guard body loopLabel endLabel => by
      unfold Stmt.log Stmt.children
      refine .inner (.cons_aside rfl (.cons_aside rfl (.cons_aside rfl ?_))) rfl
      refine .cons_aside rfl (.cons_aside rfl (.leaf_cons keyword ?_))
      change Covers _ ([.token guard.lparen, guard.condition.tree] ++ Tree.optional guard.rparen ++ _)
      rw [List.append_assoc]
      refine .leaf_cons guard.lparen ((guard.condition.covers endLabel .onFalse).append ?_)
      refine .aside_append (all_recoverLog _ _ _) (.optional_append guard.rparen ?_)
      exact (Covers.inner (body.covers returnType) rfl).append_aside rfl
  | .doLoop keyword body whileKeyword guard loopLabel => by
      unfold Stmt.log Stmt.children
      rw [List.append_assoc]
      refine .inner (.cons_aside rfl (.cons_aside rfl (.cons_aside rfl ?_))) rfl
      refine .leaf_cons keyword ((Covers.inner (body.covers returnType) rfl).append ?_)
      refine .aside_append (all_recoverLog _ _ _) (.optional_append whileKeyword ?_)
      exact guard.covers loopLabel .onTrue
  | .forLoop keyword header body loopLabel endLabel => by
      unfold Stmt.log Stmt.children
      refine .inner (.cons_aside rfl (.leaf_cons keyword ?_)) rfl
      refine (header.covers loopLabel endLabel).append ?_
      exact (Covers.inner (body.covers returnType) rfl).append_aside rfl
  | .block lbrace body rbrace => by
      unfold Stmt.log Stmt.children
      refine .cons_aside rfl (.leaf_cons lbrace ?_)
      exact (Covers.inner (Stmt.covers_logs returnType body) rfl).append
        (.leaf_cons rbrace (.aside rfl))
  | .call c semicolon => by
      unfold Stmt.log Stmt.children
      have hrule : c.statementRule.hasValue = false := by
        unfold Call.statementRule
        split <;> rfl
      refine .cons_optional (.inner (.cons_aside rfl ?_) hrule) semicolon
      exact c.covers.append_aside (all_semicolonLog _)
  | .unknownCall name semicolon => by
      unfold Stmt.log Stmt.children
      refine .cons_optional (.leaf_cons name (.aside ?_)) semicolon
      simp [unknownCallLog, Action.writesNothing]
  | .skipped => by
      unfold Stmt.log Stmt.children
      exact .aside rfl
  | .assign target eq value semicolon => by
      unfold Stmt.log Stmt.children
      refine .cons_optional (.inner (.leaf_cons target.token (.leaf_cons eq ?_)) rfl) semicolon
      refine .aside_append (all_targetLog target) (.cons_aside rfl ?_)
      exact value.accumulates.covers.append_aside (by simp [Action.writesNothing, Instr.dst?])
  | .assignElement target lbracket index rbracket eq value semicolon => by
      unfold Stmt.log Stmt.children
      rw [List.append_assoc]
      refine .cons_optional (.inner (.leaf_cons target.token (.leaf_cons lbracket ?_)) rfl) semicolon
      refine .aside_append (all_targetLog target) (.cons_aside rfl ?_)
      refine index.accumulates.covers.append (.aside_append (all_checkIndexLog index) ?_)
      refine .aside_append (all_recoverLog _ _ _) (.optional_append rbracket ?_)
      refine .cons_aside rfl (.leaf_cons eq ?_)
      exact value.accumulates.covers.append_aside (by simp [Action.writesNothing, Instr.dst?])
  | .scan keyword lparen targets rparen semicolon => by
      unfold Stmt.log Stmt.children
      have htargets := targets.covers_children fun ref => .leaf ref.token
      have hscan := targets.all_log NameRef.all_scanLog_writesNothing
      rw [List.append_assoc]
      refine .cons_optional (.inner (.leaf_cons keyword (.leaf_cons lparen ?_)) rfl) semicolon
      refine (htargets.append_optional rparen).append_aside ?_
      simp [hscan, Action.writesNothing]
  | .print keyword lparen item rparen semicolon => by
      unfold Stmt.log Stmt.children
      have hitem := item.covers.append_optional rparen
      rw [List.append_assoc]
      refine .cons_optional (.inner (.leaf_cons keyword (.leaf_cons lparen ?_)) rfl) semicolon
      exact .cons_aside rfl (.cons_aside rfl (hitem.append_aside (by simp)))
  | .ret keyword semicolon => by
      unfold Stmt.log Stmt.children
      refine .cons_optional (.inner (.leaf_cons keyword (.aside ?_)) rfl) semicolon
      simp [Action.writesNothing, Instr.dst?]
  | .retValue keyword lparen value rparen semicolon => by
      unfold Stmt.log Stmt.children
      have hvalue : Covers (value.log ++ (.emit (.ret value.value) ::
          (recoverLog .rparen .missingParen rparen ++ (checkReturnLog returnType value.ty ++
            semicolonLog semicolon)))) [value.tree] :=
        value.accumulates.covers.append_aside (by simp [Action.writesNothing, Instr.dst?])
      refine .cons_optional (.inner (.leaf_cons keyword (.leaf_cons lparen ?_)) rfl) semicolon
      exact .cons_aside rfl (.cons_aside rfl (hvalue.append_optional rparen))
  | .empty semicolon => by
      unfold Stmt.log Stmt.children
      exact .leaf_cons semicolon (.aside rfl)

theorem Stmt.covers_logs (returnType : Ty) :
    (stmts : List Stmt) → Covers (Stmt.logs returnType stmts) (Stmt.forest stmts)
  | [] => by
      unfold Stmt.logs Stmt.forest
      exact .aside rfl
  | stmt :: stmts => by
      unfold Stmt.logs Stmt.forest
      exact (Covers.inner (stmt.covers returnType) rfl).append (Stmt.covers_logs returnType stmts)

end

end Statements

section Declarations

theorem ConstInit.covers_tree (init : ConstInit) : Covers [] [init.tree] := by
  cases init with
  | char literal | other literal => exact .leaf literal
  | int literal => exact literal.covers_tree

theorem ConstDecl.covers (scope : Scope) (decl : ConstDecl) :
    Covers (decl.log scope) decl.children := by
  have hitem : ∀ item : ConstItem, Covers [] item.children := fun item =>
    .leaf_cons item.name (.leaf_cons item.assign item.init.covers_tree)
  have hdef : Covers [] [.inner .constDef
      (.token decl.type.token :: decl.items.children ConstItem.children)] :=
    .inner (.leaf_cons decl.type.token (decl.items.covers_children hitem)) rfl
  have hchildren : Covers [] decl.children :=
    .append_optional (.leaf_cons decl.keyword hdef) decl.semicolon
  exact hchildren.append_aside (decl.all_log scope)

theorem VarItem.covers_children (item : VarItem) : Covers [] item.children := by
  refine .leaf_cons item.name ?_
  cases item.size with
  | none => exact .aside rfl
  | some size =>
      exact .append_optional (.leaf_cons size.lbracket size.length.covers_tree) size.rbracket

theorem VarDecl.covers (scope : Scope) (decl : VarDecl) :
    Covers (decl.log scope) decl.children := by
  have hchildren : Covers [] decl.children :=
    .cons_optional (.inner (.leaf_cons decl.type.token
      (decl.items.covers_children VarItem.covers_children)) rfl) decl.semicolon
  exact hchildren.append_aside
    (decl.all_log_of (fun _ => rfl) (fun _ _ => rfl) fun _ _ _ => rfl)

theorem Params.covers_children (params : Params) : Covers [] params.children := by
  induction params with
  | nil => exact .aside rfl
  | last param => exact .leaf_cons param.type.token (.leaf param.name)
  | cons param comma rest ih =>
      exact .leaf_cons param.type.token (.leaf_cons param.name (.leaf_cons comma ih))

theorem FunctionHead.covers_children (head : FunctionHead) : Covers [] head.children := by
  cases head with
  | value type name lparen params rparen =>
      have hname : Covers [] [.inner .functionHead [.token type.token, .token name]] :=
        .inner (.leaf_cons type.token (.leaf name)) rfl
      exact .append_optional (hname.append (.leaf_cons lparen
        (.inner params.covers_children rfl))) rparen
  | void keyword name lparen params rparen =>
      exact .append_optional (.leaf_cons keyword (.leaf_cons name (.leaf_cons lparen
        (.inner params.covers_children rfl)))) rparen
  | main keyword name lparen rparen =>
      exact .append_optional (.leaf_cons keyword (.leaf_cons name (.leaf lparen))) rparen

theorem Covers.run {log : List Action} {children : List Tree} (h : Covers log children)
    {rule : Rule} (hrule : rule.hasValue = false) : Covers log (Body.run rule children) := by
  unfold Body.run
  cases children with
  | nil => exact h
  | cons tree forest => exact h.inner hrule

theorem Body.covers (returnType : Ty) (line : UInt64) (body : Body) :
    Covers (body.log returnType line) [body.tree] := by
  have hconsts : Covers (body.consts.flatMap (ConstDecl.log .local))
      (run .constDecls (body.consts.flatMap ConstDecl.children)) :=
    (Covers.flatMap (ConstDecl.covers .local) body.consts).run rfl
  have hvars : Covers (body.vars.flatMap (VarDecl.log .local))
      (run .varDecls (body.vars.flatMap VarDecl.children)) :=
    (Covers.flatMap (VarDecl.covers .local) body.vars).run rfl
  have hstmts : Covers (Stmt.logs returnType body.stmts)
      [.inner .statements (Stmt.forest body.stmts)] :=
    .inner (Stmt.covers_logs returnType body.stmts) rfl
  unfold Body.log Body.tree
  rw [List.append_assoc]
  exact .inner (hconsts.append (hvars.append (hstmts.append_aside (all_when _ _ rfl)))) rfl

theorem Function.covers (f : Function) : Covers f.log [f.tree] := by
  have hrule : f.head.rule.hasValue = false := by cases f.head <;> rfl
  have hannounce : f.head.announceLog.all Action.writesNothing = true := by
    simp [FunctionHead.announceLog, Action.writesNothing, Instr.dst?]
  have hret := all_when (f.head.ty = .void) (.emit .retVoid) (p := Action.writesNothing) rfl
  refine .inner ?_ hrule
  unfold Function.log
  refine (f.head.covers_children.append_aside f.head.all_log).append ?_
  refine .aside_append hannounce (.cons_aside rfl (.leaf_cons f.lbrace ?_))
  refine (f.body.covers f.head.ty f.rbrace.line).append (.leaf_cons f.rbrace (.aside ?_))
  simp [hret, Action.writesNothing, Instr.dst?]

theorem TopLevel.covers (item : TopLevel) : Covers item.log [item.tree] := by
  cases item with
  | consts decls => exact .inner (.flatMap (ConstDecl.covers .global) decls) rfl
  | vars decls => exact .inner (.flatMap (VarDecl.covers .global) decls) rfl
  | function f => exact f.covers

theorem Program.covers (program : Program) : Covers program.log [program.tree] := by
  refine .inner ?_ rfl
  rw [Program.log, List.map_eq_flatMap]
  exact (Covers.flatMap TopLevel.covers program.items).append_aside rfl

end Declarations

section Compilations

variable {tokens : List Token} {c : Compilation} {code : List Instr} {nodes : List Tree}

/-- The operands of the nodes with operators are the registers of these nodes. -/
theorem operands_of_chained (h : ∀ node ∈ nodes, node.Chained code) :
    (nodes.filter Tree.isChain).map Tree.operand? =
      (nodes.filterMap Tree.accumulator?).map fun r => some (.reg r) := by
  induction nodes with
  | nil => rfl
  | cons node nodes ih =>
      rw [List.forall_mem_cons] at h
      by_cases hchain : node.isChain = true
      · obtain ⟨r, hoperand, haccumulator⟩ := h.1.exists_reg hchain
        rw [List.filter_cons_of_pos hchain, List.filterMap_cons_some haccumulator, List.map_cons,
          List.map_cons, hoperand, ih h.2]
      · have hnone : node.accumulator? = none := by simp [Tree.accumulator?, hchain]
        rw [List.filter_cons_of_neg hchain, List.filterMap_cons_none hnone, ih h.2]

/-- What the tree, the code and the register count of a compilation say of each other. -/
structure Compilation.ChainsAgree (c : Compilation) : Prop where
  annotated : ∀ node ∈ c.tree.preorder, node.operand?.isSome = true ↔
    node.rule? = some .expression ∨ node.rule? = some .term ∨ node.rule? = some .factor
  chained : ∀ node ∈ c.tree.preorder, node.Chained c.code
  distinct : ((c.tree.preorder.filter Tree.isChain).map Tree.operand?).Nodup
  count : c.regCount = c.tree.preorder.countP Tree.isChain +
    c.code.countP fun instr => instr.ownRegister?.isSome

theorem accounts_of_compile (h : compile tokens = .ok c) :
    Accounts c.program.log c.tree.preorder ∧ c.code = c.program.log.flatMap Action.code ∧
      c.regCount = (Action.regs c.program.log).length ∧ (Action.regs c.program.log).Nodup := by
  obtain ⟨t, hplays, _, hc⟩ := plays_of_compile h
  have haccounts := c.program.covers _ _ hplays
  rw [List.flatMap_singleton] at haccounts
  refine ⟨haccounts, ?_, ?_, hplays.nodup_regs⟩
  · rw [hc]
    simpa [State.start] using hplays.code
  · rw [hc]
    simpa [State.start] using hplays.regs.2

theorem compile_chainsAgree (h : compile tokens = .ok c) : c.ChainsAgree := by
  obtain ⟨haccounts, hcode, hcount, hnodup⟩ := accounts_of_compile h
  have hregs := haccounts.regs
  rw [← hcode] at hregs
  have hchained := haccounts.chained
  rw [← hcode] at hchained
  have hoperands := operands_of_chained hchained
  refine ⟨fun node hnode => ?_, hchained, ?_, ?_⟩
  · rw [haccounts.annotated node hnode]
    cases node with
    | token t => simp [Tree.rule?]
    | node rule operand children => cases rule <;> simp [Tree.rule?, Rule.hasValue]
  · rw [hoperands]
    refine List.Nodup.map (fun r other hsame => ?_) (List.nodup_append.1
      (hregs.nodup_iff.1 hnodup)).1
    simpa using hsame
  · have hchains : c.tree.preorder.countP Tree.isChain =
        (c.tree.preorder.filterMap Tree.accumulator?).length := by
      have hlength := congrArg List.length hoperands
      rwa [List.length_map, List.length_map, ← List.countP_eq_length_filter] at hlength
    rw [hcount, hregs.length_eq, List.length_append, ← hchains, List.length_filterMap_eq_countP]

end Compilations

/-- `int x; void main() { x = -(1 + 2) * x - 3 + x / 2 / 4; }` -/
def chainsTokens : List Token :=
  scan 1 ["int x ; void main ( ) \x7b x = - ( 1 + 2 ) * x - 3 + x / 2 / 4 ; \x7d"]

theorem chainsAgree_chainsTokens : ∃ c, compile chainsTokens = .ok c ∧ c.regCount = 5 ∧
    c.code.drop 2 = [.arith .add ⟨0⟩ (.named "1") (.named "2"),
      .arith .mul ⟨1⟩ (.reg ⟨0⟩) (.named "x"), .neg ⟨2⟩ (.reg ⟨1⟩),
      .arith .sub ⟨3⟩ (.reg ⟨2⟩) (.named "3"), .arith .div ⟨4⟩ (.named "x") (.named "2"),
      .arith .div ⟨4⟩ (.reg ⟨4⟩) (.named "4"), .arith .add ⟨3⟩ (.reg ⟨3⟩) (.reg ⟨4⟩),
      .assign "x" (.reg ⟨3⟩), .retVoid, .functionEnd] ∧
    c.ChainsAgree := by
  have hc := eq_ok_get (compile chainsTokens) (by decide +kernel)
  exact ⟨_, hc, by decide +kernel, by decide +kernel, compile_chainsAgree hc⟩

end OnePass
