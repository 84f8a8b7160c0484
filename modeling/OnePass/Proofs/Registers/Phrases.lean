import OnePass.Proofs.Registers.Ledger

/-!
Every phrase keeps its registers in order. An expression leaves the register of its value held
and nothing else. Statements and declarations leave none.
-/

namespace OnePass

theorem Operand.reverse_regs (operand : Operand) : operand.regs.reverse = operand.regs := by
  cases operand <;> rfl

/-- What an instruction with two operands reads, the last first. -/
theorem Operand.reverse_regs_append (lhs rhs : Operand) :
    (lhs.regs ++ rhs.regs).reverse = rhs.regs ++ lhs.regs := by
  rw [List.reverse_append, reverse_regs, reverse_regs]

/-- A phrase without a register of its own can be followed by anything. -/
theorem Balanced.idle_append {front back : List Action} {taken given : List Reg}
    (hidle : front.all Action.idle = true) (h : Balanced back taken given) :
    Balanced (front ++ back) taken given :=
  (of_idle hidle).append h

theorem balanced_negateLog (value result : Operand) :
    Balanced (negateLog value result) value.regs result.regs := by
  cases result with
  | reg dst => exact .fresh value.reverse_regs rfl rfl
  | named text =>
      intro s t held hplays
      obtain ⟨u, ⟨⟨n, hvalue, _⟩, rfl⟩, _, hnote, rfl⟩ := hplays
      cases hnote
      -- what is negated on the spot is a numeral, so no register is involved
      cases value with
      | reg r => cases hvalue
      | named _ => exact fun _ => rfl

theorem balanced_combineLog (accumulator : Option Reg) (op : ArithOp) (dst : Reg)
    (lhs rhs : Operand) (hlhs : ∀ r, accumulator = some r → lhs = .reg r) :
    Balanced (combineLog accumulator op dst lhs rhs) (rhs.regs ++ lhs.regs) [dst] := by
  cases accumulator with
  | none => exact .fresh (lhs.reverse_regs_append rhs) rfl rfl
  | some r =>
      obtain rfl := hlhs r rfl
      intro s t held hplays hvalid
      obtain ⟨u, ⟨rfl, rfl⟩, hplays⟩ := hplays
      have hread : dst ∈ (Instr.arith op dst (.reg dst) rhs).reads :=
        List.mem_append_left _ (List.mem_singleton.2 rfl)
      have hreads : (Instr.arith op dst (.reg dst) rhs).reads.reverse =
          rhs.regs ++ (Operand.reg dst).regs := Operand.reverse_regs_append (.reg dst) rhs
      exact Balanced.again hreads rfl rfl hread s t held hplays hvalid

mutual

theorem Expr.balanced : (e : Expr) → Balanced e.log [] e.value.regs
  | .term t => by
      unfold Expr.log
      exact .cons_idle rfl t.balanced
  | .positive sign t => by
      unfold Expr.log
      exact .cons_idle rfl t.balanced
  | .negative sign t value => by
      unfold Expr.log
      exact .cons_idle rfl (t.balanced.append (balanced_negateLog t.value value))
  | .chain lhs op opToken rhs dst => by
      unfold Expr.log
      refine lhs.balanced.append (.cons_idle rfl (.cons_idle rfl ?_))
      exact (rhs.balanced.frame lhs.value.regs).append
        (balanced_combineLog _ op dst _ _ fun _ => Expr.value_of_accumulator?)

theorem Term.balanced : (e : Term) → Balanced e.log [] e.value.regs
  | .factor f => by
      unfold Term.log
      exact f.balanced
  | .chain lhs op opToken rhs dst => by
      unfold Term.log
      refine lhs.balanced.append (.cons_idle rfl (.cons_idle rfl ?_))
      exact (rhs.balanced.frame lhs.value.regs).append
        (balanced_combineLog _ op dst _ _ fun _ => Term.value_of_accumulator?)

theorem Factor.balanced : (f : Factor) → Balanced f.log [] f.value.regs
  | .name ref => by
      unfold Factor.log
      exact .of_idle (all_readLog ref)
  | .element ref lbracket index dst rbracket => by
      unfold Factor.log
      have hload : Balanced [.reg dst, .emit (.loadElement dst ref.token.value index.value)]
          index.value.regs [dst] := .fresh index.value.reverse_regs rfl rfl
      refine .idle_append (all_readLog ref) (.cons_idle rfl (index.balanced.append ?_))
      exact .idle_append (all_checkIndexLog index)
        (hload.append (.of_idle (all_recoverLog _ _ _)))
  | .call c dst => by
      unfold Factor.log
      exact .cons_idle rfl (c.balanced.append (.fresh rfl rfl rfl))
  | .unknownCall fn => by
      unfold Factor.log
      exact .of_idle rfl
  | .paren lparen inner rparen => by
      unfold Factor.log
      exact .cons_idle rfl (inner.balanced.append (.of_idle (all_recoverLog _ _ _)))
  | .char literal => by
      unfold Factor.log
      exact .of_idle rfl
  | .int literal => by
      unfold Factor.log
      exact .of_idle (all_integer literal)

theorem Call.balanced : (c : Call) → Balanced c.log [] []
  | .mk name lparen callee args rparen => by
      unfold Call.log
      refine .cons_idle rfl (.cons_idle rfl ?_)
      have hsave : Balanced [.emit (.save name.value)] [] [] := .emit rfl rfl rfl
      refine hsave.append ?_
      refine (args.balanced name.value).append ?_
      refine .idle_append (all_checkArgumentsLog _ _ _) ?_
      exact .idle_append (all_recoverLog _ _ _) (.emit rfl rfl rfl)

theorem Args.balanced : (args : Args) → (function : String) → Balanced (args.log function) [] []
  | .nil, function => by
      unfold Args.log
      exact .nil
  | .first expr, function => by
      unfold Args.log
      exact expr.balanced.append (.emit expr.value.reverse_regs rfl rfl)
  | .more init comma expr, function => by
      unfold Args.log
      refine (init.balanced function).append (.cons_idle rfl (.cons_idle rfl ?_))
      exact expr.balanced.append (.emit expr.value.reverse_regs rfl rfl)

end

theorem Condition.settled (label : Label) (sense : Sense) :
    (c : Condition) → Settled (c.log label sense)
  | .test value => by
      rw [Condition.log, ← List.append_assoc]
      refine .read (value.balanced.append (.of_idle (all_checkConditionLog value))) ?_ ?_ .nil
      · cases sense <;> exact value.value.reverse_regs
      · cases sense <;> rfl
  | .compare lhs relation opToken rhs => by
      have hrhs := (rhs.balanced.frame lhs.value.regs).append (.of_idle (all_checkConditionLog rhs))
      have hlink : Balanced (.take opToken.kind opToken ::
          .check (Relation.ofKind? opToken.kind = some relation) ::
          (rhs.log ++ checkConditionLog rhs)) ([] ++ lhs.value.regs)
          (rhs.value.regs ++ lhs.value.regs) := .cons_idle rfl (.cons_idle rfl hrhs)
      have hoperands := lhs.balanced.append (.idle_append (all_checkConditionLog lhs) hlink)
      have hreads : (Instr.compare relation lhs.value rhs.value label sense).reads.reverse =
          rhs.value.regs ++ lhs.value.regs := Operand.reverse_regs_append lhs.value rhs.value
      have h := Settled.read hoperands hreads rfl .nil
      simpa [Condition.log] using h

theorem Guard.settled (label : Label) (sense : Sense) (guard : Guard) :
    Settled (guard.log label sense) := by
  unfold Guard.log
  exact .cons_idle rfl ((guard.condition.settled label sense).append
    (.of_idle (all_recoverLog _ _ _)))

theorem settled_scanLog (ref : NameRef) : Settled ref.scanLog := by
  unfold NameRef.scanLog
  cases ref.symbol with
  | none => exact .of_idle rfl
  | some symbol => exact .cons_idle rfl (.cons_idle rfl (.cons_emit rfl rfl .nil))

theorem CommaList.settled {α : Type} {itemLog : α → List Action}
    (hitem : ∀ item, Settled (itemLog item)) (items : CommaList α) :
    Settled (items.log itemLog) := by
  induction items with
  | one item => exact hitem item
  | cons item comma rest ih => exact (hitem item).append (.cons_idle rfl ih)

theorem settled_printValueLog (value : Expr) : Settled (printValueLog value) := by
  unfold printValueLog
  refine .read value.balanced ?_ ?_ (.cons_emit rfl rfl .nil)
  · unfold Expr.printInstr
    split <;> exact value.value.reverse_regs
  · unfold Expr.printInstr
    split <;> rfl

theorem PrintItem.settled (item : PrintItem) : Settled item.log := by
  cases item with
  | text literal index => exact .cons_idle rfl (.cons_idle rfl (.cons_emit rfl rfl .nil))
  | textValue literal index comma v =>
      refine .cons_idle rfl (.cons_idle rfl (.cons_emit rfl rfl (.cons_idle rfl ?_)))
      exact settled_printValueLog v
  | value v => exact settled_printValueLog v

theorem ForHeader.settled (header : ForHeader) (loopLabel endLabel : Label) :
    Settled (header.log loopLabel endLabel) := by
  have hstep : Settled (semicolonLog header.conditionEnd ++ (header.target.targetLog ++
      (.take .assign header.stepAssign :: (header.source.readLog ++
        (.take header.opToken.kind header.opToken ::
          .check (ArithOp.additive? header.opToken.kind = some header.op) ::
          (header.amount.log ++ recoverLog .rparen .missingParen header.rparen)))))) := by
    apply Settled.of_idle
    simp [Action.idle]
  unfold ForHeader.log
  refine .cons_idle rfl ((Settled.of_idle (all_targetLog _)).append (.cons_idle rfl ?_))
  refine .read header.start.balanced header.start.value.reverse_regs rfl (.cons_idle rfl ?_)
  refine .cons_emit rfl rfl ((Settled.of_idle (all_semicolonLog _)).append ?_)
  exact .cons_idle rfl ((header.condition.settled endLabel .onFalse).append hstep)

mutual

theorem Stmt.settled (returnType : Ty) : (stmt : Stmt) → Settled (stmt.log returnType)
  | .ifThen keyword guard body elseLabel endLabel => by
      unfold Stmt.log
      refine .cons_idle rfl (.cons_idle rfl ((guard.settled elseLabel .onFalse).append ?_))
      refine (body.settled returnType).append (.cons_idle rfl ?_)
      exact .cons_emit rfl rfl (.cons_emit rfl rfl (.cons_emit rfl rfl .nil))
  | .ifElse keyword guard body elseKeyword alternative elseLabel endLabel => by
      unfold Stmt.log
      refine .cons_idle rfl (.cons_idle rfl ((guard.settled elseLabel .onFalse).append ?_))
      refine (body.settled returnType).append (.cons_idle rfl ?_)
      refine .cons_emit rfl rfl (.cons_emit rfl rfl (.cons_idle rfl ?_))
      exact (alternative.settled returnType).append (.cons_emit rfl rfl .nil)
  | .whileLoop keyword guard body loopLabel endLabel => by
      unfold Stmt.log
      refine .cons_idle rfl (.cons_idle rfl (.cons_emit rfl rfl (.cons_idle rfl ?_)))
      refine .cons_idle rfl ((guard.condition.settled endLabel .onFalse).append ?_)
      refine (Settled.of_idle (all_recoverLog _ _ _)).append ?_
      exact (body.settled returnType).append (.cons_emit rfl rfl (.cons_emit rfl rfl .nil))
  | .doLoop keyword body whileKeyword guard loopLabel => by
      unfold Stmt.log
      refine .cons_idle rfl (.cons_idle rfl (.cons_emit rfl rfl ?_))
      refine (body.settled returnType).append ?_
      exact (Settled.of_idle (all_recoverLog _ _ _)).append (guard.settled loopLabel .onTrue)
  | .forLoop keyword header body loopLabel endLabel => by
      unfold Stmt.log
      refine .cons_idle rfl ((header.settled loopLabel endLabel).append ?_)
      refine (body.settled returnType).append ?_
      exact .cons_emit rfl rfl (.cons_emit rfl rfl (.cons_emit rfl rfl .nil))
  | .block lbrace body rbrace => by
      unfold Stmt.log
      exact .cons_idle rfl ((Stmt.settled_logs returnType body).append (.of_idle rfl))
  | .call c semicolon => by
      unfold Stmt.log
      exact .cons_idle rfl ((Settled.of_balanced c.balanced).append
        (.of_idle (all_semicolonLog _)))
  | .unknownCall name semicolon => by
      unfold Stmt.log
      exact (Settled.of_idle rfl).append (.of_idle (all_semicolonLog _))
  | .skipped => by
      unfold Stmt.log
      exact .of_idle rfl
  | .assign target eq value semicolon => by
      unfold Stmt.log
      refine (Settled.of_idle (all_targetLog _)).append (.cons_idle rfl ?_)
      exact .read value.balanced value.value.reverse_regs rfl
        (.of_idle (all_semicolonLog _))
  | .assignElement target lbracket index rbracket eq value semicolon => by
      have hvalue : Balanced (.take .assign eq :: value.log) ([] ++ index.value.regs)
          (value.value.regs ++ index.value.regs) :=
        .cons_idle rfl (value.balanced.frame index.value.regs)
      have hoperands := index.balanced.append (.idle_append (all_checkIndexLog index)
        (.idle_append (all_recoverLog .rbracket .missingBracket rbracket) hvalue))
      have hreads : (Instr.assignElement target.token.value index.value value.value).reads.reverse =
          value.value.regs ++ index.value.regs :=
        Operand.reverse_regs_append index.value value.value
      have h := Settled.read hoperands hreads rfl (.of_idle (all_semicolonLog semicolon))
      have hbracket : Settled [.take .lbracket lbracket] := .of_idle rfl
      have h := (Settled.of_idle (all_targetLog target)).append (hbracket.append h)
      simpa [Stmt.log] using h
  | .scan keyword lparen targets rparen semicolon => by
      unfold Stmt.log
      refine .cons_idle rfl (.cons_idle rfl ((targets.settled settled_scanLog).append ?_))
      exact .of_idle (by simp)
  | .print keyword lparen item rparen semicolon => by
      unfold Stmt.log
      refine .cons_idle rfl (.cons_idle rfl (item.settled.append ?_))
      exact .of_idle (by simp)
  | .ret keyword semicolon => by
      unfold Stmt.log
      exact .cons_idle rfl (.cons_emit rfl rfl (.of_idle (by simp)))
  | .retValue keyword lparen value rparen semicolon => by
      unfold Stmt.log
      refine .cons_idle rfl (.cons_idle rfl ?_)
      exact .read value.balanced value.value.reverse_regs rfl (.of_idle (by simp))
  | .empty semicolon => by
      unfold Stmt.log
      exact .of_idle rfl

theorem Stmt.settled_logs (returnType : Ty) :
    (stmts : List Stmt) → Settled (Stmt.logs returnType stmts)
  | [] => by
      unfold Stmt.logs
      exact .nil
  | stmt :: stmts => by
      unfold Stmt.logs
      exact (stmt.settled returnType).append (Stmt.settled_logs returnType stmts)

end

theorem settled_flatMap {α : Type} {itemLog : α → List Action} {items : List α}
    (hitem : ∀ item, Settled (itemLog item)) : Settled (items.flatMap itemLog) := by
  induction items with
  | nil => exact .nil
  | cons item items ih =>
      rw [List.flatMap_cons]
      exact (hitem item).append ih

theorem ConstDecl.settled (scope : Scope) (decl : ConstDecl) : Settled (decl.log scope) :=
  .of_idle (decl.all_log scope)

theorem VarItem.settled (scope : Scope) (ty : Ty) (item : VarItem) :
    Settled (item.log scope ty) := by
  unfold VarItem.log
  refine .cons_idle rfl (.cons_idle rfl ((Settled.of_idle item.all_sizeLog).append ?_))
  exact .cons_idle rfl (.cons_emit rfl rfl .nil)

theorem VarDecl.settled (scope : Scope) (decl : VarDecl) : Settled (decl.log scope) := by
  unfold VarDecl.log
  have htype : Settled decl.type.log := .of_idle rfl
  refine htype.append ?_
  refine (decl.items.settled ?_).append (.of_idle (all_semicolonLog _))
  exact fun item => item.settled scope decl.type.ty

theorem FunctionHead.settled_announceLog (head : FunctionHead) : Settled head.announceLog := by
  unfold announceLog
  refine .cons_emit rfl rfl ?_
  induction head.params with
  | nil => exact .nil
  | cons param params ih => exact .cons_emit rfl rfl ih

theorem Body.settled (returnType : Ty) (line : UInt64) (body : Body) :
    Settled (body.log returnType line) := by
  unfold Body.log
  refine (settled_flatMap (ConstDecl.settled .local)).append ?_
  refine (settled_flatMap (VarDecl.settled .local)).append ?_
  exact (Stmt.settled_logs returnType body.stmts).append (.of_idle (all_when _ _ rfl))

theorem Function.settled (function : Function) : Settled function.log := by
  have hret : Settled (Action.when (function.head.ty = .void) (.emit .retVoid)) := by
    unfold Action.when
    split
    · exact .cons_emit rfl rfl .nil
    · exact .nil
  unfold Function.log
  refine (Settled.of_idle function.head.all_log).append ?_
  refine function.head.settled_announceLog.append (.cons_idle rfl ?_)
  refine (function.body.settled _ _).append (hret.append ?_)
  exact .cons_emit rfl rfl (.of_idle rfl)

theorem TopLevel.settled (item : TopLevel) : Settled item.log := by
  cases item with
  | consts decls => exact settled_flatMap (ConstDecl.settled .global)
  | vars decls => exact settled_flatMap (VarDecl.settled .global)
  | function f => exact f.settled

/-- A whole program holds no register at its start and none at its end. -/
theorem Program.settled (program : Program) : Settled program.log := by
  unfold Program.log
  exact (settled_flatMap TopLevel.settled).append (.of_idle rfl)

end OnePass
