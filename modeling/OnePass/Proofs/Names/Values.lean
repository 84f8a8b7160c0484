import OnePass.Proofs.Names.Reads

/-!
What the operands of the code and of the tree are made of: registers, numerals and their negations,
characters in quotation marks, and what a name stands for where it is read. A property that all of
these have is one of every operand.
-/

namespace OnePass

open OnePass.Tree (annotations)

/-- The operands of an instruction. -/
def Instr.operands : Instr → List Operand
  | branch _ lhs rhs _ | arith _ _ lhs rhs => [lhs, rhs]
  | branchZero value _ | branchNonzero value _ | neg _ value | assign _ value => [value]
  | loadElement _ _ index => [index]
  | assignElement _ index value => [index, value]
  | push _ value _ | printInt value | printChar value | ret value => [value]
  | _ => []

/-- Whether all operands that an action emits have a property. -/
def Action.operandsAll (p : Operand → Bool) : Action → Bool
  | emit instr => instr.operands.all p
  | _ => true

instance (p : Operand → Bool) : Action.Passive (Action.operandsAll p) := {}

/-- A property that operands have, given that the actions behind them are good and that the names in
them stand for operands with the property. -/
structure ValueRule (good : Action → Prop) (p : Operand → Bool) : Prop where
  check : ∀ fact, good (.check fact) → fact
  reg : ∀ r, p (.reg r) = true
  numeral : ∀ literal : IntLit, (∀ action ∈ literal.log, good action) →
    p (.ofNumber literal.value) = true
  negated : ∀ (value : Operand) (n : Int64), p value = true → value.literal? = some n →
    p (.ofNumber (-n)) = true
  char : ∀ literal, good (.take .charLit literal) → p (.ofChar literal.value) = true
  unknownCall : ∀ fn : Token, (∀ action ∈ unknownCallLog fn, good action) →
    p (.named fn.value) = true

/-- A property of the operands that good actions make. -/
structure OperandRule (good : Action → Prop) (p : Operand → Bool) : Prop where
  check : ∀ fact, good (.check fact) → fact
  reg : ∀ r, p (.reg r) = true
  number : ∀ n, p (.ofNumber n) = true
  char : ∀ literal, good (.take .charLit literal) → p (.ofChar literal.value) = true
  name : ∀ ref : NameRef, (∀ action ∈ ref.readLog, good action) → p ref.value = true
  unknownCall : ∀ fn : Token, (∀ action ∈ unknownCallLog fn, good action) →
    p (.named fn.value) = true

section Expressions

variable {good : Action → Prop} {p : Operand → Bool}

theorem OperandRule.valueRule (rule : OperandRule good p) : ValueRule good p where
  check := rule.check
  reg := rule.reg
  numeral literal _ := rule.number literal.value
  negated _ n _ _ := rule.number (-n)
  char := rule.char
  unknownCall := rule.unknownCall

/-- All operands that a log emits and that some trees carry have a property. -/
structure Valued (p : Operand → Bool) (log : List Action) (forest : List Tree) : Prop where
  emitted : log.all (Action.operandsAll p) = true
  carried : (annotations forest).all p = true

/-- What is negated on the spot is a numeral again. -/
theorem operandsAll_negateLog (rule : ValueRule good p) {value result : Operand}
    (hvalue : p value = true) (h : ∀ action ∈ negateLog value result, good action) :
    p result = true ∧ (negateLog value result).all (Action.operandsAll p) = true := by
  cases result with
  | reg dst => exact ⟨rule.reg dst, by simp [negateLog, Action.operandsAll, Instr.operands, hvalue]⟩
  | named text =>
      obtain ⟨n, hn, rfl⟩ := rule.check _ (h _ List.mem_cons_self)
      exact ⟨rule.negated value n hvalue hn, rfl⟩

theorem operandsAll_combineLog (accumulator : Option Reg) (op : ArithOp) (dst : Reg)
    {lhs rhs : Operand} (hlhs : p lhs = true) (hrhs : p rhs = true) :
    (combineLog accumulator op dst lhs rhs).all (Action.operandsAll p) = true := by
  cases accumulator <;> simp [combineLog, Action.operandsAll, Instr.operands, hlhs, hrhs]

mutual

/-- All operands of an expression have the property, and its value has. -/
theorem Expr.valued (rule : ValueRule good p) : (e : Expr) → (∀ action ∈ e.log, good action) →
    (∀ ref ∈ e.readNames, p ref.value = true) → p e.value = true ∧ Valued p e.log e.children
  | .term t, h, hreads | .positive _ t, h, hreads => by
      rw [Expr.log, List.forall_mem_cons] at h
      rw [Expr.readNames] at hreads
      obtain ⟨hvalue, hlog, hnodes⟩ := t.valued rule h.2 hreads
      exact ⟨hvalue, by simp [Expr.log, Action.operandsAll, hlog],
        by simp [Expr.children, hvalue, hnodes]⟩
  | .negative sign t value, h, hreads => by
      rw [Expr.log, List.forall_mem_cons, List.forall_mem_append] at h
      rw [Expr.readNames] at hreads
      obtain ⟨_, hterm, hnegate⟩ := h
      obtain ⟨hvalue, hlog, hnodes⟩ := t.valued rule hterm hreads
      obtain ⟨hresult, hnegated⟩ := operandsAll_negateLog rule hvalue hnegate
      exact ⟨hresult, by simp [Expr.log, Action.operandsAll, hlog, hnegated],
        by simp [Expr.children, hvalue, hnodes]⟩
  | .chain lhs op opToken rhs dst, h, hreads => by
      simp only [Expr.log, List.forall_mem_append, List.forall_mem_cons, Expr.readNames] at h hreads
      obtain ⟨hleft, _, _, hright, _⟩ := h
      obtain ⟨hlhs, hlhsLog, hlhsNodes⟩ := lhs.valued rule hleft hreads.1
      obtain ⟨hrhs, hrhsLog, hrhsNodes⟩ := rhs.valued rule hright hreads.2
      have hcombine := operandsAll_combineLog lhs.accumulator? op dst hlhs hrhs
      exact ⟨rule.reg dst, by simp [Expr.log, Action.operandsAll, hlhsLog, hrhsLog, hcombine],
        by simp [Expr.children, hlhsNodes, hrhs, hrhsNodes]⟩

theorem Term.valued (rule : ValueRule good p) : (t : Term) → (∀ action ∈ t.log, good action) →
    (∀ ref ∈ t.readNames, p ref.value = true) → p t.value = true ∧ Valued p t.log t.children
  | .factor f, h, hreads => by
      rw [Term.log] at h
      rw [Term.readNames] at hreads
      obtain ⟨hvalue, hlog, hnodes⟩ := f.valued rule h hreads
      exact ⟨hvalue, by rwa [Term.log], by simp [Term.children, hvalue, hnodes]⟩
  | .chain lhs op opToken rhs dst, h, hreads => by
      simp only [Term.log, List.forall_mem_append, List.forall_mem_cons, Term.readNames] at h hreads
      obtain ⟨hleft, _, _, hright, _⟩ := h
      obtain ⟨hlhs, hlhsLog, hlhsNodes⟩ := lhs.valued rule hleft hreads.1
      obtain ⟨hrhs, hrhsLog, hrhsNodes⟩ := rhs.valued rule hright hreads.2
      have hcombine := operandsAll_combineLog lhs.accumulator? op dst hlhs hrhs
      exact ⟨rule.reg dst, by simp [Term.log, Action.operandsAll, hlhsLog, hrhsLog, hcombine],
        by simp [Term.children, hlhsNodes, hrhs, hrhsNodes]⟩

theorem Factor.valued (rule : ValueRule good p) : (f : Factor) →
    (∀ action ∈ f.log, good action) → (∀ ref ∈ f.readNames, p ref.value = true) →
      p f.value = true ∧ Valued p f.log f.children
  | .name ref, _, hreads => by
      rw [Factor.readNames, List.forall_mem_singleton] at hreads
      exact ⟨hreads, by rw [Factor.log]; exact all_readLog ref, by simp [Factor.children]⟩
  | .element ref lbracket index dst rbracket, h, hreads => by
      simp only [Factor.log, List.forall_mem_append, List.forall_mem_cons, Factor.readNames] at h hreads
      obtain ⟨hindex, hlog, hnodes⟩ := index.valued rule h.2.2.1 hreads
      exact ⟨rule.reg dst, by simp [Factor.log, Action.operandsAll, Instr.operands, hindex, hlog],
        by simp [Factor.children, hindex, hnodes]⟩
  | .call c dst, h, hreads => by
      simp only [Factor.log, List.forall_mem_append, List.forall_mem_cons, Factor.readNames] at h hreads
      obtain ⟨hlog, hnodes⟩ := c.valued rule h.2.1 hreads
      exact ⟨rule.reg dst, by simp [Factor.log, Action.operandsAll, Instr.operands, hlog],
        by simp [Factor.children, hnodes]⟩
  | .unknownCall fn, h, _ => by
      rw [Factor.log] at h
      exact ⟨rule.unknownCall fn h, by simp [Factor.log, unknownCallLog, Action.operandsAll],
        by simp [Factor.children]⟩
  | .paren lparen inner rparen, h, hreads => by
      simp only [Factor.log, List.forall_mem_append, List.forall_mem_cons, Factor.readNames] at h hreads
      obtain ⟨hvalue, hlog, hnodes⟩ := inner.valued rule h.2.1 hreads
      exact ⟨hvalue, by simp [Factor.log, Action.operandsAll, hlog],
        by simp [Factor.children, hvalue, hnodes]⟩
  | .char literal, h, _ => by
      rw [Factor.log, List.forall_mem_cons] at h
      exact ⟨rule.char literal h.1, by simp [Factor.log, Action.operandsAll],
        by simp [Factor.children]⟩
  | .int literal, h, _ => by
      rw [Factor.log] at h
      have hnodes : annotations [literal.tree] = [] := literal.gather_cons Tree.sparse_operand? []
      exact ⟨rule.numeral literal h, by rw [Factor.log]; exact all_integer literal,
        by simp [Factor.children, hnodes]⟩

theorem Call.valued (rule : ValueRule good p) : (c : Call) → (∀ action ∈ c.log, good action) →
    (∀ ref ∈ c.readNames, p ref.value = true) → Valued p c.log c.children
  | .mk name lparen callee args rparen, h, hreads => by
      simp only [Call.log, List.forall_mem_append, List.forall_mem_cons, Call.readNames] at h hreads
      obtain ⟨hlog, hnodes⟩ := args.valued rule name.value h.2.2.2.1 hreads
      exact ⟨by simp [Call.log, Action.operandsAll, Instr.operands, hlog],
        by simp [Call.children, hnodes]⟩

theorem Args.valued (rule : ValueRule good p) (function : String) : (args : Args) →
    (∀ action ∈ args.log function, good action) → (∀ ref ∈ args.readNames, p ref.value = true) →
      Valued p (args.log function) args.children
  | .nil, _, _ => by
      rw [Args.log, Args.children]
      exact ⟨rfl, rfl⟩
  | .first expr, h, hreads => by
      rw [Args.log, List.forall_mem_append] at h
      rw [Args.readNames] at hreads
      obtain ⟨hvalue, hlog, hnodes⟩ := expr.valued rule h.1 hreads
      exact ⟨by simp [Args.log, Action.operandsAll, Instr.operands, hvalue, hlog],
        by simp [Args.children, hvalue, hnodes]⟩
  | .more init comma expr, h, hreads => by
      simp only [Args.log, List.forall_mem_append, List.forall_mem_cons, Args.readNames] at h hreads
      obtain ⟨hfirst, _, _, hlast, _⟩ := h
      obtain ⟨hinit, hinitNodes⟩ := init.valued rule function hfirst hreads.1
      obtain ⟨hvalue, hlog, hnodes⟩ := expr.valued rule hlast hreads.2
      exact ⟨by simp [Args.log, Action.operandsAll, Instr.operands, hvalue, hlog, hinit],
        by simp [Args.children, hvalue, hnodes, hinitNodes]⟩

end

end Expressions

section Statements

variable {p : Operand → Bool}

/-- All operands in the code of an expression have a property, and its value has. -/
def Expr.OperandsAll (p : Operand → Bool) (e : Expr) : Prop :=
  p e.value = true ∧ e.log.all (Action.operandsAll p) = true

theorem Args.operandsAll_log (function : String) (args : Args)
    (h : ∀ e ∈ args.exprs, e.OperandsAll p) :
    (args.log function).all (Action.operandsAll p) = true := by
  cases args with
  | nil => rfl
  | first expr =>
      obtain ⟨hvalue, hlog⟩ := h expr List.mem_cons_self
      simp [log, Action.operandsAll, Instr.operands, hvalue, hlog]
  | more init comma expr =>
      rw [exprs, List.forall_mem_append, List.forall_mem_singleton] at h
      obtain ⟨hfirst, hvalue, hlog⟩ := h
      have hinit := init.operandsAll_log function hfirst
      simp [log, Action.operandsAll, Instr.operands, hvalue, hlog, hinit]

theorem Condition.operandsAll_log (label : Label) (sense : Sense) (condition : Condition)
    (h : ∀ e ∈ condition.exprs, e.OperandsAll p) :
    (condition.log label sense).all (Action.operandsAll p) = true := by
  cases condition with
  | test value =>
      obtain ⟨hvalue, hlog⟩ := h value List.mem_cons_self
      cases sense <;>
        simp [log, Action.operandsAll, Instr.test, Instr.operands, hvalue, hlog]
  | compare lhs relation opToken rhs =>
      simp only [exprs, List.forall_mem_cons] at h
      obtain ⟨⟨hlhs, hlhsLog⟩, ⟨hrhs, hrhsLog⟩, _⟩ := h
      simp [log, Action.operandsAll, Instr.compare, Instr.operands, hlhs, hlhsLog, hrhs, hrhsLog]

theorem PrintItem.operandsAll_log (item : PrintItem) (h : ∀ e ∈ item.exprs, e.OperandsAll p) :
    item.log.all (Action.operandsAll p) = true := by
  have hprint : ∀ value : Expr, value.OperandsAll p →
      (printValueLog value).all (Action.operandsAll p) = true := by
    rintro value ⟨hvalue, hlog⟩
    cases hty : value.ty <;>
      simp [printValueLog, Expr.printInstr, hty, Action.operandsAll, Instr.operands, hvalue, hlog]
  cases item with
  | text literal index => rfl
  | textValue literal index comma value =>
      simp [log, Action.operandsAll, Instr.operands, hprint value (h value List.mem_cons_self)]
  | value value => exact hprint value (h value List.mem_cons_self)

theorem ForHeader.operandsAll_log (header : ForHeader) (loopLabel endLabel : Label)
    (h : ∀ e ∈ header.exprs, e.OperandsAll p) :
    (header.log loopLabel endLabel).all (Action.operandsAll p) = true := by
  rw [exprs, List.forall_mem_cons] at h
  obtain ⟨⟨hstart, hstartLog⟩, hguard⟩ := h
  have hcondition := header.condition.operandsAll_log endLabel .onFalse hguard
  simp [log, Action.operandsAll, Instr.operands, hstart, hstartLog, hcondition]

theorem CommaList.operandsAll_scanLog (targets : CommaList NameRef) :
    (targets.log NameRef.scanLog).all (Action.operandsAll p) = true := by
  have hscan : ∀ ref : NameRef, ref.scanLog.all (Action.operandsAll p) = true := by
    intro ref
    cases hsymbol : ref.symbol <;>
      simp [NameRef.scanLog, NameRef.log, hsymbol, Action.operandsAll, Instr.operands]
  exact targets.all_log hscan

mutual

/-- The operands in the code of a statement have a property if those of its expressions have. -/
theorem Stmt.operandsAll_of_exprs (returnType : Ty) : (stmt : Stmt) →
    (∀ e ∈ stmt.exprs, e.OperandsAll p) →
      (stmt.log returnType).all (Action.operandsAll p) = true
  | .ifThen _ guard body _ _, h | .whileLoop _ guard body _ _, h => by
      rw [Stmt.exprs, List.forall_mem_append] at h
      have hstmt := body.operandsAll_of_exprs returnType h.2
      simp [Stmt.log, Guard.log, Action.operandsAll, Instr.operands, hstmt,
        guard.condition.operandsAll_log _ _ h.1]
  | .ifElse _ guard body _ alternative _ _, h => by
      rw [Stmt.exprs, List.forall_mem_append, List.forall_mem_append] at h
      have hstmt := body.operandsAll_of_exprs returnType h.2.1
      have halternative := alternative.operandsAll_of_exprs returnType h.2.2
      simp [Stmt.log, Guard.log, Action.operandsAll, Instr.operands, hstmt, halternative,
        guard.condition.operandsAll_log _ _ h.1]
  | .doLoop _ body _ guard _, h => by
      rw [Stmt.exprs, List.forall_mem_append] at h
      have hstmt := body.operandsAll_of_exprs returnType h.1
      simp [Stmt.log, Guard.log, Action.operandsAll, Instr.operands, hstmt,
        guard.condition.operandsAll_log _ _ h.2]
  | .forLoop _ header body _ _, h => by
      rw [Stmt.exprs, List.forall_mem_append] at h
      have hstmt := body.operandsAll_of_exprs returnType h.2
      simp [Stmt.log, ForHeader.stepInstr, Action.operandsAll, Instr.operands, hstmt,
        header.operandsAll_log _ _ h.1]
  | .block _ body _, h => by
      rw [Stmt.exprs] at h
      simp [Stmt.log, Action.operandsAll, Stmt.operandsAll_of_allExprs returnType body h]
  | .call (.mk _ _ _ args _) _, h => by
      rw [Stmt.exprs] at h
      simp [Stmt.log, Call.log, Action.operandsAll, Instr.operands, args.operandsAll_log _ h]
  | .assign _ _ value _, h | .retValue _ _ value _ _, h => by
      rw [Stmt.exprs, List.forall_mem_singleton] at h
      obtain ⟨hvalue, hlog⟩ := h
      simp [Stmt.log, Action.operandsAll, Instr.operands, hvalue, hlog]
  | .assignElement _ _ index _ _ value _, h => by
      simp only [Stmt.exprs, List.forall_mem_cons] at h
      obtain ⟨⟨hindex, hindexLog⟩, ⟨hvalue, hlog⟩, _⟩ := h
      simp [Stmt.log, Action.operandsAll, Instr.operands, hindex, hindexLog, hvalue, hlog]
  | .print _ _ item _ _, h => by
      rw [Stmt.exprs] at h
      simp [Stmt.log, Action.operandsAll, item.operandsAll_log h]
  | .scan _ _ targets _ _, _ => by
      simp [Stmt.log, Action.operandsAll, targets.operandsAll_scanLog]
  | .ret _ _, _ | .unknownCall _ _, _ | .skipped, _ | .empty _, _ => by
      simp [Stmt.log, unknownCallLog, Action.operandsAll, Instr.operands]

theorem Stmt.operandsAll_of_allExprs (returnType : Ty) : (stmts : List Stmt) →
    (∀ e ∈ Stmt.allExprs stmts, e.OperandsAll p) →
      (Stmt.logs returnType stmts).all (Action.operandsAll p) = true
  | [], _ => by
      rw [Stmt.logs]
      rfl
  | stmt :: stmts, h => by
      rw [Stmt.allExprs, List.forall_mem_append] at h
      rw [Stmt.logs, List.all_append, stmt.operandsAll_of_exprs returnType h.1,
        Stmt.operandsAll_of_allExprs returnType stmts h.2]
      rfl

end

/-- All operands in the code of some statements have a property that good actions make. -/
theorem Stmt.operandsAll_logs {good : Action → Prop} (rule : OperandRule good p) (returnType : Ty)
    (stmts : List Stmt) (h : ∀ action ∈ Stmt.logs returnType stmts, good action) :
    (Stmt.logs returnType stmts).all (Action.operandsAll p) = true := by
  refine Stmt.operandsAll_of_allExprs returnType stmts fun e he => ?_
  have hlog : ∀ action ∈ e.log, good action := fun action haction =>
    h action (Stmt.logs_of_mem_exprs returnType he action haction)
  have hreads : ∀ ref ∈ e.readNames, p ref.value = true := fun ref href =>
    rule.name ref fun action haction => hlog action ((e.shown href).looked action haction)
  obtain ⟨hvalue, hvalued⟩ := e.valued rule.valueRule hlog hreads
  exact ⟨hvalue, hvalued.emitted⟩

end Statements

end OnePass
