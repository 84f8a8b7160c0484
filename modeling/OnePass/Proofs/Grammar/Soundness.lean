import OnePass.Proofs.Grammar.Basic
import OnePass.Proofs.Log.Program

/-!
What is compiled without a structural diagnostic and without an unknown name is a sentence of the
grammar. The kinds that a phrase has consumed are read off its log, and each phrase of the syntax
is a phrase of the grammar.
-/

namespace OnePass

/-- The diagnostics for tokens that are missing or stand where another should. -/
def DiagnosticKind.isStructural : DiagnosticKind → Bool
  | missingSemicolon | missingParen | missingBracket | missingWhile | constInitialiser => true
  | _ => false

namespace Action

/-- The kinds of the tokens that an action consumes and keeps. -/
def kinds : Action → List TokenKind
  | take kind _ => [kind]
  | _ => []

/-- An action that records neither a structural diagnostic nor an unknown name, and finds what it
checks. -/
def Regular : Action → Prop
  | check fact => fact
  | action => ∀ kind ∈ action.records, kind.isStructural = false ∧ kind ≠ .undefined

theorem kinds_eq_nil {action : Action} (h : action.tokens = []) : action.kinds = [] := by
  cases action with
  | take kind token => cases h
  | _ => rfl

end Action

/-- The kinds of the tokens that a log consumes and keeps. -/
def logKinds (log : List Action) : List TokenKind :=
  log.flatMap Action.kinds

section Kinds

@[simp]
theorem logKinds_nil : logKinds [] = [] := rfl

@[simp]
theorem logKinds_cons (action : Action) (log : List Action) :
    logKinds (action :: log) = action.kinds ++ logKinds log :=
  List.flatMap_cons

@[simp]
theorem logKinds_append (front back : List Action) :
    logKinds (front ++ back) = logKinds front ++ logKinds back :=
  List.flatMap_append

theorem logKinds_eq_nil {log : List Action} (h : log.flatMap Action.tokens = []) :
    logKinds log = [] := by
  rw [List.flatMap_eq_nil_iff] at h
  rw [logKinds, List.flatMap_eq_nil_iff]
  intro action haction
  exact Action.kinds_eq_nil (h action haction)

theorem logKinds_when (condition : Prop) [Decidable condition] (action : Action)
    (haction : action.kinds = []) : logKinds (Action.when condition action) = [] := by
  unfold Action.when
  split
  · rw [logKinds_cons, haction]
    rfl
  · rfl

@[simp]
theorem logKinds_readLog (ref : NameRef) : logKinds ref.readLog = [.ident] := by
  rw [NameRef.readLog, logKinds_append, logKinds_when _ _ rfl]
  rfl

@[simp]
theorem logKinds_targetLog (ref : NameRef) : logKinds ref.targetLog = [.ident] := by
  unfold NameRef.targetLog
  cases ref.symbol with
  | none => rfl
  | some symbol =>
      rw [logKinds_append, logKinds_when _ _ rfl]
      rfl

@[simp]
theorem logKinds_scanLog (ref : NameRef) : logKinds ref.scanLog = [.ident] := by
  unfold NameRef.scanLog
  cases ref.symbol <;> rfl

@[simp]
theorem logKinds_negateLog (value result : Operand) : logKinds (negateLog value result) = [] :=
  logKinds_eq_nil (tokens_negateLog value result)

@[simp]
theorem logKinds_combineLog (accumulator : Option Reg) (op : ArithOp) (dst : Reg)
    (lhs rhs : Operand) : logKinds (combineLog accumulator op dst lhs rhs) = [] :=
  logKinds_eq_nil (tokens_combineLog accumulator op dst lhs rhs)

@[simp]
theorem logKinds_checkIndexLog (index : Expr) : logKinds (checkIndexLog index) = [] :=
  logKinds_eq_nil (tokens_checkIndexLog index)

@[simp]
theorem logKinds_checkConditionLog (operand : Expr) : logKinds (checkConditionLog operand) = [] :=
  logKinds_eq_nil (tokens_checkConditionLog operand)

@[simp]
theorem logKinds_checkArgumentsLog (name : Token) (callee : Symbol) (args : Args) :
    logKinds (checkArgumentsLog name callee args) = [] :=
  logKinds_eq_nil (tokens_checkArgumentsLog name callee args)

@[simp]
theorem logKinds_checkReturnLog (returnType ty : Ty) : logKinds (checkReturnLog returnType ty) = [] :=
  logKinds_eq_nil (tokens_checkReturnLog returnType ty)

@[simp]
theorem logKinds_unsigned (lit : UnsignedLit) : logKinds lit.log = [.intLit] := rfl

end Kinds

/-- All actions of a log are regular. -/
def Regular (log : List Action) : Prop :=
  ∀ action ∈ log, action.Regular

namespace Regular

variable {front back log : List Action} {action : Action}

theorem left (h : Regular (front ++ back)) : Regular front :=
  fun action haction => h action (List.mem_append_left back haction)

theorem right (h : Regular (front ++ back)) : Regular back :=
  fun action haction => h action (List.mem_append_right front haction)

theorem head (h : Regular (action :: log)) : action.Regular :=
  h action List.mem_cons_self

theorem tail (h : Regular (action :: log)) : Regular log :=
  fun other hother => h other (List.mem_cons_of_mem action hother)

/-- A token that may be left out was there, if its absence is structural. -/
theorem kinds_recoverLog {kind : TokenKind} {missing : DiagnosticKind} {found : Option Token}
    (h : Regular (recoverLog kind missing found)) (hmissing : missing.isStructural = true) :
    logKinds (recoverLog kind missing found) = [kind] := by
  cases found with
  | some token => rfl
  | none =>
      have hrecord := (h.head missing List.mem_cons_self).1
      rw [hmissing] at hrecord
      cases hrecord

end Regular

/-- A log that was played, and recorded nothing irregular, is regular. -/
theorem Plays.regular {log : List Action} {s t : State} (h : Plays log s t)
    (hrecords : ∀ kind ∈ log.flatMap Action.records,
      kind.isStructural = false ∧ kind ≠ .undefined) : Regular log := by
  induction log generalizing s with
  | nil => simp [Regular]
  | cons first log ih =>
      obtain ⟨u, hfirst, hlog⟩ := h
      rw [List.flatMap_cons, List.forall_mem_append] at hrecords
      intro action haction
      rcases List.mem_cons.1 haction with rfl | haction
      · cases action with
        | check fact => exact hfirst.1
        | _ => exact hrecords.1
      · exact ih hlog hrecords.2 action haction

/-- A regular log consumes the kinds that are read off it. -/
theorem Plays.kinds {log : List Action} {s t : State} (h : Plays log s t) (hlog : Regular log) :
    s.cursor.rest.map Token.kind = logKinds log ++ t.cursor.rest.map Token.kind := by
  induction h using Plays.induction with
  | nil => rfl
  | @cons s u action log haction _ ih =>
      have hkept : .undefined ∉ action.records := by
        intro hmem
        cases action with
        | check fact => cases hmem
        | _ => exact (hlog.head .undefined hmem).2 rfl
      have hkinds : action.tokens.map Token.kind = action.kinds := by
        cases action with
        | take kind token => exact congrArg (fun k => [k]) haction.1
        | _ => rfl
      rw [haction.rest hkept, List.map_append, hkinds, ih hlog.tail, ← List.append_assoc]
      rfl

namespace Grammar

mutual

/-- A chain may be extended at its end. -/
theorem Additions.snoc {op : TokenKind} {more item : List TokenKind} : Additions more →
    op ∈ signs → Item item → Additions (more ++ op :: item)
  | .nil, hop, hitem => by
      have h := Additions.cons hop hitem .nil
      rwa [List.append_nil] at h
  | .cons hfirst hother hrest, hop, hitem => by
      rw [List.cons_append, List.append_assoc]
      exact .cons hfirst hother (hrest.snoc hop hitem)

theorem Multiplications.snoc {op : TokenKind} {more factor : List TokenKind} :
    Multiplications more → op ∈ factorOps → Factor factor → Multiplications (more ++ op :: factor)
  | .nil, hop, hfactor => by
      have h := Multiplications.cons hop hfactor .nil
      rwa [List.append_nil] at h
  | .cons hfirst hother hrest, hop, hfactor => by
      rw [List.cons_append, List.append_assoc]
      exact .cons hfirst hother (hrest.snoc hop hfactor)

theorem MoreArguments.snoc {more arg : List TokenKind} : MoreArguments more → Expression arg →
    MoreArguments (more ++ .comma :: arg)
  | .nil, harg => by
      have h := MoreArguments.cons harg .nil
      rwa [List.append_nil] at h
  | .cons hfirst hrest, harg => by
      rw [List.cons_append, List.append_assoc]
      exact .cons hfirst (hrest.snoc harg)

end

theorem Expression.snoc {op : TokenKind} {front item : List TokenKind} (hfront : Expression front)
    (hop : op ∈ signs) (hitem : Item item) : Expression (front ++ op :: item) := by
  cases hfront with
  | plain hfirst hmore =>
      rw [List.append_assoc]
      exact .plain hfirst (hmore.snoc hop hitem)
  | signed hsign hfirst hmore =>
      rw [List.cons_append, List.append_assoc]
      exact .signed hsign hfirst (hmore.snoc hop hitem)

theorem Item.snoc {op : TokenKind} {front factor : List TokenKind} (hfront : Item front)
    (hop : op ∈ factorOps) (hfactor : Factor factor) : Item (front ++ op :: factor) := by
  cases hfront with
  | mk hfirst hmore =>
      rw [List.append_assoc]
      exact .mk hfirst (hmore.snoc hop hfactor)

end Grammar

theorem ArithOp.mem_signs_of_additive? {kind : TokenKind} {op : ArithOp}
    (h : additive? kind = some op) : kind ∈ Grammar.signs := by
  cases kind <;> first | decide | cases h

theorem ArithOp.mem_factorOps_of_multiplicative? {kind : TokenKind} {op : ArithOp}
    (h : multiplicative? kind = some op) : kind ∈ Grammar.factorOps := by
  cases kind <;> first | decide | cases h

theorem Relation.mem_relations_of_ofKind? {kind : TokenKind} {relation : Relation}
    (h : ofKind? kind = some relation) : kind ∈ Grammar.relations := by
  cases kind <;> first | decide | cases h

theorem IntLit.sentence (lit : IntLit) (h : Regular lit.log) :
    Grammar.Integer (logKinds lit.log) := by
  unfold IntLit.log at h ⊢
  cases hsign : lit.sign with
  | none => exact .plain
  | some sign =>
      rw [hsign] at h
      have hfact : sign.kind.isSign = true := h.tail.head
      refine .signed ?_
      cases hkind : sign.kind <;> first | decide | simp [hkind, TokenKind.isSign] at hfact

mutual

/-- The tokens of an expression are one in the grammar. -/
theorem Expr.sentence : (e : Expr) → Regular e.log → Grammar.Expression (logKinds e.log)
  | .term t, h => by
      simp only [Expr.log] at h
      have hitem := Grammar.Expression.plain (t.sentence h.tail) .nil
      simpa [Expr.log, Action.kinds] using hitem
  | .positive sign t, h => by
      simp only [Expr.log] at h
      have hplus : TokenKind.plus ∈ Grammar.signs := by decide
      have hitem := Grammar.Expression.signed hplus (t.sentence h.tail) .nil
      simpa [Expr.log, Action.kinds] using hitem
  | .negative sign t value, h => by
      simp only [Expr.log] at h
      have hminus : TokenKind.minus ∈ Grammar.signs := by decide
      have hitem := Grammar.Expression.signed hminus (t.sentence h.tail.left) .nil
      simpa [Expr.log, Action.kinds] using hitem
  | .chain lhs op opToken rhs dst, h => by
      simp only [Expr.log] at h
      have hop := ArithOp.mem_signs_of_additive? h.right.tail.head
      have hchain := (lhs.sentence h.left).snoc hop (rhs.sentence h.right.tail.tail.left)
      simpa [Expr.log, Action.kinds] using hchain

theorem Term.sentence : (t : Term) → Regular t.log → Grammar.Item (logKinds t.log)
  | .factor f, h => by
      simp only [Term.log] at h
      have hfactor := Grammar.Item.mk (f.sentence h) .nil
      simpa [Term.log] using hfactor
  | .chain lhs op opToken rhs dst, h => by
      simp only [Term.log] at h
      have hop := ArithOp.mem_factorOps_of_multiplicative? h.right.tail.head
      have hchain := (lhs.sentence h.left).snoc hop (rhs.sentence h.right.tail.tail.left)
      simpa [Term.log, Action.kinds] using hchain

theorem Factor.sentence : (f : Factor) → Regular f.log → Grammar.Factor (logKinds f.log)
  | .name ref, h => by
      simp only [Factor.log, logKinds_readLog]
      exact .name
  | .element ref lbracket index dst rbracket, h => by
      simp only [Factor.log] at h
      have hrest := h.right.tail
      have hclose := hrest.right.right.tail.tail.kinds_recoverLog rfl
      have hindex := Grammar.Factor.element (index.sentence hrest.left)
      simpa [Factor.log, Action.kinds, hclose] using hindex
  | .call c dst, h => by
      simp only [Factor.log] at h
      obtain ⟨args, hargs, hkinds⟩ := c.sentence h.tail.left
      have hcall := Grammar.Factor.call hargs
      simpa [Factor.log, Action.kinds, hkinds] using hcall
  | .unknownCall fn, h => by
      -- what is unknown has been recorded
      simp only [Factor.log, unknownCallLog] at h
      exact absurd rfl (h.tail.head .undefined List.mem_cons_self).2
  | .paren lparen inner rparen, h => by
      simp only [Factor.log] at h
      have hclose := h.tail.right.kinds_recoverLog rfl
      have hinner := Grammar.Factor.paren (inner.sentence h.tail.left)
      simpa [Factor.log, Action.kinds, hclose] using hinner
  | .char literal, h => by
      simp only [Factor.log]
      exact .char
  | .int literal, h => by
      simp only [Factor.log] at h ⊢
      exact .integer (literal.sentence h)

/-- The tokens of a call are a name with arguments in parentheses. -/
theorem Call.sentence : (c : Call) → Regular c.log → ∃ args, Grammar.Arguments args ∧
    logKinds c.log = .ident :: .lparen :: (args ++ [.rparen])
  | .mk name lparen callee args rparen, h => by
      simp only [Call.log] at h
      have hrest := h.tail.tail.tail
      have hclose := hrest.right.right.left.kinds_recoverLog rfl
      refine ⟨logKinds (args.log name.value), ?_, by simp [Call.log, Action.kinds, hclose]⟩
      rcases args.sentence name.value hrest.left with ⟨_, hnil⟩ | ⟨first, more, hfirst, hmore, hkinds⟩
      · exact hnil ▸ .none
      · exact hkinds ▸ .some hfirst hmore

/-- There are no arguments, or there is a first one. -/
theorem Args.sentence : (args : Args) → (function : String) → Regular (args.log function) →
    (args.length = 0 ∧ logKinds (args.log function) = []) ∨
      ∃ first more, Grammar.Expression first ∧ Grammar.MoreArguments more ∧
        logKinds (args.log function) = first ++ more
  | .nil, function, h => by
      exact Or.inl ⟨rfl, by simp [Args.log]⟩
  | .first expr, function, h => by
      simp only [Args.log] at h
      exact Or.inr ⟨_, [], expr.sentence h.left, .nil, by simp [Args.log, Action.kinds]⟩
  | .more init comma expr, function, h => by
      simp only [Args.log] at h
      have hlength : 0 < init.length := h.right.head
      have hexpr := expr.sentence h.right.tail.tail.left
      rcases init.sentence function h.left with ⟨hnone, _⟩ | ⟨first, more, hfirst, hmore, hkinds⟩
      · omega
      · exact Or.inr ⟨first, _, hfirst, hmore.snoc hexpr, by
          simp [Args.log, Action.kinds, hkinds]⟩

end

theorem Condition.sentence (label : Label) (sense : Sense) (c : Condition)
    (h : Regular (c.log label sense)) : Grammar.Condition (logKinds (c.log label sense)) := by
  cases c with
  | test value =>
      have hvalue := Grammar.Condition.test (value.sentence h.left)
      simpa [Condition.log, Action.kinds] using hvalue
  | compare lhs relation opToken rhs =>
      have hop := Relation.mem_relations_of_ofKind? h.right.right.tail.head
      have hrhs := rhs.sentence h.right.right.tail.tail.left
      have hcompare := Grammar.Condition.compare (lhs.sentence h.left) hop hrhs
      simpa [Condition.log, Action.kinds] using hcompare

theorem CommaList.sentence {α : Type} {itemLog : α → List Action} {phrase : List TokenKind → Prop}
    (hitem : ∀ item, Regular (itemLog item) → phrase (logKinds (itemLog item)))
    (items : CommaList α) (h : Regular (items.log itemLog)) :
    Grammar.Listed phrase (logKinds (items.log itemLog)) := by
  induction items with
  | one item => exact .one (hitem item h)
  | cons item comma rest ih =>
      have hrest := Grammar.Listed.cons (hitem item h.left) (ih h.right.tail)
      simpa [CommaList.log, Action.kinds] using hrest

theorem PrintItem.sentence (item : PrintItem) (h : Regular item.log) :
    Grammar.Printed (logKinds item.log) := by
  cases item with
  | text literal index => exact .text
  | textValue literal index comma value =>
      have hvalue := Grammar.Printed.textValue (value.sentence h.tail.tail.tail.tail.left)
      simpa [PrintItem.log, printValueLog, Action.kinds] using hvalue
  | value value =>
      have hvalue := Grammar.Printed.value (value.sentence h.left)
      simpa [PrintItem.log, printValueLog, Action.kinds] using hvalue

theorem ForHeader.sentence (header : ForHeader) (loopLabel endLabel : Label)
    (h : Regular (header.log loopLabel endLabel)) : ∃ inner, Grammar.ForHeader inner ∧
      logKinds (header.log loopLabel endLabel) = .lparen :: (inner ++ [.rparen]) := by
  have hstart := h.tail.right.tail
  have hfirst := hstart.right.tail.tail.tail
  have hcondition := hfirst.right.tail
  have hstep := hcondition.right.right.right.tail.right
  have hinitEnd := hfirst.left.kinds_recoverLog rfl
  have hconditionEnd := hcondition.right.left.kinds_recoverLog rfl
  have hclose := hstep.tail.tail.right.kinds_recoverLog rfl
  have hsign := ArithOp.mem_signs_of_additive? hstep.tail.head
  refine ⟨_, .mk (header.start.sentence hstart.left)
    (header.condition.sentence endLabel .onFalse hcondition.left) hsign, ?_⟩
  simp [ForHeader.log, semicolonLog, Action.kinds, hinitEnd, hconditionEnd, hclose]

mutual

/-- The tokens of a statement are one in the grammar. -/
theorem Stmt.sentence (returnType : Ty) : (stmt : Stmt) → Regular (stmt.log returnType) →
    Grammar.Statement (logKinds (stmt.log returnType))
  | .ifThen keyword guard body elseLabel endLabel, h => by
      simp only [Stmt.log, Guard.log] at h
      have hguard := h.tail.tail.left.tail
      have hclose := hguard.right.kinds_recoverLog rfl
      have hstmt := Grammar.Statement.ifThen (guard.condition.sentence _ _ hguard.left)
        (body.sentence returnType h.tail.tail.right.left)
      simpa [Stmt.log, Guard.log, Action.kinds, hclose] using hstmt
  | .ifElse keyword guard body elseKeyword alternative elseLabel endLabel, h => by
      simp only [Stmt.log, Guard.log] at h
      have hguard := h.tail.tail.left.tail
      have hclose := hguard.right.kinds_recoverLog rfl
      have hrest := h.tail.tail.right
      have hstmt := Grammar.Statement.ifElse (guard.condition.sentence _ _ hguard.left)
        (body.sentence returnType hrest.left)
        (alternative.sentence returnType hrest.right.tail.tail.tail.tail.left)
      simpa [Stmt.log, Guard.log, Action.kinds, hclose] using hstmt
  | .whileLoop keyword guard body loopLabel endLabel, h => by
      simp only [Stmt.log] at h
      have hguard := h.tail.tail.tail.tail.tail
      have hclose := hguard.right.left.kinds_recoverLog rfl
      have hstmt := Grammar.Statement.whileLoop (guard.condition.sentence _ _ hguard.left)
        (body.sentence returnType hguard.right.right.left)
      simpa [Stmt.log, Action.kinds, hclose] using hstmt
  | .doLoop keyword body whileKeyword guard loopLabel, h => by
      simp only [Stmt.log, Guard.log] at h
      have hrest := h.tail.tail.tail
      have hwhile := hrest.right.left.kinds_recoverLog rfl
      have hguard := hrest.right.right.tail
      have hclose := hguard.right.kinds_recoverLog rfl
      have hstmt := Grammar.Statement.doLoop (body.sentence returnType hrest.left)
        (guard.condition.sentence _ _ hguard.left)
      simpa [Stmt.log, Guard.log, Action.kinds, hwhile, hclose] using hstmt
  | .forLoop keyword header body loopLabel endLabel, h => by
      simp only [Stmt.log] at h
      obtain ⟨inner, hinner, hkinds⟩ := header.sentence loopLabel endLabel h.tail.left
      have hstmt := Grammar.Statement.forLoop hinner (body.sentence returnType h.tail.right.left)
      simpa [Stmt.log, Action.kinds, hkinds] using hstmt
  | .block lbrace body rbrace, h => by
      simp only [Stmt.log] at h
      have hstmt := Grammar.Statement.block (Stmt.sentences returnType body h.tail.left)
      simpa [Stmt.log, Action.kinds] using hstmt
  | .call c semicolon, h => by
      simp only [Stmt.log] at h
      obtain ⟨args, hargs, hkinds⟩ := c.sentence h.tail.left
      have hend := h.tail.right.kinds_recoverLog rfl
      have hstmt := Grammar.Statement.simple (.call hargs)
      simpa [Stmt.log, semicolonLog, Action.kinds, hkinds, hend] using hstmt
  | .unknownCall name semicolon, h => by
      -- what is unknown has been recorded
      simp only [Stmt.log, unknownCallLog] at h
      exact absurd rfl (h.left.tail.head .undefined List.mem_cons_self).2
  | .skipped, h => by
      simp only [Stmt.log] at h
      exact absurd rfl (h.head .undefined List.mem_cons_self).2
  | .assign target eq value semicolon, h => by
      simp only [Stmt.log] at h
      have hend := h.right.tail.right.tail.kinds_recoverLog rfl
      have hstmt := Grammar.Statement.simple (.assign (value.sentence h.right.tail.left))
      simpa [Stmt.log, semicolonLog, Action.kinds, hend] using hstmt
  | .assignElement target lbracket index rbracket eq value semicolon, h => by
      simp only [Stmt.log] at h
      have hindex := h.right.tail
      have hclose := hindex.right.right.left.kinds_recoverLog rfl
      have hvalue := hindex.right.right.right.tail
      have hend := hvalue.right.tail.kinds_recoverLog rfl
      have hstmt := Grammar.Statement.simple
        (.assignElement (index.sentence hindex.left) (value.sentence hvalue.left))
      simpa [Stmt.log, semicolonLog, Action.kinds, hclose, hend] using hstmt
  | .scan keyword lparen targets rparen semicolon, h => by
      simp only [Stmt.log] at h
      have htargets : Grammar.Listed (· = [.ident]) (logKinds (targets.log NameRef.scanLog)) :=
        targets.sentence (fun ref _ => logKinds_scanLog ref) h.tail.tail.left
      have hclose := h.tail.tail.right.left.kinds_recoverLog rfl
      have hend := h.tail.tail.right.right.kinds_recoverLog rfl
      have hstmt := Grammar.Statement.simple (.scan htargets)
      simpa [Stmt.log, semicolonLog, Action.kinds, hclose, hend] using hstmt
  | .print keyword lparen item rparen semicolon, h => by
      simp only [Stmt.log] at h
      have hclose := h.tail.tail.right.left.kinds_recoverLog rfl
      have hend := h.tail.tail.right.right.kinds_recoverLog rfl
      have hstmt := Grammar.Statement.simple (.print (item.sentence h.tail.tail.left))
      simpa [Stmt.log, semicolonLog, Action.kinds, hclose, hend] using hstmt
  | .ret keyword semicolon, h => by
      simp only [Stmt.log] at h
      have hend := h.tail.tail.right.kinds_recoverLog rfl
      have hstmt := Grammar.Statement.simple .ret
      simpa [Stmt.log, semicolonLog, Action.kinds, hend] using hstmt
  | .retValue keyword lparen value rparen semicolon, h => by
      simp only [Stmt.log] at h
      have hrest := h.tail.tail.right.tail
      have hclose := hrest.left.kinds_recoverLog rfl
      have hend := hrest.right.right.kinds_recoverLog rfl
      have hstmt := Grammar.Statement.simple (.retValue (value.sentence h.tail.tail.left))
      simpa [Stmt.log, semicolonLog, Action.kinds, hclose, hend] using hstmt
  | .empty semicolon, h => by
      simp only [Stmt.log]
      exact .simple .empty

theorem Stmt.sentences (returnType : Ty) : (stmts : List Stmt) →
    Regular (Stmt.logs returnType stmts) →
    Grammar.Statements (logKinds (Stmt.logs returnType stmts))
  | [], h => by
      simp only [Stmt.logs]
      exact .nil
  | stmt :: stmts, h => by
      simp only [Stmt.logs] at h ⊢
      rw [logKinds_append]
      exact .cons (stmt.sentence returnType h.left) (Stmt.sentences returnType stmts h.right)

end

theorem TypeName.sentence (type : TypeName) (h : Regular type.log) :
    logKinds type.log = [type.token.kind] ∧
      (type.token.kind = .kwInt ∧ type.ty = .int ∨ type.token.kind = .kwChar ∧ type.ty = .char) :=
  ⟨rfl, h.tail.head⟩

theorem TypeName.mem_types (type : TypeName) (h : Regular type.log) :
    type.token.kind ∈ Grammar.types := by
  rcases (type.sentence h).2 with ⟨hkind, _⟩ | ⟨hkind, _⟩
  · rw [hkind]
    decide
  · rw [hkind]
    decide

/-- A constant that is set to a literal of its type. -/
theorem ConstItem.fits_of_regular {scope : Scope} {ty : Ty} {item : ConstItem}
    (h : Regular (item.log scope ty)) : item.init.fits ty = true := by
  have hcheck := h.tail.tail.tail.left.left
  cases hfits : item.init.fits ty with
  | true => rfl
  | false =>
      rw [Action.when, if_pos hfits] at hcheck
      cases (hcheck.head .constInitialiser List.mem_cons_self).1

theorem ConstDecl.sentence (scope : Scope) (decl : ConstDecl) (h : Regular (decl.log scope)) :
    Grammar.ConstDeclaration (logKinds (decl.log scope)) := by
  have hitems := h.tail.right.left
  have hend := h.tail.right.right.kinds_recoverLog rfl
  have hkinds : ∀ item : ConstItem, logKinds (item.log scope decl.type.ty) =
      .ident :: .assign :: logKinds item.init.takeLog := by
    intro item
    have hcheck := logKinds_when (item.init.fits decl.type.ty = false)
      (.report item.init.token.line .constInitialiser) rfl
    simp [ConstItem.log, ConstInit.log, Action.kinds, hcheck]
  obtain ⟨htype, hty⟩ := decl.type.sentence h.tail.left
  rcases hty with ⟨hkind, hty⟩ | ⟨hkind, hty⟩
  · have hlisted : Grammar.Listed (fun item => ∃ value, Grammar.Integer value ∧
        item = .ident :: .assign :: value)
        (logKinds (decl.items.log (ConstItem.log scope decl.type.ty))) := by
      refine decl.items.sentence ?_ hitems
      intro item hitem
      have hfits := ConstItem.fits_of_regular hitem
      refine ⟨_, ?_, hkinds item⟩
      have htake := hitem.tail.tail.tail.left.right
      cases hinit : item.init with
      | int literal =>
          rw [hinit] at htake
          exact literal.sentence htake
      | char literal | other token => simp [hinit, hty, ConstInit.fits] at hfits
    have hdecl := Grammar.ConstDeclaration.int hlisted
    simpa [ConstDecl.log, semicolonLog, Action.kinds, htype, hkind, hend] using hdecl
  · have hlisted : Grammar.Listed (· = [.ident, .assign, .charLit])
        (logKinds (decl.items.log (ConstItem.log scope decl.type.ty))) := by
      refine decl.items.sentence ?_ hitems
      intro item hitem
      have hfits := ConstItem.fits_of_regular hitem
      rw [hkinds item]
      cases hinit : item.init with
      | char literal => rfl
      | int literal | other token => simp [hinit, hty, ConstInit.fits] at hfits
    have hdecl := Grammar.ConstDeclaration.char hlisted
    simpa [ConstDecl.log, semicolonLog, Action.kinds, htype, hkind, hend] using hdecl

theorem VarDecl.sentence (scope : Scope) (decl : VarDecl) (h : Regular (decl.log scope)) :
    Grammar.VarDeclaration (logKinds (decl.log scope)) := by
  have hend := h.right.right.kinds_recoverLog rfl
  have hlisted : Grammar.Listed Grammar.Variable
      (logKinds (decl.items.log (VarItem.log scope decl.type.ty))) := by
    refine decl.items.sentence ?_ h.right.left
    intro item hitem
    unfold VarItem.log at hitem ⊢
    cases hsize : item.size with
    | none => exact .scalar
    | some size =>
        rw [hsize] at hitem
        have hclose := hitem.tail.tail.left.tail.right.kinds_recoverLog rfl
        simp only [Option.map_some, Option.getD_some, ArraySize.log, logKinds_cons,
          logKinds_append, hclose]
        exact .array
  have hdecl := Grammar.VarDeclaration.mk (decl.type.mem_types h.left) hlisted
  simpa [VarDecl.log, semicolonLog, (decl.type.sentence h.left).1, hend] using hdecl

theorem repeated_sentence {α : Type} {itemLog : α → List Action} {phrase : List TokenKind → Prop}
    (hitem : ∀ item, Regular (itemLog item) → phrase (logKinds (itemLog item)))
    (items : List α) (h : Regular (items.flatMap itemLog)) :
    Grammar.Repeated phrase (logKinds (items.flatMap itemLog)) := by
  induction items with
  | nil => exact .nil
  | cons item items ih =>
      rw [List.flatMap_cons] at h ⊢
      rw [logKinds_append]
      exact .cons (hitem item h.left) (ih h.right)

theorem Grammar.Repeated.append {phrase : List TokenKind → Prop} {front back : List TokenKind}
    (hfront : Repeated phrase front) (hback : Repeated phrase back) :
    Repeated phrase (front ++ back) := by
  induction hfront with
  | nil => exact hback
  | cons hfirst _ ih =>
      rw [List.append_assoc]
      exact .cons hfirst ih

/-- A phrase that is another phrase may stand for it in a repetition. -/
theorem Grammar.Repeated.mono {phrase other : List TokenKind → Prop} {ks : List TokenKind}
    (h : Repeated phrase ks) (hphrase : ∀ item, phrase item → other item) : Repeated other ks := by
  induction h with
  | nil => exact .nil
  | cons hfirst _ ih => exact .cons (hphrase _ hfirst) ih

theorem Param.sentence (function : String) (param : Param) (h : Regular (param.log function)) :
    Grammar.Parameter (logKinds (param.log function)) :=
  ⟨param.type.token.kind, param.type.mem_types h.left, rfl⟩

/-- Parameters are none, or a list, or a list with a comma behind it. -/
theorem Params.sentence (function : String) (params : Params) (h : Regular (params.log function)) :
    Grammar.Parameters (logKinds (params.log function)) := by
  induction params with
  | nil => exact .none
  | last param => exact .some (.one (param.sentence function h))
  | cons param comma rest ih =>
      have hparam := param.sentence function h.left
      have hkinds : logKinds ((Params.cons param comma rest).log function) =
          logKinds (param.log function) ++ .comma :: logKinds (rest.log function) := by
        simp [Params.log, Action.kinds]
      rw [hkinds]
      generalize logKinds (rest.log function) = more at ih
      cases ih h.right.tail with
      | none => exact .trailing (.one hparam)
      | some hmore => exact .some (.cons hparam hmore)
      | trailing hmore =>
          have htrailing := Grammar.Parameters.trailing (.cons hparam hmore)
          simpa using htrailing

theorem FunctionHead.sentence (head : FunctionHead) (h : Regular head.log) :
    Grammar.FunctionHead (logKinds head.log) := by
  cases head with
  | value type name lparen params rparen =>
      have hparams := h.right.tail.right.tail
      have hclose := hparams.right.kinds_recoverLog rfl
      have hhead := Grammar.FunctionHead.value (type.mem_types h.left)
        (params.sentence name.value hparams.left)
      simpa [FunctionHead.log, openFunctionLog, Action.kinds, (type.sentence h.left).1, hclose]
        using hhead
  | void keyword name lparen params rparen =>
      have hparams := h.tail.tail.right.tail
      have hclose := hparams.right.kinds_recoverLog rfl
      have hhead := Grammar.FunctionHead.void (params.sentence name.value hparams.left)
      simpa [FunctionHead.log, openFunctionLog, Action.kinds, hclose] using hhead
  | main keyword name lparen rparen =>
      have hclose := h.tail.tail.right.tail.kinds_recoverLog rfl
      have hhead := Grammar.FunctionHead.main
      simpa [FunctionHead.log, openFunctionLog, Action.kinds, hclose] using hhead

theorem Function.sentence (f : Function) (h : Regular f.log) :
    Grammar.TopLevel (logKinds f.log) := by
  have hbody := h.right.right.tail.left
  have hparts := Grammar.Body.mk
    (repeated_sentence (ConstDecl.sentence .local) f.body.consts hbody.left)
    (repeated_sentence (VarDecl.sentence .local) f.body.vars hbody.right.left)
    (Stmt.sentences f.head.ty f.body.stmts hbody.right.right.left)
  have hannounce : logKinds f.head.announceLog = [] := by
    apply logKinds_eq_nil
    rw [FunctionHead.announceLog, List.flatMap_cons, List.flatMap_map]
    simp [Action.tokens]
  have hreport := logKinds_when
    (f.head.ty ≠ .void ∧ Stmt.anyAlwaysReturns f.body.stmts = false)
    (.report f.rbrace.line .missingReturn) rfl
  have hret := logKinds_when (f.head.ty = .void) (.emit .retVoid) rfl
  have hfunction := Grammar.TopLevel.function (f.head.sentence h.left) hparts
  simp only [Function.log, Body.log, logKinds_append, logKinds_cons, logKinds_nil, hannounce,
    hreport, hret]
  simpa [Action.kinds] using hfunction

/-- The tokens of a program are one in the grammar. -/
theorem Program.sentence (program : Program) (h : Regular program.log) :
    Grammar.Program (logKinds program.log) := by
  have hitems := h.left
  rw [Program.log, logKinds_append]
  change Grammar.Repeated Grammar.TopLevel (_ ++ [])
  rw [List.append_nil]
  generalize program.items = items at hitems
  induction items with
  | nil => exact .nil
  | cons item items ih =>
      rw [List.flatMap_cons] at hitems ⊢
      rw [logKinds_append]
      refine Grammar.Repeated.append ?_ (ih hitems.right)
      cases item with
      | consts decls =>
          exact (repeated_sentence (ConstDecl.sentence .global) decls hitems.left).mono
            fun _ => .const
      | vars decls =>
          exact (repeated_sentence (VarDecl.sentence .global) decls hitems.left).mono fun _ => .var
      | function f =>
          have hone := Grammar.Repeated.cons (f.sentence hitems.left) .nil
          rwa [List.append_nil] at hone

theorem regular_of_compile {tokens : List Token} {c : Compilation} (h : compile tokens = .ok c)
    (hregular : ∀ d ∈ c.diagnostics, d.kind.isStructural = false ∧ d.kind ≠ .undefined) :
    Regular c.program.log := by
  obtain ⟨t, hplays, _, _⟩ := plays_of_compile h
  refine hplays.regular fun kind hkind => ?_
  obtain ⟨action, haction, hrecords⟩ := List.mem_flatMap.1 hkind
  obtain ⟨d, hd, rfl⟩ := reported_of_compile h haction hrecords
  exact hregular d hd

end OnePass
