import OnePass.Proofs.Log.Program
import OnePass.Proofs.Semantics.Steps

/-!
How the code of statements is laid out, and that no label is set twice: every label that is
given out is set in exactly one place.
-/

namespace OnePass

section Layout

def Expr.code (e : Expr) : List Instr :=
  e.log.flatMap Action.code

def Call.code (c : Call) : List Instr :=
  c.log.flatMap Action.code

/-- The operands of a condition are computed before its jump. -/
def Condition.code (label : Label) (sense : Sense) : Condition → List Instr
  | .test value => value.code ++ [.test value.value label sense]
  | .compare lhs relation _ rhs =>
    lhs.code ++ (rhs.code ++ [.compare relation lhs.value rhs.value label sense])

def NameRef.scanCode (ref : NameRef) : List Instr :=
  match ref.symbol with
  | none => []
  | some symbol => [.scan symbol.ty.asValue ref.token.value]

def printCode (value : Expr) : List Instr :=
  value.code ++ [value.printInstr, .printEnd]

def PrintItem.code : PrintItem → List Instr
  | .text _ index => [.printString index]
  | .textValue _ index _ v => .printString index :: printCode v
  | .value v => printCode v

mutual

/-- The code of a statement. -/
def Stmt.code : Stmt → List Instr
  | .ifThen _ guard body elseLabel endLabel =>
    guard.condition.code elseLabel .onFalse ++
      (body.code ++ [.jump endLabel, .label elseLabel, .label endLabel])
  | .ifElse _ guard body _ alternative elseLabel endLabel =>
    guard.condition.code elseLabel .onFalse ++
      (body.code ++ (.jump endLabel :: .label elseLabel ::
        (alternative.code ++ [.label endLabel])))
  | .whileLoop _ guard body loopLabel endLabel =>
    .label loopLabel :: (guard.condition.code endLabel .onFalse ++
      (body.code ++ [.jump loopLabel, .label endLabel]))
  | .doLoop _ body _ guard loopLabel =>
    .label loopLabel :: (body.code ++ guard.condition.code loopLabel .onTrue)
  | .forLoop _ header body loopLabel endLabel =>
    header.start.code ++ (.assign header.init.token.value header.start.value ::
      .label loopLabel :: (header.condition.code endLabel .onFalse ++
        (body.code ++ [header.stepInstr, .jump loopLabel, .label endLabel])))
  | .block _ body _ => Stmt.codes body
  | .call c _ => c.code
  | .unknownCall _ _ => []
  | .skipped => []
  | .assign target _ value _ => value.code ++ [.assign target.token.value value.value]
  | .assignElement target _ index _ _ value _ =>
    index.code ++ (value.code ++ [.assignElement target.token.value index.value value.value])
  | .scan _ _ targets _ _ => targets.toList.flatMap NameRef.scanCode
  | .print _ _ item _ _ => item.code
  | .ret _ _ => [.retVoid]
  | .retValue _ _ value _ _ => value.code ++ [.ret value.value]
  | .empty _ => []

/-- The code of several statements. -/
def Stmt.codes : List Stmt → List Instr
  | [] => []
  | stmt :: stmts => stmt.code ++ Stmt.codes stmts

end

end Layout

theorem code_of_idle {log : List Action} (h : log.all Action.idle = true) :
    log.flatMap Action.code = [] := by
  rw [List.flatMap_eq_nil_iff]
  intro action haction
  have hidle := List.all_eq_true.1 h action haction
  cases action with
  | emit instr => cases hidle
  | _ => rfl

@[simp]
theorem code_recoverLog (kind : TokenKind) (missing : DiagnosticKind) (found : Option Token) :
    (recoverLog kind missing found).flatMap Action.code = [] := by
  cases found <;> rfl

@[simp]
theorem code_semicolonLog (semicolon : Option Token) :
    (semicolonLog semicolon).flatMap Action.code = [] :=
  code_of_idle (all_semicolonLog _)

@[simp]
theorem code_readLog (ref : NameRef) : ref.readLog.flatMap Action.code = [] :=
  code_of_idle (all_readLog _)

@[simp]
theorem code_targetLog (ref : NameRef) : ref.targetLog.flatMap Action.code = [] :=
  code_of_idle (all_targetLog _)

@[simp]
theorem code_checkIndexLog (index : Expr) : (checkIndexLog index).flatMap Action.code = [] :=
  code_of_idle (all_checkIndexLog _)

@[simp]
theorem code_checkConditionLog (operand : Expr) :
    (checkConditionLog operand).flatMap Action.code = [] :=
  code_of_idle (all_checkConditionLog _)

@[simp]
theorem code_checkReturnLog (returnType ty : Ty) :
    (checkReturnLog returnType ty).flatMap Action.code = [] :=
  code_of_idle (all_checkReturnLog _ _)

@[simp]
theorem code_unsigned (lit : UnsignedLit) : lit.log.flatMap Action.code = [] := rfl

@[simp]
theorem Condition.code_log (label : Label) (sense : Sense) (c : Condition) :
    (c.log label sense).flatMap Action.code = c.code label sense := by
  cases c with
  | test value => simp [Condition.log, Condition.code, Expr.code, Action.code]
  | compare lhs relation opToken rhs =>
      simp [Condition.log, Condition.code, Expr.code, Action.code]

@[simp]
theorem NameRef.code_scanLog (ref : NameRef) :
    ref.scanLog.flatMap Action.code = ref.scanCode := by
  unfold NameRef.scanLog NameRef.scanCode
  cases ref.symbol <;> rfl

theorem CommaList.code_log {α : Type} {itemLog : α → List Action} {itemCode : α → List Instr}
    (hitem : ∀ item, (itemLog item).flatMap Action.code = itemCode item) (items : CommaList α) :
    (items.log itemLog).flatMap Action.code = items.toList.flatMap itemCode := by
  induction items with
  | one item => simp [CommaList.log, CommaList.toList, hitem]
  | cons item comma rest ih =>
      simp [CommaList.log, CommaList.toList, hitem, ih, Action.code]

@[simp]
theorem PrintItem.code_log (item : PrintItem) : item.log.flatMap Action.code = item.code := by
  cases item <;> simp [PrintItem.log, PrintItem.code, printValueLog, printCode, Expr.code, Action.code]

mutual

/-- The actions behind a statement emit its code. -/
theorem Stmt.code_log (returnType : Ty) : (stmt : Stmt) →
    (stmt.log returnType).flatMap Action.code = stmt.code
  | .ifThen _ _ body _ _ | .whileLoop _ _ body _ _ | .doLoop _ body _ _ _ | .forLoop _ _ body _ _ => by
      simp [Stmt.log, Stmt.code, Guard.log, ForHeader.log, Expr.code, Action.code,
        body.code_log returnType]
  | .ifElse _ _ body _ alternative _ _ => by
      simp [Stmt.log, Stmt.code, Guard.log, Action.code, body.code_log returnType,
        alternative.code_log returnType]
  | .block _ body _ => by
      simp [Stmt.log, Stmt.code, Action.code, Stmt.codes_logs returnType body]
  | .call _ _ | .unknownCall _ _ | .skipped | .assign _ _ _ _ | .assignElement _ _ _ _ _ _ _
  | .scan _ _ _ _ _ | .print _ _ _ _ _ | .ret _ _ | .retValue _ _ _ _ _ | .empty _ => by
      simp [Stmt.log, Stmt.code, Call.code, Expr.code, unknownCallLog, Action.code,
        CommaList.code_log NameRef.code_scanLog]

theorem Stmt.codes_logs (returnType : Ty) : (stmts : List Stmt) →
    (Stmt.logs returnType stmts).flatMap Action.code = Stmt.codes stmts
  | [] => by
      simp [Stmt.logs, Stmt.codes]
  | stmt :: stmts => by
      simp [Stmt.logs, Stmt.codes, stmt.code_log returnType, Stmt.codes_logs returnType stmts]

end

namespace Action

/-- The label that an action gives out. -/
def label? : Action → Option Label
  | label l => some l
  | _ => none

/-- Whether an action neither gives out a label nor sets one. -/
def labelFree : Action → Bool
  | emit instr => instr.label?.isNone
  | label _ => false
  | _ => true

instance : Passive labelFree := {}

instance : Declarative labelFree := {}

instance : Evaluative labelFree where
  emit instr h := by
    cases instr with
    | label l => cases h
    | _ => rfl

end Action

/-- The labels that are set in a piece of code. -/
abbrev setLabels (code : List Instr) : List Label :=
  code.filterMap Instr.label?

/-- The labels that a log gives out. -/
abbrev givenLabels (log : List Action) : List Label :=
  log.filterMap Action.label?

@[simp]
theorem setLabels_cons (instr : Instr) (code : List Instr) :
    setLabels (instr :: code) = instr.label?.toList ++ setLabels code := by
  cases h : instr.label? <;> simp [h]

@[simp]
theorem setLabels_append (front back : List Instr) :
    setLabels (front ++ back) = setLabels front ++ setLabels back :=
  List.filterMap_append

@[simp]
theorem givenLabels_cons (action : Action) (log : List Action) :
    givenLabels (action :: log) = action.label?.toList ++ givenLabels log := by
  cases h : action.label? <;> simp [h]

@[simp]
theorem givenLabels_append (front back : List Action) :
    givenLabels (front ++ back) = givenLabels front ++ givenLabels back :=
  List.filterMap_append

theorem setLabels_of_labelFree {log : List Action} (h : log.all Action.labelFree = true) :
    setLabels (log.flatMap Action.code) = [] := by
  rw [setLabels, List.filterMap_eq_nil_iff]
  intro instr hinstr
  obtain ⟨action, haction, hcode⟩ := List.mem_flatMap.1 hinstr
  have hfree := List.all_eq_true.1 h action haction
  cases action with
  | emit other =>
      obtain rfl := List.mem_singleton.1 hcode
      exact Option.isNone_iff_eq_none.1 hfree
  | _ => cases hcode

theorem givenLabels_of_labelFree {log : List Action} (h : log.all Action.labelFree = true) :
    givenLabels log = [] := by
  rw [givenLabels, List.filterMap_eq_nil_iff]
  intro action haction
  have hfree := List.all_eq_true.1 h action haction
  cases action with
  | label l => cases hfree
  | _ => rfl

theorem Condition.all_labelFree (label : Label) (sense : Sense) (c : Condition) :
    (c.log label sense).all Action.labelFree = true := by
  cases c with
  | test value =>
      cases sense <;> simp [log, Instr.test, all_checkConditionLog, Action.labelFree, Instr.label?]
  | compare lhs relation opToken rhs =>
      simp [log, Instr.compare, all_checkConditionLog, Action.labelFree, Instr.label?]

theorem NameRef.all_labelFree_scanLog (ref : NameRef) :
    ref.scanLog.all Action.labelFree = true := by
  unfold NameRef.scanLog
  cases ref.symbol <;> rfl

theorem PrintItem.all_labelFree (item : PrintItem) : item.log.all Action.labelFree = true := by
  have hvalue : ∀ value : Expr, (printValueLog value).all Action.labelFree = true := by
    intro value
    cases hty : value.ty <;>
      simp [printValueLog, Expr.printInstr, hty, Action.labelFree, Instr.label?]
  cases item <;> simp [log, hvalue, Action.labelFree, Instr.label?]

@[simp]
theorem setLabels_condition (label : Label) (sense : Sense) (c : Condition) :
    setLabels (c.code label sense) = [] := by
  rw [← c.code_log label sense]
  exact setLabels_of_labelFree (c.all_labelFree label sense)

@[simp]
theorem givenLabels_condition (label : Label) (sense : Sense) (c : Condition) :
    givenLabels (c.log label sense) = [] :=
  givenLabels_of_labelFree (c.all_labelFree label sense)

@[simp]
theorem givenLabels_recoverLog (kind : TokenKind) (missing : DiagnosticKind)
    (found : Option Token) : givenLabels (recoverLog kind missing found) = [] := by
  cases found <;> rfl

@[simp]
theorem setLabels_expr (e : Expr) : setLabels e.code = [] :=
  setLabels_of_labelFree e.all_log

@[simp]
theorem ForHeader.givenLabels_log (header : ForHeader) (loopLabel endLabel : Label) :
    givenLabels (header.log loopLabel endLabel) = [loopLabel, endLabel] := by
  have hread : ∀ ref : NameRef, givenLabels ref.readLog = [] := fun ref =>
    givenLabels_of_labelFree (all_readLog ref)
  have htarget : ∀ ref : NameRef, givenLabels ref.targetLog = [] := fun ref =>
    givenLabels_of_labelFree (all_targetLog ref)
  have hstart : givenLabels header.start.log = [] := givenLabels_of_labelFree header.start.all_log
  have hamount : givenLabels header.amount.log = [] := rfl
  simp [log, semicolonLog, Action.label?, hread, htarget, hstart, hamount]

/-- Statements that neither need nor set a label. -/
theorem Stmt.perm_labels_of_labelFree {stmt : Stmt} {returnType : Ty}
    (h : (stmt.log returnType).all Action.labelFree = true) :
    (setLabels stmt.code).Perm (givenLabels (stmt.log returnType)) := by
  rw [← stmt.code_log returnType, setLabels_of_labelFree h, givenLabels_of_labelFree h]

mutual

/-- Every label that a statement is given is set once in its code, and no other. -/
theorem Stmt.perm_labels (returnType : Ty) : (stmt : Stmt) →
    (setLabels stmt.code).Perm (givenLabels (stmt.log returnType))
  | .ifThen _ _ body _ _ => by
      have hbody := fun l => (body.perm_labels returnType).count_eq l
      rw [List.perm_iff_count]
      intro l
      simp [Stmt.code, Stmt.log, Guard.log, Instr.label?, Action.label?, List.count_cons, hbody,
        -List.filterMap_append]
      omega
  | .ifElse _ _ body _ alternative _ _ => by
      have hbody := fun l => (body.perm_labels returnType).count_eq l
      have halternative := fun l => (alternative.perm_labels returnType).count_eq l
      rw [List.perm_iff_count]
      intro l
      simp [Stmt.code, Stmt.log, Guard.log, Instr.label?, Action.label?, List.count_cons, hbody,
        halternative, -List.filterMap_append]
      omega
  | .whileLoop _ _ body _ _ | .doLoop _ body _ _ _ | .forLoop _ _ body _ _ => by
      have hbody := fun l => (body.perm_labels returnType).count_eq l
      rw [List.perm_iff_count]
      intro l
      simp [Stmt.code, Stmt.log, Guard.log, ForHeader.stepInstr, Instr.label?, Action.label?,
        List.count_cons, hbody]
  | .block _ body _ => by
      simpa [Stmt.code, Stmt.log, Action.label?] using Stmt.perm_labels_logs returnType body
  | .call _ _ | .unknownCall _ _ | .skipped | .assign _ _ _ _ | .assignElement _ _ _ _ _ _ _
  | .scan _ _ _ _ _ | .print _ _ _ _ _ | .ret _ _ | .retValue _ _ _ _ _ | .empty _ => by
      apply Stmt.perm_labels_of_labelFree
      simp [Stmt.log, unknownCallLog, Action.labelFree, Instr.label?, all_targetLog,
        all_checkIndexLog, all_recoverLog, all_checkReturnLog, all_semicolonLog,
        PrintItem.all_labelFree, CommaList.all_log NameRef.all_labelFree_scanLog]

theorem Stmt.perm_labels_logs (returnType : Ty) : (stmts : List Stmt) →
    (setLabels (Stmt.codes stmts)).Perm (givenLabels (Stmt.logs returnType stmts))
  | [] => by
      rw [Stmt.codes, Stmt.logs]
      exact .nil
  | stmt :: stmts => by
      simp only [Stmt.codes, Stmt.logs, setLabels, givenLabels, List.filterMap_append]
      exact (stmt.perm_labels returnType).append (Stmt.perm_labels_logs returnType stmts)

end

/-- The labels that a log gives out are set once each in its code, and no others. -/
def SetsLabels (log : List Action) : Prop :=
  (setLabels (log.flatMap Action.code)).Perm (givenLabels log)

namespace SetsLabels

theorem of_labelFree {log : List Action} (h : log.all Action.labelFree = true) : SetsLabels log := by
  rw [SetsLabels, setLabels_of_labelFree h, givenLabels_of_labelFree h]

theorem append {front back : List Action} (hfront : SetsLabels front) (hback : SetsLabels back) :
    SetsLabels (front ++ back) := by
  simp only [SetsLabels, setLabels, givenLabels, List.flatMap_append, List.filterMap_append]
  exact List.Perm.append hfront hback

theorem flatMap {α : Type} {itemLog : α → List Action} {items : List α}
    (h : ∀ item, SetsLabels (itemLog item)) : SetsLabels (items.flatMap itemLog) := by
  induction items with
  | nil => exact of_labelFree rfl
  | cons item items ih =>
      rw [List.flatMap_cons]
      exact (h item).append ih

end SetsLabels

theorem VarDecl.all_labelFree (scope : Scope) (decl : VarDecl) :
    (decl.log scope).all Action.labelFree = true :=
  decl.all_log_of (fun _ => rfl) (fun _ _ => rfl) fun _ _ _ => rfl

theorem FunctionHead.all_labelFree_announceLog (head : FunctionHead) :
    head.announceLog.all Action.labelFree = true := by
  rw [announceLog, List.all_cons, List.all_map]
  exact List.all_eq_true.2 fun _ _ => rfl

theorem Function.setsLabels (function : Function) : SetsLabels function.log := by
  have hstmts : SetsLabels (Stmt.logs function.head.ty function.body.stmts) := by
    unfold SetsLabels
    rw [Stmt.codes_logs]
    exact Stmt.perm_labels_logs _ _
  have hconsts : SetsLabels (function.body.consts.flatMap (ConstDecl.log .local)) :=
    .flatMap fun decl => .of_labelFree (decl.all_log .local)
  have hvars : SetsLabels (function.body.vars.flatMap (VarDecl.log .local)) :=
    .flatMap fun decl => .of_labelFree (decl.all_labelFree .local)
  unfold Function.log Body.log
  refine (SetsLabels.of_labelFree function.head.all_log).append ?_
  refine (SetsLabels.of_labelFree function.head.all_labelFree_announceLog).append ?_
  have hbrace : SetsLabels [.take .lbrace function.lbrace] := .of_labelFree rfl
  refine hbrace.append ?_
  refine (hconsts.append (hvars.append (hstmts.append ?_))).append ?_
  · exact .of_labelFree (all_when _ _ rfl)
  · exact (SetsLabels.of_labelFree (all_when _ _ rfl)).append (.of_labelFree rfl)

/-- The labels of a whole program. -/
theorem Program.setsLabels (program : Program) : SetsLabels program.log := by
  unfold Program.log
  refine SetsLabels.append (.flatMap ?_) (.of_labelFree rfl)
  intro item
  cases item with
  | consts decls => exact .flatMap fun decl => .of_labelFree (decl.all_log .global)
  | vars decls => exact .flatMap fun decl => .of_labelFree (decl.all_labelFree .global)
  | function f => exact f.setsLabels

/-- No label is given out twice. -/
theorem Plays.nodup_givenLabels {log : List Action} {s t : State} (h : Plays log s t) :
    (givenLabels log).Nodup ∧ ∀ l ∈ givenLabels log, s.counters.labels ≤ l.number := by
  induction log generalizing s with
  | nil => simp [givenLabels]
  | cons action log ih =>
      obtain ⟨u, haction, hlog⟩ := h
      obtain ⟨hnodup, hlater⟩ := ih hlog
      have hone : Plays [action] s u := ⟨u, haction, rfl⟩
      have hle := hone.labels_le
      cases hcase : action.label? with
      | none =>
          rw [givenLabels, List.filterMap_cons_none hcase]
          exact ⟨hnodup, fun l hl => Nat.le_trans hle (hlater l hl)⟩
      | some l =>
          rw [givenLabels, List.filterMap_cons_some hcase]
          cases action with
          | label given =>
              obtain rfl := Option.some.inj hcase
              cases haction
              refine ⟨List.nodup_cons.2 ⟨?_, hnodup⟩, ?_⟩
              · intro hmem
                exact Nat.lt_irrefl _ (hlater _ hmem)
              · intro other hother
                rcases List.mem_cons.1 hother with rfl | hother
                · exact Nat.le_refl _
                · exact Nat.le_trans hle (hlater other hother)
          | _ => cases hcase

end OnePass
