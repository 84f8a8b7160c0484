import OnePass.Proofs.Log.Expr

/-!
The actions behind a statement. A jump stands in the log where it is emitted, which for a
loop with its step behind the body is not where the step was read.
-/

namespace OnePass

namespace NameRef

/-- A name that is assigned to. -/
def targetLog (ref : NameRef) : List Action :=
  ref.log ++
    match ref.symbol with
    | none => [.report ref.token.line .undefined]
    | some symbol => Action.when (symbol.kind = .const) (.report ref.token.line .assignToConst)

/-- A name that a value is read into. -/
def scanLog (ref : NameRef) : List Action :=
  ref.log ++
    match ref.symbol with
    | none => [.report ref.token.line .undefined]
    | some symbol => [.emit (.scan symbol.ty.asValue ref.token.value)]

end NameRef

/-- The actions behind items with commas between them. -/
def CommaList.log {α : Type} (itemLog : α → List Action) : CommaList α → List Action
  | .one item => itemLog item
  | .cons item comma rest => itemLog item ++ (.take .comma comma :: rest.log itemLog)

theorem CommaList.subset_log {α : Type} {itemLog : α → List Action} {item : α}
    {items : CommaList α} (h : item ∈ items.toList) : itemLog item ⊆ items.log itemLog := by
  intro action haction
  induction items with
  | one other =>
      obtain rfl := List.mem_singleton.1 h
      exact haction
  | cons other comma rest ih =>
      rcases List.mem_cons.1 h with rfl | h
      · simp [log, haction]
      · simp [log, ih h]

def Guard.log (label : Label) (sense : Sense) (guard : Guard) : List Action :=
  .take .lparen guard.lparen ::
    (guard.condition.log label sense ++ recoverLog .rparen .missingParen guard.rparen)

/-- The instruction that prints a value. -/
def Expr.printInstr (value : Expr) : Instr :=
  match value.ty with
  | .char => .printChar value.value
  | _ => .printInt value.value

def printValueLog (value : Expr) : List Action :=
  value.log ++ [.emit value.printInstr, .emit .printEnd]

def PrintItem.log : PrintItem → List Action
  | .text literal index =>
    [.take .strLit literal, .intern literal.value index, .emit (.printString index)]
  | .textValue literal index comma v =>
    .take .strLit literal :: .intern literal.value index :: .emit (.printString index) ::
      .take .comma comma :: printValueLog v
  | .value v => printValueLog v

def checkReturnLog (returnType ty : Ty) : List Action :=
  if returnType = .void ∧ ty ≠ .void then [.reportHere .returnInVoid]
  else Action.when (returnType ≠ ty) (.reportHere .missingReturn)

def semicolonLog (semicolon : Option Token) : List Action :=
  recoverLog .semicolon .missingSemicolon semicolon

/-- The actions behind the header of a counting loop, all but the step. -/
def ForHeader.log (header : ForHeader) (loopLabel endLabel : Label) : List Action :=
  .take .lparen header.lparen :: (header.init.targetLog ++ (.take .assign header.initAssign ::
    (header.start.log ++ (.emit (.assign header.init.token.value header.start.value) ::
      .label loopLabel :: .emit (.label loopLabel) :: (semicolonLog header.initEnd ++
        (.label endLabel :: (header.condition.log endLabel .onFalse ++
          (semicolonLog header.conditionEnd ++ (header.target.targetLog ++
            (.take .assign header.stepAssign :: (header.source.readLog ++
              (.take header.opToken.kind header.opToken ::
                .check (ArithOp.additive? header.opToken.kind = some header.op) ::
                (header.amount.log ++
                  recoverLog .rparen .missingParen header.rparen)))))))))))))

/-- The actions in front of the body of a conditional. -/
def ifHeadLog (keyword : Token) (guard : Guard) (elseLabel : Label) : List Action :=
  .take .kwIf keyword :: .label elseLabel :: guard.log elseLabel .onFalse

/-- The actions in front of the body of a loop that tests first. -/
def whileHeadLog (keyword : Token) (guard : Guard) (loopLabel endLabel : Label) : List Action :=
  .take .kwWhile keyword :: .label loopLabel :: .emit (.label loopLabel) ::
    .take .lparen guard.lparen :: .label endLabel :: (guard.condition.log endLabel .onFalse ++
      recoverLog .rparen .missingParen guard.rparen)

/-- The actions in front of the body of a loop that tests last. -/
def doHeadLog (keyword : Token) (loopLabel : Label) : List Action :=
  [.take .kwDo keyword, .label loopLabel, .emit (.label loopLabel)]

/-- The actions in front of the body of a counting loop. -/
def forHeadLog (keyword : Token) (header : ForHeader) (loopLabel endLabel : Label) : List Action :=
  .take .kwFor keyword :: header.log loopLabel endLabel

/-- The step of a counting loop. -/
def ForHeader.stepInstr (header : ForHeader) : Instr :=
  .step header.target.token.value header.source.token.value header.op header.amount.value

mutual

/-- The actions of a pass that reads a statement of a function with the given return type. -/
def Stmt.log (returnType : Ty) : Stmt → List Action
  | .ifThen keyword guard body elseLabel endLabel =>
    .take .kwIf keyword :: .label elseLabel :: (guard.log elseLabel .onFalse ++
      (body.log returnType ++ [.label endLabel, .emit (.jump endLabel), .emit (.label elseLabel),
        .emit (.label endLabel)]))
  | .ifElse keyword guard body elseKeyword alternative elseLabel endLabel =>
    .take .kwIf keyword :: .label elseLabel :: (guard.log elseLabel .onFalse ++
      (body.log returnType ++ (.label endLabel :: .emit (.jump endLabel) ::
        .emit (.label elseLabel) :: .take .kwElse elseKeyword ::
        (alternative.log returnType ++ [.emit (.label endLabel)]))))
  | .whileLoop keyword guard body loopLabel endLabel =>
    .take .kwWhile keyword :: .label loopLabel :: .emit (.label loopLabel) ::
      .take .lparen guard.lparen :: .label endLabel :: (guard.condition.log endLabel .onFalse ++
        (recoverLog .rparen .missingParen guard.rparen ++
          (body.log returnType ++ [.emit (.jump loopLabel), .emit (.label endLabel)])))
  | .doLoop keyword body whileKeyword guard loopLabel =>
    .take .kwDo keyword :: .label loopLabel :: .emit (.label loopLabel) ::
      (body.log returnType ++ (recoverLog .kwWhile .missingWhile whileKeyword ++
        guard.log loopLabel .onTrue))
  | .forLoop keyword header body loopLabel endLabel =>
    .take .kwFor keyword :: (header.log loopLabel endLabel ++ (body.log returnType ++
      [.emit header.stepInstr, .emit (.jump loopLabel), .emit (.label endLabel)]))
  | .block lbrace body rbrace =>
    .take .lbrace lbrace :: (Stmt.logs returnType body ++ [.take .rbrace rbrace])
  | .call c semicolon =>
    .callee c.name.value (some c.callee) :: (c.log ++ semicolonLog semicolon)
  | .unknownCall name semicolon => unknownCallLog name ++ semicolonLog semicolon
  | .skipped => [.skipStatement]
  | .assign target eq value semicolon =>
    target.targetLog ++ (.take .assign eq :: (value.log ++
      (.emit (.assign target.token.value value.value) :: semicolonLog semicolon)))
  | .assignElement target lbracket index rbracket eq value semicolon =>
    target.targetLog ++ (.take .lbracket lbracket :: (index.log ++ (checkIndexLog index ++
      (recoverLog .rbracket .missingBracket rbracket ++ (.take .assign eq :: (value.log ++
        (.emit (.assignElement target.token.value index.value value.value) ::
          semicolonLog semicolon)))))))
  | .scan keyword lparen targets rparen semicolon =>
    .take .kwScanf keyword :: .take .lparen lparen :: (targets.log NameRef.scanLog ++
      (recoverLog .rparen .missingParen rparen ++ semicolonLog semicolon))
  | .print keyword lparen item rparen semicolon =>
    .take .kwPrintf keyword :: .take .lparen lparen :: (item.log ++
      (recoverLog .rparen .missingParen rparen ++ semicolonLog semicolon))
  | .ret keyword semicolon =>
    .take .kwReturn keyword :: .emit .retVoid ::
      (checkReturnLog returnType .void ++ semicolonLog semicolon)
  | .retValue keyword lparen value rparen semicolon =>
    .take .kwReturn keyword :: .take .lparen lparen :: (value.log ++ (.emit (.ret value.value) ::
      (recoverLog .rparen .missingParen rparen ++ (checkReturnLog returnType value.ty ++
        semicolonLog semicolon))))
  | .empty semicolon => [.take .semicolon semicolon]

/-- The actions behind a list of statements. -/
def Stmt.logs (returnType : Ty) : List Stmt → List Action
  | [] => []
  | stmt :: stmts => stmt.log returnType ++ Stmt.logs returnType stmts

end

section Passive

variable {p : Action → Bool} [Action.Passive p]

open OnePass.Action (Passive)

@[simp]
theorem all_targetLog (ref : NameRef) : ref.targetLog.all p = true := by
  unfold NameRef.targetLog NameRef.log
  cases ref.symbol <;> simp [Passive.take, Passive.nearest, Passive.report]

@[simp]
theorem all_checkReturnLog (returnType ty : Ty) : (checkReturnLog returnType ty).all p = true := by
  unfold checkReturnLog
  split <;> simp [Passive.reportHere]

@[simp]
theorem all_semicolonLog (semicolon : Option Token) : (semicolonLog semicolon).all p = true :=
  all_recoverLog _ _ _

theorem CommaList.all_log {α : Type} {itemLog : α → List Action}
    (hitem : ∀ item, (itemLog item).all p = true) (items : CommaList α) :
    (items.log itemLog).all p = true := by
  induction items with
  | one item => exact hitem item
  | cons item comma rest ih =>
      rw [CommaList.log, List.all_append, List.all_cons, hitem, ih, Passive.take (p := p) .comma comma]
      rfl

end Passive

section Executive

variable {p : Action → Bool} [Action.Executive p]

open OnePass.Action (Passive Executive)

@[simp]
theorem Condition.all_log (label : Label) (sense : Sense) (c : Condition) :
    (c.log label sense).all p = true := by
  cases c with
  | test value =>
      have htest : p (.emit (.test value.value label sense)) = true := by
        cases sense <;> exact Executive.emit _ rfl
      simp [Condition.log, htest]
  | compare lhs relation opToken rhs =>
      have hcompare := Executive.emit (p := p)
        (.compare relation lhs.value rhs.value label sense) rfl
      simp [Condition.log, Passive.take, Passive.check, hcompare]

@[simp]
theorem Guard.all_log (label : Label) (sense : Sense) (guard : Guard) :
    (guard.log label sense).all p = true := by
  simp [Guard.log, Passive.take]

theorem NameRef.all_scanLog (ref : NameRef) : ref.scanLog.all p = true := by
  unfold NameRef.scanLog NameRef.log
  have hscan := fun ty => Executive.emit (p := p) (.scan ty ref.token.value) rfl
  cases ref.symbol <;> simp [Passive.take, Passive.nearest, Passive.report, hscan]

@[simp]
theorem PrintItem.all_log (item : PrintItem) : item.log.all p = true := by
  have hvalue : ∀ value : Expr, (printValueLog value).all p = true := by
    intro value
    have hprint : p (.emit value.printInstr) = true := by
      unfold Expr.printInstr
      split <;> exact Executive.emit _ rfl
    have hend := Executive.emit (p := p) .printEnd rfl
    simp [printValueLog, hprint, hend]
  have htext := fun index => Executive.emit (p := p) (.printString index) rfl
  cases item <;> simp [PrintItem.log, Passive.take, Executive.intern, htext, hvalue]

@[simp]
theorem ForHeader.all_log (header : ForHeader) (loopLabel endLabel : Label) :
    (header.log loopLabel endLabel).all p = true := by
  have hassign := Executive.emit (p := p) (.assign header.init.token.value header.start.value) rfl
  have hlabel := Executive.emit (p := p) (.label loopLabel) rfl
  simp [ForHeader.log, Passive.take, Passive.check, Executive.label, hassign, hlabel]

end Executive

open OnePass.Action (Passive Executive)

mutual

theorem Stmt.all_log {p : Action → Bool} [Executive p] (returnType : Ty) : (stmt : Stmt) →
    (stmt.log returnType).all p = true
  | .ifThen _ _ body _ _ | .whileLoop _ _ body _ _ | .doLoop _ body _ _ _ => by
      have hjump := fun l => Executive.emit (p := p) (.jump l) rfl
      have hlabel := fun l => Executive.emit (p := p) (.label l) rfl
      simp [Stmt.log, body.all_log returnType, Passive.take, Executive.label, hjump, hlabel]
  | .ifElse _ _ body _ alternative _ _ => by
      have hjump := fun l => Executive.emit (p := p) (.jump l) rfl
      have hlabel := fun l => Executive.emit (p := p) (.label l) rfl
      simp [Stmt.log, body.all_log returnType, alternative.all_log returnType, Passive.take,
        Executive.label, hjump, hlabel]
  | .forLoop _ header body loopLabel endLabel => by
      have hstep := Executive.emit (p := p) header.stepInstr rfl
      have hjump := Executive.emit (p := p) (.jump loopLabel) rfl
      have hlabel := Executive.emit (p := p) (.label endLabel) rfl
      simp [Stmt.log, body.all_log returnType, Passive.take, hstep, hjump, hlabel]
  | .block _ body _ => by simp [Stmt.log, Stmt.all_logs returnType body, Passive.take]
  | .call _ _ | .unknownCall _ _ | .skipped => by
      simp [Stmt.log, unknownCallLog, Executive.callee, Executive.skipCall,
        Executive.skipStatement]
  | .assign target _ value _ => by
      have hassign := Executive.emit (p := p) (.assign target.token.value value.value) rfl
      simp [Stmt.log, Passive.take, hassign]
  | .assignElement target _ index _ _ value _ => by
      have hassign := Executive.emit (p := p)
        (.assignElement target.token.value index.value value.value) rfl
      simp [Stmt.log, Passive.take, hassign]
  | .scan _ _ targets _ _ => by
      have htargets := targets.all_log (p := p) NameRef.all_scanLog
      simp [Stmt.log, htargets, Passive.take]
  | .ret _ _ | .retValue _ _ _ _ _ => by
      have hvoid := Executive.emit (p := p) .retVoid rfl
      have hret := fun value => Executive.emit (p := p) (.ret value) rfl
      simp [Stmt.log, Passive.take, hvoid, hret]
  | .print _ _ _ _ _ | .empty _ => by simp [Stmt.log, Passive.take]

theorem Stmt.all_logs {p : Action → Bool} [Executive p] (returnType : Ty) :
    (stmts : List Stmt) → (Stmt.logs returnType stmts).all p = true
  | [] => by simp [Stmt.logs]
  | stmt :: stmts => by simp [Stmt.logs, stmt.all_log returnType, Stmt.all_logs returnType stmts]

end

section Tokens

@[simp]
theorem tokens_checkReturnLog (returnType ty : Ty) :
    (checkReturnLog returnType ty).flatMap Action.tokens = [] := by
  unfold checkReturnLog
  split
  · rfl
  · exact tokens_when _ _ rfl

end Tokens

namespace Pass

variable {α : Type}

theorem follows_commaList {item : Pass α} {itemLog : α → List Action}
    (hitem : Follows item itemLog) : Follows (commaList item) (CommaList.log itemLog) := by
  intro s items t h
  refine commaList_ok (P := fun s items t => Plays (items.log itemLog) s t) ?_ ?_ h
  · intro s t a h
    exact hitem s a t h
  · intro s u v t a comma rest ha hcomma hrest
    simp only [CommaList.log, plays_cons, plays_append]
    exact ⟨u, hitem s a u ha, v, accept_eq_some.1 hcomma, hrest⟩

theorem follows_target : Follows (expect .ident >>= resolveTarget) NameRef.targetLog := by
  refine .of_completes (.name fun ref => ?_)
  obtain ⟨token, symbol⟩ := ref
  cases symbol with
  | none => exact .bind (.report _ _) fun _ => .pure rfl
  | some symbol => exact .joined (.report _ _) (.pure rfl)

/-- A name that is assigned to. -/
theorem Completes.target {before : List Action} {log : α → List Action} {next : NameRef → Pass α}
    (hnext : ∀ ref, Completes (before ++ ref.targetLog) (next ref) log) :
    Completes before (expect .ident >>= fun name => resolveTarget name >>= next) log := by
  have h := Completes.bind follows_target hnext
  rwa [bind_assoc] at h

theorem follows_scanTarget : Follows scanTarget NameRef.scanLog := by
  refine .of_completes (.name fun ref => ?_)
  obtain ⟨token, symbol⟩ := ref
  cases symbol with
  | none => exact .bind (.report _ _) fun _ => .pure rfl
  | some symbol => exact .bind (.emit _) fun _ => .pure rfl

theorem follows_guarded (label : Label) (sense : Sense) :
    Follows (guarded label sense) (Guard.log label sense) :=
  .of_completes (.bind (.expect _) fun _ => .bind (follows_condition _ _) fun _ =>
    .bind (.recover _ _) fun _ => .pure (by simp [Guard.log]))

theorem follows_checkReturn (returnType ty : Ty) :
    Follows (checkReturn returnType ty) fun _ => checkReturnLog returnType ty :=
  .ite (.reportHere _) (.when (.reportHere _))

theorem follows_printValue : Follows printValue printValueLog := by
  refine .of_completes (.bind follows_expression fun value => ?_)
  cases hty : value.ty <;>
    exact .bind (.emit _) fun _ => .bind (.emit _) fun _ =>
      .pure (by simp [printValueLog, Expr.printInstr, hty])

theorem follows_printItem : Follows printItem PrintItem.log := by
  intro s item t h
  obtain ⟨isText, u, hisText, h⟩ := bind_eq_ok.1 h
  obtain ⟨htext, rfl⟩ := nextIs_eq_ok.1 hisText
  cases isText with
  | false =>
      obtain ⟨value, v, hvalue, h⟩ := bind_eq_ok.1 h
      obtain ⟨rfl, rfl⟩ := pure_eq_ok.1 h
      exact follows_printValue s value v hvalue
  | true =>
      obtain ⟨literal, s₁, hliteral, h⟩ := bind_eq_ok.1 h
      have hkind : literal.kind = .strLit := by
        have hpeek := peekKind?_of_advance hliteral
        simpa [Cursor.nextIs, hpeek] using htext.symm
      refine Completes.bind (.intern _) (fun _ => .bind (.emit _) fun _ => .accept ?_ fun _ => ?_)
        s s₁ item t (plays_take hkind hliteral) h
      · exact .pure (by simp [PrintItem.log])
      · exact .bind follows_printValue fun _ => .pure (by simp [PrintItem.log])

theorem follows_assignment (returnType : Ty) : Follows assignment (Stmt.log returnType) := by
  refine .of_completes (.target fun _ => .accept ?_ fun _ => ?_)
  · exact .bind (.expect _) fun _ => .bind follows_expression fun _ => .bind (.emit _) fun _ =>
      .bind (.recover _ _) fun _ => .pure (by simp [Stmt.log, semicolonLog])
  · exact .bind follows_expression fun _ => .bind (.when (.reportHere _)) fun _ =>
      .bind (.recover _ _) fun _ => .bind (.expect _) fun _ => .bind follows_expression fun _ =>
        .bind (.emit _) fun _ => .bind (.recover _ _) fun _ =>
          .pure (by simp [Stmt.log, checkIndexLog, semicolonLog])

theorem follows_nameStatement (returnType : Ty) {token : Token} {s t : State} {stmt : Stmt}
    (hnext : s.cursor.rest.head? = some token) (hkind : token.kind = .ident)
    (h : nameStatement token.value s = .ok stmt t) : Plays (stmt.log returnType) s t := by
  obtain ⟨kind, u, hpeek, h⟩ := bind_eq_ok.1 h
  obtain ⟨_, rfl⟩ := peekKind_eq_ok.1 hpeek
  by_cases hparen : kind = some .lparen
  · rw [if_pos hparen] at h
    obtain ⟨found, u, hfound, h⟩ := bind_eq_ok.1 h
    cases hfound
    cases hcallee : s.scopes.function? token.value with
    | none =>
        rw [hcallee] at h
        obtain ⟨fn, s₁, hskip, h⟩ := bind_eq_ok.1 h
        exact Completes.bind (.recover _ _) (fun _ => .pure (by simp [Stmt.log, semicolonLog])) s s₁
          stmt t (plays_unknownCall hnext hkind hcallee hskip) h
    | some callee =>
        rw [hcallee] at h
        obtain ⟨c, s₁, hcall, h⟩ := bind_eq_ok.1 h
        exact Completes.bind (.recover _ _) (fun _ => .pure (by simp [Stmt.log, semicolonLog])) s s₁
          stmt t (follows_call follows_expression hnext hcallee hcall) h
  · rw [if_neg hparen] at h
    obtain ⟨symbol, u, hsymbol, h⟩ := bind_eq_ok.1 h
    cases hsymbol
    by_cases hunknown : (s.scopes.nearest? token.value).isNone = true
    · rw [if_pos hunknown] at h
      obtain ⟨name, s₁, hname, h⟩ := bind_eq_ok.1 h
      obtain ⟨_, s₂, hreport, h⟩ := bind_eq_ok.1 h
      obtain ⟨_, s₃, hskip, h⟩ := bind_eq_ok.1 h
      obtain ⟨rfl, rfl⟩ := pure_eq_ok.1 h
      simp only [Stmt.log, plays_cons, plays_nil]
      exact ⟨s₃, ⟨name, s₁, s₂, hname, hreport, hskip⟩, rfl⟩
    · rw [if_neg hunknown] at h
      exact follows_assignment returnType s stmt t h

theorem follows_scan (returnType : Ty) : Follows scan (Stmt.log returnType) :=
  .of_completes (.bind (.expect _) fun _ => .bind (.expect _) fun _ =>
    .bind (follows_commaList follows_scanTarget) fun _ => .bind (.recover _ _) fun _ =>
      .bind (.recover _ _) fun _ => .pure (by simp [Stmt.log, semicolonLog]))

theorem follows_print (returnType : Ty) : Follows print (Stmt.log returnType) :=
  .of_completes (.bind (.expect _) fun _ => .bind (.expect _) fun _ =>
    .bind follows_printItem fun _ => .bind (.recover _ _) fun _ =>
      .bind (.recover _ _) fun _ => .pure (by simp [Stmt.log, semicolonLog]))

theorem follows_ret (returnType : Ty) : Follows (ret returnType) (Stmt.log returnType) := by
  refine .of_completes (.bind (.expect _) fun _ => .accept ?_ fun _ => ?_)
  · exact .bind (.emit _) fun _ => .bind (follows_checkReturn _ _) fun _ =>
      .bind (.recover _ _) fun _ => .pure (by simp [Stmt.log, semicolonLog])
  · exact .bind follows_expression fun _ => .bind (.emit _) fun _ => .bind (.recover _ _) fun _ =>
      .bind (follows_checkReturn _ _) fun _ => .bind (.recover _ _) fun _ =>
        .pure (by simp [Stmt.log, semicolonLog])

theorem follows_stepSign : Follows stepSign fun (op, opToken) =>
    [.take opToken.kind opToken, .check (ArithOp.additive? opToken.kind = some op)] :=
  .of_completes (.acceptAs (.unexpected _) fun _ _ hop => .check hop (.pure rfl))

section Heads

/-- What is read in front of the body of a conditional. -/
def ifHead : Pass (Token × Guard × Label) := do
  let keyword ← expect .kwIf
  let elseLabel ← freshLabel
  return (keyword, ← guarded elseLabel .onFalse, elseLabel)

/-- What is read in front of the body of a loop that tests first. -/
def whileHead : Pass (Token × Guard × Label × Label) := do
  let keyword ← expect .kwWhile
  let loopLabel ← freshLabel
  emit (.label loopLabel)
  let lparen ← expect .lparen
  let endLabel ← freshLabel
  let condition ← condition endLabel .onFalse
  return (keyword, { lparen, condition, rparen := ← recoverParen }, loopLabel, endLabel)

/-- What is read in front of the body of a loop that tests last. -/
def doHead : Pass (Token × Label) := do
  let keyword ← expect .kwDo
  let loopLabel ← freshLabel
  emit (.label loopLabel)
  return (keyword, loopLabel)

/-- What is read in front of the body of a counting loop. -/
def forHead : Pass (Token × ForHeader × Label × Label) := do
  let keyword ← expect .kwFor
  let lparen ← expect .lparen
  let init ← resolveTarget (← expect .ident)
  let initAssign ← expect .assign
  let start ← expression
  emit (.assign init.token.value start.value)
  let loopLabel ← freshLabel
  emit (.label loopLabel)
  let initEnd ← recoverSemicolon
  let endLabel ← freshLabel
  let condition ← condition endLabel .onFalse
  let conditionEnd ← recoverSemicolon
  let target ← resolveTarget (← expect .ident)
  let stepAssign ← expect .assign
  let source ← resolve (← expect .ident)
  if source.symbol.isNone then
    report source.token.line .undefined
  let (op, opToken) ← stepSign
  let amount ← unsigned
  let header : ForHeader :=
    { lparen, init, initAssign, start, initEnd, condition, conditionEnd, target, stepAssign,
      source, op, opToken, amount, rparen := ← recoverParen }
  return (keyword, header, loopLabel, endLabel)

theorem ifHead_bind {α : Type} (next : Token × Guard × Label → Pass α) :
    ifHead >>= next = (do
      let keyword ← expect .kwIf
      let elseLabel ← freshLabel
      next (keyword, ← guarded elseLabel .onFalse, elseLabel)) := by
  simp only [ifHead, bind_assoc, pure_bind]

theorem conditional_eq (stmt : Pass Stmt) : conditional stmt = (do
    let (keyword, guard, elseLabel) ← ifHead
    let body ← stmt
    let endLabel ← freshLabel
    emit (.jump endLabel)
    emit (.label elseLabel)
    match ← accept .kwElse with
    | none =>
      emit (.label endLabel)
      return .ifThen keyword guard body elseLabel endLabel
    | some elseKeyword =>
      let alternative ← stmt
      emit (.label endLabel)
      return .ifElse keyword guard body elseKeyword alternative elseLabel endLabel) := by
  rw [ifHead_bind]
  rfl

theorem whileLoop_eq (stmt : Pass Stmt) : whileLoop stmt = (do
    let (keyword, guard, loopLabel, endLabel) ← whileHead
    let body ← stmt
    emit (.jump loopLabel)
    emit (.label endLabel)
    return .whileLoop keyword guard body loopLabel endLabel) := by
  simp only [whileLoop, whileHead, bind_assoc, pure_bind]

theorem doLoop_eq (stmt : Pass Stmt) : doLoop stmt = (do
    let (keyword, loopLabel) ← doHead
    let body ← stmt
    let whileKeyword ← recover .kwWhile .missingWhile
    let guard ← guarded loopLabel .onTrue
    return .doLoop keyword body whileKeyword guard loopLabel) := by
  simp only [doLoop, doHead, bind_assoc, pure_bind]

theorem ite_bind {α β : Type} {condition : Prop} [Decidable condition] (yes no : Pass α)
    (next : α → Pass β) : (if condition then yes else no) >>= next =
      if condition then yes >>= next else no >>= next := by
  split <;> rfl

theorem forLoop_eq (stmt : Pass Stmt) : forLoop stmt = (do
    let (keyword, header, loopLabel, endLabel) ← forHead
    let body ← stmt
    emit header.stepInstr
    emit (.jump loopLabel)
    emit (.label endLabel)
    return .forLoop keyword header body loopLabel endLabel) := by
  simp only [forLoop, forHead, bind_assoc, pure_bind, ite_bind]
  rfl

theorem follows_ifHead :
    Follows ifHead fun (keyword, guard, elseLabel) => ifHeadLog keyword guard elseLabel :=
  .of_completes (.bind (.expect _) fun _ => .bind .freshLabel fun _ =>
    .bind (follows_guarded _ _) fun _ => .pure rfl)

theorem follows_whileHead : Follows whileHead fun (keyword, guard, loopLabel, endLabel) =>
    whileHeadLog keyword guard loopLabel endLabel :=
  .of_completes (.bind (.expect _) fun _ => .bind .freshLabel fun _ => .bind (.emit _) fun _ =>
    .bind (.expect _) fun _ => .bind .freshLabel fun _ => .bind (follows_condition _ _) fun _ =>
      .bind (.recover _ _) fun _ => .pure (by simp [whileHeadLog]))

theorem follows_doHead : Follows doHead fun (keyword, loopLabel) => doHeadLog keyword loopLabel :=
  .of_completes (.bind (.expect _) fun _ => .bind .freshLabel fun _ => .bind (.emit _) fun _ =>
    .pure rfl)

theorem follows_forHead : Follows forHead fun (keyword, header, loopLabel, endLabel) =>
    forHeadLog keyword header loopLabel endLabel := by
  refine .of_completes (.bind (.expect _) fun _ => .bind (.expect _) fun _ => .target fun _ =>
    .bind (.expect _) fun _ => .bind follows_expression fun _ => .bind (.emit _) fun _ =>
    .bind .freshLabel fun _ => .bind (.emit _) fun _ => .bind (.recover _ _) fun _ =>
    .bind .freshLabel fun _ => .bind (follows_condition _ _) fun _ => .bind (.recover _ _) fun _ => ?_)
  exact .target fun _ => .bind (.expect _) fun _ => .name fun _ => .joined (.report _ _)
    (.bind follows_stepSign fun _ => .bind follows_unsigned fun _ => .bind (.recover _ _) fun _ =>
      .pure (by simp [forHeadLog, ForHeader.log, NameRef.readLog, semicolonLog]))

end Heads

section Phrases

variable {returnType : Ty} {stmt : Pass Stmt} (hstmt : Follows stmt (Stmt.log returnType))

include hstmt

theorem follows_statements : Follows (statements stmt) (Stmt.logs returnType) := by
  have hlogs : Stmt.logs returnType = List.flatMap (Stmt.log returnType) := by
    funext stmts
    induction stmts with
    | nil => rw [Stmt.logs, List.flatMap_nil]
    | cons stmt stmts ih => rw [Stmt.logs, ih, List.flatMap_cons]
  rw [hlogs]
  exact .many (.of_completes (.nextIs fun _ => .ite (fun _ => .pure rfl) fun _ =>
    .bind hstmt fun _ => .pure rfl))

theorem follows_conditional : Follows (conditional stmt) (Stmt.log returnType) := by
  rw [conditional_eq]
  refine .of_completes (.bind follows_ifHead fun _ => .bind hstmt fun _ => .bind .freshLabel fun _ =>
    .bind (.emit _) fun _ => .bind (.emit _) fun _ => .accept ?_ fun _ => ?_)
  · exact .bind (.emit _) fun _ => .pure (by simp [Stmt.log, ifHeadLog])
  · exact .bind hstmt fun _ => .bind (.emit _) fun _ => .pure (by simp [Stmt.log, ifHeadLog])

theorem follows_whileLoop : Follows (whileLoop stmt) (Stmt.log returnType) := by
  rw [whileLoop_eq]
  exact .of_completes (.bind follows_whileHead fun _ => .bind hstmt fun _ => .bind (.emit _) fun _ =>
    .bind (.emit _) fun _ => .pure (by simp [Stmt.log, whileHeadLog]))

theorem follows_doLoop : Follows (doLoop stmt) (Stmt.log returnType) := by
  rw [doLoop_eq]
  exact .of_completes (.bind follows_doHead fun _ => .bind hstmt fun _ => .bind (.recover _ _) fun _ =>
    .bind (follows_guarded _ _) fun _ => .pure (by simp [Stmt.log, doHeadLog]))

theorem follows_forLoop : Follows (forLoop stmt) (Stmt.log returnType) := by
  rw [forLoop_eq]
  exact .of_completes (.bind follows_forHead fun _ => .bind hstmt fun _ => .bind (.emit _) fun _ =>
    .bind (.emit _) fun _ => .bind (.emit _) fun _ => .pure (by simp [Stmt.log, forHeadLog]))

end Phrases

theorem follows_statement (returnType : Ty) :
    Follows (statement returnType) (Stmt.log returnType) := by
  intro s st t h
  refine nest_ok (P := fun s st t => Plays (Stmt.log returnType st) s t) ?_ h
  intro stmt hstmt s st t h
  obtain ⟨token, u, htoken, h⟩ := bind_eq_ok.1 h
  obtain ⟨hnext, rfl⟩ := current_eq_ok.1 htoken
  cases hkind : token.kind <;> simp only [hkind] at h
  case kwIf => exact follows_conditional hstmt s st t h
  case kwWhile => exact follows_whileLoop hstmt s st t h
  case kwDo => exact follows_doLoop hstmt s st t h
  case kwFor => exact follows_forLoop hstmt s st t h
  case lbrace =>
    exact Follows.of_completes (.bind (.expect _) fun _ => .bind (follows_statements hstmt) fun _ =>
      .bind (.expect _) fun _ => .pure (by simp [Stmt.log])) s st t h
  case ident => exact follows_nameStatement returnType hnext hkind h
  case kwScanf => exact follows_scan returnType s st t h
  case kwPrintf => exact follows_print returnType s st t h
  case kwReturn => exact follows_ret returnType s st t h
  case semicolon =>
    exact Follows.of_completes (.bind (.expect _) fun _ => .pure (by simp [Stmt.log])) s st t h
  all_goals exact absurd h unexpected_ne_ok

end Pass

end OnePass
