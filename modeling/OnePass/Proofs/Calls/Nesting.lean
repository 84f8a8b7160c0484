import OnePass.Proofs.Blocks

/-!
How calls are nested. For a call the registers are saved, the arguments are pushed one by one,
each as soon as the calls inside it are done, and then the function is called. The result is taken
right behind the call or not at all.
-/

namespace OnePass

/-- The function that an instruction saves registers for, pushes an argument to or calls. -/
def Instr.callee? : Instr → Option String
  | save function | push function _ _ | call function => some function
  | _ => none

/-- Whether an instruction takes the result of a call. -/
def Instr.takesResult : Instr → Bool
  | takeResult _ => true
  | _ => false

/-- The arguments of a call, in order. -/
def Args.toList : Args → List Expr
  | nil => []
  | first e => [e]
  | more init _ e => init.toList ++ [e]

theorem Args.length_toList (args : Args) : args.toList.length = args.length := by
  cases args with
  | nil | first e => rfl
  | more init comma e => rw [toList, List.length_append, init.length_toList]; rfl

theorem Args.types_eq (args : Args) : args.types = args.toList.map Expr.ty := by
  cases args with
  | nil | first e => rfl
  | more init comma e => rw [types, toList, List.map_append, init.types_eq]; rfl

section Calls

mutual

/-- The calls in an expression that stand in no other call, in the order in which they are made. -/
def Expr.calls : Expr → List Call
  | .term t => t.calls
  | .positive _ t => t.calls
  | .negative _ t _ => t.calls
  | .chain lhs _ _ rhs _ => lhs.calls ++ rhs.calls

def Term.calls : Term → List Call
  | .factor f => f.calls
  | .chain lhs _ _ rhs _ => lhs.calls ++ rhs.calls

def Factor.calls : Factor → List Call
  | .element _ _ index _ _ => index.calls
  | .call c _ => [c]
  | .paren _ inner _ => inner.calls
  | .name _ | .unknownCall _ | .char _ | .int _ => []

end

def Condition.calls : Condition → List Call
  | .test value => value.calls
  | .compare lhs _ _ rhs => lhs.calls ++ rhs.calls

def PrintItem.calls : PrintItem → List Call
  | .text _ _ => []
  | .textValue _ _ _ v => v.calls
  | .value v => v.calls

mutual

/-- The calls in a statement that stand in no other call, in the order of their code. -/
def Stmt.calls : Stmt → List Call
  | .ifThen _ guard body _ _ => guard.condition.calls ++ body.calls
  | .ifElse _ guard body _ alternative _ _ =>
    guard.condition.calls ++ (body.calls ++ alternative.calls)
  | .whileLoop _ guard body _ _ => guard.condition.calls ++ body.calls
  | .doLoop _ body _ guard _ => body.calls ++ guard.condition.calls
  | .forLoop _ header body _ _ => header.start.calls ++ (header.condition.calls ++ body.calls)
  | .block _ body _ => Stmt.allCalls body
  | .call c _ => [c]
  | .assign _ _ value _ => value.calls
  | .assignElement _ _ index _ _ value _ => index.calls ++ value.calls
  | .print _ _ item _ _ => item.calls
  | .retValue _ _ value _ _ => value.calls
  | .unknownCall _ _ | .skipped | .scan _ _ _ _ _ | .ret _ _ | .empty _ => []

def Stmt.allCalls : List Stmt → List Call
  | [] => []
  | stmt :: stmts => stmt.calls ++ Stmt.allCalls stmts

end

end Calls

section Grammar

mutual

/-- The instructions that belong to calls, one call after the other, where every call at any depth
has a property. -/
inductive CallsIn (P : Call → Prop) : List Call → List Instr → Prop where
  | nil : CallsIn P [] []
  | cons {call : Call} {calls : List Call} {front back : List Instr} : CallIn P call front →
      CallsIn P calls back → CallsIn P (call :: calls) (front ++ back)

/-- The instructions of one call: save, push every argument, call. -/
inductive CallIn (P : Call → Prop) : Call → List Instr → Prop where
  | mk {call : Call} {pushes : List Instr} : P call →
      PushesIn P call.name.value call.args.toList pushes →
      CallIn P call (.save call.name.value :: (pushes ++ [.call call.name.value]))

/-- The instructions for arguments, each pushed at its position behind the calls it makes. -/
inductive PushesIn (P : Call → Prop) : String → List Expr → List Instr → Prop where
  | nil {function : String} : PushesIn P function [] []
  | snoc {function : String} {args : List Expr} {arg : Expr} {front inner : List Instr} :
      PushesIn P function args front → CallsIn P arg.calls inner →
      PushesIn P function (args ++ [arg])
        (front ++ (inner ++ [.push function arg.value args.length]))

end

variable {P : Call → Prop}

theorem CallsIn.append {calls others : List Call} {front back : List Instr}
    (hfront : CallsIn P calls front) (hback : CallsIn P others back) :
    CallsIn P (calls ++ others) (front ++ back) := by
  induction calls generalizing front with
  | nil =>
      cases hfront
      exact hback
  | cons call calls ih =>
      cases hfront with
      | @cons _ _ first rest hcall hrest =>
          rw [List.cons_append, List.append_assoc]
          exact .cons hcall (ih hrest)

theorem CallsIn.singleton {call : Call} {code : List Instr} (h : CallIn P call code) :
    CallsIn P [call] code := by
  rw [← List.append_nil code]
  exact .cons h .nil

mutual

/-- Every instruction in the code of calls belongs to one of them. -/
theorem CallsIn.exists_call {calls : List Call} {code : List Instr} {instr : Instr} :
    CallsIn P calls code → instr ∈ code → ∃ call, P call ∧ instr.callee? = some call.name.value
  | .nil, h => by cases h
  | .cons hcall hcalls, h => by
      rcases List.mem_append.1 h with h | h
      · exact hcall.exists_call h
      · exact hcalls.exists_call h

theorem CallIn.exists_call {call : Call} {code : List Instr} {instr : Instr} :
    CallIn P call code → instr ∈ code → ∃ other, P other ∧ instr.callee? = some other.name.value
  | .mk hcall hpushes, h => by
      rcases List.mem_cons.1 h with rfl | h
      · exact ⟨call, hcall, rfl⟩
      · rcases List.mem_append.1 h with h | h
        · rcases hpushes.exists_call h with hinner | hown
          · exact hinner
          · exact ⟨call, hcall, hown⟩
        · obtain rfl := List.mem_singleton.1 h
          exact ⟨call, hcall, rfl⟩

theorem PushesIn.exists_call {function : String} {args : List Expr} {code : List Instr}
    {instr : Instr} : PushesIn P function args code → instr ∈ code →
      (∃ other, P other ∧ instr.callee? = some other.name.value) ∨ instr.callee? = some function
  | .nil, h => by cases h
  | .snoc hpushes hcalls, h => by
      rcases List.mem_append.1 h with h | h
      · exact hpushes.exists_call h
      · rcases List.mem_append.1 h with h | h
        · exact .inl (hcalls.exists_call h)
        · obtain rfl := List.mem_singleton.1 h
          exact .inr rfl

end

end Grammar

/-- Every result is taken right behind a call. -/
def ResultsTaken (code : List Instr) : Prop :=
  ∀ front dst back, code = front ++ .takeResult dst :: back →
    ∃ before function, front = before ++ [.call function]

namespace ResultsTaken

variable {front back code : List Instr}

theorem of_free (h : ∀ instr ∈ code, instr.takesResult = false) : ResultsTaken code := by
  rintro front dst back rfl
  cases h (.takeResult dst) (by simp)

theorem append (hfront : ResultsTaken front) (hback : ResultsTaken back) :
    ResultsTaken (front ++ back) := by
  intro before dst after h
  rcases List.append_eq_append_iff.1 h with ⟨between, hbefore, hrest⟩ | ⟨between, hpart, hrest⟩
  · obtain ⟨inner, function, rfl⟩ := hback between dst after hrest
    exact ⟨front ++ inner, function, by rw [hbefore, List.append_assoc]⟩
  · cases between with
    | nil =>
        obtain ⟨inner, function, hnil⟩ := hback [] dst after (by simpa using hrest.symm)
        simp at hnil
    | cons first between =>
        obtain ⟨rfl, _⟩ := List.cons.inj hrest
        exact hfront before dst between hpart

theorem taken {function : String} (h : ResultsTaken (code ++ [.call function])) (dst : Reg) :
    ResultsTaken (code ++ [.call function] ++ [.takeResult dst]) := by
  intro before other after hsplit
  rcases List.append_eq_append_iff.1 hsplit with ⟨between, hbefore, hrest⟩ | ⟨between, hpart, hrest⟩
  · cases between with
    | nil => exact ⟨code, function, by simpa using hbefore⟩
    | cons first between => simp at hrest
  · cases between with
    | nil => exact ⟨code, function, by simpa using hpart.symm⟩
    | cons first between =>
        obtain ⟨rfl, _⟩ := List.cons.inj hrest
        exact h before other between hpart

end ResultsTaken

/-- The actions behind a call together with the look-up of its function. -/
def Call.entry (c : Call) : List Action :=
  .callee c.name.value (some c.callee) :: c.log

/-- Every call that a log makes has a property. -/
def AllCalls (P : Call → Prop) (log : List Action) : Prop :=
  ∀ call : Call, call.entry <:+: log → P call

namespace AllCalls

variable {P : Call → Prop} {front back log : List Action} {action : Action}

theorem left (h : AllCalls P (front ++ back)) : AllCalls P front :=
  fun call hcall => h call (hcall.trans (List.prefix_append front back).isInfix)

theorem right (h : AllCalls P (front ++ back)) : AllCalls P back :=
  fun call hcall => h call (hcall.trans (List.suffix_append front back).isInfix)

theorem tail (h : AllCalls P (action :: log)) : AllCalls P log :=
  fun call hcall => h call (hcall.trans (List.suffix_cons action log).isInfix)

end AllCalls

/-- The instructions of a log that belong to calls. -/
def callParts (log : List Action) : List Instr :=
  (log.flatMap Action.code).filter fun instr => instr.callee?.isSome

/-- A log makes some calls, and takes results from calls only. -/
structure Makes (P : Call → Prop) (calls : List Call) (log : List Action) : Prop where
  calls : CallsIn P calls (callParts log)
  results : ResultsTaken (log.flatMap Action.code)

/-- Whether an action has nothing to do with calls. -/
def Action.isPlain : Action → Bool
  | emit instr => instr.callee?.isNone && !instr.takesResult
  | _ => true

instance : Action.Passive Action.isPlain := {}

namespace Makes

variable {P : Call → Prop} {calls others : List Call} {front back log : List Action}
  {action : Action}

theorem append (hfront : Makes P calls front) (hback : Makes P others back) :
    Makes P (calls ++ others) (front ++ back) := by
  constructor
  · rw [callParts, List.flatMap_append, List.filter_append]
    exact hfront.calls.append hback.calls
  · rw [List.flatMap_append]
    exact hfront.results.append hback.results

theorem of_plain (h : log.all Action.isPlain = true) : Makes P [] log := by
  have hplain : ∀ instr ∈ log.flatMap Action.code,
      instr.callee? = none ∧ instr.takesResult = false := by
    intro instr hinstr
    have haction := List.all_eq_true.1 h _ (emit_mem_of_mem_code hinstr)
    simpa [Action.isPlain] using haction
  constructor
  · have hnone : callParts log = [] := by
      rw [callParts, List.filter_eq_nil_iff]
      intro instr hinstr
      simp [(hplain instr hinstr).1]
    rw [hnone]
    exact .nil
  · exact .of_free fun instr hinstr => (hplain instr hinstr).2

theorem append_plain (h : Makes P calls front) (hplain : back.all Action.isPlain = true) :
    Makes P calls (front ++ back) := by
  simpa using h.append (of_plain hplain)

theorem plain_append (hplain : front.all Action.isPlain = true) (h : Makes P calls back) :
    Makes P calls (front ++ back) :=
  (of_plain hplain).append h

theorem cons (hplain : action.isPlain = true) (h : Makes P calls log) :
    Makes P calls (action :: log) := by
  have hone : [action].all Action.isPlain = true := by simpa using hplain
  exact plain_append hone h

end Makes

section Expr

theorem plain_negateLog (value result : Operand) :
    (negateLog value result).all Action.isPlain = true := by
  cases result <;> rfl

theorem plain_combineLog (accumulator : Option Reg) (op : ArithOp) (dst : Reg)
    (lhs rhs : Operand) : (combineLog accumulator op dst lhs rhs).all Action.isPlain = true := by
  cases accumulator <;> rfl

theorem callParts_append (front back : List Action) :
    callParts (front ++ back) = callParts front ++ callParts back := by
  rw [callParts, List.flatMap_append, List.filter_append]
  rfl

/-- The code of a call. -/
theorem Call.code_log (c : Call) : c.log.flatMap Action.code =
    .save c.name.value :: ((c.args.log c.name.value).flatMap Action.code ++ [.call c.name.value]) := by
  cases c with
  | mk name lparen callee args rparen =>
      have hcheck : (checkArgumentsLog name callee args).flatMap Action.code = [] :=
        code_of_idle (all_checkArgumentsLog _ _ _)
      simp [Call.log, Call.name, Call.args, hcheck, Action.code]

theorem Call.callParts_log (c : Call) : callParts c.log =
    .save c.name.value :: (callParts (c.args.log c.name.value) ++ [.call c.name.value]) := by
  rw [callParts, c.code_log]
  simp [callParts, Instr.callee?]

variable {P : Call → Prop}

mutual

theorem Expr.makes : (e : Expr) → AllCalls P e.log → Makes P e.calls e.log
  | .term t, h => by
      rw [Expr.log] at h ⊢
      rw [Expr.calls]
      exact (t.makes h.tail).cons rfl
  | .positive sign t, h => by
      rw [Expr.log] at h ⊢
      rw [Expr.calls]
      exact (t.makes h.tail).cons rfl
  | .negative sign t value, h => by
      rw [Expr.log] at h ⊢
      rw [Expr.calls]
      exact ((t.makes h.tail.left).append_plain (plain_negateLog _ _)).cons rfl
  | .chain lhs op opToken rhs dst, h => by
      rw [Expr.log] at h ⊢
      rw [Expr.calls]
      have hrhs := rhs.makes h.right.tail.tail.left
      exact (lhs.makes h.left).append
        (.cons rfl (.cons rfl (hrhs.append_plain (plain_combineLog _ _ _ _ _))))

theorem Term.makes : (t : Term) → AllCalls P t.log → Makes P t.calls t.log
  | .factor f, h => by
      rw [Term.log] at h ⊢
      rw [Term.calls]
      exact f.makes h
  | .chain lhs op opToken rhs dst, h => by
      rw [Term.log] at h ⊢
      rw [Term.calls]
      have hrhs := rhs.makes h.right.tail.tail.left
      exact (lhs.makes h.left).append
        (.cons rfl (.cons rfl (hrhs.append_plain (plain_combineLog _ _ _ _ _))))

theorem Factor.makes : (f : Factor) → AllCalls P f.log → Makes P f.calls f.log
  | .name ref, _ => by
      rw [Factor.log, Factor.calls]
      exact .of_plain (all_readLog ref)
  | .element ref lbracket index dst rbracket, h => by
      rw [Factor.log] at h ⊢
      rw [Factor.calls]
      have hindex := index.makes h.right.tail.left
      refine .plain_append (all_readLog ref) (.cons rfl (hindex.append_plain ?_))
      rw [List.all_append, all_checkIndexLog, List.all_cons, List.all_cons, all_recoverLog]
      rfl
  | .call c dst, h => by
      have hentry : c.entry ++ [.reg dst, .emit (.takeResult dst)] = (Factor.call c dst).log := by
        rw [Factor.log]
        rfl
      rw [← hentry] at h
      have hcall := c.makes h.left
      rw [Factor.log, Factor.calls]
      constructor
      · have hparts : callParts (.callee c.name.value (some c.callee) :: (c.log ++
            [.reg dst, .emit (.takeResult dst)])) = callParts c.log := by
          simp [callParts, Action.code, Instr.callee?]
        rw [hparts]
        exact hcall.calls
      · have hcode := c.code_log
        have hresults := hcall.results
        rw [hcode, ← List.cons_append] at hresults
        have htaken := hresults.taken dst
        simpa [Action.code, hcode] using htaken
  | .unknownCall fn, _ => by
      rw [Factor.log, Factor.calls]
      exact .of_plain rfl
  | .paren lparen inner rparen, h => by
      rw [Factor.log] at h ⊢
      rw [Factor.calls]
      exact ((inner.makes h.tail.left).append_plain (all_recoverLog _ _ _)).cons rfl
  | .char literal, _ => by
      rw [Factor.log, Factor.calls]
      exact .of_plain rfl
  | .int literal, _ => by
      rw [Factor.log, Factor.calls]
      exact .of_plain (all_integer literal)

/-- The code of a call is nested as it should be. -/
theorem Call.makes : (c : Call) → AllCalls P c.entry → Makes P [c] c.log
  | .mk name lparen callee args rparen, h => by
      have hown : P (.mk name lparen callee args rparen) := h _ (List.infix_rfl)
      have hargs : AllCalls P (args.log name.value) := by
        have hlog := h.tail
        rw [Call.log] at hlog
        exact hlog.tail.tail.tail.left
      obtain ⟨hpushes, hresults⟩ := args.pushesIn name.value hargs
      constructor
      · rw [Call.callParts_log]
        exact .singleton (.mk hown hpushes)
      · rw [Call.code_log]
        have hsave : ResultsTaken [.save name.value] := .of_free (by simp [Instr.takesResult])
        have hcall : ResultsTaken [.call name.value] := .of_free (by simp [Instr.takesResult])
        exact hsave.append (hresults.append hcall)

theorem Args.pushesIn (function : String) : (args : Args) → AllCalls P (args.log function) →
    PushesIn P function args.toList (callParts (args.log function)) ∧
      ResultsTaken ((args.log function).flatMap Action.code)
  | .nil, _ => by
      rw [Args.log]
      exact ⟨.nil, .of_free (by simp)⟩
  | .first e, h => by
      rw [Args.log] at h ⊢
      have he := e.makes h.left
      have hpush : ResultsTaken [.push function e.value 0] := .of_free (by simp [Instr.takesResult])
      constructor
      · rw [callParts_append]
        exact .snoc .nil he.calls
      · rw [List.flatMap_append]
        exact he.results.append hpush
  | .more init comma e, h => by
      rw [Args.log] at h ⊢
      have hinit := init.pushesIn function h.left
      have he := e.makes h.right.tail.tail.left
      have hpush : ResultsTaken [.push function e.value init.length] :=
        .of_free (by simp [Instr.takesResult])
      constructor
      · rw [callParts_append, ← init.length_toList]
        have hmore := PushesIn.snoc hinit.1 he.calls
        simpa [callParts, Args.toList, Action.code, Instr.callee?] using hmore
      · rw [List.flatMap_append]
        refine hinit.2.append ?_
        have hmore := he.results.append hpush
        simpa [Action.code] using hmore

end

end Expr

section Stmt

theorem plain_scanLog (ref : NameRef) : ref.scanLog.all Action.isPlain = true := by
  unfold NameRef.scanLog
  cases ref.symbol <;> rfl

variable {P : Call → Prop}

theorem Condition.makes {label : Label} {sense : Sense} {c : Condition}
    (h : AllCalls P (c.log label sense)) : Makes P c.calls (c.log label sense) := by
  cases c with
  | test value =>
      refine (value.makes h.left).append_plain ?_
      rw [List.all_append, all_checkConditionLog]
      cases sense <;> rfl
  | compare lhs relation opToken rhs =>
      have hrhs := rhs.makes h.right.right.tail.tail.left
      refine (lhs.makes h.left).append (.plain_append (all_checkConditionLog lhs)
        (.cons rfl (.cons rfl (hrhs.append_plain ?_))))
      rw [List.all_append, all_checkConditionLog]
      rfl

theorem Guard.makes {label : Label} {sense : Sense} {guard : Guard}
    (h : AllCalls P (guard.log label sense)) :
    Makes P guard.condition.calls (guard.log label sense) :=
  .cons rfl ((Condition.makes h.tail.left).append_plain (all_recoverLog _ _ _))

theorem PrintItem.makes {item : PrintItem} (h : AllCalls P item.log) :
    Makes P item.calls item.log := by
  have hvalue : ∀ value : Expr, AllCalls P (printValueLog value) →
      Makes P value.calls (printValueLog value) := by
    intro value hcalls
    refine (value.makes hcalls.left).append_plain ?_
    unfold Expr.printInstr
    split <;> rfl
  cases item with
  | text literal index => exact .of_plain rfl
  | textValue literal index comma v =>
      exact .cons rfl (.cons rfl (.cons rfl (.cons rfl (hvalue v h.tail.tail.tail.tail))))
  | value v => exact hvalue v h

theorem ForHeader.makes {header : ForHeader} {loopLabel endLabel : Label}
    (h : AllCalls P (header.log loopLabel endLabel)) :
    Makes P (header.start.calls ++ header.condition.calls) (header.log loopLabel endLabel) := by
  have hrest := h.tail.right.tail
  have hstart := header.start.makes hrest.left
  have hcondition := Condition.makes hrest.right.tail.tail.tail.right.tail.left
  refine .cons rfl (.plain_append (all_targetLog _) (.cons rfl (hstart.append ?_)))
  refine .cons rfl (.cons rfl (.cons rfl (.plain_append (all_semicolonLog _) (.cons rfl ?_))))
  apply hcondition.append_plain
  rw [List.all_append, List.all_append, List.all_cons, List.all_append, List.all_cons,
    List.all_cons, List.all_append, all_semicolonLog, all_targetLog, all_readLog, all_recoverLog]
  rfl

mutual

/-- The calls of a statement are nested as they should be. -/
theorem Stmt.makes (returnType : Ty) : (stmt : Stmt) → AllCalls P (stmt.log returnType) →
    Makes P stmt.calls (stmt.log returnType)
  | .ifThen keyword guard body elseLabel endLabel, h => by
      rw [Stmt.log] at h ⊢
      rw [Stmt.calls]
      have hguard := Guard.makes h.tail.tail.left
      have hbody := body.makes returnType h.tail.tail.right.left
      exact .cons rfl (.cons rfl (hguard.append (hbody.append_plain rfl)))
  | .ifElse keyword guard body elseKeyword alternative elseLabel endLabel, h => by
      rw [Stmt.log] at h ⊢
      rw [Stmt.calls]
      have hguard := Guard.makes h.tail.tail.left
      have hbody := body.makes returnType h.tail.tail.right.left
      have halternative := alternative.makes returnType h.tail.tail.right.right.tail.tail.tail.tail.left
      exact .cons rfl (.cons rfl (hguard.append (hbody.append (.cons rfl (.cons rfl (.cons rfl
        (.cons rfl (halternative.append_plain rfl))))))))
  | .whileLoop keyword guard body loopLabel endLabel, h => by
      rw [Stmt.log] at h ⊢
      rw [Stmt.calls]
      have hrest := h.tail.tail.tail.tail.tail
      have hcondition := Condition.makes hrest.left
      have hbody := body.makes returnType hrest.right.right.left
      exact .cons rfl (.cons rfl (.cons rfl (.cons rfl (.cons rfl (hcondition.append
        (.plain_append (all_recoverLog _ _ _) (hbody.append_plain rfl)))))))
  | .doLoop keyword body whileKeyword guard loopLabel, h => by
      rw [Stmt.log] at h ⊢
      rw [Stmt.calls]
      have hbody := body.makes returnType h.tail.tail.tail.left
      have hguard := Guard.makes h.tail.tail.tail.right.right
      exact .cons rfl (.cons rfl (.cons rfl (hbody.append
        (.plain_append (all_recoverLog _ _ _) hguard))))
  | .forLoop keyword header body loopLabel endLabel, h => by
      rw [Stmt.log] at h ⊢
      rw [Stmt.calls, ← List.append_assoc]
      have hheader := ForHeader.makes h.tail.left
      have hbody := body.makes returnType h.tail.right.left
      exact .cons rfl (hheader.append (hbody.append_plain rfl))
  | .block lbrace body rbrace, h => by
      rw [Stmt.log] at h ⊢
      rw [Stmt.calls]
      exact .cons rfl ((Stmt.makes_all returnType body h.tail.left).append_plain rfl)
  | .call c semicolon, h => by
      have hentry : c.entry ++ semicolonLog semicolon = (Stmt.call c semicolon).log returnType := by
        rw [Stmt.log]
        rfl
      rw [← hentry] at h
      rw [Stmt.log, Stmt.calls]
      exact .cons rfl ((c.makes h.left).append_plain (all_semicolonLog _))
  | .unknownCall name semicolon, _ => by
      rw [Stmt.log, Stmt.calls]
      exact .plain_append rfl (.of_plain (all_semicolonLog _))
  | .skipped, _ => by
      rw [Stmt.log, Stmt.calls]
      exact .of_plain rfl
  | .assign target eq value semicolon, h => by
      rw [Stmt.log] at h ⊢
      rw [Stmt.calls]
      have hvalue := value.makes h.right.tail.left
      refine .plain_append (all_targetLog _) (.cons rfl (hvalue.append_plain ?_))
      rw [List.all_cons, all_semicolonLog]
      rfl
  | .assignElement target lbracket index rbracket eq value semicolon, h => by
      rw [Stmt.log] at h ⊢
      rw [Stmt.calls]
      have hrest := h.right.tail
      have hindex := index.makes hrest.left
      have hvalue := value.makes hrest.right.right.right.tail.left
      refine .plain_append (all_targetLog _) (.cons rfl (hindex.append (.plain_append
        (all_checkIndexLog _) (.plain_append (all_recoverLog _ _ _) (.cons rfl
          (hvalue.append_plain ?_))))))
      rw [List.all_cons, all_semicolonLog]
      rfl
  | .scan keyword lparen targets rparen semicolon, _ => by
      rw [Stmt.log, Stmt.calls]
      refine .cons rfl (.cons rfl (.of_plain ?_))
      rw [List.all_append, List.all_append, targets.all_log plain_scanLog, all_recoverLog,
        all_semicolonLog]
      rfl
  | .print keyword lparen item rparen semicolon, h => by
      rw [Stmt.log] at h ⊢
      rw [Stmt.calls]
      have hitem := PrintItem.makes h.tail.tail.left
      refine .cons rfl (.cons rfl (hitem.append_plain ?_))
      rw [List.all_append, all_recoverLog, all_semicolonLog]
      rfl
  | .ret keyword semicolon, _ => by
      rw [Stmt.log, Stmt.calls]
      refine .cons rfl (.cons rfl (.of_plain ?_))
      rw [List.all_append, all_checkReturnLog, all_semicolonLog]
      rfl
  | .retValue keyword lparen value rparen semicolon, h => by
      rw [Stmt.log] at h ⊢
      rw [Stmt.calls]
      have hvalue := value.makes h.tail.tail.left
      refine .cons rfl (.cons rfl (hvalue.append_plain ?_))
      rw [List.all_cons, List.all_append, List.all_append, all_recoverLog, all_checkReturnLog,
        all_semicolonLog]
      rfl
  | .empty semicolon, _ => by
      rw [Stmt.log, Stmt.calls]
      exact .of_plain rfl

theorem Stmt.makes_all (returnType : Ty) : (stmts : List Stmt) →
    AllCalls P (Stmt.logs returnType stmts) →
    Makes P (Stmt.allCalls stmts) (Stmt.logs returnType stmts)
  | [], _ => by
      rw [Stmt.logs, Stmt.allCalls]
      exact .of_plain rfl
  | stmt :: stmts, h => by
      rw [Stmt.logs] at h ⊢
      rw [Stmt.allCalls]
      exact (stmt.makes returnType h.left).append (Stmt.makes_all returnType stmts h.right)

end

end Stmt

end OnePass
