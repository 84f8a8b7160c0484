import OnePass.Proofs.Action

/-!
The actions behind an expression. Each phrase has a log, and the pass that returns a phrase has
performed its log.
-/

namespace OnePass

/-- A single action under a condition. -/
def Action.when (condition : Prop) [Decidable condition] (action : Action) : List Action :=
  if condition then [action] else []

/-- The action for a token that may be left out. -/
def recoverLog (kind : TokenKind) (missing : DiagnosticKind) : Option Token → List Action
  | some token => [.take kind token]
  | none => [.reportHere missing]

def UnsignedLit.log (lit : UnsignedLit) : List Action :=
  [.take .intLit lit.token, .check (Text.signed? lit.token.value.toList = some lit.value)]

def IntLit.log (lit : IntLit) : List Action :=
  (match lit.sign with
    | none => []
    | some sign => [.take sign.kind sign, .check (sign.kind.isSign = true)]) ++
    (lit.digits.log ++ [.noteOverflow lit.overflows])

namespace NameRef

/-- A name is read and looked up. -/
def log (ref : NameRef) : List Action :=
  [.take .ident ref.token, .nearest ref.token.value ref.symbol]

/-- A name whose value is used. -/
def readLog (ref : NameRef) : List Action :=
  ref.log ++ Action.when (ref.symbol.isNone = true) (.report ref.token.line .undefined)

end NameRef

/-- A value is negated into a register, or on the spot when it is a numeral. -/
def negateLog (value : Operand) : Operand → List Action
  | .reg dst => [.reg dst, .emit (.neg dst value)]
  | .named text =>
    [.check (∃ n, value.literal? = some n ∧ text = Text.numberText (-n)),
      .noteOverflow (value.literal? == some Int64.minValue)]

/-- A link of a chain uses the chain's register, or else a fresh one. -/
def combineLog (accumulator : Option Reg) (op : ArithOp) (dst : Reg) (lhs rhs : Operand) :
    List Action :=
  (match accumulator with
    | none => [.reg dst]
    | some reg => [.check (dst = reg)]) ++ [.emit (.arith op dst lhs rhs)]

def checkIndexLog (index : Expr) : List Action :=
  Action.when (index.ty ≠ .int) (.reportHere .indexType)

def checkConditionLog (operand : Expr) : List Action :=
  Action.when (operand.ty ≠ .int) (.reportHere .conditionType)

def checkArgumentsLog (name : Token) (callee : Symbol) (args : Args) : List Action :=
  if callee.parameterCount ≠ args.length then [.report name.line .argumentCount]
  else Action.when (callee.signature ≠ args.signature) (.report name.line .argumentType)

def unknownCallLog (fn : Token) : List Action :=
  [.callee fn.value none, .skipCall fn]

mutual

/-- The actions of a pass that reads an expression. -/
def Expr.log : Expr → List Action
  | .term t => .noSign :: t.log
  | .positive sign t => .take .plus sign :: t.log
  | .negative sign t value => .take .minus sign :: (t.log ++ negateLog t.value value)
  | .chain lhs op opToken rhs dst =>
    lhs.log ++ (.take opToken.kind opToken :: .check (ArithOp.additive? opToken.kind = some op) ::
      (rhs.log ++ combineLog lhs.accumulator? op dst lhs.value rhs.value))

def Term.log : Term → List Action
  | .factor f => f.log
  | .chain lhs op opToken rhs dst =>
    lhs.log ++ (.take opToken.kind opToken ::
      .check (ArithOp.multiplicative? opToken.kind = some op) ::
      (rhs.log ++ combineLog lhs.accumulator? op dst lhs.value rhs.value))

def Factor.log : Factor → List Action
  | .name ref => ref.readLog
  | .element ref lbracket index dst rbracket =>
    ref.readLog ++ (.take .lbracket lbracket :: (index.log ++ (checkIndexLog index ++
      (.reg dst :: .emit (.loadElement dst ref.token.value index.value) ::
        recoverLog .rbracket .missingBracket rbracket))))
  | .call c dst =>
    .callee c.name.value (some c.callee) :: (c.log ++ [.reg dst, .emit (.takeResult dst)])
  | .unknownCall fn => unknownCallLog fn
  | .paren lparen inner rparen =>
    .take .lparen lparen :: (inner.log ++ recoverLog .rparen .missingParen rparen)
  | .char literal => [.take .charLit literal]
  | .int literal => literal.log

def Call.log : Call → List Action
  | .mk name lparen callee args rparen =>
    .take .ident name :: .take .lparen lparen :: .emit (.save name.value) ::
      (args.log name.value ++ (checkArgumentsLog name callee args ++
        (recoverLog .rparen .missingParen rparen ++ [.emit (.call name.value)])))

/-- The actions behind the arguments of a call of `function`. -/
def Args.log (function : String) : Args → List Action
  | .nil => []
  | .first expr => expr.log ++ [.emit (.push function expr.value 0)]
  | .more init comma expr =>
    init.log function ++ (.check (0 < init.length) :: .take .comma comma ::
      (expr.log ++ [.emit (.push function expr.value init.length)]))

end

/-- The actions behind a condition with its jump. -/
def Condition.log (label : Label) (sense : Sense) : Condition → List Action
  | .test value =>
    value.log ++ (checkConditionLog value ++ [.emit (.test value.value label sense)])
  | .compare lhs relation opToken rhs =>
    lhs.log ++ (checkConditionLog lhs ++ (.take opToken.kind opToken ::
      .check (Relation.ofKind? opToken.kind = some relation) ::
      (rhs.log ++ (checkConditionLog rhs ++
        [.emit (.compare relation lhs.value rhs.value label sense)]))))

/-- A chain accumulates in the register of its value. -/
theorem Expr.value_of_accumulator? {e : Expr} {r : Reg} (h : e.accumulator? = some r) :
    e.value = .reg r := by
  cases e with
  | chain lhs op opToken rhs dst =>
      cases h
      rfl
  | _ => cases h

theorem Term.value_of_accumulator? {e : Term} {r : Reg} (h : e.accumulator? = some r) :
    e.value = .reg r := by
  cases e with
  | chain lhs op opToken rhs dst =>
      cases h
      rfl
  | factor f => cases h

namespace DiagnosticKind

/-- The kinds of what is recorded in the place of a token that is left out. -/
class IsOmission (kind : DiagnosticKind) : Prop where
  ne_redefinition : kind ≠ .redefinition

instance : IsOmission .missingSemicolon := ⟨by decide⟩
instance : IsOmission .missingParen := ⟨by decide⟩
instance : IsOmission .missingBracket := ⟨by decide⟩
instance : IsOmission .missingWhile := ⟨by decide⟩

end DiagnosticKind

section Passive

variable {p : Action → Bool}

@[simp]
theorem all_when (condition : Prop) [Decidable condition] (action : Action)
    (haction : p action = true) : (Action.when condition action).all p = true := by
  unfold Action.when
  split
  · rw [List.all_cons, haction]
    rfl
  · rfl

variable [Action.Passive p]

open OnePass.Action (Passive)

@[simp]
theorem all_recoverLog (kind : TokenKind) (missing : DiagnosticKind) [missing.IsOmission]
    (found : Option Token) : (recoverLog kind missing found).all p = true := by
  cases found with
  | none => simp [recoverLog, Passive.reportHere missing DiagnosticKind.IsOmission.ne_redefinition]
  | some token => simp [recoverLog, Passive.take]

@[simp]
theorem all_unsigned (lit : UnsignedLit) : lit.log.all p = true := by
  simp [UnsignedLit.log, Passive.take, Passive.check]

@[simp]
theorem all_integer (lit : IntLit) : lit.log.all p = true := by
  unfold IntLit.log
  cases lit.sign with
  | none => simp [Passive.noteOverflow]
  | some sign => simp [Passive.take, Passive.check, Passive.noteOverflow]

@[simp]
theorem all_readLog (ref : NameRef) : ref.readLog.all p = true := by
  simp [NameRef.readLog, NameRef.log, Passive.take, Passive.nearest, Passive.report]

@[simp]
theorem all_checkIndexLog (index : Expr) : (checkIndexLog index).all p = true := by
  simp [checkIndexLog, Passive.reportHere]

@[simp]
theorem all_checkConditionLog (operand : Expr) : (checkConditionLog operand).all p = true := by
  simp [checkConditionLog, Passive.reportHere]

@[simp]
theorem all_checkArgumentsLog (name : Token) (callee : Symbol) (args : Args) :
    (checkArgumentsLog name callee args).all p = true := by
  unfold checkArgumentsLog
  split <;> simp [Passive.report]

end Passive

section Evaluative

variable {p : Action → Bool} [Action.Evaluative p]

open OnePass.Action (Passive Evaluative)

@[simp]
theorem all_negateLog (value result : Operand) : (negateLog value result).all p = true := by
  cases result with
  | reg dst =>
      have hneg := Evaluative.emit (p := p) (.neg dst value) rfl
      simp [negateLog, Evaluative.reg, hneg]
  | named text => simp [negateLog, Passive.check, Passive.noteOverflow]

@[simp]
theorem all_combineLog (accumulator : Option Reg) (op : ArithOp) (dst : Reg) (lhs rhs : Operand) :
    (combineLog accumulator op dst lhs rhs).all p = true := by
  have harith := Evaluative.emit (p := p) (.arith op dst lhs rhs) rfl
  cases accumulator <;> simp [combineLog, Evaluative.reg, Passive.check, harith]

mutual

theorem Expr.all_log : (e : Expr) → e.log.all p = true
  | .term t | .positive _ t | .negative _ t _ => by
      simp [Expr.log, Passive.take, Evaluative.noSign, t.all_log]
  | .chain lhs _ _ rhs _ => by
      simp [Expr.log, Passive.take, Passive.check, lhs.all_log, rhs.all_log]

theorem Term.all_log : (e : Term) → e.log.all p = true
  | .factor f => by simp [Term.log, f.all_log]
  | .chain lhs _ _ rhs _ => by
      simp [Term.log, Passive.take, Passive.check, lhs.all_log, rhs.all_log]

theorem Factor.all_log : (f : Factor) → f.log.all p = true
  | .name _ | .unknownCall _ | .char _ | .int _ => by
      simp [Factor.log, unknownCallLog, Passive.take, Evaluative.callee, Evaluative.skipCall]
  | .element ref _ index dst _ => by
      have hload := Evaluative.emit (p := p) (.loadElement dst ref.token.value index.value) rfl
      simp [Factor.log, index.all_log, Passive.take, Evaluative.reg, hload]
  | .call c dst => by
      have htake := Evaluative.emit (p := p) (.takeResult dst) rfl
      simp [Factor.log, c.all_log, Evaluative.callee, Evaluative.reg, htake]
  | .paren _ inner _ => by simp [Factor.log, inner.all_log, Passive.take]

theorem Call.all_log : (c : Call) → c.log.all p = true
  | .mk name _ _ args _ => by
      have hsave := Evaluative.emit (p := p) (.save name.value) rfl
      have hcall := Evaluative.emit (p := p) (.call name.value) rfl
      simp [Call.log, args.all_log name.value, Passive.take, hsave, hcall]

theorem Args.all_log : (args : Args) → (function : String) → (args.log function).all p = true
  | .nil, _ => by simp [Args.log]
  | .first expr, function => by
      have hpush := Evaluative.emit (p := p) (.push function expr.value 0) rfl
      simp [Args.log, expr.all_log, hpush]
  | .more init _ expr, function => by
      have hpush := Evaluative.emit (p := p) (.push function expr.value init.length) rfl
      simp [Args.log, init.all_log function, expr.all_log, Passive.take, Passive.check, hpush]

end

attribute [simp] Expr.all_log Call.all_log

end Evaluative

section Tokens

@[simp]
theorem tokens_when (condition : Prop) [Decidable condition] (action : Action)
    (haction : action.tokens = []) : (Action.when condition action).flatMap Action.tokens = [] := by
  unfold Action.when
  split
  · rw [List.flatMap_singleton, haction]
  · rfl

@[simp]
theorem tokens_recoverLog (kind : TokenKind) (missing : DiagnosticKind) (found : Option Token) :
    (recoverLog kind missing found).flatMap Action.tokens = found.toList := by
  cases found <;> rfl

@[simp]
theorem tokens_integer (lit : IntLit) :
    lit.log.flatMap Action.tokens = lit.sign.toList ++ [lit.digits.token] := by
  unfold IntLit.log
  cases lit.sign <;> rfl

@[simp]
theorem tokens_readLog (ref : NameRef) : ref.readLog.flatMap Action.tokens = [ref.token] := by
  unfold NameRef.readLog
  rw [List.flatMap_append, tokens_when _ _ rfl]
  rfl

@[simp]
theorem tokens_negateLog (value result : Operand) :
    (negateLog value result).flatMap Action.tokens = [] := by
  cases result <;> rfl

@[simp]
theorem tokens_combineLog (accumulator : Option Reg) (op : ArithOp) (dst : Reg)
    (lhs rhs : Operand) : (combineLog accumulator op dst lhs rhs).flatMap Action.tokens = [] := by
  cases accumulator <;> rfl

@[simp]
theorem tokens_checkIndexLog (index : Expr) : (checkIndexLog index).flatMap Action.tokens = [] :=
  tokens_when _ _ rfl

@[simp]
theorem tokens_checkConditionLog (operand : Expr) :
    (checkConditionLog operand).flatMap Action.tokens = [] :=
  tokens_when _ _ rfl

@[simp]
theorem tokens_checkArgumentsLog (name : Token) (callee : Symbol) (args : Args) :
    (checkArgumentsLog name callee args).flatMap Action.tokens = [] := by
  unfold checkArgumentsLog
  split
  · rfl
  · exact tokens_when _ _ rfl

end Tokens

namespace ArithOp

theorem kind_of_additive?_sub {kind : TokenKind} (h : additive? kind = some sub) :
    kind = .minus := by
  cases kind <;> simp_all [additive?]

theorem kind_of_additive?_ne_sub {kind : TokenKind} {op : ArithOp} (hop : op ≠ sub)
    (h : additive? kind = some op) : kind = .plus := by
  cases kind <;> simp_all [additive?]

end ArithOp

namespace Pass

variable {α β : Type}

/-- A pass that succeeds has performed the actions of what it returns. -/
def Follows (pass : Pass α) (log : α → List Action) : Prop :=
  ∀ s a t, pass s = .ok a t → Plays (log a) s t

/-- A pass that goes on behind some actions and succeeds has performed the others of what it
returns. -/
def Completes (before : List Action) (pass : Pass α) (log : α → List Action) : Prop :=
  ∀ r s a t, Plays before r s → pass s = .ok a t → Plays (log a) r t

namespace Follows

theorem of_completes {pass : Pass α} {log : α → List Action} (h : Completes [] pass log) :
    Follows pass log :=
  fun s a t => h s s a t rfl

/-- A pass that performs a single action. -/
theorem single {pass : Pass α} {action : α → Action}
    (h : ∀ s a t, pass s = .ok a t → (action a).Performs s t) :
    Follows pass fun a => [action a] :=
  fun s a t hrun => ⟨t, h s a t hrun, rfl⟩

theorem expect (kind : TokenKind) : Follows (Pass.expect kind) fun token => [.take kind token] :=
  single fun _ _ _ => expect_eq_ok.1

theorem emit (instr : Instr) : Follows (Pass.emit instr) fun _ => [.emit instr] :=
  single fun _ _ _ => id

theorem freshReg : Follows Pass.freshReg fun reg => [.reg reg] :=
  single fun _ _ _ => id

theorem freshLabel : Follows Pass.freshLabel fun label => [.label label] :=
  single fun _ _ _ => id

theorem intern (text : String) : Follows (Pass.intern text) fun index => [.intern text index] :=
  single fun _ _ _ => id

theorem declare {scope : Scope} {symbol : Symbol} (hkind : symbol.kind ≠ .const) :
    Follows (Pass.declare scope symbol) fun _ => [.declare scope symbol] :=
  single fun _ _ _ h => ⟨hkind, h⟩

theorem checkRedefinition (scope : Scope) (name : Token) :
    Follows (Pass.checkRedefinition scope name) fun _ => [.checkRedefinition scope name] :=
  single fun _ _ _ => id

theorem report (line : UInt64) (kind : DiagnosticKind) :
    Follows (Pass.report line kind) fun _ => [.report line kind] :=
  single fun _ _ _ => id

theorem noteOverflow (overflows : Bool) :
    Follows (Pass.noteOverflow overflows) fun _ => [.noteOverflow overflows] :=
  single fun _ _ _ => id

theorem reportHere (kind : DiagnosticKind) :
    Follows (do Pass.report (← lastLine) kind) fun _ => [.reportHere kind] :=
  single fun _ _ _ => id

theorem recover (kind : TokenKind) (missing : DiagnosticKind) :
    Follows (Pass.recover kind missing) (recoverLog kind missing) := by
  intro s found t h
  cases found with
  | none => exact ⟨t, recover_eq_none h, rfl⟩
  | some token => exact ⟨t, recover_eq_some h, rfl⟩

theorem ite {condition : Prop} [Decidable condition] {yes no : Pass α} {log log' : α → List Action}
    (hyes : Follows yes log) (hno : Follows no log') :
    Follows (if condition then yes else no) fun a => if condition then log a else log' a := by
  by_cases h : condition
  · simpa only [if_pos h] using hyes
  · simpa only [if_neg h] using hno

/-- A single action under a condition. -/
theorem when {condition : Prop} [Decidable condition] {step : Pass Unit} {action : Action}
    (hstep : Follows step fun _ => [action]) :
    Follows (if condition then step else pure ()) fun _ => Action.when condition action :=
  .ite hstep fun _ _ _ h => (pure_eq_ok.1 h).2

/-- A repetition plays the logs of its items one after the other. -/
theorem many {item : Pass (Option α)} {itemLog : α → List Action}
    (hitem : Follows item fun found => found.elim [] itemLog) :
    Follows (Pass.many item) (List.flatMap itemLog) := by
  intro s as t h
  refine many_ok (P := fun s as t => Plays (List.flatMap itemLog as) s t)
    (fun s t => hitem s none t) (fun s u t a as ha has => ?_) h
  rw [List.flatMap_cons, plays_append]
  exact ⟨u, hitem s _ u ha, has⟩

end Follows

namespace Completes

variable {before : List Action} {log : β → List Action} {step : Pass α} {next : α → Pass β}

theorem pure {b : β} (h : before = log b) : Completes before (Pure.pure b) log := by
  intro r s c t hbefore hrun
  obtain ⟨rfl, rfl⟩ := pure_eq_ok.1 hrun
  exact h ▸ hbefore

theorem unexpected (expected : Expected) :
    Completes before (Pass.unexpected expected : Pass β) log :=
  fun _ _ _ _ _ h => absurd h unexpected_ne_ok

theorem bind {stepLog : α → List Action} (hstep : Follows step stepLog)
    (hnext : ∀ a, Completes (before ++ stepLog a) (next a) log) :
    Completes before (step >>= next) log := by
  intro r s b t hbefore hrun
  obtain ⟨a, u, ha, hb⟩ := bind_eq_ok.1 hrun
  exact hnext a r u b t (plays_append.2 ⟨s, hbefore, hstep s a u ha⟩) hb

/-- A step that only looks at the state. -/
theorem look (hstep : ∀ s a t, step s = .ok a t → s = t)
    (hnext : ∀ a, Completes before (next a) log) : Completes before (step >>= next) log := by
  intro r s b t hbefore hrun
  obtain ⟨a, u, ha, hb⟩ := bind_eq_ok.1 hrun
  obtain rfl := hstep s a u ha
  exact hnext a r s b t hbefore hb

theorem nextIs {kind : TokenKind} {next : Bool → Pass β}
    (hnext : ∀ answer, Completes before (next answer) log) :
    Completes before (Pass.nextIs kind >>= next) log :=
  .look (fun _ _ _ h => (nextIs_eq_ok.1 h).2) hnext

theorem ite {condition : Prop} [Decidable condition] {yes no : Pass β}
    (hyes : condition → Completes before yes log) (hno : ¬ condition → Completes before no log) :
    Completes before (if condition then yes else no) log := by
  by_cases h : condition
  · simpa only [if_pos h] using hyes h
  · simpa only [if_neg h] using hno h

/-- A single action under a condition, and what follows it in either case. -/
theorem joined {condition : Prop} [Decidable condition] {step : Pass Unit} {next : Unit → Pass β}
    {action : Action} (hstep : Follows step fun _ => [action])
    (hnext : Completes (before ++ Action.when condition action) (next ()) log) :
    Completes before (if condition then step >>= next else next ()) log := by
  intro r s b t hbefore hrun
  obtain ⟨u, hu, hb⟩ := joined_eq_ok.1 hrun
  exact hnext r u b t (plays_append.2 ⟨s, hbefore, hstep.when s () u hu⟩) hb

/-- A token that may be there. -/
theorem accept {kind : TokenKind} {next : Option Token → Pass β}
    (hnone : Completes before (next none) log)
    (hsome : ∀ token, Completes (before ++ [.take kind token]) (next (some token)) log) :
    Completes before (Pass.accept kind >>= next) log := by
  intro r s b t hbefore hrun
  obtain ⟨found, u, hfound, hb⟩ := bind_eq_ok.1 hrun
  cases found with
  | none =>
      obtain ⟨rfl, _⟩ := accept_eq_none.1 hfound
      exact hnone r s b t hbefore hb
  | some token =>
      exact hsome token r u b t (plays_append.2 ⟨s, hbefore, u, accept_eq_some.1 hfound, rfl⟩) hb

/-- A token that stands for something may be there. -/
theorem acceptAs {meaning? : TokenKind → Option α} {next : Option (α × Token) → Pass β}
    (hnone : Completes before (next none) log)
    (hsome : ∀ meaning token, meaning? token.kind = some meaning → Completes
      (before ++ [.take token.kind token]) (next (some (meaning, token))) log) :
    Completes before (Pass.acceptAs meaning? >>= next) log := by
  intro r s b t hbefore hrun
  obtain ⟨found, u, hfound, hb⟩ := bind_eq_ok.1 hrun
  cases found with
  | none =>
      obtain ⟨rfl, _⟩ := acceptAs_eq_none.1 hfound
      exact hnone r s b t hbefore hb
  | some found =>
      obtain ⟨hmeaning, htoken⟩ := acceptAs_eq_some.1 hfound
      exact hsome found.1 found.2 hmeaning r u b t
        (plays_append.2 ⟨s, hbefore, u, ⟨rfl, htoken⟩, rfl⟩) hb

/-- Something that holds of the phrase. -/
theorem check {pass : Pass β} {fact : Prop} (hfact : fact)
    (hpass : Completes (before ++ [.check fact]) pass log) : Completes before pass log :=
  fun r s b t hbefore => hpass r s b t (plays_append.2 ⟨s, hbefore, s, ⟨hfact, rfl⟩, rfl⟩)

/-- A name that is read and looked up. -/
theorem name {next : Token → NameRef → Pass β}
    (hnext : ∀ ref, Completes (before ++ ref.log) (next ref.token ref) log) :
    Completes before (Pass.expect .ident >>= fun name => resolve name >>= next name) log := by
  intro r s b t hbefore hrun
  obtain ⟨name, u, hname, hrun⟩ := bind_eq_ok.1 hrun
  obtain ⟨ref, v, href, hb⟩ := bind_eq_ok.1 hrun
  cases href
  exact hnext ⟨name, _⟩ r u b t
    (plays_append.2 ⟨s, hbefore, u, expect_eq_ok.1 hname, u, ⟨rfl, rfl⟩, rfl⟩) hb

end Completes

theorem follows_unsigned : Follows unsigned UnsignedLit.log := by
  refine .of_completes (.bind (.expect _) fun token => ?_)
  cases hvalue : Text.signed? token.value.toList with
  | none => exact fun _ _ _ _ _ h => nomatch h
  | some value => exact .check hvalue (.pure rfl)

theorem follows_integer : Follows integer IntLit.log := by
  refine .of_completes (.acceptAs ?_ fun op token hop => ?_)
  · exact .bind follows_unsigned fun _ => .bind (.noteOverflow _) fun _ => .pure rfl
  · have hkind : token.kind.isSign = true := by
      unfold ArithOp.additive? at hop
      unfold TokenKind.isSign
      split at hop <;> simp_all
    exact .check hkind
      (.bind follows_unsigned fun _ => .bind (.noteOverflow _) fun _ => .pure rfl)

theorem follows_negate (value : Operand) : Follows (negate value) (negateLog value) := by
  unfold negate
  cases hvalue : value.literal? with
  | some n =>
      have hfact : ∃ m, value.literal? = some m ∧ Text.numberText (-n) = Text.numberText (-m) :=
        ⟨n, hvalue, rfl⟩
      refine .of_completes (.check hfact (.bind (.noteOverflow _) fun _ => .pure ?_))
      simp [negateLog, Operand.ofNumber, hvalue]
  | none => exact .of_completes (.bind .freshReg fun _ => .bind (.emit _) fun _ => .pure rfl)

theorem follows_combine (accumulator : Option Reg) (op : ArithOp) (lhs rhs : Operand) :
    Follows (combine accumulator op lhs rhs) (combineLog accumulator op · lhs rhs) := by
  cases accumulator with
  | none => exact .of_completes (.bind .freshReg fun _ => .bind (.emit _) fun _ => .pure rfl)
  | some reg =>
      simp only [combine, pure_bind]
      exact .of_completes (.check rfl (.bind (.emit _) fun _ => .pure rfl))

theorem follows_checkArguments (name : Token) (callee : Symbol) (args : Args) :
    Follows (checkArguments name callee args) fun _ => checkArgumentsLog name callee args :=
  .ite (.report _ _) (.when (.report _ _))

theorem plays_take {kind : TokenKind} {token : Token} {s t : State} (hkind : token.kind = kind)
    (h : advance s = .ok token t) : Plays [.take kind token] s t :=
  ⟨t, ⟨hkind, h⟩, rfl⟩

theorem eq_of_advance {token other : Token} {s t : State}
    (hnext : s.cursor.rest.head? = some token) (h : advance s = .ok other t) : other = token := by
  obtain ⟨rest, hrest, _⟩ := advance_eq_ok.1 h
  rw [hrest] at hnext
  exact Option.some.inj hnext

theorem plays_unknownCall {token fn : Token} {s t : State}
    (hnext : s.cursor.rest.head? = some token) (hkind : token.kind = .ident)
    (hcallee : s.scopes.function? token.value = none) (h : skipUnknownCall s = .ok fn t) :
    Plays (unknownCallLog fn) s t := by
  obtain ⟨name, s₁, hname, h⟩ := bind_eq_ok.1 h
  obtain ⟨_, s₂, hreport, h⟩ := bind_eq_ok.1 h
  obtain ⟨_, s₃, hparens, h⟩ := bind_eq_ok.1 h
  obtain ⟨rfl, rfl⟩ := pure_eq_ok.1 h
  obtain rfl : fn = token := eq_of_advance hnext hname
  exact ⟨s, ⟨hcallee, rfl⟩, s₃, ⟨hkind, s₁, s₂, hname, hreport, hparens⟩, rfl⟩

section Phrases

variable {expr : Pass Expr} (hexpr : Follows expr Expr.log)

include hexpr

theorem follows_argument (function : String) (position : Nat) :
    Follows (argument expr function position)
      fun value => value.log ++ [.emit (.push function value.value position)] := by
  refine .of_completes (.bind hexpr fun value => .bind (.emit _) fun _ => .ite (fun _ => ?_) fun _ => ?_)
  · exact fun _ _ _ _ _ h => nomatch h
  · exact .pure rfl

theorem follows_arguments (function : String) :
    Follows (arguments expr function) (Args.log function) := by
  refine .of_completes (.nextIs fun _ => .nextIs fun _ => .ite (fun _ => .pure (by simp [Args.log]))
    fun _ => .bind (follows_argument hexpr function 0) fun first => ?_)
  intro r s args t hfirst h
  -- the arguments read so far have been played from the start of the list
  have hplays : Plays (Args.log function (.first first)) r s ∧ 0 < (Args.first first).length := by
    unfold Args.log
    exact ⟨hfirst, Nat.one_pos⟩
  refine (extend_ok (P := fun args u => Plays (Args.log function args) r u ∧ 0 < args.length)
    (fun args u v hargs hstop => ?_) (fun args more u v hargs hlink => ?_) hplays h).1
  · obtain ⟨found, w, hfound, hstop⟩ := bind_eq_ok.1 hstop
    cases found with
    | none =>
        obtain ⟨_, rfl⟩ := pure_eq_ok.1 hstop
        obtain ⟨rfl, _⟩ := accept_eq_none.1 hfound
        exact hargs
    | some comma =>
        obtain ⟨next, x, _, hstop⟩ := bind_eq_ok.1 hstop
        cases hstop
  · obtain ⟨found, w, hfound, hlink⟩ := bind_eq_ok.1 hlink
    cases found with
    | none => cases hlink
    | some comma =>
        obtain ⟨next, x, hnext, hlink⟩ := bind_eq_ok.1 hlink
        cases hlink
        refine ⟨?_, Nat.succ_pos _⟩
        unfold Args.log
        rw [plays_append]
        exact ⟨u, hargs.1, u, ⟨hargs.2, rfl⟩, w, accept_eq_some.1 hfound,
          follows_argument hexpr function args.length w next v hnext⟩

theorem follows_call {callee : Symbol} {token : Token} {s t : State} {c : Call}
    (hnext : s.cursor.rest.head? = some token)
    (hcallee : s.scopes.function? token.value = some callee)
    (h : call expr callee s = .ok c t) :
    Plays (.callee c.name.value (some c.callee) :: c.log) s t := by
  obtain ⟨name, s₁, hname, h⟩ := bind_eq_ok.1 h
  obtain rfl : name = token := eq_of_advance hnext (expect_eq_ok.1 hname).2
  have hplays : Plays [.callee name.value (some callee), .take .ident name] s s₁ :=
    ⟨s, ⟨hcallee, rfl⟩, s₁, expect_eq_ok.1 hname, rfl⟩
  refine (?_ : Completes _ _ fun c => .callee c.name.value (some c.callee) :: c.log) s s₁ c t hplays h
  exact .bind (.expect _) fun _ => .bind (.emit _) fun _ => .bind (follows_arguments hexpr _) fun _ =>
    .bind (follows_checkArguments _ _ _) fun _ => .bind (.recover _ _) fun _ => .bind (.emit _) fun _ =>
      .pure (by simp [Call.log, Call.name, Call.callee])

theorem follows_nameFactor : Follows (nameFactor expr) Factor.log := by
  refine .of_completes (.name fun ref => .joined (.report _ _) (.accept ?_ fun lbracket => ?_))
  · exact .pure rfl
  · exact .bind hexpr fun _ => .bind (.when (.reportHere _)) fun _ => .bind .freshReg fun _ =>
      .bind (.emit _) fun _ => .bind (.recover _ _) fun _ =>
        .pure (by simp [Factor.log, NameRef.readLog, checkIndexLog])

theorem follows_callFactor {token : Token} {s t : State} {f : Factor}
    (hnext : s.cursor.rest.head? = some token) (hkind : token.kind = .ident)
    (h : callFactor expr token.value s = .ok f t) : Plays f.log s t := by
  obtain ⟨found, s₁, hfound, h⟩ := bind_eq_ok.1 h
  cases hfound
  cases hcallee : s.scopes.function? token.value with
  | none =>
      rw [hcallee] at h
      obtain ⟨fn, s₂, hskip, h⟩ := bind_eq_ok.1 h
      obtain ⟨rfl, rfl⟩ := pure_eq_ok.1 h
      exact plays_unknownCall hnext hkind hcallee hskip
  | some callee =>
      rw [hcallee] at h
      obtain ⟨c, s₂, hcall, h⟩ := bind_eq_ok.1 h
      exact Completes.bind .freshReg (fun _ => .bind (.emit _) fun _ => .pure (by simp [Factor.log]))
        s s₂ f t (follows_call hexpr hnext hcallee hcall) h

theorem follows_factor : Follows (factor expr) Factor.log := by
  intro s f t h
  obtain ⟨token, u, htoken, h⟩ := bind_eq_ok.1 h
  obtain ⟨hnext, rfl⟩ := current_eq_ok.1 htoken
  cases hkind : token.kind <;> simp only [hkind] at h
  case ident =>
    obtain ⟨kind, u, hpeek, h⟩ := bind_eq_ok.1 h
    obtain ⟨_, rfl⟩ := peekKind_eq_ok.1 hpeek
    split at h
    · exact follows_callFactor hexpr hnext hkind h
    · exact follows_nameFactor hexpr s f t h
  case lparen =>
    obtain ⟨lparen, s₁, hlparen, h⟩ := bind_eq_ok.1 h
    obtain rfl : lparen = token := eq_of_advance hnext hlparen
    exact Completes.bind hexpr (fun _ => .bind (.recover _ _) fun _ => .pure (by simp [Factor.log]))
      s s₁ f t (plays_take hkind hlparen) h
  case charLit =>
    obtain ⟨literal, s₁, hliteral, h⟩ := bind_eq_ok.1 h
    obtain ⟨rfl, rfl⟩ := pure_eq_ok.1 h
    obtain rfl : literal = token := eq_of_advance hnext hliteral
    exact plays_take hkind hliteral
  case intLit | plus | minus =>
    obtain ⟨literal, s₁, hliteral, h⟩ := bind_eq_ok.1 h
    obtain ⟨rfl, rfl⟩ := pure_eq_ok.1 h
    exact follows_integer s literal s₁ hliteral
  all_goals exact absurd h unexpected_ne_ok

/-- The links of a chain of factors play on from where the chain stood. -/
theorem follows_term : Follows (term expr) Term.log := by
  intro s e t h
  rw [term_eq] at h
  obtain ⟨first, u, hfirst, h⟩ := bind_eq_ok.1 h
  have hplays : Plays (Term.factor first).log s u := follows_factor hexpr s first u hfirst
  refine chain_ok (P := fun lhs u => Plays (Term.log lhs) s u) ?_ hplays h
  intro lhs op opToken rhs dst u w x y hlhs hop hopToken hrhs hdst
  simp only [Term.log, plays_cons, plays_append]
  exact ⟨u, hlhs, w, ⟨rfl, hopToken⟩, w, ⟨hop, rfl⟩, x, follows_factor hexpr w rhs x hrhs,
    follows_combine _ op lhs.value rhs.value x dst y hdst⟩

theorem follows_signedTerm : Follows (signedTerm expr) Expr.log := by
  intro s e t h
  obtain ⟨found, u, hfound, h⟩ := bind_eq_ok.1 h
  cases found with
  | none =>
      obtain ⟨body, v, hbody, h⟩ := bind_eq_ok.1 h
      obtain ⟨rfl, rfl⟩ := pure_eq_ok.1 h
      obtain ⟨rfl, hnone⟩ := acceptAs_eq_none.1 hfound
      exact ⟨s, ⟨hnone, rfl⟩, follows_term hexpr s body v hbody⟩
  | some found =>
      obtain ⟨op, sign⟩ := found
      obtain ⟨hop, hsign⟩ := acceptAs_eq_some.1 hfound
      refine Completes.bind (follows_term hexpr) (fun body => .ite (fun hsub => ?_) fun hsub => ?_)
        s u e t (plays_take rfl hsign) h
      · have hkind : sign.kind = .minus := ArithOp.kind_of_additive?_sub (hsub ▸ hop)
        exact .bind (follows_negate _) fun _ => .pure (by simp [Expr.log, hkind])
      · have hkind : sign.kind = .plus := ArithOp.kind_of_additive?_ne_sub hsub hop
        exact .pure (by simp [Expr.log, hkind])

end Phrases

theorem follows_expression : Follows expression Expr.log := by
  intro s e t h
  rw [expression_eq] at h
  refine nest_ok (P := fun s e t => Plays (Expr.log e) s t) ?_ h
  intro expr hexpr s e t h
  obtain ⟨first, u, hfirst, h⟩ := bind_eq_ok.1 h
  have hplays : Plays first.log s u := follows_signedTerm hexpr s first u hfirst
  refine chain_ok (P := fun lhs u => Plays (Expr.log lhs) s u) ?_ hplays h
  intro lhs op opToken rhs dst u w x y hlhs hop hopToken hrhs hdst
  simp only [Expr.log, plays_cons, plays_append]
  exact ⟨u, hlhs, w, ⟨rfl, hopToken⟩, w, ⟨hop, rfl⟩, x, follows_term hexpr w rhs x hrhs,
    follows_combine _ op lhs.value rhs.value x dst y hdst⟩

theorem follows_condition (label : Label) (sense : Sense) :
    Follows (condition label sense) (Condition.log label sense) := by
  refine .of_completes (.bind follows_expression fun _ => .bind (.when (.reportHere _)) fun _ =>
    .acceptAs ?_ fun _ _ hrelation => .check hrelation ?_)
  · exact .bind (.emit _) fun _ => .pure (by simp [Condition.log, checkConditionLog])
  · exact .bind follows_expression fun _ => .bind (.when (.reportHere _)) fun _ =>
      .bind (.emit _) fun _ => .pure (by simp [Condition.log, checkConditionLog])

end Pass

end OnePass
