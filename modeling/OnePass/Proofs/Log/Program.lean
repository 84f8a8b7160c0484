import OnePass.Proofs.Log.Stmt

/-!
The actions behind declarations, functions and whole programs.
-/

namespace OnePass

def TypeName.log (type : TypeName) : List Action :=
  [.take type.token.kind type.token,
    .check (type.token.kind = .kwInt ∧ type.ty = .int ∨ type.token.kind = .kwChar ∧ type.ty = .char)]

namespace ConstInit

/-- The first token of what a constant is set to. -/
def token : ConstInit → Token
  | char literal => literal
  | int literal => literal.sign.getD literal.digits.token
  | other t => t

/-- The actions for the tokens of what a constant is set to. -/
def takeLog : ConstInit → List Action
  | char literal => [.take .charLit literal]
  | int literal => literal.log
  | other t => [.take t.kind t, .check (t.kind ≠ .charLit ∧ t.kind ≠ .intLit)]

def log (ty : Ty) (init : ConstInit) : List Action :=
  Action.when (init.fits ty = false) (.report init.token.line .constInitialiser) ++ init.takeLog

end ConstInit

def ConstItem.log (scope : Scope) (ty : Ty) (item : ConstItem) : List Action :=
  .take .ident item.name :: .checkRedefinition scope item.name :: .take .assign item.assign ::
    (item.init.log ty ++ [.declareConst scope ty item])

def ConstDecl.log (scope : Scope) (decl : ConstDecl) : List Action :=
  .take .kwConst decl.keyword :: (decl.type.log ++
    (decl.items.log (ConstItem.log scope decl.type.ty) ++ semicolonLog decl.semicolon))

def ArraySize.log (size : ArraySize) : List Action :=
  .take .lbracket size.lbracket ::
    (size.length.log ++ recoverLog .rbracket .missingBracket size.rbracket)

def VarItem.log (scope : Scope) (ty : Ty) (item : VarItem) : List Action :=
  .take .ident item.name :: .checkRedefinition scope item.name ::
    ((item.size.map ArraySize.log).getD [] ++
      [.declare scope (item.symbol ty), .emit (.var ty item.name.value item.length)])

def VarDecl.log (scope : Scope) (decl : VarDecl) : List Action :=
  decl.type.log ++
    (decl.items.log (VarItem.log scope decl.type.ty) ++ semicolonLog decl.semicolon)

/-- The actions behind a parameter of `function`. -/
def Param.log (function : String) (param : Param) : List Action :=
  param.type.log ++ [.take .ident param.name, .checkRedefinition .local param.name,
    .addParameter function param.type.ty,
    .declare .local { name := param.name.value, kind := .parameter, ty := param.type.ty }]

def Params.log (function : String) : Params → List Action
  | nil => []
  | last param => param.log function
  | cons param comma rest => param.log function ++ (.take .comma comma :: rest.log function)

def openFunctionLog (ty : Ty) (name : Token) : List Action :=
  [.checkRedefinition .global name, .declare .global { name := name.value, kind := .function, ty },
    .resetLocals]

namespace FunctionHead

def log : FunctionHead → List Action
  | value type name lparen params rparen =>
    type.log ++ (.take .ident name :: (openFunctionLog type.ty name ++ (.take .lparen lparen ::
      (params.log name.value ++ recoverLog .rparen .missingParen rparen))))
  | void keyword name lparen params rparen =>
    .take .kwVoid keyword :: .take .ident name :: (openFunctionLog .void name ++
      (.take .lparen lparen ::
        (params.log name.value ++ recoverLog .rparen .missingParen rparen)))
  | main keyword name lparen rparen =>
    .take .kwVoid keyword :: .take .kwMain name :: (openFunctionLog .void name ++
      (.take .lparen lparen :: recoverLog .rparen .missingParen rparen))

/-- What is done for a parameter is done for the head that it stands in. -/
theorem subset_log {head : FunctionHead} {param : Param} (h : param ∈ head.params) :
    param.log head.name.value ⊆ head.log := by
  have hparams : ∀ (function : String) (params : Params), param ∈ params.toList →
      param.log function ⊆ params.log function := by
    intro function params hparam action haction
    induction params with
    | nil => cases hparam
    | last other =>
        obtain rfl := List.mem_singleton.1 hparam
        exact haction
    | cons other comma rest ih =>
        rcases List.mem_cons.1 hparam with rfl | hrest
        · simp [Params.log, haction]
        · simp [Params.log, ih hrest]
  intro action haction
  cases head with
  | value type name lparen params rparen | void keyword name lparen params rparen =>
      simp [log, hparams name.value params h haction]
  | main keyword name lparen rparen => cases h

/-- A function is announced together with its parameters. -/
def announceLog (head : FunctionHead) : List Action :=
  .emit (.funcDeclare head.ty head.name.value) ::
    head.params.map fun param => .emit (.param param.type.ty param.name.value)

end FunctionHead

/-- The actions behind the body of a function that is closed on `line`. -/
def Body.log (returnType : Ty) (line : UInt64) (body : Body) : List Action :=
  body.consts.flatMap (ConstDecl.log .local) ++ (body.vars.flatMap (VarDecl.log .local) ++
    (Stmt.logs returnType body.stmts ++
      Action.when (returnType ≠ .void ∧ Stmt.anyAlwaysReturns body.stmts = false)
        (.report line .missingReturn)))

def Function.log (function : Function) : List Action :=
  function.head.log ++ (function.head.announceLog ++ (.take .lbrace function.lbrace ::
    (function.body.log function.head.ty function.rbrace.line ++
      (Action.when (function.head.ty = .void) (.emit .retVoid) ++
        [.emit .functionEnd, .take .rbrace function.rbrace,
          .keepTable function.head.name.value .local]))))

/-- What is done between the head of a function and its statements. -/
def Function.prelude (f : Function) : List Action :=
  f.head.announceLog ++ (.take .lbrace f.lbrace ::
    (f.body.consts.flatMap (ConstDecl.log .local) ++ f.body.vars.flatMap (VarDecl.log .local)))

/-- What is done behind the statements of a function. -/
def Function.closing (f : Function) : List Action :=
  Action.when (f.head.ty ≠ .void ∧ Stmt.anyAlwaysReturns f.body.stmts = false)
      (.report f.rbrace.line .missingReturn) ++
    (Action.when (f.head.ty = .void) (.emit .retVoid) ++
      [.emit .functionEnd, .take .rbrace f.rbrace, .keepTable f.head.name.value .local])

theorem Function.log_eq (f : Function) :
    f.log = f.head.log ++ (f.prelude ++ (Stmt.logs f.head.ty f.body.stmts ++ f.closing)) := by
  simp [Function.log, Function.prelude, Function.closing, Body.log]

def TopLevel.log : TopLevel → List Action
  | consts decls => decls.flatMap (ConstDecl.log .global)
  | vars decls => decls.flatMap (VarDecl.log .global)
  | function f => f.log

/-- The actions of a whole compilation. -/
def Program.log (program : Program) : List Action :=
  program.items.flatMap TopLevel.log ++ [.keepTable Pass.globalName .global]

section Passive

variable {p : Action → Bool} [Action.Passive p]

open OnePass.Action (Passive)

@[simp]
theorem TypeName.all_log (type : TypeName) : type.log.all p = true := by
  simp [TypeName.log, Passive.take, Passive.check]

theorem ConstInit.all_log (ty : Ty) (init : ConstInit) : (init.log ty).all p = true := by
  have htake : init.takeLog.all p = true := by
    cases init with
    | char literal | other token => simp [takeLog, Passive.take, Passive.check]
    | int literal => exact all_integer literal
  rw [log, List.all_append, htake, all_when _ _ (Passive.report _ _ (by decide))]
  rfl

/-- The length of an array, if there is one. -/
theorem VarItem.all_sizeLog (item : VarItem) :
    ((item.size.map ArraySize.log).getD []).all p = true := by
  cases item.size with
  | none => rfl
  | some size => simp [ArraySize.log, Passive.take]

/-- A declaration of constants, for a property of what it does besides reading. -/
theorem ConstDecl.all_log_of {scope : Scope} (decl : ConstDecl)
    (hcheck : ∀ name, p (.checkRedefinition scope name) = true)
    (hdeclare : ∀ ty item, p (.declareConst scope ty item) = true) :
    (decl.log scope).all p = true := by
  have hitem : ∀ item : ConstItem, (item.log scope decl.type.ty).all p = true := by
    intro item
    simp [ConstItem.log, Passive.take, hcheck, hdeclare, ConstInit.all_log]
  simp [ConstDecl.log, Passive.take, decl.items.all_log hitem]

/-- A declaration of variables, for a property of what it does besides reading. -/
theorem VarDecl.all_log_of {scope : Scope} (decl : VarDecl)
    (hcheck : ∀ name, p (.checkRedefinition scope name) = true)
    (hdeclare : ∀ ty (item : VarItem), p (.declare scope (item.symbol ty)) = true)
    (hemit : ∀ ty name length, p (.emit (.var ty name length)) = true) :
    (decl.log scope).all p = true := by
  have hitem : ∀ item : VarItem, (item.log scope decl.type.ty).all p = true := by
    intro item
    simp [VarItem.log, Passive.take, hcheck, hdeclare, hemit, item.all_sizeLog]
  simp [VarDecl.log, decl.items.all_log hitem]

/-- What is done in front of the statements of a function, for a property of what it does besides
reading. -/
theorem Function.all_prelude (f : Function)
    (hframe : ∀ instr : Instr, instr.isFraming = true → p (.emit instr) = true)
    (hcheck : ∀ name, p (.checkRedefinition .local name) = true)
    (hconst : ∀ ty item, p (.declareConst .local ty item) = true)
    (hdeclare : ∀ ty (item : VarItem), p (.declare .local (item.symbol ty)) = true) :
    f.prelude.all p = true := by
  have hconsts : (f.body.consts.flatMap (ConstDecl.log .local)).all p = true := by
    rw [List.all_flatMap, List.all_eq_true]
    exact fun decl _ => decl.all_log_of hcheck hconst
  have hvars : (f.body.vars.flatMap (VarDecl.log .local)).all p = true := by
    rw [List.all_flatMap, List.all_eq_true]
    exact fun decl _ => decl.all_log_of hcheck hdeclare fun _ _ _ => hframe _ rfl
  simp [prelude, FunctionHead.announceLog, hconsts, hvars, Passive.take, hframe (.funcDeclare _ _) rfl,
    hframe (.param _ _) rfl]

theorem Function.all_closing (f : Function) (hret : p (.emit .retVoid) = true)
    (hframe : ∀ instr : Instr, instr.isFraming = true → p (.emit instr) = true)
    (hkeep : ∀ name, p (.keepTable name .local) = true) : f.closing.all p = true := by
  have hreport := Passive.report (p := p) f.rbrace.line .missingReturn (by decide)
  simp [closing, all_when _ _ hret, all_when _ _ hreport, hframe .functionEnd rfl, Passive.take, hkeep]

/-- The head of a function, for a property of what it does besides reading. -/
theorem FunctionHead.all_log_of (head : FunctionHead)
    (hcheck : ∀ scope name, p (.checkRedefinition scope name) = true)
    (hadd : ∀ function ty, p (.addParameter function ty) = true)
    (hdeclare : ∀ scope symbol, p (.declare scope symbol) = true)
    (hreset : p .resetLocals = true) : head.log.all p = true := by
  have hparam : ∀ (function : String) (param : Param), (param.log function).all p = true := by
    intro function param
    simp [Param.log, Passive.take, hcheck, hadd, hdeclare]
  have hparams : ∀ (function : String) (params : Params), (params.log function).all p = true := by
    intro function params
    induction params with
    | nil => rfl
    | last param => exact hparam function param
    | cons param comma rest ih => simp [Params.log, hparam, ih, Passive.take]
  have hopen : ∀ (ty : Ty) (name : Token), (openFunctionLog ty name).all p = true := by
    intro ty name
    simp [openFunctionLog, hcheck, hdeclare, hreset]
  cases head with
  | value type name lparen params rparen =>
      simp [FunctionHead.log, hopen, hparams, Passive.take]
  | void keyword name lparen params rparen =>
      simp [FunctionHead.log, hopen, hparams, Passive.take]
  | main keyword name lparen rparen => simp [FunctionHead.log, hopen, Passive.take]

end Passive

section Declarative

variable {p : Action → Bool} [Action.Declarative p]

theorem ConstDecl.all_log (scope : Scope) (decl : ConstDecl) : (decl.log scope).all p = true :=
  decl.all_log_of (Action.Declarative.checkRedefinition scope)
    (Action.Declarative.declareConst scope)

theorem FunctionHead.all_log (head : FunctionHead) : head.log.all p = true :=
  head.all_log_of Action.Declarative.checkRedefinition Action.Declarative.addParameter
    Action.Declarative.declare Action.Declarative.resetLocals

end Declarative

namespace Pass

theorem follows_typeName : Follows typeName TypeName.log := by
  intro s type t h
  obtain ⟨token, u, htoken, h⟩ := bind_eq_ok.1 h
  obtain ⟨hnext, rfl⟩ := current_eq_ok.1 htoken
  cases hkind : token.kind <;> simp only [hkind] at h
  case kwInt | kwChar =>
    obtain ⟨found, v, hfound, h⟩ := bind_eq_ok.1 h
    obtain ⟨rfl, rfl⟩ := pure_eq_ok.1 h
    obtain rfl : found = token := eq_of_advance hnext hfound
    exact ⟨v, ⟨rfl, hfound⟩, v, ⟨by simp [hkind], rfl⟩, rfl⟩
  all_goals exact absurd h unexpected_ne_ok

/-- Whether a token starts an integer. -/
def startsInteger (token : Token) : Bool :=
  token.kind == .intLit || token.kind.isSign

/-- What is read once the type of the constant has been compared with its first token. -/
theorem plays_takeLog {token : Token} {init : ConstInit} {s t : State}
    (hnext : s.cursor.rest.head? = some token)
    (h : (if startsInteger token = true then return .int (← integer)
      else do
        let token ← advance
        return if token.kind = .charLit then .char token else .other token : Pass ConstInit) s =
          .ok init t) :
    Plays init.takeLog s t ∧ init.token = token ∧
      ∀ ty, init.fits ty = true ↔
        (ty = .char ∧ token.kind = .charLit) ∨ (ty = .int ∧ startsInteger token = true) := by
  by_cases hinteger : startsInteger token = true
  · rw [if_pos hinteger] at h
    obtain ⟨literal, u, hliteral, h⟩ := bind_eq_ok.1 h
    obtain ⟨rfl, rfl⟩ := pure_eq_ok.1 h
    have hlog := follows_integer s literal u hliteral
    refine ⟨hlog, ?_, ?_⟩
    · obtain ⟨v, hsign, hdigits⟩ := plays_append.1 hlog
      change literal.sign.getD literal.digits.token = token
      cases hkind : literal.sign with
      | none =>
          rw [hkind] at hsign
          obtain rfl : s = v := hsign
          obtain ⟨_, ⟨_, hadvance⟩, _⟩ := hdigits
          exact eq_of_advance hnext hadvance
      | some sign =>
          rw [hkind] at hsign
          obtain ⟨_, ⟨_, hadvance⟩, _⟩ := hsign
          exact eq_of_advance hnext hadvance
    · intro ty
      have hchar : token.kind ≠ .charLit := by
        intro hkind
        simp [startsInteger, hkind, TokenKind.isSign] at hinteger
      simp [ConstInit.fits, hchar, hinteger]
  · rw [if_neg hinteger] at h
    obtain ⟨found, u, hfound, h⟩ := bind_eq_ok.1 h
    obtain ⟨rfl, rfl⟩ := pure_eq_ok.1 h
    obtain rfl : found = token := eq_of_advance hnext hfound
    by_cases hchar : found.kind = .charLit
    · rw [if_pos hchar]
      refine ⟨⟨u, ⟨hchar, hfound⟩, rfl⟩, rfl, ?_⟩
      intro ty
      simp [ConstInit.fits, hchar, hinteger]
    · rw [if_neg hchar]
      have hint : found.kind ≠ .intLit := by
        intro hkind
        simp [startsInteger, hkind] at hinteger
      refine ⟨⟨u, ⟨rfl, hfound⟩, u, ⟨⟨hchar, hint⟩, rfl⟩, rfl⟩, rfl, ?_⟩
      intro ty
      simp [ConstInit.fits, hchar, hinteger]

/-- What a constant is set to; a misfit is recorded before anything is consumed. -/
theorem follows_constInit (ty : Ty) : Follows (constInit ty) (ConstInit.log ty) := by
  intro s init t h
  obtain ⟨token, u, htoken, h⟩ := bind_eq_ok.1 h
  obtain ⟨hnext, rfl⟩ := current_eq_ok.1 htoken
  unfold ConstInit.log
  rw [plays_append]
  by_cases hfits : (ty = .char ∧ token.kind = .charLit) ∨ (ty = .int ∧ startsInteger token = true)
  · obtain ⟨hlog, _, hiff⟩ := plays_takeLog hnext ((congrFun (if_pos hfits) s).symm.trans h)
    refine ⟨s, ?_, hlog⟩
    simp [Action.when, (hiff ty).2 hfits]
  · have h := (congrFun (if_neg hfits) s).symm.trans h
    obtain ⟨_, v, hreport, h⟩ := bind_eq_ok.1 h
    have hsame : v.cursor = s.cursor := by
      cases hreport
      rfl
    obtain ⟨hlog, hfirst, hiff⟩ := plays_takeLog (hsame ▸ hnext) h
    refine ⟨v, ?_, hlog⟩
    have hmisfit : init.fits ty = false := by
      have := mt (hiff ty).1 hfits
      simpa using this
    simp only [Action.when, if_pos hmisfit, hfirst]
    exact ⟨v, hreport, rfl⟩

theorem mem_consumed_of_take {kind : TokenKind} {token : Token} {s t : State}
    (h : (Action.take kind token).Performs s t) :
    token.kind = kind ∧ token ∈ t.cursor.consumed := by
  obtain ⟨hkind, hadvance⟩ := h
  obtain ⟨_, _, rfl⟩ := advance_eq_ok.1 hadvance
  exact ⟨hkind, List.mem_cons_self⟩

theorem behind_of_takeLog {init : ConstInit} {s t : State} (h : Plays init.takeLog s t) :
    init.Behind t.cursor := by
  cases init with
  | char literal =>
      obtain ⟨u, htake, rfl⟩ := h
      exact mem_consumed_of_take htake
  | int literal =>
      obtain ⟨u, _, v, htake, w, ⟨hvalue, rfl⟩, x, hnote, rfl⟩ := plays_append.1 h
      cases hnote
      obtain ⟨hkind, hmem⟩ := mem_consumed_of_take htake
      exact ⟨hkind, hmem, hvalue⟩
  | other token => trivial

theorem follows_constItem (scope : Scope) (ty : Ty) :
    Follows (constItem scope ty) (ConstItem.log scope ty) := by
  refine .of_completes (.bind (.expect _) fun name => .bind (.checkRedefinition _ _) fun _ =>
    .bind (.expect _) fun assign => .bind (follows_constInit ty) fun init => ?_)
  intro r s item t hbefore h
  obtain ⟨_, u, hdeclare, h⟩ := bind_eq_ok.1 h
  obtain ⟨rfl, rfl⟩ := pure_eq_ok.1 h
  obtain ⟨v, _, hlog⟩ := plays_append.1 hbefore
  obtain ⟨_, _, htake⟩ := plays_append.1 hlog
  have hmisfit : init.fits ty = false → ∃ d ∈ s.diagnostics.toList, d.kind = .constInitialiser := by
    intro hmisfit
    obtain ⟨found, hfound, hrecords⟩ := hlog.diagnostics
    have hmem : DiagnosticKind.constInitialiser ∈ (init.log ty).flatMap Action.records := by
      simp [ConstInit.log, Action.when, hmisfit, Action.records]
    obtain ⟨d, hd, hkind⟩ := hrecords _ hmem
    exact ⟨d, by rw [hfound]; exact List.mem_append_right _ hd, hkind⟩
  have hplays : Plays [.declareConst scope ty ⟨name, assign, init⟩] s u :=
    ⟨u, ⟨hmisfit, behind_of_takeLog htake, hdeclare⟩, rfl⟩
  simpa [ConstItem.log] using plays_append.2 ⟨s, hbefore, hplays⟩

theorem follows_constDecl (scope : Scope) : Follows (constDecl scope) (ConstDecl.log scope) :=
  .of_completes (.bind (.expect _) fun _ => .bind follows_typeName fun _ =>
    .bind (follows_commaList (follows_constItem scope _)) fun _ => .bind (.recover _ _) fun _ =>
      .pure (by simp [ConstDecl.log, semicolonLog]))

theorem follows_constDecls (scope : Scope) :
    Follows (constDecls scope) (List.flatMap (ConstDecl.log scope)) :=
  .many (.of_completes (.nextIs fun _ => .ite (fun _ => .bind (follows_constDecl scope) fun _ =>
    .pure rfl) fun _ => .pure rfl))

theorem follows_arraySize? :
    Follows arraySize? fun size => (size.map ArraySize.log).getD [] :=
  .of_completes (.accept (.pure rfl) fun _ => .bind follows_unsigned fun _ =>
    .bind (.recover _ _) fun _ => .pure (by simp [ArraySize.log]))

theorem follows_varItem (scope : Scope) (ty : Ty) :
    Follows (varItem scope ty) (VarItem.log scope ty) := by
  refine .of_completes (.bind (.expect _) fun name => .bind (.checkRedefinition _ _) fun _ =>
    .bind follows_arraySize? fun size => .bind (.declare ?_) fun _ => .bind (.emit _) fun _ =>
      .pure (by simp [VarItem.log]))
  cases size <;> simp [VarItem.symbol]

theorem follows_varDecl (scope : Scope) : Follows (varDecl scope) (VarDecl.log scope) :=
  .of_completes (.bind follows_typeName fun _ =>
    .bind (follows_commaList (follows_varItem scope _)) fun _ => .bind (.recover _ _) fun _ =>
      .pure (by simp [VarDecl.log, semicolonLog]))

theorem nextIsTypeName_eq_ok {answer : Bool} {s t : State} (h : nextIsTypeName s = .ok answer t) :
    answer = ((s.cursor.peekKind? 0).map TokenKind.isTypeName).getD false ∧ s = t := by
  cases h
  exact ⟨rfl, rfl⟩

theorem atFunction_eq_ok {answer : Bool} {s t : State} (h : atFunction s = .ok answer t) :
    answer = decide (s.cursor.peekKind? 2 = some .lparen) ∧ s = t := by
  cases h
  exact ⟨rfl, rfl⟩

theorem follows_varDecls (scope : Scope) :
    Follows (varDecls scope) (List.flatMap (VarDecl.log scope)) :=
  .many (.of_completes (.look (fun _ _ _ h => (nextIsTypeName_eq_ok h).2) fun _ =>
    .look (fun _ _ _ h => (atFunction_eq_ok h).2) fun _ =>
      .ite (fun _ => .bind (follows_varDecl scope) fun _ => .pure rfl) fun _ => .pure rfl))

theorem follows_openFunction (ty : Ty) (name : Token) :
    Follows (openFunction ty name) fun _ => openFunctionLog ty name := by
  intro s _ t h
  obtain ⟨_, s₁, hcheck, h⟩ := bind_eq_ok.1 h
  obtain ⟨_, s₂, hdeclare, h⟩ := bind_eq_ok.1 h
  exact ⟨s₁, hcheck, s₂, ⟨by simp, hdeclare⟩, t, h, rfl⟩

theorem follows_param (function : String) : Follows (param function) (Param.log function) := by
  have hadd : ∀ ty, Follows (addParameter function ty) fun _ => [.addParameter function ty] :=
    fun _ => .single fun _ _ _ => id
  exact .of_completes (.bind follows_typeName fun _ => .bind (.expect _) fun _ =>
    .bind (.checkRedefinition _ _) fun _ => .bind (hadd _) fun _ =>
      .bind (.declare (by simp)) fun _ => .pure (by simp [Param.log]))

theorem follows_params (function : String) : Follows (params function) (Params.log function) := by
  intro s ps t h
  refine nest_ok (P := fun s ps t => Plays (Params.log function ps) s t) (fun more hmore => ?_) h
  refine Follows.of_completes (.look (fun _ _ _ h => (nextIsTypeName_eq_ok h).2) fun _ =>
    .ite (fun _ => ?_) fun _ => .pure rfl)
  exact .bind (follows_param function) fun _ => .accept (.pure rfl) fun _ =>
    .bind hmore fun _ => .pure (by simp [Params.log])

theorem plays_forM_emit {α : Type} {instr : α → Instr} {as : List α} {s t : State}
    (h : (as.forM fun a => emit (instr a)) s = .ok () t) :
    Plays (as.map fun a => .emit (instr a)) s t := by
  induction as generalizing s with
  | nil => exact (pure_eq_ok.1 h).2
  | cons a as ih =>
      obtain ⟨_, u, hemit, h⟩ := bind_eq_ok.1 h
      exact ⟨u, hemit, ih h⟩

theorem follows_announce (head : FunctionHead) : Follows (announce head) fun _ => head.announceLog := by
  intro s _ t h
  obtain ⟨_, u, hemit, h⟩ := bind_eq_ok.1 h
  exact ⟨u, hemit, plays_forM_emit h⟩

theorem follows_valueHead : Follows valueHead FunctionHead.log :=
  .of_completes (.bind follows_typeName fun _ => .bind (.expect _) fun _ =>
    .bind (follows_openFunction _ _) fun _ => .bind (.expect _) fun _ =>
      .bind (follows_params _) fun _ => .bind (.recover _ _) fun _ =>
        .pure (by simp [FunctionHead.log]))

theorem follows_voidHead : Follows voidHead FunctionHead.log :=
  .of_completes (.bind (.expect _) fun _ => .bind (.expect _) fun _ =>
    .bind (follows_openFunction _ _) fun _ => .bind (.expect _) fun _ =>
      .bind (follows_params _) fun _ => .bind (.recover _ _) fun _ =>
        .pure (by simp [FunctionHead.log]))

theorem follows_mainHead : Follows mainHead FunctionHead.log :=
  .of_completes (.bind (.expect _) fun _ => .bind (.expect _) fun _ =>
    .bind (follows_openFunction _ _) fun _ => .bind (.expect _) fun _ =>
      .bind (.recover _ _) fun _ => .pure (by simp [FunctionHead.log]))

/-- A body plays its log with the line of the token that follows it. -/
theorem plays_body {returnType : Ty} {b : Body} {token : Token} {s t : State}
    (h : body returnType s = .ok b t) (hnext : t.cursor.rest.head? = some token) :
    Plays (b.log returnType token.line) s t := by
  obtain ⟨consts, s₁, hconsts, h⟩ := bind_eq_ok.1 h
  obtain ⟨vars, s₂, hvars, h⟩ := bind_eq_ok.1 h
  obtain ⟨stmts, s₃, hstmts, h⟩ := bind_eq_ok.1 h
  have hlog : Plays (consts.flatMap (ConstDecl.log .local) ++
      (vars.flatMap (VarDecl.log .local) ++ Stmt.logs returnType stmts)) s s₃ := by
    simp only [plays_append]
    exact ⟨s₁, follows_constDecls .local s consts s₁ hconsts,
      s₂, follows_varDecls .local s₁ vars s₂ hvars,
      follows_statements (follows_statement returnType) s₂ stmts s₃ hstmts⟩
  suffices hreport : Plays (Action.when (returnType ≠ .void ∧ Stmt.anyAlwaysReturns stmts = false)
      (.report token.line .missingReturn)) s₃ t ∧ b = ⟨consts, vars, stmts⟩ by
    obtain ⟨hreport, rfl⟩ := hreport
    simpa [Body.log] using plays_append.2 ⟨s₃, hlog, hreport⟩
  unfold Action.when
  by_cases hmissing : returnType ≠ .void ∧ Stmt.anyAlwaysReturns stmts = false
  · rw [if_pos hmissing] at h ⊢
    obtain ⟨found, s₄, hfound, h⟩ := bind_eq_ok.1 h
    obtain ⟨hhead, rfl⟩ := current_eq_ok.1 hfound
    obtain ⟨_, s₄, hreport, h⟩ := bind_eq_ok.1 h
    obtain ⟨rfl, rfl⟩ := pure_eq_ok.1 h
    have hsame : s₄.cursor = s₃.cursor := by
      cases hreport
      rfl
    rw [hsame, hhead] at hnext
    obtain rfl := Option.some.inj hnext
    exact ⟨⟨s₄, hreport, rfl⟩, rfl⟩
  · rw [if_neg hmissing] at h ⊢
    exact (pure_eq_ok.1 h).symm

theorem head?_of_advance {token : Token} {s t : State} (h : advance s = .ok token t) :
    s.cursor.rest.head? = some token := by
  obtain ⟨rest, hrest, _⟩ := advance_eq_ok.1 h
  rw [hrest]
  rfl

theorem cursor_of_emit {instr : Instr} {s t : State} (h : emit instr s = .ok () t) :
    t.cursor = s.cursor := by
  obtain ⟨_, rfl⟩ := emit_eq_ok h
  rfl

theorem follows_function {headPass : Pass FunctionHead}
    (hheadPass : Follows headPass FunctionHead.log) :
    Follows (function headPass) Function.log := by
  intro s f t h
  obtain ⟨head, s₁, hhead, h⟩ := bind_eq_ok.1 h
  obtain ⟨_, s₂, hannounce, h⟩ := bind_eq_ok.1 h
  obtain ⟨lbrace, s₃, hlbrace, h⟩ := bind_eq_ok.1 h
  obtain ⟨b, s₄, hbody, h⟩ := bind_eq_ok.1 h
  obtain ⟨s₅, hreturn, h⟩ := joined_eq_ok.1 h
  obtain ⟨_, s₆, hend, h⟩ := bind_eq_ok.1 h
  obtain ⟨rbrace, s₇, hrbrace, h⟩ := bind_eq_ok.1 h
  obtain ⟨_, s₈, hkeep, h⟩ := bind_eq_ok.1 h
  obtain ⟨rfl, rfl⟩ := pure_eq_ok.1 h
  have hreturned : Plays (Action.when (head.ty = .void) (.emit .retVoid)) s₄ s₅ ∧
      s₅.cursor = s₄.cursor := by
    unfold Action.when
    by_cases hvoid : head.ty = .void
    · rw [if_pos hvoid] at hreturn ⊢
      exact ⟨⟨s₅, hreturn, rfl⟩, cursor_of_emit hreturn⟩
    · rw [if_neg hvoid] at hreturn ⊢
      obtain ⟨_, rfl⟩ := pure_eq_ok.1 hreturn
      exact ⟨rfl, rfl⟩
  have hnext : s₄.cursor.rest.head? = some rbrace := by
    rw [← hreturned.2, ← cursor_of_emit hend]
    exact head?_of_advance (expect_eq_ok.1 hrbrace).2
  simp only [Function.log, plays_cons, plays_append]
  exact ⟨s₁, hheadPass s head s₁ hhead, s₂, follows_announce head s₁ () s₂ hannounce,
    s₃, expect_eq_ok.1 hlbrace, s₄, plays_body hbody hnext, s₅, hreturned.1,
    s₆, hend, s₇, expect_eq_ok.1 hrbrace, s₈, hkeep, rfl⟩

/-- A part of a program plays its log, and there is none only at the end of the tokens. -/
theorem plays_topLevel? {found : Option TopLevel} {s t : State}
    (h : topLevel? s = .ok found t) :
    (found = none ∧ s = t ∧ s.cursor.rest = []) ∨
      ∃ item, found = some item ∧ Plays item.log s t := by
  have hsome : ∀ {α : Type} {pass : Pass α} {item : α → TopLevel},
      Follows pass (fun a => (item a).log) → (pass >>= fun a => pure (some (item a))) s = .ok found t →
        ∃ item, found = some item ∧ Plays item.log s t := by
    intro α pass item hpass h
    obtain ⟨a, v, ha, h⟩ := bind_eq_ok.1 h
    obtain ⟨rfl, rfl⟩ := pure_eq_ok.1 h
    exact ⟨item a, rfl, hpass s a v ha⟩
  obtain ⟨kind, u, hkind, h⟩ := bind_eq_ok.1 h
  obtain ⟨hpeek, rfl⟩ := peekKind_eq_ok.1 hkind
  cases kind with
  | none =>
      obtain ⟨rfl, rfl⟩ := pure_eq_ok.1 h
      exact Or.inl ⟨rfl, rfl, by simpa [Cursor.peekKind?, Cursor.peek?] using hpeek.symm⟩
  | some kind =>
      refine Or.inr ?_
      cases kind with
      | kwConst => exact hsome (follows_constDecls .global) h
      | kwInt | kwChar =>
          obtain ⟨isFunction, u, hisFunction, h⟩ := bind_eq_ok.1 h
          obtain ⟨_, rfl⟩ := atFunction_eq_ok hisFunction
          cases isFunction with
          | true => exact hsome (follows_function follows_valueHead) h
          | false => exact hsome (follows_varDecls .global) h
      | kwVoid =>
          obtain ⟨second, u, hsecond, h⟩ := bind_eq_ok.1 h
          obtain ⟨_, rfl⟩ := peekKind_eq_ok.1 hsecond
          split at h
          · exact hsome (follows_function follows_mainHead) h
          · exact hsome (follows_function follows_voidHead) h
      | _ => exact absurd h unexpected_ne_ok

/-- A program plays its log to the end of the tokens. -/
theorem plays_program {p : Program} {s t : State} (h : program s = .ok p t) :
    Plays p.log s t ∧ t.cursor.rest = [] := by
  obtain ⟨items, u, hitems, h⟩ := bind_eq_ok.1 h
  obtain ⟨_, v, hkeep, h⟩ := bind_eq_ok.1 h
  obtain ⟨rfl, rfl⟩ := pure_eq_ok.1 h
  have hplays : Plays (items.flatMap TopLevel.log) s u ∧ u.cursor.rest = [] := by
    refine many_ok (P := fun s items t =>
      Plays (items.flatMap TopLevel.log) s t ∧ t.cursor.rest = []) ?_ ?_ hitems
    · intro s t h
      rcases plays_topLevel? h with ⟨_, rfl, hrest⟩ | ⟨item, hitem, _⟩
      · exact ⟨rfl, hrest⟩
      · cases hitem
    · intro s u t item rest h hrest
      rcases plays_topLevel? h with ⟨hitem, _⟩ | ⟨_, hitem, hlog⟩
      · cases hitem
      · cases hitem
        rw [List.flatMap_cons, plays_append]
        exact ⟨⟨u, hlog, hrest.1⟩, hrest.2⟩
  have hsame : v.cursor = u.cursor := by
    cases hkeep
    rfl
  unfold Program.log
  rw [plays_append, hsame]
  exact ⟨⟨u, hplays.1, v, hkeep, rfl⟩, hplays.2⟩

end Pass

/-- The state in which a compilation starts. -/
def State.start (sink : Sink) (tokens : List Token) : State :=
  { cursor := .ofTokens tokens, emitter := { sink } }

/-- A compilation that succeeds has played the log of its program, from the start to the end of
the tokens, and takes its results from where that led. -/
theorem plays_of_compile {tokens : List Token} {c : Compilation} (h : compile tokens = .ok c) :
    ∃ t, Plays c.program.log (.start {} tokens) t ∧ t.cursor.rest = [] ∧
      c = { program := c.program
            code := t.emitter.code.toList
            strings := t.strings
            tables := t.tables
            diagnostics := t.diagnostics.toList
            regCount := t.counters.regs
            labelCount := t.counters.labels } := by
  unfold compile compileTo at h
  cases hrun : Pass.program (.start {} tokens) with
  | error error t =>
      simp only [State.start] at hrun
      rw [hrun] at h
      cases h
  | ok program t =>
      obtain ⟨hplays, hrest⟩ := Pass.plays_program hrun
      simp only [State.start] at hrun
      rw [hrun] at h
      simp only [State.finish, Emitter.finish?] at h
      split at h
      · cases h
      · next code hcode =>
          split at hcode
          · cases hcode
          · cases hcode
            cases h
            exact ⟨t, hplays, hrest, rfl⟩

/-- What an action of a compilation records is among its diagnostics. -/
theorem reported_of_compile {tokens : List Token} {c : Compilation} (h : compile tokens = .ok c)
    {action : Action} (haction : action ∈ c.program.log) {kind : DiagnosticKind}
    (hkind : kind ∈ action.records) : ∃ d ∈ c.diagnostics, d.kind = kind := by
  obtain ⟨t, hplays, _, hc⟩ := plays_of_compile h
  obtain ⟨found, hfound, hrecords⟩ := hplays.diagnostics
  obtain ⟨d, hd, rfl⟩ := hrecords kind (List.mem_flatMap.2 ⟨action, haction, hkind⟩)
  refine ⟨d, ?_, rfl⟩
  rw [hc]
  simp [hfound, hd]

/-- What is reported on a line is among the diagnostics with that line. -/
theorem mem_diagnostics_of_report {tokens : List Token} {c : Compilation}
    (h : compile tokens = .ok c) {line : UInt64} {kind : DiagnosticKind}
    (hreport : .report line kind ∈ c.program.log) : ⟨line, kind⟩ ∈ c.diagnostics := by
  obtain ⟨t, hplays, _, hc⟩ := plays_of_compile h
  obtain ⟨front, back, hlog⟩ := List.append_of_mem hreport
  rw [hlog] at hplays
  obtain ⟨u, _, v, hperforms, hback⟩ := plays_append.1 hplays
  obtain ⟨found, hfound, _⟩ := hback.diagnostics
  cases hperforms
  rw [hc]
  simp [hfound]

end OnePass
