import OnePass.Proofs.Names.Redefinitions

/-!
The points in front of, between and behind the statements of a list. Such a point is told by what a
compilation does before it comes there: the actions say what is left of the tokens, also where a
statement or a call has been dropped, of which the program keeps nothing.
-/

namespace OnePass

/-- What is left of the tokens behind the parenthesis that closes `depth + 1` open ones. -/
def dropClosing (depth : Nat) : List Token → List Token
  | [] => []
  | token :: rest =>
    match Pass.depthAfter depth token.kind with
    | none => rest
    | some inner => dropClosing inner rest

/-- What is left of the tokens behind the first semicolon. -/
def dropStatement (tokens : List Token) : List Token :=
  (tokens.dropWhile fun token => token.kind ≠ .semicolon).tail

namespace Action

/-- What is left of the tokens behind an action. -/
def leftOver : Action → List Token → List Token
  | take _ _, tokens => tokens.tail
  | skipCall _, tokens => dropClosing 0 (tokens.drop 2)
  | skipStatement, tokens => dropStatement tokens.tail
  | _, tokens => tokens

/-- The names that an action declares. -/
def names : Action → List String
  | declare _ symbol => [symbol.name]
  | declareConst _ _ item => [item.name.value]
  | _ => []

end Action

/-- What is left of the tokens behind a log. -/
def leftOver (log : List Action) (tokens : List Token) : List Token :=
  log.foldl (fun tokens action => action.leftOver tokens) tokens

namespace Stmt

variable (returnType : Ty)

mutual

/-- What is done in a statement before each point of a list of statements in it. -/
def gaps : Stmt → List (List Action)
  | .ifThen keyword guard body elseLabel _ =>
    body.gaps.map fun before => ifHeadLog keyword guard elseLabel ++ before
  | .ifElse keyword guard body elseKeyword alternative elseLabel endLabel =>
    (body.gaps.map fun before => ifHeadLog keyword guard elseLabel ++ before) ++
    (alternative.gaps.map fun before =>
      ifHeadLog keyword guard elseLabel ++ (body.log returnType ++ (.label endLabel ::
        .emit (.jump endLabel) :: .emit (.label elseLabel) :: .take .kwElse elseKeyword :: before)))
  | .whileLoop keyword guard body loopLabel endLabel =>
    body.gaps.map fun before => whileHeadLog keyword guard loopLabel endLabel ++ before
  | .doLoop keyword body _ _ loopLabel =>
    body.gaps.map fun before => doHeadLog keyword loopLabel ++ before
  | .forLoop keyword header body loopLabel endLabel =>
    body.gaps.map fun before => forHeadLog keyword header loopLabel endLabel ++ before
  | .block lbrace body _ => (gapsAll body).map fun before => .take .lbrace lbrace :: before
  | _ => []

/-- What is done in a list of statements before each point of it and of the lists in it. -/
def gapsAll : List Stmt → List (List Action)
  | [] => [[]]
  | stmt :: stmts => [] :: (stmt.gaps ++ (gapsAll stmts).map fun before =>
      stmt.log returnType ++ before)

end

end Stmt

/-- What is done in a body before each point of its lists of statements. -/
def Body.gaps (returnType : Ty) (body : Body) : List (List Action) :=
  (Stmt.gapsAll returnType body.stmts).map fun before =>
    body.consts.flatMap (ConstDecl.log .local) ++ (body.vars.flatMap (VarDecl.log .local) ++ before)

def Function.gaps (f : Function) : List (List Action) :=
  (f.body.gaps f.head.ty).map fun before =>
    f.head.log ++ (f.head.announceLog ++ (.take .lbrace f.lbrace :: before))

def TopLevel.gaps : TopLevel → List (List Action)
  | function f => f.gaps
  | _ => []

/-- What is done before each point of the lists of statements in the parts of a program. -/
def gapsOf : List TopLevel → List (List Action)
  | [] => []
  | item :: items => item.gaps ++ (gapsOf items).map fun before => item.log ++ before

/-- What is left of the tokens of a program at each point of its lists of statements. -/
def Program.gapsIn (tokens : List Token) (program : Program) : List (List Token) :=
  (gapsOf program.items).map fun before => leftOver before tokens

section Prefixes

variable {returnType : Ty}

mutual

/-- What is done before a point is what a statement begins with. -/
theorem Stmt.prefix_of_mem_gaps : (stmt : Stmt) → ∀ before ∈ stmt.gaps returnType,
    before <+: stmt.log returnType
  | .ifThen keyword guard body elseLabel endLabel => by
      intro before hbefore
      simp only [gaps, List.mem_map] at hbefore
      obtain ⟨inner, hinner, rfl⟩ := hbefore
      have hbody := body.prefix_of_mem_gaps inner hinner
      simpa only [log, ifHeadLog, List.cons_append, List.cons_prefix_cons,
        List.prefix_append_right_inj, true_and] using hbody.trans (List.prefix_append _ _)
  | .ifElse keyword guard body elseKeyword alternative elseLabel endLabel => by
      intro before hbefore
      simp only [gaps, List.mem_append, List.mem_map] at hbefore
      rcases hbefore with ⟨inner, hinner, rfl⟩ | ⟨inner, hinner, rfl⟩
      · have hbody := body.prefix_of_mem_gaps inner hinner
        simpa only [log, ifHeadLog, List.cons_append, List.cons_prefix_cons,
          List.prefix_append_right_inj, true_and] using hbody.trans (List.prefix_append _ _)
      · have halternative := alternative.prefix_of_mem_gaps inner hinner
        simpa only [log, ifHeadLog, List.cons_append, List.cons_prefix_cons,
          List.prefix_append_right_inj, true_and] using halternative.trans (List.prefix_append _ _)
  | .whileLoop keyword guard body loopLabel endLabel => by
      intro before hbefore
      simp only [gaps, List.mem_map] at hbefore
      obtain ⟨inner, hinner, rfl⟩ := hbefore
      have hbody := body.prefix_of_mem_gaps inner hinner
      simpa only [log, whileHeadLog, List.cons_append, List.append_assoc, List.cons_prefix_cons,
        List.prefix_append_right_inj, true_and] using hbody.trans (List.prefix_append _ _)
  | .doLoop keyword body whileKeyword guard loopLabel => by
      intro before hbefore
      simp only [gaps, List.mem_map] at hbefore
      obtain ⟨inner, hinner, rfl⟩ := hbefore
      have hbody := body.prefix_of_mem_gaps inner hinner
      simpa only [log, doHeadLog, List.cons_append, List.nil_append, List.cons_prefix_cons,
        true_and] using hbody.trans (List.prefix_append _ _)
  | .forLoop keyword header body loopLabel endLabel => by
      intro before hbefore
      simp only [gaps, List.mem_map] at hbefore
      obtain ⟨inner, hinner, rfl⟩ := hbefore
      have hbody := body.prefix_of_mem_gaps inner hinner
      simpa only [log, forHeadLog, List.cons_append, List.cons_prefix_cons,
        List.prefix_append_right_inj, true_and] using hbody.trans (List.prefix_append _ _)
  | .block lbrace body rbrace => by
      intro before hbefore
      simp only [gaps, List.mem_map] at hbefore
      obtain ⟨inner, hinner, rfl⟩ := hbefore
      have hbody := Stmt.prefix_of_mem_gapsAll body inner hinner
      simpa only [log, List.cons_prefix_cons, true_and] using
        hbody.trans (List.prefix_append _ _)
  | .call _ _ | .unknownCall _ _ | .skipped | .assign _ _ _ _ | .assignElement _ _ _ _ _ _ _ => by
      simp [gaps]
  | .scan _ _ _ _ _ | .print _ _ _ _ _ | .ret _ _ | .retValue _ _ _ _ _ | .empty _ => by
      simp [gaps]

theorem Stmt.prefix_of_mem_gapsAll : (stmts : List Stmt) → ∀ before ∈ gapsAll returnType stmts,
    before <+: logs returnType stmts
  | [] => by simp [gapsAll]
  | stmt :: stmts => by
      intro before hbefore
      simp only [gapsAll, List.mem_cons, List.mem_append, List.mem_map] at hbefore
      rcases hbefore with rfl | hfirst | ⟨inner, hinner, rfl⟩
      · exact List.nil_prefix
      · exact (stmt.prefix_of_mem_gaps before hfirst).trans (List.prefix_append _ _)
      · have hrest := Stmt.prefix_of_mem_gapsAll stmts inner hinner
        simpa only [logs, List.prefix_append_right_inj] using hrest

end

theorem Function.prefix_of_mem_gaps {f : Function} {before : List Action} (h : before ∈ f.gaps) :
    before <+: f.log := by
  simp only [gaps, Body.gaps, List.mem_map] at h
  obtain ⟨_, ⟨inner, hinner, rfl⟩, rfl⟩ := h
  have hstmts := Stmt.prefix_of_mem_gapsAll f.body.stmts inner hinner
  simpa only [log, Body.log, List.append_assoc, List.cons_append, List.prefix_append_right_inj,
    List.cons_prefix_cons, true_and] using hstmts.trans (List.prefix_append _ _)

theorem prefix_of_mem_gapsOf {items : List TopLevel} {before : List Action}
    (h : before ∈ gapsOf items) : before <+: items.flatMap TopLevel.log := by
  induction items generalizing before with
  | nil => simp [gapsOf] at h
  | cons item items ih =>
      simp only [gapsOf, List.mem_append, List.mem_map] at h
      rw [List.flatMap_cons]
      rcases h with hfirst | ⟨inner, hinner, rfl⟩
      · cases item with
        | consts decls | vars decls => cases hfirst
        | function f => exact (Function.prefix_of_mem_gaps hfirst).trans (List.prefix_append _ _)
      · rw [List.prefix_append_right_inj]
        exact ih hinner

end Prefixes

section Tokens

open Pass

theorem rest_of_skipClosing {depth : Nat} {s t : State} (h : skipClosing depth s = .ok () t) :
    t.cursor.rest = dropClosing depth s.cursor.rest := by
  generalize hrest : s.cursor.rest = tokens at h ⊢
  induction tokens generalizing depth s with
  | nil =>
      rw [skipClosing_nil hrest] at h
      cases h
  | cons token rest ih =>
      rw [skipClosing_cons hrest] at h
      rw [dropClosing]
      cases hdepth : depthAfter depth token.kind with
      | none =>
          rw [hdepth] at h
          cases h
          rfl
      | some inner =>
          rw [hdepth] at h
          exact ih h rfl

theorem rest_of_skipPast {s t : State} (h : onCursor (Cursor.skipPast .semicolon) s = .ok () t) :
    t.cursor.rest = dropStatement s.cursor.rest := by
  generalize hrest : s.cursor.rest = tokens at h ⊢
  induction tokens generalizing s with
  | nil =>
      rw [skipPast_nil hrest] at h
      cases h
  | cons token rest ih =>
      rw [skipPast_cons hrest] at h
      by_cases hkind : token.kind = .semicolon
      · rw [if_pos hkind] at h
        cases h
        simp [dropStatement, hkind, State.take]
      · rw [if_neg hkind] at h
        rw [ih h rfl]
        simp [dropStatement, hkind]

theorem Action.Performs.leftOver {action : Action} {s t : State} (h : action.Performs s t) :
    t.cursor.rest = action.leftOver s.cursor.rest := by
  cases action with
  | take kind token =>
      obtain ⟨rest, hrest, rfl⟩ := advance_eq_ok.1 h.2
      rw [Action.leftOver, hrest]
      rfl
  | skipCall name =>
      obtain ⟨_, u, v, hadvance, hreport, hskip⟩ := h
      obtain ⟨rest, hrest, rfl⟩ := advance_eq_ok.1 hadvance
      cases hreport
      rw [skipParens_eq] at hskip
      obtain ⟨lparen, w, hlparen, hclose⟩ := bind_eq_ok.1 hskip
      obtain ⟨inner, hinner, rfl⟩ := advance_eq_ok.1 (expect_eq_ok.1 hlparen).2
      have hrest' : rest = lparen :: inner := hinner
      rw [rest_of_skipClosing hclose, Action.leftOver, hrest, hrest']
      rfl
  | skipStatement =>
      obtain ⟨token, u, v, hadvance, hreport, hskip⟩ := h
      obtain ⟨rest, hrest, rfl⟩ := advance_eq_ok.1 hadvance
      cases hreport
      rw [rest_of_skipPast hskip, Action.leftOver, hrest]
      rfl
  | report line kind | reportHere kind =>
      cases h
      rfl
  | _ => exact (h.rest (by simp [Action.records])).symm

theorem Plays.leftOver {log : List Action} {s t : State} (h : Plays log s t) :
    t.cursor.rest = OnePass.leftOver log s.cursor.rest := by
  induction h using Plays.induction with
  | nil => rfl
  | cons haction _ ih =>
      rw [ih, haction.leftOver]
      rfl

end Tokens

section Names

/-- Whether an action declares no name. -/
def Action.namesNone (action : Action) : Bool :=
  action.names.isEmpty

instance : Action.Executive Action.namesNone := {}

/-- The names that a log declares. -/
def declaredNames (log : List Action) : List String :=
  log.flatMap Action.names

@[simp]
theorem declaredNames_nil : declaredNames [] = [] :=
  rfl

@[simp]
theorem declaredNames_cons (action : Action) (log : List Action) :
    declaredNames (action :: log) = action.names ++ declaredNames log :=
  List.flatMap_cons

@[simp]
theorem declaredNames_append (front back : List Action) :
    declaredNames (front ++ back) = declaredNames front ++ declaredNames back :=
  List.flatMap_append

theorem declaredNames_eq_nil {log : List Action} (h : log.all Action.namesNone = true) :
    declaredNames log = [] := by
  rw [List.all_eq_true] at h
  exact List.flatMap_eq_nil_iff.2 fun action haction => List.isEmpty_iff.1 (h action haction)

theorem declaredNames_when {condition : Prop} [Decidable condition] {action : Action}
    (h : action.names = []) : declaredNames (Action.when condition action) = [] :=
  declaredNames_eq_nil (all_when _ _ (List.isEmpty_iff.2 h))

theorem declaredNames_flatMap {α : Type} {itemLog : α → List Action} {names : α → List String}
    (hitem : ∀ item, declaredNames (itemLog item) = names item) (items : List α) :
    declaredNames (items.flatMap itemLog) = items.flatMap names := by
  rw [declaredNames, List.flatMap_assoc]
  exact congrArg (List.flatMap · items) (funext hitem)

theorem CommaList.declaredNames_log {α : Type} {itemLog : α → List Action} {name : α → String}
    (hitem : ∀ item, declaredNames (itemLog item) = [name item]) (items : CommaList α) :
    declaredNames (items.log itemLog) = items.toList.map name := by
  induction items with
  | one item => exact hitem item
  | cons item comma rest ih => simp [CommaList.log, CommaList.toList, hitem, ih, Action.names]

theorem ConstDecl.declaredNames_log (scope : Scope) (decl : ConstDecl) :
    declaredNames (decl.log scope) = decl.declarators.map fun d => d.name.value := by
  have hitem : ∀ item : ConstItem,
      declaredNames (item.log scope decl.type.ty) = [item.name.value] := by
    intro item
    simp [ConstItem.log, Action.names, declaredNames_eq_nil (item.init.all_log decl.type.ty)]
  simp [ConstDecl.log, Action.names, declaredNames_eq_nil decl.type.all_log,
    decl.items.declaredNames_log hitem, declaredNames_eq_nil (all_semicolonLog decl.semicolon),
    declarators, Declarator.name]

theorem VarDecl.declaredNames_log (scope : Scope) (decl : VarDecl) :
    declaredNames (decl.log scope) = decl.declarators.map fun d => d.name.value := by
  have hitem : ∀ item : VarItem,
      declaredNames (item.log scope decl.type.ty) = [item.name.value] := by
    intro item
    simp [VarItem.log, Action.names, VarItem.symbol, declaredNames_eq_nil item.all_sizeLog]
  simp [VarDecl.log, declaredNames_eq_nil decl.type.all_log,
    decl.items.declaredNames_log hitem, declaredNames_eq_nil (all_semicolonLog decl.semicolon),
    declarators, Declarator.name]

theorem Params.declaredNames_log (function : String) (params : Params) :
    declaredNames (params.log function) = params.toList.map fun param => param.name.value := by
  have hparam : ∀ param : Param, declaredNames (param.log function) = [param.name.value] := by
    intro param
    simp [Param.log, Action.names, declaredNames_eq_nil param.type.all_log]
  induction params with
  | nil => rfl
  | last param => exact hparam param
  | cons param comma rest ih => simp [Params.log, Params.toList, hparam, ih, Action.names]

theorem FunctionHead.declaredNames_log (head : FunctionHead) :
    declaredNames head.log = head.name.value :: head.params.map fun param => param.name.value := by
  have hparen : ∀ rparen, declaredNames (recoverLog .rparen .missingParen rparen) = [] :=
    fun rparen => declaredNames_eq_nil (all_recoverLog _ _ rparen)
  have hopen : ∀ ty (name : Token), declaredNames (openFunctionLog ty name) = [name.value] :=
    fun _ _ => rfl
  cases head with
  | value type name lparen params rparen =>
      simp [log, declaredNames_eq_nil type.all_log, hopen, hparen, params.declaredNames_log,
        Action.names, FunctionHead.name, FunctionHead.params]
  | void keyword name lparen params rparen =>
      simp [log, hopen, hparen, params.declaredNames_log, Action.names, FunctionHead.name,
        FunctionHead.params]
  | main keyword name lparen rparen =>
      simp [log, hopen, hparen, Action.names, FunctionHead.name, FunctionHead.params]

theorem Body.declaredNames_log (returnType : Ty) (line : UInt64) (body : Body) :
    declaredNames (body.log returnType line) = body.declarators.map fun d => d.name.value := by
  have hmissing : ∀ (condition : Prop) [Decidable condition],
      declaredNames (Action.when condition (.report line .missingReturn)) = [] :=
    fun _ _ => declaredNames_when rfl
  simp only [log, declaredNames_append,
    declaredNames_flatMap (ConstDecl.declaredNames_log .local),
    declaredNames_flatMap (VarDecl.declaredNames_log .local),
    declaredNames_eq_nil (Stmt.all_logs returnType body.stmts),
    hmissing, declarators, List.map_append, List.map_flatMap, List.append_nil]

theorem Function.declaredNames_log (f : Function) :
    declaredNames f.log = f.head.name.value :: f.declarators.map fun d => d.name.value := by
  have hannounce : declaredNames f.head.announceLog = [] := by
    simp [FunctionHead.announceLog, Action.names, declaredNames, List.flatMap_map]
  have hvoid : declaredNames (Action.when (f.head.ty = .void) (.emit .retVoid)) = [] :=
    declaredNames_when rfl
  have hparams : f.head.params.map ((fun d => d.name.value) ∘ Declarator.param) =
      f.head.params.map fun param => param.name.value := rfl
  simp [log, FunctionHead.declaredNames_log, hannounce, Body.declaredNames_log, hvoid, Action.names,
    declarators, hparams]

theorem TopLevel.declaredNames_log (place : Nat) (item : TopLevel) :
    declaredNames item.log = (item.occurrences place).map fun o => o.2.name.value := by
  have hgroup : ∀ (group : DeclaratorGroup) (declarators : List Declarator),
      (declarators.map (group, ·)).map (fun o => o.2.name.value) =
        declarators.map fun d => d.name.value :=
    fun _ _ => List.map_map
  cases item with
  | consts decls =>
      rw [log, occurrences, hgroup, declaredNames_flatMap (ConstDecl.declaredNames_log .global),
        List.map_flatMap]
  | vars decls =>
      rw [log, occurrences, hgroup, declaredNames_flatMap (VarDecl.declaredNames_log .global),
        List.map_flatMap]
  | function f =>
      rw [log, occurrences, List.map_cons, hgroup, Function.declaredNames_log]
      rfl

theorem declaredNames_items (place : Nat) (items : List TopLevel) :
    declaredNames (items.flatMap TopLevel.log) =
      (occurrencesFrom place items).map fun o => o.2.name.value := by
  induction items generalizing place with
  | nil => rfl
  | cons item items ih =>
      rw [List.flatMap_cons, declaredNames_append, occurrencesFrom, List.map_append,
        item.declaredNames_log place, ih (place + 1)]

theorem Scopes.nearest?_eq_none {scopes : Scopes} {name : String} :
    scopes.nearest? name = none ↔ ∀ scope, scopes.lookup? scope name = none := by
  constructor
  · intro h scope
    rw [nearest?, Option.orElse_eq_orElse, Option.orElse_eq_or, Option.or_eq_none_iff] at h
    cases scope with
    | global => exact h.2
    | «local» => exact h.1
  · intro h
    have hlocal : scopes.locals[name]? = none := h .local
    rw [nearest?, hlocal]
    exact h .global

theorem Scopes.lookup?_declare_of_ne {scopes : Scopes} {scope other : Scope} {symbol : Symbol}
    {name : String} (h : name ≠ symbol.name) :
    (scopes.declare other symbol).lookup? scope name = scopes.lookup? scope name := by
  by_cases hscope : scope = other
  · rw [hscope, lookup?_declare, if_neg (Ne.symm h)]
  · rw [lookup?, declare, table_update_of_ne _ _ hscope]
    rfl

/-- What declares other names leaves a name unknown. -/
theorem Action.lookup?_eq_none {action : Action} {before : Scopes} {scope : Scope} {name : String}
    (hname : name ∉ action.names) (h : before.lookup? scope name = none) :
    (action.scopes before).lookup? scope name = none := by
  cases action with
  | declare other symbol =>
      rw [Action.scopes, Scopes.lookup?_declare_of_ne fun heq => hname (List.mem_singleton.2 heq)]
      exact h
  | declareConst other ty item =>
      rw [Action.scopes, Scopes.lookup?_declare_of_ne fun heq => hname (List.mem_singleton.2 heq)]
      exact h
  | resetLocals =>
      cases scope with
      | global => exact h
      | «local» => exact before.lookup?_reset .local name
  | addParameter function ty =>
      cases scope with
      | global => rw [Action.scopes, Scopes.lookup?_modify, h, Option.map_none, ite_self]
      | «local» => exact h
  | _ => exact h

theorem Action.Performs.nearest? {action : Action} {s t : State} {name : String}
    (h : action.Performs s t) (hname : name ∉ action.names) (hs : s.scopes.nearest? name = none) :
    t.scopes.nearest? name = none := by
  rw [Scopes.nearest?_eq_none] at hs ⊢
  intro scope
  rw [h.effect.scopes]
  exact Action.lookup?_eq_none hname (hs scope)

theorem Plays.nearest? {log : List Action} {s t : State} {name : String} (h : Plays log s t)
    (hname : name ∉ declaredNames log) (hs : s.scopes.nearest? name = none) :
    t.scopes.nearest? name = none := by
  induction h using Plays.induction with
  | nil => exact hs
  | cons haction _ ih =>
      rw [declaredNames_cons, List.mem_append, not_or] at hname
      exact ih hname.2 (haction.nearest? hname.1 hs)

end Names

end OnePass
