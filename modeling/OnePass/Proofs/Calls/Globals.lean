import OnePass.Proofs.Log.Program

/-!
Where the functions in scope come from. A global name stands for what was declared under it last,
and the signature of a function is complete once its head has been read. A name that is found as a
function therefore stands for the head of one that has been announced, and unless a second
declaration has been recorded there is only one head of that name.
-/

namespace OnePass

namespace Symbol

/-- A symbol to whose signature `ty` has been added, if that has a code. -/
def withParameter (symbol : Symbol) (ty : Ty) : Symbol :=
  (symbol.addParameter? ty).getD symbol

def withParameters (symbol : Symbol) (tys : List Ty) : Symbol :=
  tys.foldl withParameter symbol

variable {symbol : Symbol} {ty : Ty} {tys : List Ty}

theorem withParameter_eq {code : Char} (h : ty.signatureCode? = some code) :
    symbol.withParameter ty = { symbol with signature := symbol.signature.push code } := by
  simp [withParameter, addParameter?, h]

theorem parameterTypes_withParameter (hty : ty ≠ .void) :
    (symbol.withParameter ty).parameterTypes = symbol.parameterTypes ++ [ty] := by
  cases hcode : ty.signatureCode? with
  | none => exact absurd (Ty.signatureCode?_eq_none_iff.1 hcode) hty
  | some code =>
      rw [withParameter_eq hcode]
      simp [parameterTypes, List.filterMap_append, Ty.ofSignatureCode?_of_signatureCode? hcode]

/-- A code takes one byte, so that the bytes of a signature count its parameters. -/
theorem parameterCount_withParameter (hty : ty ≠ .void) :
    (symbol.withParameter ty).parameterCount = symbol.parameterCount + 1 := by
  cases ty with
  | void => exact absurd rfl hty
  | char | int =>
      rw [withParameter_eq rfl, parameterCount, String.utf8ByteSize_push]
      rfl

theorem parameterTypes_withParameters (h : ∀ ty ∈ tys, ty ≠ .void) :
    (symbol.withParameters tys).parameterTypes = symbol.parameterTypes ++ tys := by
  induction tys generalizing symbol with
  | nil => simp [withParameters]
  | cons ty tys ih =>
      rw [List.forall_mem_cons] at h
      calc (symbol.withParameters (ty :: tys)).parameterTypes
          = (symbol.withParameter ty).parameterTypes ++ tys := ih h.2
        _ = symbol.parameterTypes ++ ty :: tys := by
          rw [parameterTypes_withParameter h.1, List.append_assoc, List.singleton_append]

theorem parameterCount_withParameters (h : ∀ ty ∈ tys, ty ≠ .void) :
    (symbol.withParameters tys).parameterCount = symbol.parameterCount + tys.length := by
  induction tys generalizing symbol with
  | nil => rfl
  | cons ty tys ih =>
      rw [List.forall_mem_cons] at h
      calc (symbol.withParameters (ty :: tys)).parameterCount
          = (symbol.withParameter ty).parameterCount + tys.length := ih h.2
        _ = symbol.parameterCount + (ty :: tys).length := by
          rw [parameterCount_withParameter h.1, List.length_cons]
          omega

end Symbol

namespace FunctionHead

/-- The types of the parameters of a function, in order. -/
def paramTypes (head : FunctionHead) : List Ty :=
  head.params.map fun param => param.type.ty

/-- The symbol of a function whose head has been read. -/
def symbol (head : FunctionHead) : Symbol :=
  Symbol.withParameters { name := head.name.value, kind := .function, ty := head.ty }
    head.paramTypes

variable {head : FunctionHead}

theorem parameterTypes_symbol (h : ∀ ty ∈ head.paramTypes, ty ≠ .void) :
    head.symbol.parameterTypes = head.paramTypes :=
  Symbol.parameterTypes_withParameters h

theorem parameterCount_symbol (h : ∀ ty ∈ head.paramTypes, ty ≠ .void) :
    head.symbol.parameterCount = head.paramTypes.length := by
  rw [symbol, Symbol.parameterCount_withParameters h]
  exact Nat.zero_add _

end FunctionHead

section Fold

namespace Action

/-- The global symbol of a name after an action. -/
def global? (name : String) (before : Option Symbol) : Action → Option Symbol
  | declare .global symbol => if symbol.name = name then some symbol else before
  | declareConst .global ty item =>
      if item.name.value = name then some (item.symbol ty) else before
  | addParameter function ty =>
      if function = name then before.map fun symbol => symbol.withParameter ty else before
  | _ => before

theorem lookup?_scopes (action : Action) (before : Scopes) (name : String) :
    (action.scopes before).lookup? .global name =
      action.global? name (before.lookup? .global name) := by
  cases action with
  | declare scope symbol =>
      cases scope with
      | global => exact before.lookup?_declare .global symbol name
      | «local» => rfl
  | declareConst scope ty item =>
      cases scope with
      | global => exact before.lookup?_declare .global (item.symbol ty) name
      | «local» => rfl
  | addParameter function ty => exact before.lookup?_modify .global function name _
  | _ => rfl

/-- A global name is never forgotten. -/
theorem isSome_global? (action : Action) {name : String} {before : Option Symbol}
    (h : before.isSome = true) : (action.global? name before).isSome = true := by
  cases action with
  | declare scope symbol | declareConst scope ty item =>
      cases scope with
      | global =>
          simp only [global?]
          split
          · rfl
          · exact h
      | «local» => exact h
  | addParameter function ty =>
      simp only [global?]
      split
      · simpa using h
      · exact h
  | _ => exact h

/-- Whether an action leaves every function as it is, and declares none. -/
def keepsFunctions : Action → Bool
  | declare _ symbol => !symbol.isFunction
  | addParameter _ _ => false
  | _ => true

instance : Executive keepsFunctions := {}

theorem filter_declared {name : String} {before : Option Symbol} {other symbol : Symbol}
    (hother : other.isFunction = false)
    (h : (if other.name = name then some other else before).filter Symbol.isFunction =
      some symbol) : before.filter Symbol.isFunction = some symbol := by
  split at h
  · obtain ⟨hsame, hfunction⟩ := Option.filter_eq_some_iff.1 h
    obtain rfl := Option.some.inj hsame
    rw [hother] at hfunction
    cases hfunction
  · exact h

/-- What is found as a function behind such an action was found before it. -/
theorem filter_global? {action : Action} (hkeeps : action.keepsFunctions = true) {name : String}
    {before : Option Symbol} {symbol : Symbol}
    (h : (action.global? name before).filter Symbol.isFunction = some symbol) :
    before.filter Symbol.isFunction = some symbol := by
  cases action with
  | declare scope other =>
      cases scope with
      | global =>
          have hother : other.isFunction = false := by simpa [keepsFunctions] using hkeeps
          exact filter_declared hother h
      | «local» => exact h
  | declareConst scope ty item =>
      cases scope with
      | global =>
          have hconst : (item.symbol ty).isFunction = false := rfl
          exact filter_declared hconst h
      | «local» => exact h
  | addParameter function ty => cases hkeeps
  | _ => exact h

end Action

/-- The global symbol of a name after a list of actions. -/
def globalAfter (name : String) (log : List Action) (before : Option Symbol) : Option Symbol :=
  log.foldl (Action.global? name) before

variable {name : String} {log front back : List Action} {before : Option Symbol}

theorem globalAfter_append :
    globalAfter name (front ++ back) before = globalAfter name back (globalAfter name front before) :=
  List.foldl_append

theorem Plays.lookup?_global {s t : State} (h : Plays log s t) (name : String) :
    t.scopes.lookup? .global name = globalAfter name log (s.scopes.lookup? .global name) := by
  induction h using Plays.induction with
  | nil => rfl
  | cons haction _ ih =>
      rw [ih, haction.effect.scopes, Action.lookup?_scopes]
      rfl

theorem isSome_globalAfter (log : List Action) (h : before.isSome = true) :
    (globalAfter name log before).isSome = true := by
  induction log generalizing before with
  | nil => exact h
  | cons action log ih => exact ih (action.isSome_global? h)

theorem filter_globalAfter {symbol : Symbol} (hkeeps : log.all Action.keepsFunctions = true)
    (h : (globalAfter name log before).filter Symbol.isFunction = some symbol) :
    before.filter Symbol.isFunction = some symbol := by
  induction log generalizing before with
  | nil => exact h
  | cons action log ih =>
      rw [List.all_cons, Bool.and_eq_true] at hkeeps
      exact Action.filter_global? hkeeps.1 (ih hkeeps.2 h)

end Fold

section Head

theorem Params.globalAfter_log (function name : String) (params : Params) (before : Option Symbol) :
    globalAfter name (params.log function) before =
      if function = name then
        before.map fun symbol => symbol.withParameters (params.toList.map fun p => p.type.ty)
      else before := by
  have hparam : ∀ (param : Param) (before : Option Symbol),
      globalAfter name (param.log function) before =
        if function = name then before.map fun symbol => symbol.withParameter param.type.ty
        else before := fun _ _ => rfl
  induction params generalizing before with
  | nil => simp [Params.log, globalAfter, toList, Symbol.withParameters]
  | last param => exact hparam param before
  | cons param comma rest ih =>
      rw [Params.log, globalAfter_append, hparam]
      refine (ih _).trans ?_
      split
      · exact Option.map_map _ _ before
      · rfl

theorem globalAfter_openFunctionLog (name : String) (ty : Ty) (function : Token)
    (before : Option Symbol) : globalAfter name (openFunctionLog ty function) before =
      if function.value = name then some { name := function.value, kind := .function, ty }
      else before :=
  rfl

theorem globalAfter_recoverLog (name : String) (kind : TokenKind) (missing : DiagnosticKind)
    (found : Option Token) (before : Option Symbol) :
    globalAfter name (recoverLog kind missing found) before = before := by
  cases found <;> rfl

namespace FunctionHead

/-- What follows the name of a function in its head. -/
theorem globalAfter_opened (name : String) (ty : Ty) (function lparen : Token) (params : Params)
    (rparen : Option Token) (before : Option Symbol) :
    globalAfter name (openFunctionLog ty function ++ (.take .lparen lparen ::
      (params.log function.value ++ recoverLog .rparen .missingParen rparen))) before =
      if function.value = name then
        some (Symbol.withParameters { name := function.value, kind := .function, ty }
          (params.toList.map fun p => p.type.ty))
      else before := by
  rw [globalAfter_append, globalAfter_openFunctionLog, ← List.singleton_append, globalAfter_append,
    globalAfter_append, globalAfter_recoverLog, Params.globalAfter_log]
  by_cases hname : function.value = name
  · rw [if_pos hname, if_pos hname, if_pos hname]
    rfl
  · rw [if_neg hname, if_neg hname, if_neg hname]
    rfl

/-- A function is found under its name with all its parameters, and hides no other name. -/
theorem globalAfter_log (head : FunctionHead) (name : String) (before : Option Symbol) :
    globalAfter name head.log before =
      if head.name.value = name then some head.symbol else before := by
  cases head with
  | value type function lparen params rparen =>
      exact globalAfter_opened name type.ty function lparen params rparen before
  | void keyword function lparen params rparen =>
      exact globalAfter_opened name .void function lparen params rparen before
  | main keyword function lparen rparen =>
      exact globalAfter_opened name .void function lparen .nil rparen before

/-- A head asks whether its name has been declared. -/
theorem check_mem_log (head : FunctionHead) :
    .checkRedefinition .global head.name ∈ head.log := by
  cases head <;> simp [log, openFunctionLog, name]

end FunctionHead

end Head

section Items

theorem ConstDecl.keepsFunctions_log (scope : Scope) (decl : ConstDecl) :
    (decl.log scope).all Action.keepsFunctions = true :=
  decl.all_log_of (fun _ => rfl) fun _ _ => rfl

theorem VarItem.keepsFunctions_declare (scope : Scope) (ty : Ty) (item : VarItem) :
    (Action.declare scope (item.symbol ty)).keepsFunctions = true := by
  obtain ⟨name, size⟩ := item
  cases size <;> rfl

theorem VarDecl.keepsFunctions_log (scope : Scope) (decl : VarDecl) :
    (decl.log scope).all Action.keepsFunctions = true :=
  decl.all_log_of (fun _ => rfl) (VarItem.keepsFunctions_declare scope) fun _ _ _ => rfl

theorem Function.keepsFunctions_inside (f : Function) :
    (f.prelude ++ (Stmt.logs f.head.ty f.body.stmts ++ f.closing)).all Action.keepsFunctions =
      true := by
  rw [List.all_append, List.all_append, Stmt.all_logs,
    f.all_prelude (fun _ _ => rfl) (fun _ => rfl) (fun _ _ => rfl)
      (VarItem.keepsFunctions_declare .local),
    f.all_closing rfl (fun _ _ => rfl) fun _ => rfl]
  rfl

/-- A function that is found after a head was read before it, or belongs to the head. -/
theorem FunctionHead.of_globalAfter {head : FunctionHead} {name : String} {log : List Action}
    {before : Option Symbol} {symbol : Symbol} (hkeeps : log.all Action.keepsFunctions = true)
    (h : (globalAfter name (head.log ++ log) before).filter Symbol.isFunction = some symbol) :
    (head.name.value = name ∧ head.symbol = symbol) ∨
      before.filter Symbol.isFunction = some symbol := by
  rw [globalAfter_append] at h
  have hfound := filter_globalAfter hkeeps h
  rw [head.globalAfter_log] at hfound
  by_cases hname : head.name.value = name
  · rw [if_pos hname] at hfound
    exact .inl ⟨hname, Option.some.inj (Option.filter_eq_some_iff.1 hfound).1⟩
  · rw [if_neg hname] at hfound
    exact .inr hfound

/-- A name that is found as a function is the name of one that has been read. -/
theorem exists_function_of_globalAfter {items : List TopLevel} {name : String}
    {before : Option Symbol} {symbol : Symbol}
    (h : (globalAfter name (items.flatMap TopLevel.log) before).filter Symbol.isFunction =
      some symbol) :
    (∃ f, .function f ∈ items ∧ f.head.name.value = name ∧ f.head.symbol = symbol) ∨
      before.filter Symbol.isFunction = some symbol := by
  induction items generalizing before with
  | nil => exact .inr h
  | cons item items ih =>
      rw [List.flatMap_cons, globalAfter_append] at h
      rcases ih h with ⟨f, hf, hfound⟩ | hfound
      · exact .inl ⟨f, List.mem_cons_of_mem item hf, hfound⟩
      · cases item with
        | consts decls =>
            refine .inr (filter_globalAfter ?_ hfound)
            rw [TopLevel.log, List.all_flatMap, List.all_eq_true]
            exact fun decl _ => decl.keepsFunctions_log .global
        | vars decls =>
            refine .inr (filter_globalAfter ?_ hfound)
            rw [TopLevel.log, List.all_flatMap, List.all_eq_true]
            exact fun decl _ => decl.keepsFunctions_log .global
        | function f =>
            rw [TopLevel.log, f.log_eq] at hfound
            rcases FunctionHead.of_globalAfter f.keepsFunctions_inside hfound with hhead | hbefore
            · exact .inl ⟨f, List.mem_cons_self, hhead⟩
            · exact .inr hbefore

end Items

section Compile

variable {tokens : List Token} {c : Compilation}

theorem lookup?_start (sink : Sink) (tokens : List Token) (scope : Scope) (name : String) :
    (State.start sink tokens).scopes.lookup? scope name = none := by
  cases scope <;> simp [State.start, Scopes.lookup?, Scopes.table]

/-- The keyword of a type that has been read. -/
theorem Plays.of_typeName {log : List Action} {s t : State} (h : Plays log s t) {type : TypeName}
    (hlog : type.log ⊆ log) :
    type.token.kind = .kwInt ∧ type.ty = .int ∨ type.token.kind = .kwChar ∧ type.ty = .char :=
  h.facts _ (hlog (List.mem_cons_of_mem _ List.mem_cons_self))

/-- No parameter is void. -/
theorem FunctionHead.ne_void_of_compile (h : compile tokens = .ok c) {f : Function}
    (hf : .function f ∈ c.program.items) : ∀ ty ∈ f.head.paramTypes, ty ≠ .void := by
  obtain ⟨t, hplays, _⟩ := plays_of_compile h
  intro ty hty
  obtain ⟨param, hparam, rfl⟩ := List.mem_map.1 hty
  have hlog : param.type.log ⊆ c.program.log := by
    intro action haction
    refine List.mem_append_left _ (List.mem_flatMap.2 ⟨_, hf, ?_⟩)
    exact List.mem_append_left _ (subset_log hparam (List.mem_append_left _ haction))
  rcases hplays.of_typeName hlog with hint | hchar
  · rw [hint.2]
    decide
  · rw [hchar.2]
    decide

/-- A function that is called is one of those announced so far. -/
theorem exists_function_of_callee (h : compile tokens = .ok c) {before after : List TopLevel}
    {f : Function} (hitems : c.program.items = before ++ .function f :: after) {name : String}
    {symbol : Symbol}
    (hcallee : .callee name (some symbol) ∈ Stmt.logs f.head.ty f.body.stmts) :
    ∃ g, .function g ∈ before ++ [.function f] ∧ g.head.name.value = name ∧
      g.head.symbol = symbol := by
  obtain ⟨t, hplays, _⟩ := plays_of_compile h
  obtain ⟨front, back, hsplit⟩ := List.append_of_mem hcallee
  have hkeeps : (f.prelude ++ front).all Action.keepsFunctions = true := by
    have hinside := f.keepsFunctions_inside
    rw [hsplit] at hinside
    simp only [List.all_append, Bool.and_eq_true] at hinside ⊢
    exact ⟨hinside.1, hinside.2.1.1⟩
  have hlog : c.program.log = (before.flatMap TopLevel.log ++ (f.head.log ++ (f.prelude ++ front))) ++
      .callee name (some symbol) :: (back ++ f.closing ++ after.flatMap TopLevel.log ++
        [.keepTable Pass.globalName .global]) := by
    rw [Program.log, hitems]
    simp [TopLevel.log, f.log_eq, hsplit]
  rw [hlog] at hplays
  obtain ⟨u, hbefore, v, ⟨hfound, _⟩, _⟩ := plays_append.1 hplays
  have hfilter : (u.scopes.lookup? .global name).filter Symbol.isFunction = some symbol := hfound
  rw [hbefore.lookup?_global, lookup?_start, globalAfter_append] at hfilter
  rcases FunctionHead.of_globalAfter hkeeps hfilter with hhead | hearlier
  · exact ⟨f, List.mem_append_right _ (List.mem_singleton_self _), hhead⟩
  · rcases exists_function_of_globalAfter hearlier with ⟨g, hg, hfound⟩ | hnone
    · exact ⟨g, List.mem_append_left _ hg, hfound⟩
    · cases hnone

theorem Pass.report_of_checkRedefinition {scope : Scope} {name : Token} {s t : State}
    (h : checkRedefinition scope name s = .ok () t)
    (hknown : (s.scopes.lookup? scope name.value).isSome = true) :
    report name.line .redefinition s = .ok () t := by
  obtain ⟨found, u, hfound, h⟩ := bind_eq_ok.1 h
  cases hfound
  rwa [if_pos hknown] at h

/-- A second function of one name is recorded. -/
theorem redefinition_of_compile (h : compile tokens = .ok c) {before after : List TopLevel}
    {f g : Function} (hitems : c.program.items = before ++ .function g :: after)
    (hf : .function f ∈ before) (hname : f.head.name.value = g.head.name.value) :
    ∃ d ∈ c.diagnostics, d.kind = .redefinition := by
  obtain ⟨t, hplays, _, hc⟩ := plays_of_compile h
  obtain ⟨first, between, rfl⟩ := List.append_of_mem hf
  obtain ⟨front, back, hsplit⟩ := List.append_of_mem g.head.check_mem_log
  obtain ⟨rest, hlog⟩ : ∃ rest, c.program.log =
      (first.flatMap TopLevel.log ++ (f.head.log ++ ((f.prelude ++
        (Stmt.logs f.head.ty f.body.stmts ++ f.closing)) ++ between.flatMap TopLevel.log ++ front))) ++
      .checkRedefinition .global g.head.name :: rest := by
    rw [Program.log, hitems]
    simp [TopLevel.log, Function.log_eq, hsplit]
  rw [hlog] at hplays
  obtain ⟨u, hbefore, v, hcheck, hrest⟩ := plays_append.1 hplays
  have hknown : (u.scopes.lookup? .global g.head.name.value).isSome = true := by
    rw [hbefore.lookup?_global, globalAfter_append, globalAfter_append, f.head.globalAfter_log,
      if_pos hname]
    exact isSome_globalAfter _ rfl
  obtain ⟨found, hfound, _⟩ := hrest.diagnostics
  refine ⟨⟨g.head.name.line, .redefinition⟩, ?_, rfl⟩
  cases Pass.report_of_checkRedefinition hcheck hknown
  rw [hc]
  simp [hfound]

/-- Unless a second declaration was recorded, functions are told apart by their names. -/
theorem function_eq_of_name_eq (h : compile tokens = .ok c)
    (hquiet : ∀ d ∈ c.diagnostics, d.kind ≠ .redefinition) {f g : Function}
    (hf : .function f ∈ c.program.items) (hg : .function g ∈ c.program.items)
    (hname : f.head.name.value = g.head.name.value) : f = g := by
  have hlater : ∀ {before after : List TopLevel} {f g : Function},
      c.program.items = before ++ .function g :: after → .function f ∈ before →
      f.head.name.value ≠ g.head.name.value := by
    intro before after f g hitems hf hname
    obtain ⟨d, hd, hkind⟩ := redefinition_of_compile h hitems hf hname
    exact hquiet d hd hkind
  obtain ⟨before, after, hitems⟩ := List.append_of_mem hf
  rw [hitems] at hg
  rcases List.mem_append.1 hg with hg | hg
  · exact absurd hname.symm (hlater hitems hg)
  · rcases List.mem_cons.1 hg with hg | hg
    · exact (TopLevel.function.inj hg).symm
    · obtain ⟨middle, last, rfl⟩ := List.append_of_mem hg
      have hsplit : c.program.items = (before ++ .function f :: middle) ++ .function g :: last := by
        rw [hitems, List.append_assoc]
        rfl
      exact absurd hname (hlater hsplit (by simp))

end Compile

end OnePass
