import OnePass.Proofs.Emission
import OnePass.Proofs.Locality
import OnePass.Proofs.Lossless
import OnePass.Proofs.Rename.Resume

/-!
What the kept tables hold. Unless a second declaration is recorded, every declaration is entered in
the table of its scope and stays there, so that behind a function its table has one entry for each
parameter and local declaration, and at the end the global one has one for each global declaration.
All of these tables are kept but one: the global table is kept last, in the place of that of a
function named `global`.
-/

namespace OnePass

namespace SymbolTable

/-- The table has one entry for each of the symbols, under its name, and no other. -/
def Holds (table : SymbolTable) (symbols : List Symbol) : Prop :=
  table.toList.Perm (symbols.map fun symbol => (symbol.name, symbol))

/-- The second table has one entry more for each of the symbols. -/
def Gains (before after : SymbolTable) (symbols : List Symbol) : Prop :=
  after.toList.Perm (before.toList ++ symbols.map fun symbol => (symbol.name, symbol))

namespace Gains

variable {before between after : SymbolTable} {front back : List Symbol}

theorem refl (table : SymbolTable) : table.Gains table [] := by
  simp [Gains]

theorem trans (hfront : before.Gains between front) (hback : between.Gains after back) :
    before.Gains after (front ++ back) := by
  unfold Gains at *
  rw [List.map_append, ← List.append_assoc]
  exact hback.trans (hfront.append_right _)

/-- A new name is entered. -/
theorem declare {symbol : Symbol} (hfresh : before[symbol.name]? = none) :
    before.Gains (before.declare symbol) [symbol] := by
  have hothers : before.toList.filter (fun entry => decide ¬(symbol.name == entry.1) = true) =
      before.toList := by
    refine List.filter_eq_self.2 fun entry hentry => ?_
    have hfound := Std.TreeMap.mem_toList_iff_getElem?_eq_some.1 hentry
    have hne : symbol.name ≠ entry.1 := by
      rintro heq
      rw [← heq, hfresh] at hfound
      cases hfound
    simpa using hne
  have hinsert := Std.TreeMap.toList_insert_perm (t := before) (k := symbol.name) (v := symbol)
  rw [hothers] at hinsert
  exact hinsert.trans (List.perm_append_singleton _ _).symm

/-- What is entered counts, not how the table came about. -/
theorem of_getElem?_eq {other : SymbolTable} (h : before.Gains other front)
    (hsame : ∀ name : String, after[name]? = other[name]?) : before.Gains after front := by
  have hequiv : after.Equiv other := .of_forall_constGet?_eq hsame
  unfold Gains
  rw [hequiv.toList_eq]
  exact h

theorem holds (h : Gains {} after front) : after.Holds front :=
  h

end Gains

/-- Different symbols that a table holds have different names. -/
theorem Holds.nodup {table : SymbolTable} {symbols : List Symbol} (h : table.Holds symbols) :
    (symbols.map Symbol.name).Nodup := by
  have hkeys : (table.toList.map Prod.fst).Nodup := by
    rw [List.nodup_iff_pairwise_ne, List.pairwise_map]
    exact Std.TreeMap.distinct_keys_toList.imp fun hne heq =>
      hne (Std.compare_eq_iff_eq.2 heq)
  have hperm := h.map Prod.fst
  rw [List.map_map] at hperm
  exact hperm.nodup_iff.1 hkeys

end SymbolTable

section Declarations

/-- The symbol of a parameter. -/
def Param.symbol (param : Param) : Symbol :=
  { name := param.name.value, kind := .parameter, ty := param.type.ty }

def ConstDecl.symbols (decl : ConstDecl) : List Symbol :=
  decl.items.toList.map fun item => item.symbol decl.type.ty

def VarDecl.symbols (decl : VarDecl) : List Symbol :=
  decl.items.toList.map fun item => item.symbol decl.type.ty

/-- The parameters and the local declarations of a function. -/
def Function.locals (f : Function) : List Symbol :=
  f.head.params.map Param.symbol ++
    (f.body.consts.flatMap ConstDecl.symbols ++ f.body.vars.flatMap VarDecl.symbols)

def TopLevel.symbols : TopLevel → List Symbol
  | consts decls => decls.flatMap ConstDecl.symbols
  | vars decls => decls.flatMap VarDecl.symbols
  | function f => [f.head.symbol]

/-- The global declarations of a program, its functions among them. -/
def Program.globals (program : Program) : List Symbol :=
  program.items.flatMap TopLevel.symbols

/-- A declared name, as it stands in the program. -/
inductive Declarator where
  | const (type : TypeName) (item : ConstItem)
  | var (type : TypeName) (item : VarItem)
  | param (param : Param)
  | function (head : FunctionHead)

namespace Declarator

def name : Declarator → Token
  | const _ item => item.name
  | var _ item => item.name
  | param p => p.name
  | function head => head.name

/-- The symbol that is entered for a declared name. -/
def entry : Declarator → Symbol
  | const type item => item.symbol type.ty
  | var type item => item.symbol type.ty
  | param p => p.symbol
  | function head => head.symbol

end Declarator

def ConstDecl.declarators (decl : ConstDecl) : List Declarator :=
  decl.items.toList.map (.const decl.type)

def VarDecl.declarators (decl : VarDecl) : List Declarator :=
  decl.items.toList.map (.var decl.type)

/-- What a function declares before its statements. -/
def Body.declarators (body : Body) : List Declarator :=
  body.consts.flatMap ConstDecl.declarators ++ body.vars.flatMap VarDecl.declarators

def Function.declarators (f : Function) : List Declarator :=
  f.head.params.map Declarator.param ++ f.body.declarators

@[simp]
theorem ConstDecl.entries_declarators (decl : ConstDecl) :
    decl.declarators.map Declarator.entry = decl.symbols := by
  simp [declarators, symbols, Declarator.entry]

@[simp]
theorem VarDecl.entries_declarators (decl : VarDecl) :
    decl.declarators.map Declarator.entry = decl.symbols := by
  simp [declarators, symbols, Declarator.entry]

theorem Body.entries_declarators (body : Body) :
    body.declarators.map Declarator.entry =
      body.consts.flatMap ConstDecl.symbols ++ body.vars.flatMap VarDecl.symbols := by
  simp [declarators, List.map_flatMap]

end Declarations

namespace Action

/-- Whether an action leaves the table of a scope alone. -/
def spares (scope : Scope) : Action → Bool
  | declare other _ | declareConst other _ _ => other ≠ scope
  | resetLocals => scope = .global
  | addParameter _ _ => scope = .local
  | _ => true

instance (scope : Scope) : Executive (spares scope) := {}

/-- Whether an action records no second declaration. -/
def repeatsNone : Action → Bool
  | checkRedefinition _ _ => false
  | report _ kind | reportHere kind => kind ≠ .redefinition
  | _ => true

/-- Whether an action has nothing to do with the names of a scope. -/
def isAside (scope : Scope) (action : Action) : Bool :=
  action.spares scope && action.repeatsNone

instance (scope : Scope) : Executive (isAside scope) where
  report _ _ h := by simp [isAside, spares, repeatsNone, h]
  reportHere _ h := by simp [isAside, spares, repeatsNone, h]

theorem all_spares_of_isAside {scope : Scope} {log : List Action}
    (h : log.all (isAside scope) = true) : log.all (spares scope) = true := by
  rw [List.all_eq_true] at h ⊢
  exact fun action haction => (Bool.and_eq_true_iff.1 (h action haction)).1

theorem table_of_spares {action : Action} {scope : Scope} (h : action.spares scope = true)
    (before : Scopes) : (action.scopes before).table scope = before.table scope := by
  cases action with
  | declare other symbol =>
      have hne : scope ≠ other := fun heq => by simp [spares, heq] at h
      exact before.table_update_of_ne _ hne
  | declareConst other ty item =>
      have hne : scope ≠ other := fun heq => by simp [spares, heq] at h
      exact before.table_update_of_ne _ hne
  | resetLocals =>
      obtain rfl : scope = .global := by simpa [spares] using h
      rfl
  | addParameter function ty =>
      obtain rfl : scope = .local := by simpa [spares] using h
      rfl
  | _ => rfl

end Action

/-- No second declaration of a name has been recorded. -/
def State.Unrepeated (s : State) : Prop :=
  ∀ d ∈ s.diagnostics.toList, d.kind ≠ .redefinition

namespace Plays

variable {log : List Action} {s t : State}

theorem unrepeated (h : Plays log s t) (ht : t.Unrepeated) : s.Unrepeated := by
  obtain ⟨found, hfound, _⟩ := h.diagnostics
  intro d hd
  exact ht d (hfound ▸ List.mem_append_left found hd)

theorem table_of_spares {scope : Scope} (h : Plays log s t)
    (hlog : log.all (Action.spares scope) = true) : t.scopes.table scope = s.scopes.table scope := by
  refine h.kept (f := fun s => s.scopes.table scope) (fun action s u haction hspares => ?_) hlog
  rw [haction.effect.scopes, Action.table_of_spares hspares]

end Plays

/-- What is not recorded as known already is new. -/
theorem fresh_of_checkRedefinition {scope : Scope} {name : Token} {s t : State}
    (h : (Action.checkRedefinition scope name).Performs s t) (ht : t.Unrepeated) :
    s.scopes.lookup? scope name.value = none := by
  cases hknown : s.scopes.lookup? scope name.value with
  | none => rfl
  | some symbol =>
      cases Pass.report_of_checkRedefinition h (by rw [hknown]; rfl)
      exact absurd rfl (ht ⟨name.line, .redefinition⟩ (by simp))

/-- A log that declares names in a scope one after the other, each once it has been looked for. -/
inductive Declares (scope : Scope) : List Action → List Declarator → Prop where
  | aside {log : List Action} (h : log.all (Action.isAside scope) = true) : Declares scope log []
  | checked {d : Declarator} {between : List Action} {action : Action}
      (hname : d.entry.name = d.name.value)
      (hbetween : between.all (Action.isAside scope) = true)
      (hquiet : action.repeatsNone = true)
      (hscopes : ∀ before, action.scopes before = before.declare scope d.entry) :
      Declares scope (.checkRedefinition scope d.name :: (between ++ [action])) [d]
  | append {front back : List Action} {first rest : List Declarator}
      (hfront : Declares scope front first) (hback : Declares scope back rest) :
      Declares scope (front ++ back) (first ++ rest)

namespace Declares

variable {scope : Scope} {front back : List Action} {first rest : List Declarator}

/-- What is around a log that declares names may stand aside. -/
theorem append_aside (hfront : Declares scope front first)
    (hback : back.all (Action.isAside scope) = true) : Declares scope (front ++ back) first := by
  have happend := hfront.append (aside hback)
  rwa [List.append_nil] at happend

theorem aside_append (front : List Action) (hfront : front.all (Action.isAside scope) = true)
    (hback : Declares scope back rest) : Declares scope (front ++ back) rest :=
  (aside hfront).append hback

theorem flatMap {α : Type} {itemLog : α → List Action} {declarators : α → List Declarator}
    (hitem : ∀ item, Declares scope (itemLog item) (declarators item)) (items : List α) :
    Declares scope (items.flatMap itemLog) (items.flatMap declarators) := by
  induction items with
  | nil => exact aside rfl
  | cons item items ih =>
      rw [List.flatMap_cons, List.flatMap_cons]
      exact (hitem item).append ih

theorem commaList {α : Type} {itemLog : α → List Action} {declarator : α → Declarator}
    (hitem : ∀ item, Declares scope (itemLog item) [declarator item]) (items : CommaList α) :
    Declares scope (items.log itemLog) (items.toList.map declarator) := by
  induction items with
  | one item => exact hitem item
  | cons item comma rest ih =>
      have hrest : Declares scope ([.take .comma comma] ++ rest.log itemLog)
        (rest.toList.map declarator) := aside_append _ rfl ih
      exact (hitem item).append hrest

end Declares

section Phrases

variable {scope : Scope}

theorem ConstItem.declares_log (type : TypeName) (item : ConstItem) :
    Declares scope (item.log scope type.ty) [.const type item] := by
  have hlog : item.log scope type.ty = [.take .ident item.name] ++
      (.checkRedefinition scope item.name :: ((.take .assign item.assign :: item.init.log type.ty) ++
        [.declareConst scope type.ty item])) := by
    simp [log]
  rw [hlog]
  exact .aside_append _ rfl
    (.checked (d := .const type item) rfl (ConstInit.all_log _ item.init) rfl fun _ => rfl)

theorem VarItem.declares_log (type : TypeName) (item : VarItem) :
    Declares scope (item.log scope type.ty) [.var type item] := by
  have hlog : item.log scope type.ty = [.take .ident item.name] ++
      ((.checkRedefinition scope item.name :: ((item.size.map ArraySize.log).getD [] ++
        [.declare scope (item.symbol type.ty)])) ++
      [.emit (.var type.ty item.name.value item.length)]) := by
    simp [log]
  rw [hlog]
  exact .aside_append _ rfl (.append_aside
    (.checked (d := .var type item) rfl item.all_sizeLog rfl fun _ => rfl) rfl)

theorem ConstDecl.declares_log (decl : ConstDecl) :
    Declares scope (decl.log scope) decl.declarators :=
  .aside_append (.take .kwConst decl.keyword :: decl.type.log) rfl
    (.append_aside (.commaList (ConstItem.declares_log decl.type) decl.items)
      (all_semicolonLog decl.semicolon))

theorem VarDecl.declares_log (decl : VarDecl) :
    Declares scope (decl.log scope) decl.declarators :=
  .aside_append decl.type.log rfl
    (.append_aside (.commaList (VarItem.declares_log decl.type) decl.items)
      (all_semicolonLog decl.semicolon))

theorem Params.declares_log (function : String) (params : Params) :
    Declares .local (params.log function) (params.toList.map Declarator.param) := by
  have hparam : ∀ param : Param, Declares .local (param.log function) [.param param] := by
    intro param
    have hlog : param.log function = (param.type.log ++ [.take .ident param.name]) ++
        (.checkRedefinition .local param.name ::
          ([.addParameter function param.type.ty] ++ [.declare .local param.symbol])) := by
      simp [Param.log, Param.symbol]
    rw [hlog]
    exact .aside_append _ rfl (.checked (d := .param param) rfl rfl rfl fun _ => rfl)
  induction params with
  | nil => exact .aside rfl
  | last param => exact hparam param
  | cons param comma rest ih =>
      exact (hparam param).append (.aside_append [.take .comma comma] rfl ih)

/-- A head declares its function, and then starts afresh with its parameters. -/
theorem FunctionHead.exists_opened (head : FunctionHead) : ∃ front back,
    head.log = front ++ (openFunctionLog head.ty head.name ++ back) ∧
      front.all Action.inExpr = true ∧ (∀ scope, front.all (Action.isAside scope) = true) ∧
      Declares .local back (head.params.map Declarator.param) := by
  have hback : ∀ (function : String) (lparen : Token) (params : Params) (rparen : Option Token),
      Declares .local ([.take .lparen lparen] ++ (params.log function ++
        recoverLog .rparen .missingParen rparen)) (params.toList.map Declarator.param) :=
    fun function lparen params rparen => .aside_append _ rfl
      (.append_aside (params.declares_log function) (all_recoverLog _ _ rparen))
  cases head with
  | value type name lparen params rparen =>
      exact ⟨type.log ++ [.take .ident name], _, by simp [log, ty, FunctionHead.name], rfl,
        fun _ => rfl, hback name.value lparen params rparen⟩
  | void keyword name lparen params rparen =>
      exact ⟨[.take .kwVoid keyword, .take .ident name], _, by simp [log, ty, FunctionHead.name],
        rfl, fun _ => rfl, hback name.value lparen params rparen⟩
  | main keyword name lparen rparen =>
      exact ⟨[.take .kwVoid keyword, .take .kwMain name], _,
        by simp [log, ty, FunctionHead.name, Params.log], rfl, fun _ => rfl,
        hback name.value lparen .nil rparen⟩

/-- In front of its statements a function declares its local names. -/
theorem Function.declares_prelude (f : Function) :
    Declares .local f.prelude f.body.declarators := by
  have hannounce : f.head.announceLog.all (Action.isAside .local) = true := by
    simp [FunctionHead.announceLog, Action.isAside, Action.spares, Action.repeatsNone]
  exact .aside_append _ hannounce (.aside_append [.take .lbrace f.lbrace] rfl
    ((Declares.flatMap ConstDecl.declares_log _).append (.flatMap VarDecl.declares_log _)))

theorem Function.declares_inside (f : Function) :
    Declares .local (f.prelude ++ (Stmt.logs f.head.ty f.body.stmts ++ f.closing))
      f.body.declarators := by
  refine f.declares_prelude.append_aside ?_
  rw [List.all_append, Stmt.all_logs, f.all_closing rfl (fun _ _ => rfl) fun _ => rfl]
  rfl

end Phrases

/-- A log that enters symbols in the table of a scope, unless a second declaration is recorded. -/
def Enters (scope : Scope) (log : List Action) (symbols : List Symbol) : Prop :=
  ∀ s t, Plays log s t → t.Unrepeated → (s.scopes.table scope).Gains (t.scopes.table scope) symbols

namespace Enters

variable {scope : Scope} {front back : List Action} {first rest : List Symbol}

theorem append (hfront : Enters scope front first) (hback : Enters scope back rest) :
    Enters scope (front ++ back) (first ++ rest) := by
  intro s t h ht
  obtain ⟨u, hplays, hlater⟩ := plays_append.1 h
  exact (hfront s u hplays (hlater.unrepeated ht)).trans (hback u t hlater ht)

theorem flatMap {α : Type} {itemLog : α → List Action} {symbols : α → List Symbol}
    (hitem : ∀ item, Enters scope (itemLog item) (symbols item)) (items : List α) :
    Enters scope (items.flatMap itemLog) (items.flatMap symbols) := by
  induction items with
  | nil =>
      intro s t h _
      obtain rfl := plays_nil.1 h
      exact .refl _
  | cons item items ih =>
      rw [List.flatMap_cons, List.flatMap_cons]
      exact (hitem item).append ih

/-- A name is entered once it has been looked for. -/
theorem checked {name : Token} {symbol : Symbol} {between : List Action} {action : Action}
    (hname : symbol.name = name.value) (hbetween : between.all (Action.spares scope) = true)
    (haction : ∀ before, action.scopes before = before.declare scope symbol) :
    Enters scope (.checkRedefinition scope name :: (between ++ [action])) [symbol] := by
  rintro s t ⟨u, hcheck, hplays⟩ ht
  have hfresh := fresh_of_checkRedefinition hcheck (hplays.unrepeated ht)
  obtain ⟨v, hspared, w, hdeclare, rfl⟩ := plays_append.1 hplays
  have hu : u.scopes = s.scopes := hcheck.effect.scopes
  have hv : v.scopes.table scope = s.scopes.table scope := by
    rw [hspared.table_of_spares hbetween, hu]
  have hw : w.scopes.table scope = (s.scopes.table scope).declare symbol := by
    rw [hdeclare.effect.scopes, haction, Scopes.declare, Scopes.table_update_self, hv]
  rw [hw]
  exact .declare (hname ▸ hfresh)

end Enters

/-- What is declared is entered. -/
theorem Declares.enters {scope : Scope} {log : List Action} {declarators : List Declarator}
    (h : Declares scope log declarators) :
    Enters scope log (declarators.map Declarator.entry) := by
  induction h with
  | aside haside =>
      intro s t hplays _
      rw [hplays.table_of_spares (Action.all_spares_of_isAside haside)]
      exact .refl _
  | checked hname hbetween hquiet hscopes =>
      exact .checked hname (Action.all_spares_of_isAside hbetween) hscopes
  | append hfront hback ihfront ihback =>
      rw [List.map_append]
      exact ihfront.append ihback

section Functions

theorem Symbol.name_withParameters (symbol : Symbol) (tys : List Ty) :
    (symbol.withParameters tys).name = symbol.name := by
  induction tys generalizing symbol with
  | nil => rfl
  | cons ty tys ih =>
      have hname : (symbol.withParameter ty).name = symbol.name := by
        cases hcode : ty.signatureCode? with
        | none => simp [withParameter, addParameter?, hcode]
        | some code => rw [withParameter_eq hcode]
      exact (ih _).trans hname

@[simp]
theorem FunctionHead.name_symbol (head : FunctionHead) : head.symbol.name = head.name.value :=
  Symbol.name_withParameters _ _

theorem FunctionHead.enters_log (head : FunctionHead) :
    Enters .global head.log [head.symbol] := by
  intro s t h ht
  obtain ⟨front, back, hlog, hfront, _, _⟩ := head.exists_opened
  have hfresh : s.scopes.lookup? .global head.name.value = none := by
    rw [hlog] at h
    obtain ⟨u, hplays, v, hcheck, hrest⟩ := plays_append.1 h
    rw [← hplays.scopes_eq hfront]
    exact fresh_of_checkRedefinition hcheck (hrest.unrepeated ht)
  rw [← head.name_symbol] at hfresh
  refine (SymbolTable.Gains.declare hfresh).of_getElem?_eq fun name => ?_
  have hafter := h.lookup?_global name
  have hdeclared := s.scopes.lookup?_declare .global head.symbol name
  rw [head.globalAfter_log, ← head.name_symbol] at hafter
  exact hafter.trans hdeclared.symm

/-- Behind its head a function has its parameters as local names. -/
theorem FunctionHead.locals_of_plays {head : FunctionHead} {s t : State}
    (h : Plays head.log s t) (ht : t.Unrepeated) :
    t.scopes.locals.Holds (head.params.map Param.symbol) := by
  obtain ⟨front, back, hlog, _, _, hback⟩ := head.exists_opened
  rw [hlog] at h
  obtain ⟨u, _, hopened⟩ := plays_append.1 h
  obtain ⟨v, hopen, hlater⟩ := plays_append.1 hopened
  have hempty : v.scopes.table .local = {} := by
    rw [hopen.scopes]
    rfl
  have hgains := hback.enters v t hlater ht
  rw [hempty, List.map_map] at hgains
  exact hgains.holds

theorem Function.enters_log (f : Function) : Enters .global f.log [f.head.symbol] := by
  intro s t h ht
  obtain ⟨inside, u, v, hhead, hinside, hlocal, hkeep⟩ := Function.exists_inside h
  have hkept : Plays [.keepTable f.head.name.value .local] v t := ⟨t, hkeep, rfl⟩
  have hu : u.Unrepeated := hinside.unrepeated (hkept.unrepeated ht)
  have hglobals : t.scopes.table .global = u.scopes.table .global := by
    rw [hkeep.effect.scopes]
    exact hinside.globals_of_isLocal hlocal
  rw [hglobals]
  exact f.head.enters_log s u hhead hu

/-- The local names behind a function are its parameters and its local declarations. -/
theorem Function.locals_of_plays {f : Function} {s t : State} (h : Plays f.log s t)
    (ht : t.Unrepeated) : t.scopes.locals.Holds f.locals := by
  rw [f.log_eq] at h
  obtain ⟨u, hhead, hinside⟩ := plays_append.1 h
  have hgains := f.declares_inside.enters u t hinside ht
  rw [Body.entries_declarators] at hgains
  have hparams : SymbolTable.Gains {} u.scopes.locals _ :=
    FunctionHead.locals_of_plays hhead (hinside.unrepeated ht)
  exact (hparams.trans hgains).holds

end Functions

section Programs

theorem ConstDecl.enters_log (decl : ConstDecl) :
    Enters .global (decl.log .global) decl.symbols :=
  decl.entries_declarators ▸ decl.declares_log.enters

theorem VarDecl.enters_log (decl : VarDecl) : Enters .global (decl.log .global) decl.symbols :=
  decl.entries_declarators ▸ decl.declares_log.enters

theorem TopLevel.enters_log (item : TopLevel) : Enters .global item.log item.symbols := by
  cases item with
  | consts decls => exact .flatMap ConstDecl.enters_log decls
  | vars decls => exact .flatMap VarDecl.enters_log decls
  | function f => exact f.enters_log

/-- The tables that are kept: that of each function under its name, and the others as they were. -/
structure Keeps (functions : List Function) (s t : State) : Prop where
  own : ∀ f ∈ functions, ∃ table, t.tables[f.head.name.value]? = some table ∧ table.Holds f.locals
  others : ∀ key : String, key ∉ functions.map (·.head.name.value) →
    t.tables[key]? = s.tables[key]?

namespace Keeps

variable {functions : List Function} {s t u : State}

theorem of_tables_eq (h : t.tables = s.tables) : Keeps [] s t where
  own := fun f hf => absurd hf List.not_mem_nil
  others := fun key _ => by rw [h]

theorem function {f : Function} (h : Plays f.log s t) (ht : t.Unrepeated) : Keeps [f] s t where
  own := by
    intro g hg
    obtain rfl := List.mem_singleton.1 hg
    refine ⟨t.scopes.locals, ?_, Function.locals_of_plays h ht⟩
    rw [Function.tables_eq_of_plays h, Std.TreeMap.getElem?_insert_self]
  others := by
    intro key hkey
    have hne : key ≠ f.head.name.value := by simpa using hkey
    rw [Function.tables_eq_of_plays h, getElem?_insert_of_ne _ hne]

/-- A later function takes no table from an earlier one, since it has another name. -/
theorem append {front back : List Function} (hfront : Keeps front s u) (hback : Keeps back u t)
    (hnames : ((front ++ back).map (·.head.name.value)).Nodup) : Keeps (front ++ back) s t where
  own := by
    intro f hf
    rcases List.mem_append.1 hf with hf | hf
    · obtain ⟨table, htable, hholds⟩ := hfront.own f hf
      refine ⟨table, ?_, hholds⟩
      rw [List.map_append] at hnames
      have hlater : f.head.name.value ∉ back.map (·.head.name.value) := fun hmem =>
        (List.nodup_append.1 hnames).2.2 _ (List.mem_map_of_mem hf) _ hmem rfl
      rw [hback.others _ hlater, htable]
    · exact hback.own f hf
  others := by
    intro key hkey
    rw [List.map_append, List.mem_append, not_or] at hkey
    rw [hback.others key hkey.2, hfront.others key hkey.1]

end Keeps

theorem VarDecl.keepsNone_log (scope : Scope) (decl : VarDecl) :
    (decl.log scope).all Action.keepsNone = true :=
  decl.all_log_of (fun _ => rfl) (fun _ _ => rfl) fun _ _ _ => rfl

theorem TopLevel.keepsNone_consts (decls : List ConstDecl) :
    (TopLevel.consts decls).log.all Action.keepsNone = true := by
  rw [log, List.all_flatMap, List.all_eq_true]
  exact fun decl _ => decl.all_log .global

theorem TopLevel.keepsNone_vars (decls : List VarDecl) :
    (TopLevel.vars decls).log.all Action.keepsNone = true := by
  rw [log, List.all_flatMap, List.all_eq_true]
  exact fun decl _ => decl.keepsNone_log .global

theorem TopLevel.keeps_of_plays {item : TopLevel} {s t : State} (h : Plays item.log s t)
    (ht : t.Unrepeated) : Keeps item.function?.toList s t := by
  cases item with
  | consts decls => exact .of_tables_eq (h.tables_of_keepsNone (keepsNone_consts decls))
  | vars decls => exact .of_tables_eq (h.tables_of_keepsNone (keepsNone_vars decls))
  | function f => exact .function h ht

/-- Part by part, the table of every function is kept and none is lost. -/
theorem keeps_of_plays {items : List TopLevel} {s t : State}
    (h : Plays (items.flatMap TopLevel.log) s t) (ht : t.Unrepeated)
    (hnames : ((items.filterMap TopLevel.function?).map (·.head.name.value)).Nodup) :
    Keeps (items.filterMap TopLevel.function?) s t := by
  induction items generalizing s with
  | nil =>
      obtain rfl := plays_nil.1 h
      exact .of_tables_eq rfl
  | cons item items ih =>
      have hcons : (item :: items).filterMap TopLevel.function? =
          item.function?.toList ++ items.filterMap TopLevel.function? := by
        cases item <;> rfl
      rw [hcons] at hnames ⊢
      obtain ⟨u, hitem, hitems⟩ := plays_append.1 h
      have hfirst := TopLevel.keeps_of_plays hitem (hitems.unrepeated ht)
      have hlater : ((items.filterMap TopLevel.function?).map (·.head.name.value)).Nodup := by
        rw [List.map_append] at hnames
        exact (List.nodup_append.1 hnames).2.1
      exact hfirst.append (ih hitems hlater) hnames

/-- The functions of a program are among its global declarations. -/
theorem Program.functions_sublist (program : Program) :
    (program.functions.map (·.head.name.value)).Sublist (program.globals.map Symbol.name) := by
  unfold functions globals
  induction program.items with
  | nil => exact .slnil
  | cons item items ih =>
      cases item with
      | consts decls | vars decls =>
          rw [List.flatMap_cons, List.map_append]
          exact ih.trans (List.sublist_append_right _ _)
      | function f =>
          rw [List.flatMap_cons, List.map_append]
          have hname : TopLevel.symbols (.function f) = [f.head.symbol] := rfl
          rw [hname, List.map_singleton, FunctionHead.name_symbol]
          exact ih.cons_cons _

end Programs

section Compilations

/-- A table that was kept under a name holds the symbols. -/
def Compilation.TableHolds (c : Compilation) (name : String) (symbols : List Symbol) : Prop :=
  ∃ table, c.tables[name]? = some table ∧ table.Holds symbols

/-- No table is lost: there is one for each function, with its parameters and local declarations,
one more for the global declarations, and no other. -/
structure Compilation.KeepsTables (c : Compilation) : Prop where
  keys : c.tables.keys.Perm (Pass.globalName :: c.program.functions.map (·.head.name.value))
  locals : ∀ f ∈ c.program.functions, c.TableHolds f.head.name.value f.locals
  globals : c.TableHolds Pass.globalName c.program.globals

variable {tokens : List Token} {c : Compilation}

/-- The state behind the last part of a program, and the tables once the global one is kept. -/
theorem exists_before_end (h : compile tokens = .ok c) :
    ∃ u, Plays (c.program.items.flatMap TopLevel.log) (.start {} tokens) u ∧
      c.diagnostics = u.diagnostics.toList ∧
      c.tables = u.tables.insert Pass.globalName u.scopes.globals := by
  obtain ⟨t, hplays, _, hc⟩ := plays_of_compile h
  obtain ⟨u, hitems, v, hkeep, rfl⟩ := plays_append.1 hplays
  cases hkeep
  exact ⟨u, hitems, by rw [hc], by rw [hc]; rfl⟩

theorem holds_globals_of_plays {u : State}
    (h : Plays (c.program.items.flatMap TopLevel.log) (.start {} tokens) u) (hu : u.Unrepeated) :
    u.scopes.globals.Holds c.program.globals :=
  (Enters.flatMap TopLevel.enters_log c.program.items _ u h hu).holds

theorem Compilation.nodup_keys (c : Compilation) : c.tables.keys.Nodup :=
  Std.TreeMap.distinct_keys.imp fun hne heq => hne (Std.compare_eq_iff_eq.2 heq)

theorem keeps_of_compile (h : compile tokens = .ok c)
    (hquiet : ∀ d ∈ c.diagnostics, d.kind ≠ .redefinition) :
    ∃ u, Keeps c.program.functions (.start {} tokens) u ∧
      u.scopes.globals.Holds c.program.globals ∧
      c.tables = u.tables.insert Pass.globalName u.scopes.globals := by
  obtain ⟨u, hplays, hdiagnostics, htables⟩ := exists_before_end h
  have hu : u.Unrepeated := fun d hd => hquiet d (hdiagnostics ▸ hd)
  have hglobals := holds_globals_of_plays hplays hu
  have hnames := hglobals.nodup.sublist c.program.functions_sublist
  exact ⟨u, keeps_of_plays hplays hu hnames, hglobals, htables⟩

theorem tableHolds_globals (h : compile tokens = .ok c)
    (hquiet : ∀ d ∈ c.diagnostics, d.kind ≠ .redefinition) :
    c.TableHolds Pass.globalName c.program.globals := by
  obtain ⟨u, _, hglobals, htables⟩ := keeps_of_compile h hquiet
  refine ⟨u.scopes.globals, ?_, hglobals⟩
  rw [htables, Std.TreeMap.getElem?_insert_self]

theorem tableHolds_locals (h : compile tokens = .ok c)
    (hquiet : ∀ d ∈ c.diagnostics, d.kind ≠ .redefinition) {f : Function}
    (hf : f ∈ c.program.functions) (hname : f.head.name.value ≠ Pass.globalName) :
    c.TableHolds f.head.name.value f.locals := by
  obtain ⟨u, hkeeps, _, htables⟩ := keeps_of_compile h hquiet
  obtain ⟨table, htable, hholds⟩ := hkeeps.own f hf
  refine ⟨table, ?_, hholds⟩
  rw [htables, getElem?_insert_of_ne _ hname, htable]

theorem mem_tables_iff (h : compile tokens = .ok c)
    (hquiet : ∀ d ∈ c.diagnostics, d.kind ≠ .redefinition) (key : String) :
    key ∈ c.tables ↔ key ∈ Pass.globalName :: c.program.functions.map (·.head.name.value) := by
  obtain ⟨u, hkeeps, _, htables⟩ := keeps_of_compile h hquiet
  rw [Std.TreeMap.mem_iff_isSome_getElem?, List.mem_cons, htables]
  by_cases hglobal : key = Pass.globalName
  · simp [hglobal]
  · rw [getElem?_insert_of_ne _ hglobal]
    by_cases hname : key ∈ c.program.functions.map (·.head.name.value)
    · obtain ⟨f, hf, rfl⟩ := List.mem_map.1 hname
      obtain ⟨table, htable, _⟩ := hkeeps.own f hf
      simp [htable, hname]
    · rw [hkeeps.others key hname]
      simp [State.start, hglobal, hname]

/-- Unless a second declaration is recorded, the global table has all global declarations, and the
table of a function has its own, if the function is not named `global`; there are no other tables.
So none is lost exactly when no function has that name. -/
theorem keepsTables_iff (h : compile tokens = .ok c)
    (hquiet : ∀ d ∈ c.diagnostics, d.kind ≠ .redefinition) :
    c.TableHolds Pass.globalName c.program.globals ∧
      (∀ f ∈ c.program.functions, f.head.name.value ≠ Pass.globalName →
        c.TableHolds f.head.name.value f.locals) ∧
      (∀ key, key ∈ c.tables ↔
        key ∈ Pass.globalName :: c.program.functions.map (·.head.name.value)) ∧
      (c.KeepsTables ↔ ∀ f ∈ c.program.functions, f.head.name.value ≠ Pass.globalName) := by
  have hglobals := tableHolds_globals h hquiet
  have hlocals : ∀ f ∈ c.program.functions, f.head.name.value ≠ Pass.globalName →
      c.TableHolds f.head.name.value f.locals := fun f => tableHolds_locals h hquiet
  refine ⟨hglobals, hlocals, mem_tables_iff h hquiet, fun hall f hf hname => ?_, fun hnone => ?_⟩
  · have hnodup := hall.keys.nodup_iff.1 c.nodup_keys
    exact (List.nodup_cons.1 hnodup).1 (hname ▸ List.mem_map_of_mem hf)
  · refine ⟨?_, fun f hf => hlocals f hf (hnone f hf), hglobals⟩
    obtain ⟨table, _, hholds⟩ := hglobals
    have hnames := hholds.nodup.sublist c.program.functions_sublist
    have hother : Pass.globalName ∉ c.program.functions.map (·.head.name.value) := by
      intro hmem
      obtain ⟨f, hf, hname⟩ := List.mem_map.1 hmem
      exact hnone f hf hname
    rw [List.perm_ext_iff_of_nodup c.nodup_keys (List.nodup_cons.2 ⟨hother, hnames⟩)]
    intro key
    rw [Std.TreeMap.mem_keys, mem_tables_iff h hquiet]

end Compilations

/-- `char n; int f(int a) { const int k = 3; int v[2]; return (a); } void main() { f(1); }` -/
def tabledTokens : List Token :=
  scan 1 ["char n ;", "int f ( int a ) \x7b", "const int k = 3 ;", "int v [ 2 ] ;",
    "return ( a ) ;", "\x7d", "void main ( ) \x7b", "f ( 1 ) ;", "\x7d"]

theorem keepsTables_tabledTokens : ∃ c, compile tabledTokens = .ok c ∧ c.diagnostics = [] ∧
    c.program.functions.map (·.locals.map Symbol.name) = [["a", "k", "v"], []] ∧
    c.KeepsTables := by
  have hc := eq_ok_get (compile tabledTokens) (by decide +kernel)
  refine ⟨_, hc, by decide +kernel, by decide +kernel, ?_⟩
  exact (keepsTables_iff hc (by decide +kernel)).2.2.2.2 (by decide +kernel)

/-- `void global(int x) { } void main() { }` -/
def globalFunctionTokens : List Token :=
  scan 1 ["void global ( int x ) \x7b \x7d", "void main ( ) \x7b \x7d"]

/-- The table of a function named `global` is lost: only the global one is left under that name. -/
theorem not_keepsTables_globalFunctionTokens : ∃ c, compile globalFunctionTokens = .ok c ∧
    c.diagnostics = [] ∧ c.program.functions.map (·.head.name.value) = ["global", "main"] ∧
    c.tables.keys = ["global", "main"] ∧ ¬ c.KeepsTables := by
  have hc := eq_ok_get (compile globalFunctionTokens) (by decide +kernel)
  refine ⟨_, hc, by decide +kernel, by decide +kernel, by decide +kernel, fun hall => ?_⟩
  exact absurd hall.keys.length_eq (by decide +kernel)

end OnePass
