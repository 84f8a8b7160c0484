import OnePass.Proofs.Meaning.Program
import OnePass.Proofs.Names.Constants
import OnePass.Proofs.Names.Values

/-!
Constants that are read. Where a constant is an operand its value is put in its place, so that no
operand is the name of a constant: a literal is no name, and every constant has one. In the step of
a loop and in front of an index the name stands as it was written, constant or not.
-/

namespace OnePass

namespace Scopes

variable {scopes : Scopes} {name : String} {symbol : Symbol}

/-- Every constant in scope is spelled the way a name is. -/
def Named (scopes : Scopes) : Prop :=
  ∀ name, scopes.isConst name = true → Text.isName name = true

/-- Whether a scope has a symbol with a property under a name. -/
def has (p : Symbol → Bool) (scopes : Scopes) (scope : Scope) (name : String) : Bool :=
  (scopes.lookup? scope name).any p

variable {p : Symbol → Bool}

theorem exists_has (h : (scopes.nearest? name).any p = true) :
    ∃ scope, scopes.has p scope name = true := by
  unfold nearest? at h
  cases hlocal : scopes.locals[name]? with
  | some found =>
      rw [hlocal] at h
      exact ⟨.local, by rwa [has, lookup?, table, hlocal]⟩
  | none =>
      rw [hlocal] at h
      exact ⟨.global, h⟩

theorem has_update_of_ne {scope other : Scope} (hne : other ≠ scope)
    (f : SymbolTable → SymbolTable) (scopes : Scopes) (name : String) :
    (scopes.update scope f).has p other name = scopes.has p other name := by
  simp only [has, lookup?, table_update_of_ne scopes f hne]

/-- A declaration adds a symbol under its name, if it adds one with the property at all. -/
theorem has_of_declare {scope other : Scope}
    (h : (scopes.declare other symbol).has p scope name = true) :
    scopes.has p scope name = true ∨
      (other = scope ∧ symbol.name = name ∧ p symbol = true) := by
  by_cases hscope : scope = other
  · subst hscope
    rw [has, lookup?_declare] at h
    split at h
    · next hname => exact .inr ⟨rfl, hname, h⟩
    · exact .inl h
  · rw [declare, has_update_of_ne hscope] at h
    exact .inl h

end Scopes

section Declared

/-- A property of constants for which it does not matter what parameters a function has. -/
structure ConstProperty (p : Symbol → Bool) : Prop where
  const : ∀ symbol : Symbol, p symbol = true → symbol.kind = .const
  addParameter : ∀ (symbol : Symbol) (ty : Ty),
    p ((symbol.addParameter? ty).getD symbol) = p symbol

theorem Symbol.kind_addParameter (symbol : Symbol) (ty : Ty) :
    ((symbol.addParameter? ty).getD symbol).kind = symbol.kind := by
  unfold addParameter?
  cases ty.signatureCode? <;> rfl

theorem constProperty_const : ConstProperty fun symbol => symbol.kind == .const where
  const symbol h := by simpa using h
  addParameter symbol ty := by rw [symbol.kind_addParameter]

variable {p : Symbol → Bool}

/-- A constant that a scope has after an action was there before, or the action has declared it. -/
theorem Action.Performs.has (hp : ConstProperty p) {action : Action} {s t : State}
    (h : action.Performs s t) {scope : Scope} {name : String}
    (hfound : t.scopes.has p scope name = true) :
    s.scopes.has p scope name = true ∨ ∃ ty item, action = .declareConst scope ty item ∧
      item.name.value = name ∧ p (item.symbol ty) = true := by
  rw [h.effect.scopes] at hfound
  cases action with
  | declare other symbol =>
      rcases Scopes.has_of_declare hfound with hbefore | ⟨_, _, hsymbol⟩
      · exact .inl hbefore
      · exact absurd (hp.const symbol hsymbol) h.1
  | declareConst other ty item =>
      rcases Scopes.has_of_declare hfound with hbefore | ⟨rfl, hname, hsymbol⟩
      · exact .inl hbefore
      · exact .inr ⟨ty, item, rfl, hname, hsymbol⟩
  | resetLocals =>
      cases scope with
      | global => exact .inl hfound
      | «local» =>
          have hnone := s.scopes.lookup?_reset .local name
          rw [Action.scopes, Scopes.has, hnone] at hfound
          cases hfound
  | addParameter function ty =>
      cases scope with
      | global =>
          rw [Action.scopes, Scopes.has, Scopes.lookup?_modify] at hfound
          split at hfound
          · rw [Option.any_map] at hfound
            simp only [hp.addParameter] at hfound
            exact .inl hfound
          · exact .inl hfound
      | «local» => exact .inl hfound
  | _ => exact .inl hfound

/-- A constant that a scope has after a log was there before, or the log has declared it. -/
theorem Plays.has (hp : ConstProperty p) {log : List Action} {s t : State} (h : Plays log s t)
    {scope : Scope} {name : String} (hfound : t.scopes.has p scope name = true) :
    s.scopes.has p scope name = true ∨ ∃ ty item, .declareConst scope ty item ∈ log ∧
      item.name.value = name ∧ p (item.symbol ty) = true := by
  induction h using Plays.induction with
  | nil => exact .inl hfound
  | @cons s u action log haction _ ih =>
      rcases ih with hbefore | ⟨ty, item, hmem, hitem⟩
      · rcases haction.has hp hbefore with hbefore | ⟨ty, item, rfl, hitem⟩
        · exact .inl hbefore
        · exact .inr ⟨ty, item, List.mem_cons_self, hitem⟩
      · exact .inr ⟨ty, item, List.mem_cons_of_mem action hmem, hitem⟩

/-- The innermost constant of a name has been declared. -/
theorem Plays.exists_const (hp : ConstProperty p) {log : List Action} {tokens : List Token}
    {u : State} (h : Plays log (.start {} tokens) u) {name : String}
    (hfound : (u.scopes.nearest? name).any p = true) :
    ∃ scope ty item, .declareConst scope ty item ∈ log ∧ item.name.value = name ∧
      p (item.symbol ty) = true := by
  obtain ⟨scope, hscope⟩ := Scopes.exists_has hfound
  rcases h.has hp hscope with hstart | hdeclared
  · rw [Scopes.has, lookup?_start] at hstart
    cases hstart
  · exact ⟨scope, hdeclared⟩

/-- Whether an action declares no constant. -/
def Action.declaresNone : Action → Bool
  | declareConst _ _ _ => false
  | _ => true

/-- A log in which every constant that is declared has its whole definition. -/
def DefinesConsts (log : List Action) : Prop :=
  ∀ scope ty item, .declareConst scope ty item ∈ log → item.log scope ty <:+: log

namespace DefinesConsts

variable {front back : List Action}

theorem append (hfront : DefinesConsts front) (hback : DefinesConsts back) :
    DefinesConsts (front ++ back) := by
  intro scope ty item hmem
  rcases List.mem_append.1 hmem with hmem | hmem
  · exact (hfront scope ty item hmem).trans (List.prefix_append front back).isInfix
  · exact (hback scope ty item hmem).trans (List.suffix_append front back).isInfix

theorem of_declaresNone (h : front.all Action.declaresNone = true) : DefinesConsts front := by
  intro scope ty item hmem
  cases List.all_eq_true.1 h _ hmem

theorem flatMap {α : Type} {itemLog : α → List Action} {items : List α}
    (h : ∀ item ∈ items, DefinesConsts (itemLog item)) : DefinesConsts (items.flatMap itemLog) := by
  intro scope ty item hmem
  obtain ⟨owner, howner, hmem⟩ := List.mem_flatMap.1 hmem
  exact (h owner howner scope ty item hmem).trans
    (List.infix_of_mem_flatten (List.mem_map_of_mem howner))

theorem commaList {α : Type} {itemLog : α → List Action}
    (h : ∀ item, DefinesConsts (itemLog item)) (items : CommaList α) :
    DefinesConsts (items.log itemLog) := by
  induction items with
  | one item => exact h item
  | cons item comma rest ih =>
      have htake : DefinesConsts [.take .comma comma] := .of_declaresNone rfl
      exact (h item).append (htake.append ih)

end DefinesConsts

instance : Action.Executive Action.declaresNone := {}

theorem ConstDecl.definesConsts_log (scope : Scope) (decl : ConstDecl) :
    DefinesConsts (decl.log scope) := by
  have hitem : ∀ item : ConstItem, DefinesConsts (item.log scope decl.type.ty) := by
    intro item other ty found hmem
    have hinit : .declareConst other ty found ∉ item.init.log decl.type.ty := fun hmem =>
      absurd (List.all_eq_true.1 (ConstInit.all_log (p := Action.declaresNone) _ _) _ hmem)
        Bool.false_ne_true
    simp only [ConstItem.log, List.mem_cons, List.mem_append, reduceCtorEq, hinit, false_or,
      Action.declareConst.injEq, List.not_mem_nil, or_false] at hmem
    obtain ⟨rfl, rfl, rfl⟩ := hmem
    exact List.infix_rfl
  have hfront : DefinesConsts (.take .kwConst decl.keyword :: decl.type.log) := .of_declaresNone rfl
  have hback : DefinesConsts (semicolonLog decl.semicolon) :=
    .of_declaresNone (all_semicolonLog decl.semicolon)
  exact hfront.append ((DefinesConsts.commaList hitem decl.items).append hback)

theorem VarDecl.definesConsts_log (scope : Scope) (decl : VarDecl) : DefinesConsts (decl.log scope) :=
  .of_declaresNone (decl.all_log_of (fun _ => rfl) (fun _ _ => rfl) fun _ _ _ => rfl)

theorem Function.definesConsts_log (f : Function) : DefinesConsts f.log := by
  have hhead : DefinesConsts f.head.log :=
    .of_declaresNone (f.head.all_log_of (fun _ _ => rfl) (fun _ _ => rfl) (fun _ _ => rfl) rfl)
  have hannounce : DefinesConsts f.head.announceLog :=
    .of_declaresNone (by simp [FunctionHead.announceLog, Action.declaresNone])
  have htake : DefinesConsts [.take .lbrace f.lbrace] := .of_declaresNone rfl
  have hconsts : DefinesConsts (f.body.consts.flatMap (ConstDecl.log .local)) :=
    .flatMap fun decl _ => decl.definesConsts_log .local
  have hvars : DefinesConsts (f.body.vars.flatMap (VarDecl.log .local)) :=
    .flatMap fun decl _ => decl.definesConsts_log .local
  have hstmts : DefinesConsts (Stmt.logs f.head.ty f.body.stmts) :=
    .of_declaresNone (Stmt.all_logs f.head.ty f.body.stmts)
  have hclosing : DefinesConsts f.closing :=
    .of_declaresNone (f.all_closing rfl (fun _ _ => rfl) fun _ => rfl)
  rw [f.log_eq]
  exact hhead.append
    ((hannounce.append (htake.append (hconsts.append hvars))).append (hstmts.append hclosing))

theorem Program.definesConsts_log (program : Program) : DefinesConsts program.log := by
  refine .append (.flatMap fun item _ => ?_) (.of_declaresNone rfl)
  cases item with
  | consts decls => exact .flatMap fun decl _ => decl.definesConsts_log .global
  | vars decls => exact .flatMap fun decl _ => decl.definesConsts_log .global
  | function f => exact f.definesConsts_log

/-- Every constant that comes into scope has a name, if the program has nothing wrong in it. -/
theorem named_of_plays {tokens : List Token} {c : Compilation} (h : compile tokens = .ok c)
    (hclean : Clean Action.Sound c.program.log) {front back : List Action} {u : State}
    (hlog : c.program.log = front ++ back) (hplays : Plays front (.start {} tokens) u) :
    u.scopes.Named := by
  intro name hconst
  obtain ⟨scope, ty, item, hmem, rfl, _⟩ := hplays.exists_const constProperty_const hconst
  have hdefined := c.program.definesConsts_log scope ty item (hlog ▸ List.mem_append_left back hmem)
  have hread : .take .ident item.name ∈ c.program.log := hdefined.subset List.mem_cons_self
  obtain ⟨t, hrun, _⟩ := plays_of_compile h
  obtain ⟨before, after, hsplit⟩ := List.append_of_mem hread
  rw [hsplit] at hrun
  obtain ⟨_, _, _, ⟨hkind, _⟩, _⟩ := plays_append.1 hrun
  have hscanned : item.name.isScanned = true := (hclean _ hread).1
  simpa [Token.isScanned, hkind] using hscanned

end Declared

/-- Whether an operand is the name of a constant. -/
def Operand.namesConst (scopes : Scopes) : Operand → Bool
  | reg _ => false
  | named text => scopes.isConst text

/-- An action that was performed with these names in scope, read what has the right shape and
recorded nothing. -/
def Action.Tidy (scopes : Scopes) (action : Action) : Prop :=
  (action.Sound ∧ action.records = []) ∧ ∃ u v, u.scopes = scopes ∧ action.Performs u v

/-- A log of such actions. -/
def Tidy (scopes : Scopes) (log : List Action) : Prop :=
  ∀ action ∈ log, action.Tidy scopes

namespace Tidy

variable {scopes : Scopes} {action : Action} {front back log : List Action}

@[simp]
theorem cons_iff : Tidy scopes (action :: log) ↔ action.Tidy scopes ∧ Tidy scopes log :=
  List.forall_mem_cons

@[simp]
theorem append_iff : Tidy scopes (front ++ back) ↔ Tidy scopes front ∧ Tidy scopes back :=
  List.forall_mem_append

end Tidy

section Operands

variable {scopes : Scopes}

/-- A literal is not the name of a constant, since it is no name. -/
theorem Operand.namesConst_of_literal? (hnames : scopes.Named) {text : String}
    (h : (Text.literal? text).isSome = true) : (named text).namesConst scopes = false := by
  rw [namesConst, Bool.eq_false_iff]
  intro hconst
  rw [Text.literal?_of_isName (hnames text hconst)] at h
  cases h

/-- A character as it is scanned is a literal in the code. -/
theorem Token.literal?_ofChar {literal : Token} (hscanned : literal.isScanned = true)
    (hkind : literal.kind = .charLit) :
    (Text.literal? (Operand.ofChar literal.value).text).isSome = true := by
  have hlength : literal.value.toList.length = 1 := by
    simpa [Token.isScanned, hkind] using hscanned
  obtain ⟨c, hc⟩ := List.length_eq_one_iff.1 hlength
  exact (Text.IsLiteral.char literal.value c hc).literal?_isSome

/-- A constant that is read stands for a literal, and every other name for itself. -/
theorem NameRef.value_cases {ref : NameRef}
    (hsound : ∀ symbol, ref.symbol = some symbol → symbol.Sound) :
    (∃ text, ref.value = .named text ∧ (Text.literal? text).isSome = true) ∨
      ref.value = .named ref.token.value ∧
        ∀ symbol, ref.symbol = some symbol → symbol.kind ≠ .const := by
  cases hsymbol : ref.symbol with
  | none => exact .inr ⟨by simp [value, hsymbol], nofun⟩
  | some symbol =>
      by_cases hkind : symbol.kind = .const
      · obtain ⟨text, htext, hliteral⟩ := hsound symbol hsymbol hkind
        refine .inl ⟨text, ?_, hliteral.literal?_isSome⟩
        simp [value, hsymbol, Symbol.substitute?, hkind, htext]
      · refine .inr ⟨by simp [value, hsymbol, Symbol.substitute?], fun found hfound => ?_⟩
        cases hfound
        exact hkind

theorem Operand.namesConst_ofNumber (hnames : scopes.Named) (n : Int64) :
    (ofNumber n).namesConst scopes = false :=
  namesConst_of_literal? hnames (by rw [Text.literal?_numberText]; rfl)

/-- A name that is read is replaced if it is a constant, and by a literal then. -/
theorem NameRef.namesConst_value (hnames : scopes.Named) (ref : NameRef)
    (h : Tidy scopes ref.readLog) : ref.value.namesConst scopes = false := by
  simp only [readLog, log, Tidy.append_iff, Tidy.cons_iff] at h
  obtain ⟨⟨_, ⟨⟨hsound, _⟩, u, v, rfl, hfound, _⟩, _⟩, _⟩ := h
  rcases value_cases hsound with ⟨text, hvalue, hliteral⟩ | ⟨hvalue, hkind⟩
  · rw [hvalue]
    exact Operand.namesConst_of_literal? hnames hliteral
  · rw [hvalue, Operand.namesConst, Scopes.isConst, hfound]
    cases hsymbol : ref.symbol with
    | none => rfl
    | some symbol => simpa using hkind symbol hsymbol

/-- No operand that tidy actions make is the name of a constant. -/
theorem operandRule_tidy (hnames : scopes.Named) :
    OperandRule (Action.Tidy scopes) fun operand => !operand.namesConst scopes where
  check := by
    rintro fact ⟨_, _, _, _, hfact, _⟩
    exact hfact
  reg _ := rfl
  number n := by
    rw [Operand.namesConst_ofNumber hnames]
    rfl
  char := by
    rintro literal ⟨⟨hscanned, _⟩, _, _, _, hkind, _⟩
    have hliteral := Token.literal?_ofChar hscanned hkind
    exact (congrArg _ (Operand.namesConst_of_literal? hnames hliteral)).trans rfl
  name ref h := by
    rw [ref.namesConst_value hnames h]
    rfl
  unknownCall := by
    -- the call was dropped, and recorded
    intro fn h
    simp only [unknownCallLog, List.forall_mem_cons] at h
    obtain ⟨_, ⟨⟨_, hrecords⟩, _⟩, _⟩ := h
    cases hrecords

end Operands

/-- Whether an instruction has the name of a constant where it reads a value. -/
def Instr.readsConst (scopes : Scopes) (instr : Instr) : Bool :=
  instr.operands.any (Operand.namesConst scopes) ||
    instr.mentions.any fun mention => mention.1.reads && scopes.isConst mention.2

section Reads

theorem Instr.frames_of_operands {instr : Instr} {operand : Operand}
    (h : operand ∈ instr.operands) : (Action.emit instr).frames = false := by
  cases instr with
  | param _ _ | var _ _ _ | funcDeclare _ _ | functionEnd | retVoid => cases h
  | _ => rfl

theorem Instr.readsConst_eq_false {instr : Instr} {scopes : Scopes} :
    instr.readsConst scopes = false ↔
      (∀ operand ∈ instr.operands, operand.namesConst scopes = false) ∧
        ∀ mention ∈ instr.mentions, mention.1.reads = true → scopes.isConst mention.2 = false := by
  simp [readsConst]

variable {tokens : List Token} {c : Compilation} {f : Function} {v : State}

theorem BodyAt.tidy (hbody : BodyAt tokens c f v) (h : compile tokens = .ok c)
    (hclean : Clean Action.Sound c.program.log) : Tidy v.scopes (Stmt.logs f.head.ty f.body.stmts) := by
  intro action haction
  obtain ⟨w, hplays⟩ := hbody.exists_plays h
  exact ⟨hclean action (hbody.subset haction),
    hplays.exists_performs (Stmt.all_logs f.head.ty f.body.stmts) haction⟩

theorem BodyAt.named (hbody : BodyAt tokens c f v) (h : compile tokens = .ok c)
    (hclean : Clean Action.Sound c.program.log) : v.scopes.Named := by
  obtain ⟨before, after, hitems, hplays⟩ := hbody
  exact named_of_plays h hclean (BodyAt.log_eq hitems) hplays

/-- No operand in the code of a program without diagnostics is the name of a constant. -/
theorem always_substituted (hscanned : ∀ token ∈ tokens, token.isScanned = true)
    (h : compile tokens = .ok c) (hquiet : c.diagnostics = []) :
    c.Always tokens (fun scopes instr =>
      ∀ operand ∈ instr.operands, operand.namesConst scopes = false) := by
  have hclean := clean_of_compile hscanned h hquiet
  rw [always_iff h]
  intro instr u hemits operand hoperand
  obtain ⟨f, v, hbody, hemits⟩ :=
    (emits_iff_of_frames (Instr.frames_of_operands hoperand)).1 hemits
  have hlog := Stmt.operandsAll_logs (operandRule_tidy (hbody.named h hclean)) f.head.ty
    f.body.stmts (hbody.tidy h hclean)
  have hinstr := List.all_eq_true.1 hlog _ hemits.mem
  rw [hemits.scopes_eq (Stmt.all_logs _ _)]
  simpa using List.all_eq_true.1 hinstr operand hoperand

/-- No operand in the code of a program without diagnostics is the name of a constant. No constant
is read by its name at all if and only if none is indexed and no loop steps from one. -/
theorem neverReadsConst_iff (hscanned : ∀ token ∈ tokens, token.isScanned = true)
    (h : compile tokens = .ok c) (hquiet : c.diagnostics = []) :
    c.Always tokens (fun scopes instr =>
        ∀ operand ∈ instr.operands, operand.namesConst scopes = false) ∧
      (c.Always tokens (fun scopes instr => instr.readsConst scopes = false) ↔
        ∀ use ∈ c.program.uses, use.role.reads = true → use.ref.isConst = false) := by
  have hoperands := always_substituted hscanned h hquiet
  refine ⟨hoperands, ?_⟩
  rw [← always_mentions_iff h (Role.reads · = true), always_iff h, always_iff h]
  rw [always_iff h] at hoperands
  constructor
  · intro hnever instr u hemits
    exact (Instr.readsConst_eq_false.1 (hnever instr u hemits)).2
  · intro hmentions instr u hemits
    exact Instr.readsConst_eq_false.2 ⟨hoperands instr u hemits, hmentions instr u hemits⟩

end Reads

/-- `const int k = 3; const char q = 'k'; int a[4]; void main() { int i; for (i = -k; i < k;
i = i + 1) a[k] = a[i] * k; printf(q); }` -/
def foldedTokens : List Token :=
  scan 1 ["const int k = 3 ;", "const char q = 'k' ;", "int a [ 4 ] ;", "void main ( ) \x7b",
    "int i ;", "for ( i = - k ; i < k ; i = i + 1 )", "a [ k ] = a [ i ] * k ;", "printf ( q ) ;",
    "\x7d"]

theorem neverReadsConst_foldedTokens : (∀ token ∈ foldedTokens, token.isScanned = true) ∧
    ∃ c, compile foldedTokens = .ok c ∧ c.diagnostics = [] ∧
      .assign "i" (.named "-3") ∈ c.code ∧ .printChar (.named "'k'") ∈ c.code ∧
      c.Always foldedTokens (fun scopes instr => instr.readsConst scopes = false) := by
  have hscanned : ∀ token ∈ foldedTokens, token.isScanned = true := by decide +kernel
  have hc := eq_ok_get (compile foldedTokens) (by decide +kernel)
  refine ⟨hscanned, _, hc, by decide +kernel, by decide +kernel, by decide +kernel, ?_⟩
  exact (neverReadsConst_iff hscanned hc (by decide +kernel)).2.2 (by decide +kernel)

/-- `const int k = 3; void main() { int i; for (i = 0; i < 3; i = k + 1) ; }` -/
def constStepTokens : List Token :=
  scan 1 ["const int k = 3 ;", "void main ( ) \x7b", "int i ;",
    "for ( i = 0 ; i < 3 ; i = k + 1 )", ";", "\x7d"]

/-- A loop steps from a constant under its name. -/
theorem readsConst_constStepTokens : (∀ token ∈ constStepTokens, token.isScanned = true) ∧
    ∃ c, compile constStepTokens = .ok c ∧ c.diagnostics = [] ∧
      .step "i" "k" .add 1 ∈ c.code ∧
      ¬ c.Always constStepTokens (fun scopes instr => instr.readsConst scopes = false) := by
  have hc := eq_ok_get (compile constStepTokens) (by decide +kernel)
  refine ⟨by decide +kernel, _, hc, by decide +kernel, by decide +kernel, fun hnever => ?_⟩
  have hmentions := always_mentions_iff hc (Role.reads · = true)
  rw [always_iff hc] at hnever hmentions
  refine absurd (hmentions.1 fun instr u hemits => ?_) (by decide +kernel)
  exact (Instr.readsConst_eq_false.1 (hnever instr u hemits)).2

end OnePass
