import OnePass.Proofs.Calls.Protocol
import OnePass.Proofs.Names.Operands
import OnePass.Proofs.Tables

/-!
Where the names in the code come from. If no unknown name, no second declaration and no wrong
initialiser is recorded, then every name that the code of a function uses has been announced: as a
parameter or a variable in front of it in the same block, or as a global variable in front of the
block. The others are the names of constants and functions, and these are in the kept tables.
-/

namespace OnePass

/-- The name that an operand is, unless it is a register or a literal. -/
def Operand.name? : Operand → Option String
  | reg _ => none
  | named text => if (Text.literal? text).isSome then none else some text

/-- The names that an instruction uses, apart from those of functions that it calls. -/
def Instr.names (instr : Instr) : List String :=
  instr.operands.filterMap Operand.name? ++ instr.mentions.map Prod.snd

/-- No function is open behind a piece of code. -/
def IsClosed (code : List Instr) : Prop :=
  ∀ front ty name back, code = front ++ .funcDeclare ty name :: back → .functionEnd ∈ back

/-- The symbol that a name has in a table that was kept. -/
def Compilation.symbol? (c : Compilation) (table name : String) : Option Symbol :=
  c.tables[table]?.bind fun symbols => symbols[name]?

/-- Where a name comes from that is used in the block of a function, `front` being the code in front
of the block and `earlier` the code in it that comes before. -/
inductive Compilation.Resolves (c : Compilation) (front : List Instr) (function : String)
    (earlier : List Instr) (name : String) : Prop where
  | parameter {ty : Ty} (h : .param ty name ∈ earlier)
  | variable {ty : Ty} {length : Option UInt64} (h : .var ty name length ∈ earlier)
  | globalVariable {ty : Ty} {length : Option UInt64} {before after : List Instr}
      (h : front = before ++ .var ty name length :: after) (hclosed : IsClosed before)
  | symbol {table : String} {symbol : Symbol}
      (htable : table = function ∨ table = Pass.globalName)
      (h : c.symbol? table name = some symbol)
      (hkind : symbol.kind = .const ∨ symbol.kind = .function)

namespace IsClosed

variable {front back : List Instr}

theorem of_unannounced (h : ∀ ty name, .funcDeclare ty name ∉ front) : IsClosed front := by
  rintro before ty name after rfl
  exact absurd (by simp) (h ty name)

theorem append (hfront : IsClosed front) (hback : IsClosed back) : IsClosed (front ++ back) := by
  intro before ty name after h
  rcases List.append_eq_append_iff.1 h with ⟨between, rfl, hrest⟩ | ⟨between, hpart, hrest⟩
  · exact hback between ty name after hrest
  · cases between with
    | nil => exact hback [] ty name after (by simpa using hrest.symm)
    | cons first between =>
        obtain ⟨rfl, rfl⟩ := List.cons.inj hrest
        exact List.mem_append_left back (hfront before ty name between hpart)

/-- Every part of a program closes what it opens. -/
theorem items (items : List TopLevel) : IsClosed (items.flatMap TopLevel.code) := by
  induction items with
  | nil => exact of_unannounced fun _ _ => List.not_mem_nil
  | cons item items ih =>
      rw [List.flatMap_cons]
      refine append ?_ ih
      cases item with
      | consts decls => exact of_unannounced fun _ _ => List.not_mem_nil
      | vars decls =>
          refine of_unannounced fun ty name hmem => ?_
          obtain ⟨_, _, _, hvar⟩ := VarDecl.eq_var_of_mem_code hmem
          cases hvar
      | function f =>
          intro before ty name after h
          rw [TopLevel.code, f.code_eq] at h
          cases before with
          | nil =>
              obtain ⟨_, rfl⟩ := List.cons.inj h
              simp
          | cons first before =>
              have hmem : .funcDeclare ty name ∈ f.inner ++ [.functionEnd] := by
                rw [(List.cons.inj h).2]
                simp
              rcases List.mem_append.1 hmem with hmem | hmem
              · exact absurd rfl ((Function.ne_of_mem_inner hmem).2 ty name)
              · cases List.mem_singleton.1 hmem

end IsClosed

section Known

variable {scopes : Scopes}

/-- An action that was performed with these names in scope, read what has the right shape and found
every name that it looked for. -/
def Action.Known (scopes : Scopes) (action : Action) : Prop :=
  (action.Sound ∧ .undefined ∉ action.records) ∧ ∃ u v, u.scopes = scopes ∧ action.Performs u v

/-- Whether an operand is known: a register, a literal, or a name in scope. -/
def Operand.isKnown (scopes : Scopes) (operand : Operand) : Bool :=
  operand.name?.all fun name => (scopes.nearest? name).isSome

theorem Operand.isKnown_of_literal? {text : String} (h : (Text.literal? text).isSome = true) :
    (named text).isKnown scopes = true := by
  simp [isKnown, name?, h]

theorem Operand.isKnown_of_nearest? {text : String} {symbol : Symbol}
    (h : scopes.nearest? text = some symbol) : (named text).isKnown scopes = true := by
  by_cases hliteral : (Text.literal? text).isSome = true
  · exact isKnown_of_literal? hliteral
  · simp [isKnown, name?, hliteral, h]

/-- A name that is read stands for a literal if it is a constant, and else for itself. -/
theorem NameRef.isKnown_value {ref : NameRef} (h : ∀ action ∈ ref.readLog, action.Known scopes) :
    ref.value.isKnown scopes = true := by
  simp only [readLog, log, List.forall_mem_append, List.forall_mem_cons] at h
  obtain ⟨⟨_, ⟨⟨hsound, _⟩, u, v, rfl, hfound, _⟩, _⟩, hreport⟩ := h
  cases hsymbol : ref.symbol with
  | none =>
      have hundefined := (hreport (.report ref.token.line .undefined)
        (by simp [Action.when, hsymbol])).1.2
      exact absurd List.mem_cons_self hundefined
  | some symbol =>
      rcases value_cases hsound with ⟨text, hvalue, hliteral⟩ | ⟨hvalue, _⟩
      · rw [hvalue]
        exact Operand.isKnown_of_literal? hliteral
      · rw [hvalue]
        exact Operand.isKnown_of_nearest? (hfound.trans hsymbol)

theorem operandRule_known : OperandRule (Action.Known scopes) (Operand.isKnown scopes) where
  check := by
    rintro fact ⟨_, _, _, _, hfact, _⟩
    exact hfact
  reg _ := rfl
  number n := Operand.isKnown_of_literal? (by rw [Text.literal?_numberText]; rfl)
  char := by
    rintro literal ⟨⟨hscanned, _⟩, _, _, _, hkind, _⟩
    exact Operand.isKnown_of_literal? (Token.literal?_ofChar hscanned hkind)
  name _ := NameRef.isKnown_value
  unknownCall := by
    -- the call was dropped, and recorded
    intro fn h
    simp only [unknownCallLog, List.forall_mem_cons] at h
    obtain ⟨_, ⟨⟨_, hrecords⟩, _⟩, _⟩ := h
    exact absurd List.mem_cons_self hrecords

/-- An occurrence of a name that gets into the code was found. -/
theorem Use.isSome_nearest? {use : Use} (h : ∀ action ∈ use.log, action.Known scopes) :
    (scopes.nearest? use.ref.token.value).isSome = true := by
  obtain ⟨_, u, v, rfl, hfound, _⟩ := h _ use.nearest_mem_log
  rw [hfound]
  cases hsymbol : use.ref.symbol with
  | some symbol => rfl
  | none =>
      have hmem : .report use.ref.token.line .undefined ∈ use.log := by
        cases hrole : use.role <;>
          simp [log, hrole, NameRef.readLog, NameRef.targetLog, NameRef.scanLog, Action.when, hsymbol]
      exact absurd List.mem_cons_self (h _ hmem).1.2

end Known

section Holding

/-- A name that is found is a local one or a global one. -/
theorem Scopes.mem_table_of_nearest? {scopes : Scopes} {name : String} {symbol : Symbol}
    (h : scopes.nearest? name = some symbol) :
    scopes.locals[name]? = some symbol ∨ scopes.globals[name]? = some symbol := by
  unfold nearest? at h
  cases hlocal : scopes.locals[name]? with
  | none =>
      rw [hlocal] at h
      exact .inr h
  | some found =>
      rw [hlocal] at h
      exact .inl h

/-- What a table holds is found in it, and nothing else is. -/
theorem SymbolTable.Holds.getElem?_eq_some_iff {table : SymbolTable} {symbols : List Symbol}
    (h : table.Holds symbols) {name : String} {symbol : Symbol} :
    table[name]? = some symbol ↔ symbol ∈ symbols ∧ symbol.name = name := by
  rw [← Std.TreeMap.mem_toList_iff_getElem?_eq_some, h.mem_iff, List.mem_map]
  constructor
  · rintro ⟨found, hfound, heq⟩
    obtain ⟨rfl, rfl⟩ := Prod.mk.inj heq
    exact ⟨hfound, rfl⟩
  · rintro ⟨hsymbol, rfl⟩
    exact ⟨symbol, hsymbol, rfl⟩

theorem Compilation.TableHolds.symbol?_eq {c : Compilation} {table : String}
    {symbols : List Symbol} (h : c.TableHolds table symbols) {symbol : Symbol}
    (hsymbol : symbol ∈ symbols) : c.symbol? table symbol.name = some symbol := by
  obtain ⟨found, hfound, hholds⟩ := h
  rw [symbol?, hfound, Option.bind_some]
  exact hholds.getElem?_eq_some_iff.2 ⟨hsymbol, rfl⟩

theorem Function.isLocal_prelude (f : Function) : f.prelude.all Action.isLocal = true :=
  f.all_prelude (fun _ _ => rfl) (fun _ => rfl) (fun _ _ => rfl) fun _ _ => rfl

variable {tokens : List Token} {f : Function} {before : List TopLevel} {v : State}

/-- In front of the statements of a function its own names are in scope, and the global ones that
have been declared by then. -/
theorem holds_of_plays (h : Plays (before.flatMap TopLevel.log ++ (f.head.log ++ f.prelude))
    (.start {} tokens) v) (hv : v.Unrepeated) :
    v.scopes.locals.Holds f.locals ∧
      v.scopes.globals.Holds (before.flatMap TopLevel.symbols ++ [f.head.symbol]) := by
  obtain ⟨s, hbefore, hrest⟩ := plays_append.1 h
  obtain ⟨u, hhead, hprelude⟩ := plays_append.1 hrest
  have hu := hprelude.unrepeated hv
  constructor
  · have hparams : SymbolTable.Gains {} u.scopes.locals _ := FunctionHead.locals_of_plays hhead hu
    have hgains := f.declares_prelude.enters u v hprelude hv
    rw [Body.entries_declarators] at hgains
    exact (hparams.trans hgains).holds
  · have hglobals : SymbolTable.Gains {} s.scopes.globals _ :=
      Enters.flatMap TopLevel.enters_log before _ s hbefore (hhead.unrepeated hu)
    rw [hprelude.globals_of_isLocal f.isLocal_prelude]
    exact (hglobals.trans (f.head.enters_log s u hhead hu)).holds

end Holding

section Code

/-- The part of a function's code in front of its statements. -/
def Function.announcements (f : Function) : List Instr :=
  (f.head.params.map fun param => .param param.type.ty param.name.value) ++
    f.body.vars.flatMap VarDecl.code

theorem VarDecl.exists_var_of_symbols {decls : List VarDecl} {symbol : Symbol}
    (h : symbol ∈ decls.flatMap symbols) :
    ∃ ty length, .var ty symbol.name length ∈ decls.flatMap code := by
  obtain ⟨decl, hdecl, hsymbol⟩ := List.mem_flatMap.1 h
  obtain ⟨item, hitem, rfl⟩ := List.mem_map.1 hsymbol
  refine ⟨decl.type.ty, item.length, List.mem_flatMap.2 ⟨decl, hdecl, ?_⟩⟩
  exact List.mem_flatMap.2 ⟨item, hitem, List.mem_singleton.2 rfl⟩

theorem ConstDecl.kind_of_symbols {decls : List ConstDecl} {symbol : Symbol}
    (h : symbol ∈ decls.flatMap symbols) : symbol.kind = .const := by
  obtain ⟨decl, _, hsymbol⟩ := List.mem_flatMap.1 h
  obtain ⟨item, _, rfl⟩ := List.mem_map.1 hsymbol
  rfl

theorem Symbol.kind_withParameters (symbol : Symbol) (tys : List Ty) :
    (symbol.withParameters tys).kind = symbol.kind := by
  induction tys generalizing symbol with
  | nil => rfl
  | cons ty tys ih => exact (ih _).trans (symbol.kind_addParameter ty)

theorem FunctionHead.kind_symbol (head : FunctionHead) : head.symbol.kind = .function :=
  Symbol.kind_withParameters _ _

variable {c : Compilation} {f : Function} {front earlier : List Instr}

/-- A local symbol is announced in front of the statements, or it is a constant. -/
theorem Function.resolves_local (hlocals : c.TableHolds f.head.name.value f.locals)
    (hearlier : ∀ instr ∈ f.announcements, instr ∈ earlier) {symbol : Symbol}
    (hsymbol : symbol ∈ f.locals) : c.Resolves front f.head.name.value earlier symbol.name := by
  have hall := hsymbol
  simp only [locals, List.mem_append] at hsymbol
  rcases hsymbol with hparam | hconst | hvar
  · obtain ⟨param, hmem, rfl⟩ := List.mem_map.1 hparam
    refine .parameter (hearlier (.param param.type.ty param.name.value) ?_)
    exact List.mem_append_left _ (List.mem_map.2 ⟨param, hmem, rfl⟩)
  · exact .symbol (.inl rfl) (hlocals.symbol?_eq hall) (.inl (ConstDecl.kind_of_symbols hconst))
  · obtain ⟨ty, length, hvar⟩ := VarDecl.exists_var_of_symbols hvar
    exact .variable (hearlier _ (List.mem_append_right _ hvar))

/-- A global symbol is announced in front of the function, or it is a constant or a function. -/
theorem Function.resolves_global {before after : List TopLevel}
    (hitems : c.program.items = before ++ .function f :: after)
    (hglobals : c.TableHolds Pass.globalName c.program.globals)
    (hfront : front = before.flatMap TopLevel.code) {symbol : Symbol}
    (hsymbol : symbol ∈ before.flatMap TopLevel.symbols ++ [f.head.symbol]) {function : String} :
    c.Resolves front function earlier symbol.name := by
  have hall : symbol ∈ c.program.globals := by
    rw [Program.globals, hitems, List.flatMap_append, List.flatMap_cons, ← List.append_assoc]
    exact List.mem_append_left _ hsymbol
  have hfound := hglobals.symbol?_eq hall
  rcases List.mem_append.1 hsymbol with hbefore | hown
  · obtain ⟨item, hitem, hsymbol⟩ := List.mem_flatMap.1 hbefore
    cases item with
    | consts decls =>
        exact .symbol (.inr rfl) hfound (.inl (ConstDecl.kind_of_symbols hsymbol))
    | vars decls =>
        obtain ⟨ty, length, hvar⟩ := VarDecl.exists_var_of_symbols hsymbol
        obtain ⟨left, right, hcode⟩ := List.append_of_mem hvar
        obtain ⟨others, later, rfl⟩ := List.append_of_mem hitem
        have hsplit : front = (others.flatMap TopLevel.code ++ left) ++
            .var ty symbol.name length :: (right ++ later.flatMap TopLevel.code) := by
          rw [hfront, List.flatMap_append, List.flatMap_cons, TopLevel.code, hcode]
          simp
        refine .globalVariable hsplit ((IsClosed.items others).append ?_)
        refine .of_unannounced fun ty name hmem => ?_
        have hdecls : .funcDeclare ty name ∈ decls.flatMap VarDecl.code := by
          rw [hcode]
          exact List.mem_append_left _ hmem
        obtain ⟨_, _, _, hother⟩ := VarDecl.eq_var_of_mem_code hdecls
        cases hother
    | function g =>
        obtain rfl := List.mem_singleton.1 hsymbol
        exact .symbol (.inr rfl) hfound (.inr g.head.kind_symbol)
  · obtain rfl := List.mem_singleton.1 hown
    exact .symbol (.inr rfl) hfound (.inr f.head.kind_symbol)

/-- What has a name in it, or has to do with a call, comes from the statements of a function. -/
theorem Function.exists_earlier {later : List Instr} {instr : Instr}
    (hinner : f.inner = earlier ++ instr :: later)
    (hinstr : instr.isFraming = false) (hret : instr ≠ .retVoid) :
    (∀ other ∈ f.announcements, other ∈ earlier) ∧
      .emit instr ∈ Stmt.logs f.head.ty f.body.stmts := by
  have hnot : instr ∉ f.announcements := by
    intro hmem
    rcases List.mem_append.1 hmem with hparam | hvar
    · obtain ⟨param, _, rfl⟩ := List.mem_map.1 hparam
      cases hinstr
    · obtain ⟨_, _, _, rfl⟩ := VarDecl.eq_var_of_mem_code hvar
      cases hinstr
  have hsplit : f.announcements ++ (Stmt.codes f.body.stmts ++
      if f.head.ty = .void then [.retVoid] else []) = earlier ++ instr :: later := by
    rw [← hinner, inner, announcements, List.append_assoc]
  obtain ⟨between, rfl, hrest⟩ := split_of_not_mem hsplit hnot
  refine ⟨fun other hother => List.mem_append_left between hother, ?_⟩
  have hmem : instr ∈ Stmt.codes f.body.stmts ++
      if f.head.ty = .void then [.retVoid] else [] := by
    rw [hrest]
    exact List.mem_append_right between List.mem_cons_self
  rcases List.mem_append.1 hmem with hstmt | hlast
  · rw [← Stmt.codes_logs f.head.ty f.body.stmts] at hstmt
    exact emit_mem_of_mem_code hstmt
  · split at hlast
    · exact absurd (List.mem_singleton.1 hlast) hret
    · cases hlast

theorem Instr.isFraming_of_names {instr : Instr} (h : instr.names ≠ [] ∨ instr.callee?.isSome = true) :
    instr.isFraming = false ∧ instr ≠ .retVoid := by
  cases instr with
  | param _ _ | var _ _ _ | funcDeclare _ _ | functionEnd | retVoid =>
      simp [names, operands, mentions, callee?] at h
  | _ => exact ⟨rfl, by simp⟩

end Code

section Compilations

variable {tokens : List Token} {c : Compilation}

/-- Nothing is recorded that leaves a name without a meaning. -/
def Compilation.IsKnown (c : Compilation) : Prop :=
  ∀ d ∈ c.diagnostics, d.kind ≠ .undefined ∧ d.kind ≠ .redefinition ∧ d.kind ≠ .constInitialiser

instance (c : Compilation) : Decidable c.IsKnown :=
  List.decidableBAll _ c.diagnostics

/-- The run comes to the statements of every function. -/
theorem exists_in_front (h : compile tokens = .ok c)
    (hquiet : ∀ d ∈ c.diagnostics, d.kind ≠ .redefinition) {before after : List TopLevel}
    {f : Function} (hitems : c.program.items = before ++ .function f :: after) :
    ∃ v, Plays (before.flatMap TopLevel.log ++ (f.head.log ++ f.prelude)) (.start {} tokens) v ∧
      v.Unrepeated := by
  obtain ⟨t, hplays, _, hc⟩ := plays_of_compile h
  rw [BodyAt.log_eq hitems] at hplays
  obtain ⟨v, hfront, hrest⟩ := plays_append.1 hplays
  refine ⟨v, hfront, hrest.unrepeated ?_⟩
  rw [hc] at hquiet
  exact hquiet

theorem BodyAt.known {f : Function} {v : State} (hbody : BodyAt tokens c f v)
    (hscanned : ∀ token ∈ tokens, token.isScanned = true) (h : compile tokens = .ok c)
    (hknown : c.IsKnown) :
    ∀ action ∈ Stmt.logs f.head.ty f.body.stmts, action.Known v.scopes := by
  intro action haction
  have hmem := hbody.subset haction
  obtain ⟨t, hrun, _, hc⟩ := plays_of_compile h
  have hfits : ¬ t.HasMisfit := by
    rintro ⟨d, hd, hkind⟩
    refine (hknown d ?_).2.2 hkind
    rw [hc]
    exact hd
  have hsound := hrun.sound (State.start_sound {} hscanned) hfits action hmem
  have hfound : .undefined ∉ action.records := by
    intro hrecords
    obtain ⟨d, hd, hkind⟩ := reported_of_compile h hmem hrecords
    exact (hknown d hd).1 hkind
  obtain ⟨w, hplays⟩ := hbody.exists_plays h
  exact ⟨⟨hsound, hfound⟩, hplays.exists_performs (Stmt.all_logs _ _) haction⟩

/-- The names in what the statements of a function emit are in scope there. -/
theorem BodyAt.isSome_nearest? {f : Function} {v : State} (hbody : BodyAt tokens c f v)
    (hscanned : ∀ token ∈ tokens, token.isScanned = true) (h : compile tokens = .ok c)
    (hknown : c.IsKnown) {instr : Instr} (hinstr : .emit instr ∈ Stmt.logs f.head.ty f.body.stmts)
    {name : String} (hname : name ∈ instr.names) : (v.scopes.nearest? name).isSome = true := by
  have hlog := hbody.known hscanned h hknown
  rcases List.mem_append.1 hname with hoperand | hmention
  · obtain ⟨operand, hoperand, hname⟩ := List.mem_filterMap.1 hoperand
    have hall := Stmt.operandsAll_logs operandRule_known f.head.ty f.body.stmts hlog
    have hisKnown := List.all_eq_true.1 (List.all_eq_true.1 hall _ hinstr) operand hoperand
    rwa [Operand.isKnown, hname, Option.all_some] at hisKnown
  · obtain ⟨mention, hmem, rfl⟩ := List.mem_map.1 hmention
    have hmentions : mention ∈ mentionsOf (Stmt.logs f.head.ty f.body.stmts) :=
      List.mem_flatMap.2 ⟨_, hinstr, hmem⟩
    rw [Stmt.mentionsOf_logs] at hmentions
    obtain ⟨use, huse, rfl⟩ := List.mem_map.1 hmentions
    exact use.isSome_nearest? fun action haction =>
      hlog action (Stmt.logs_subset f.head.ty f.body.stmts use huse haction)

/-- What is called in a function is a function of the global table. -/
theorem Function.exists_callee (h : compile tokens = .ok c)
    (hglobals : c.TableHolds Pass.globalName c.program.globals) {before after : List TopLevel}
    {f : Function} (hitems : c.program.items = before ++ .function f :: after) {instr : Instr}
    (hinstr : instr ∈ f.inner) {callee : String} (hcallee : instr.callee? = some callee) :
    ∃ symbol, c.symbol? Pass.globalName callee = some symbol ∧ symbol.kind = .function := by
  have hcalls := (Function.makes fun call hcall => Call.exists_function h hitems hcall).1
  obtain ⟨call, ⟨g, hg, hname, _⟩, hown⟩ := hcalls.exists_call
    (List.mem_filter.2 ⟨hinstr, by rw [hcallee]; rfl⟩)
  obtain rfl : callee = call.name.value := Option.some.inj (hcallee.symm.trans hown)
  have hitem : .function g ∈ c.program.items := by
    rw [hitems, List.append_cons]
    exact List.mem_append_left after hg
  have hsymbol : g.head.symbol ∈ c.program.globals :=
    List.mem_flatMap.2 ⟨_, hitem, List.mem_singleton.2 rfl⟩
  have hfound := hglobals.symbol?_eq hsymbol
  rw [g.head.name_symbol, hname] at hfound
  exact ⟨g.head.symbol, hfound, g.head.kind_symbol⟩

/-- Every name in the code of a function has been announced, or it is the name of a constant or a
function in a table that was kept; and every function that is called is in the global one. -/
theorem resolves_of_isBlock (hscanned : ∀ token ∈ tokens, token.isScanned = true)
    (h : compile tokens = .ok c) (hknown : c.IsKnown)
    (hnames : ∀ f ∈ c.program.functions, f.head.name.value ≠ Pass.globalName)
    {front body back : List Instr} {ty : Ty} {function : String}
    (hblock : IsBlock c.code front ty function body back) {earlier later : List Instr}
    {instr : Instr} (hbody : body = earlier ++ instr :: later) :
    (∀ name ∈ instr.names, c.Resolves front function earlier name) ∧
      ∀ callee ∈ instr.callee?, ∃ symbol,
        c.symbol? Pass.globalName callee = some symbol ∧ symbol.kind = .function := by
  have hquiet : ∀ d ∈ c.diagnostics, d.kind ≠ .redefinition := fun d hd => (hknown d hd).2.1
  rw [code_of_compile h] at hblock
  obtain ⟨before, f, after, hitems, hfront, _, rfl, rfl, _⟩ := hblock.exists_function
  have hf : f ∈ c.program.functions := by simp [hitems]
  have hglobals := tableHolds_globals h hquiet
  have hlocals := tableHolds_locals h hquiet hf (hnames f hf)
  constructor
  · intro name hname
    obtain ⟨hframing, hret⟩ := Instr.isFraming_of_names (.inl (List.ne_nil_of_mem hname))
    obtain ⟨hearlier, hemit⟩ := Function.exists_earlier hbody hframing hret
    obtain ⟨v, hplays, hv⟩ := exists_in_front h hquiet hitems
    obtain ⟨hown, hothers⟩ := holds_of_plays hplays hv
    have hfound := BodyAt.isSome_nearest? ⟨before, after, hitems, hplays⟩ hscanned h hknown hemit
      hname
    obtain ⟨symbol, hsymbol⟩ := Option.isSome_iff_exists.1 hfound
    rcases Scopes.mem_table_of_nearest? hsymbol with hlocal | hglobal
    · obtain ⟨hmem, rfl⟩ := hown.getElem?_eq_some_iff.1 hlocal
      exact Function.resolves_local hlocals hearlier hmem
    · obtain ⟨hmem, rfl⟩ := hothers.getElem?_eq_some_iff.1 hglobal
      exact Function.resolves_global hitems hglobals hfront hmem
  · intro callee hcallee
    have hinner : instr ∈ f.inner := by
      rw [hbody]
      exact List.mem_append_right earlier List.mem_cons_self
    exact Function.exists_callee h hglobals hitems hinner hcallee

end Compilations

/-- `const int k = 3; int g; int f(int a) { int v; v = a + g return (v); } void main() { f(k); }`,
where a semicolon is missing. -/
def announcedTokens : List Token :=
  scan 1 ["const int k = 3 ;", "int g ;", "int f ( int a ) \x7b", "int v ;", "v = a + g",
    "return ( v ) ;", "\x7d", "void main ( ) \x7b", "f ( k ) ;", "\x7d"]

theorem resolves_announcedTokens : (∀ token ∈ announcedTokens, token.isScanned = true) ∧
    ∃ c, compile announcedTokens = .ok c ∧ c.diagnostics = [⟨5, .missingSemicolon⟩] ∧
      (∀ name ∈ ["a", "g"], c.Resolves [.var .int "g" none] "f"
        [.param .int "a", .var .int "v" none] name) ∧
      ∃ symbol, c.symbol? Pass.globalName "f" = some symbol ∧ symbol.kind = .function := by
  have hscanned : ∀ token ∈ announcedTokens, token.isScanned = true := by decide +kernel
  have hc := eq_ok_get (compile announcedTokens) (by decide +kernel)
  have hcode : ((compile announcedTokens).toOption.get (by decide +kernel)).code =
      [.var .int "g" none, .funcDeclare .int "f", .param .int "a", .var .int "v" none,
        .arith .add ⟨0⟩ (.named "a") (.named "g"), .assign "v" (.reg ⟨0⟩), .ret (.named "v"),
        .functionEnd, .funcDeclare .void "main", .save "f", .push "f" (.named "3") 0,
        .call "f", .retVoid, .functionEnd] := by
    decide +kernel
  have hadd : IsBlock _ [.var .int "g" none] .int "f"
      ([.param .int "a", .var .int "v" none] ++ .arith .add ⟨0⟩ (.named "a") (.named "g") ::
        [.assign "v" (.reg ⟨0⟩), .ret (.named "v")])
      [.funcDeclare .void "main", .save "f", .push "f" (.named "3") 0, .call "f", .retVoid,
        .functionEnd] := ⟨hcode, by decide⟩
  have hcall : IsBlock _ [.var .int "g" none, .funcDeclare .int "f", .param .int "a",
      .var .int "v" none, .arith .add ⟨0⟩ (.named "a") (.named "g"), .assign "v" (.reg ⟨0⟩),
      .ret (.named "v"), .functionEnd] .void "main"
      ([] ++ .save "f" :: [.push "f" (.named "3") 0, .call "f", .retVoid]) [] :=
    ⟨hcode, by decide⟩
  have hused : (Instr.arith .add ⟨0⟩ (.named "a") (.named "g")).names = ["a", "g"] := by
    decide +kernel
  refine ⟨hscanned, _, hc, by decide +kernel, fun name hname => ?_, ?_⟩
  · exact (resolves_of_isBlock hscanned hc (by decide +kernel) (by decide +kernel) hadd rfl).1 name
      (hused ▸ hname)
  · exact (resolves_of_isBlock hscanned hc (by decide +kernel) (by decide +kernel) hcall rfl).2 "f"
      rfl

end OnePass
