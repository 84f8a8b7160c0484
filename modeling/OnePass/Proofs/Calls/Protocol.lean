import OnePass.Proofs.Calls.Globals
import OnePass.Proofs.Calls.Nesting
import OnePass.Proofs.Grammar.Completeness.Expr

/-!
The protocol of calls. In every function the instructions for calls are nested in each other as the
calls are, results are taken right behind calls, and only functions that have been announced are
called. Unless something was recorded, the arguments of a call are as many as the parameters of the
function that was announced under its name, and of the same types.
-/

namespace OnePass

/-- The types of the parameters that a piece of code starts with. -/
def leadingParams : List Instr → List Ty
  | .param ty _ :: rest => ty :: leadingParams rest
  | _ => []

/-- The calls in a function that stand in no other call. -/
def Function.calls (f : Function) : List Call :=
  Stmt.allCalls f.body.stmts

/-- The instructions for calls in every block are those of the calls of its function, and every
call at any depth has a property. -/
def NestsCalls (c : Compilation) (P : Call → Prop) : Prop :=
  ∀ front ty name body back, IsBlock c.code front ty name body back →
    ∃ f, .function f ∈ c.program.items ∧ name = f.head.name.value ∧ body = f.inner ∧
      CallsIn P f.calls (body.filter fun instr => instr.callee?.isSome)

namespace Call

/-- A call has as many arguments as the function announced under its name has parameters. -/
def CountFits (code : List Instr) (call : Call) : Prop :=
  ∀ front ty back, code = front ++ .funcDeclare ty call.name.value :: back →
    call.args.toList.length = (leadingParams back).length

/-- The arguments of a call have the types of the parameters that follow the announcement of its
function. -/
def TypesFit (code : List Instr) (call : Call) : Prop :=
  ∀ front ty back, code = front ++ .funcDeclare ty call.name.value :: back →
    call.args.toList.map Expr.ty = leadingParams back

end Call

/-- How the calls of a compiled program are made. -/
structure CallProtocol (c : Compilation) : Prop where
  nested : NestsCalls c fun _ => True
  results : ResultsTaken c.code
  announced : ∀ front instr back function, c.code = front ++ instr :: back →
    instr.callee? = some function → ∃ ty, .funcDeclare ty function ∈ front
  counted : (∀ d ∈ c.diagnostics, d.kind ≠ .argumentCount ∧ d.kind ≠ .redefinition) →
    NestsCalls c (Call.CountFits c.code)
  typed : (∀ d ∈ c.diagnostics, d.kind ≠ .argumentCount ∧ d.kind ≠ .redefinition ∧
      d.kind ≠ .argumentType) →
    NestsCalls c (Call.TypesFit c.code)

section Params

theorem leadingParams_append (params : List Param) (rest : List Instr) :
    leadingParams ((params.map fun param => .param param.type.ty param.name.value) ++ rest) =
      (params.map fun param => param.type.ty) ++ leadingParams rest := by
  induction params with
  | nil => rfl
  | cons param params ih => exact congrArg (param.type.ty :: ·) ih

theorem leadingParams_eq_nil {code rest : List Instr}
    (h : ∀ instr ∈ code, ∀ ty name, instr ≠ .param ty name) :
    leadingParams (code ++ .functionEnd :: rest) = [] := by
  cases code with
  | nil => rfl
  | cons first code =>
      cases first with
      | param ty name => exact absurd rfl (h _ List.mem_cons_self ty name)
      | _ => rfl

/-- The parameters of a function follow its announcement, and nothing else does that looks like
one. -/
theorem Function.leadingParams_inner (f : Function) (rest : List Instr) :
    leadingParams (f.inner ++ .functionEnd :: rest) = f.head.paramTypes := by
  have hbody : ∀ instr ∈ f.body.vars.flatMap VarDecl.code ++ (Stmt.codes f.body.stmts ++
      if f.head.ty = .void then [.retVoid] else []), ∀ ty name, instr ≠ .param ty name := by
    rintro instr hinstr ty name rfl
    rcases List.mem_append.1 hinstr with hvar | hinstr
    · obtain ⟨_, _, _, hvar⟩ := VarDecl.eq_var_of_mem_code hvar
      cases hvar
    · rcases List.mem_append.1 hinstr with hstmt | hret
      · cases Stmt.isFraming_of_mem_codes hstmt
      · split at hret
        · cases List.mem_singleton.1 hret
        · cases hret
  rw [inner, List.append_assoc, leadingParams_append, leadingParams_eq_nil hbody, List.append_nil]
  rfl

end Params

section Function

/-- Nothing but the statements of a function has to do with calls. -/
theorem Function.inner_eq (f : Function) : ∃ front back,
    f.inner = front ++ (Stmt.codes f.body.stmts ++ back) ∧
      ∀ instr ∈ front ++ back, instr.callee? = none ∧ instr.takesResult = false := by
  refine ⟨(f.head.params.map fun param => .param param.type.ty param.name.value) ++
    f.body.vars.flatMap VarDecl.code, if f.head.ty = .void then [.retVoid] else [],
    by rw [inner, List.append_assoc], ?_⟩
  intro instr hinstr
  rcases List.mem_append.1 hinstr with hfront | hret
  · rcases List.mem_append.1 hfront with hparam | hvar
    · obtain ⟨param, _, rfl⟩ := List.mem_map.1 hparam
      exact ⟨rfl, rfl⟩
    · obtain ⟨_, _, _, rfl⟩ := VarDecl.eq_var_of_mem_code hvar
      exact ⟨rfl, rfl⟩
  · split at hret
    · obtain rfl := List.mem_singleton.1 hret
      exact ⟨rfl, rfl⟩
    · cases hret

/-- The calls of a function are nested as they should be, and results are taken from calls. -/
theorem Function.makes {P : Call → Prop} {f : Function}
    (h : AllCalls P (Stmt.logs f.head.ty f.body.stmts)) :
    CallsIn P f.calls (f.inner.filter fun instr => instr.callee?.isSome) ∧ ResultsTaken f.inner := by
  obtain ⟨hcalls, hresults⟩ := Stmt.makes_all f.head.ty f.body.stmts h
  rw [callParts, Stmt.codes_logs] at hcalls
  rw [Stmt.codes_logs] at hresults
  obtain ⟨front, back, hinner, hplain⟩ := f.inner_eq
  rw [List.forall_mem_append] at hplain
  obtain ⟨hfront, hback⟩ := hplain
  rw [hinner]
  constructor
  · have hnone : ∀ code : List Instr,
        (∀ instr ∈ code, instr.callee? = none ∧ instr.takesResult = false) →
        (code.filter fun instr => instr.callee?.isSome) = [] := by
      intro code hcode
      rw [List.filter_eq_nil_iff]
      intro instr hinstr
      simp [(hcode instr hinstr).1]
    rw [List.filter_append, List.filter_append, hnone front hfront, hnone back hback,
      List.nil_append, List.append_nil]
    exact hcalls
  · have hleft : ResultsTaken front := .of_free fun instr hinstr => (hfront instr hinstr).2
    have hright : ResultsTaken back := .of_free fun instr hinstr => (hback instr hinstr).2
    exact hleft.append (hresults.append hright)

theorem resultsTaken_items (items : List TopLevel) :
    ResultsTaken (items.flatMap TopLevel.code) := by
  induction items with
  | nil => exact .of_free (by simp)
  | cons item items ih =>
      rw [List.flatMap_cons]
      refine ResultsTaken.append ?_ ih
      cases item with
      | consts decls => exact .of_free (by simp [TopLevel.code])
      | vars decls =>
          refine .of_free fun instr hinstr => ?_
          obtain ⟨_, _, _, rfl⟩ := VarDecl.eq_var_of_mem_code hinstr
          rfl
      | function f =>
          have hall : AllCalls (fun _ => True) (Stmt.logs f.head.ty f.body.stmts) :=
            fun _ _ => trivial
          have hopen : ResultsTaken [.funcDeclare f.head.ty f.head.name.value] :=
            .of_free (by simp [Instr.takesResult])
          have hclose : ResultsTaken [.functionEnd] := .of_free (by simp [Instr.takesResult])
          rw [TopLevel.code, f.code_eq]
          exact hopen.append ((Function.makes hall).2.append hclose)

end Function

section Compile

variable {tokens : List Token} {c : Compilation}

/-- A property of all calls of all functions is one of all calls in all blocks. -/
theorem nestsCalls_of_functions {P : Call → Prop} (h : compile tokens = .ok c)
    (hcalls : ∀ before f after, c.program.items = before ++ .function f :: after →
      AllCalls P (Stmt.logs f.head.ty f.body.stmts)) : NestsCalls c P := by
  intro front ty name body back hblock
  rw [code_of_compile h] at hblock
  obtain ⟨before, f, after, hitems, _, _, hname, rfl, _⟩ := hblock.exists_function
  have hf : .function f ∈ c.program.items := by simp [hitems]
  exact ⟨f, hf, hname, rfl, (Function.makes (hcalls before f after hitems)).1⟩

/-- A call is one of a function that has been announced by then. -/
theorem Call.exists_function {call : Call} (h : compile tokens = .ok c)
    {before after : List TopLevel} {f : Function}
    (hitems : c.program.items = before ++ .function f :: after)
    (hcall : call.entry <:+: Stmt.logs f.head.ty f.body.stmts) :
    ∃ g, .function g ∈ before ++ [.function f] ∧ g.head.name.value = call.name.value ∧
      g.head.symbol = call.callee :=
  exists_function_of_callee h hitems (hcall.subset List.mem_cons_self)

/-- Instructions for calls stand behind the announcement of their function. -/
theorem announced_of_compile (h : compile tokens = .ok c) {front back : List Instr} {instr : Instr}
    {function : String} (hcode : c.code = front ++ instr :: back)
    (hcallee : instr.callee? = some function) : ∃ ty, .funcDeclare ty function ∈ front := by
  rw [code_of_compile h] at hcode
  obtain ⟨before, item, after, left, right, hitems, hitem, rfl, _⟩ := exists_item_of_split hcode
  cases item with
  | consts decls => simp [TopLevel.code] at hitem
  | vars decls =>
      have hmem : instr ∈ (TopLevel.vars decls).code := by simp [hitem]
      obtain ⟨_, _, _, rfl⟩ := VarDecl.eq_var_of_mem_code hmem
      cases hcallee
  | function f =>
      rw [TopLevel.code, f.code_eq] at hitem
      cases left with
      | nil =>
          obtain ⟨rfl, _⟩ := List.cons.inj hitem
          cases hcallee
      | cons first left =>
          obtain ⟨rfl, hrest⟩ := List.cons.inj hitem
          have hinner : instr ∈ f.inner := by
            have hmem : instr ∈ f.inner ++ [.functionEnd] := by
              rw [hrest]
              exact List.mem_append_right left List.mem_cons_self
            rcases List.mem_append.1 hmem with hmem | hmem
            · exact hmem
            · obtain rfl := List.mem_singleton.1 hmem
              cases hcallee
          have hcalls := (Function.makes fun call hcall =>
            Call.exists_function h hitems hcall).1
          obtain ⟨call, ⟨g, hg, hname, _⟩, hown⟩ := hcalls.exists_call
            (List.mem_filter.2 ⟨hinner, by rw [hcallee]; rfl⟩)
          obtain rfl : function = call.name.value := by
            rw [hcallee] at hown
            exact Option.some.inj hown
          refine ⟨g.head.ty, ?_⟩
          rw [← hname]
          rcases List.mem_append.1 hg with hg | hg
          · refine List.mem_append_left _ (List.mem_flatMap.2 ⟨_, hg, ?_⟩)
            simp [TopLevel.code, g.code_eq]
          · obtain rfl := TopLevel.function.inj (List.mem_singleton.1 hg)
            simp

/-- The parameters announced under the name of a call are those that its callee is known by. -/
theorem Call.callee_fits {call : Call} (h : compile tokens = .ok c)
    (hquiet : ∀ d ∈ c.diagnostics, d.kind ≠ .redefinition) {before after : List TopLevel}
    {f : Function} (hitems : c.program.items = before ++ .function f :: after)
    (hcall : call.entry <:+: Stmt.logs f.head.ty f.body.stmts) {front back : List Instr} {ty : Ty}
    (hcode : c.code = front ++ .funcDeclare ty call.name.value :: back) :
    call.callee.parameterCount = (leadingParams back).length ∧
      call.callee.parameterTypes = leadingParams back := by
  obtain ⟨g, hearlier, hname, hsymbol⟩ := call.exists_function h hitems hcall
  have hg : .function g ∈ c.program.items := by
    rw [hitems, List.append_cons]
    exact List.mem_append_left after hearlier
  have hvalues := FunctionHead.ne_void_of_compile h hg
  rw [code_of_compile h] at hcode
  obtain ⟨others, other, later, hsplit, _, _, hother, rfl⟩ := exists_function_of_announce hcode
  have hmem : .function other ∈ c.program.items := by simp [hsplit]
  obtain rfl := function_eq_of_name_eq h hquiet hg hmem (hname.trans hother)
  rw [g.leadingParams_inner, ← hsymbol]
  exact ⟨FunctionHead.parameterCount_symbol hvalues, FunctionHead.parameterTypes_symbol hvalues⟩

theorem Call.check_mem_log {call : Call} {f : Function} (hf : .function f ∈ c.program.items)
    (hcall : call.entry <:+: Stmt.logs f.head.ty f.body.stmts) {action : Action}
    (haction : action ∈ checkArgumentsLog call.name call.callee call.args) :
    action ∈ c.program.log := by
  have hentry : action ∈ call.entry := by
    cases call with
    | mk name lparen callee args rparen =>
        refine List.mem_cons_of_mem _ ?_
        rw [Call.log]
        simp only [List.mem_cons, List.mem_append]
        exact .inr (.inr (.inr (.inr (.inl haction))))
  have hstmts := hcall.subset hentry
  refine List.mem_append_left _ (List.mem_flatMap.2 ⟨_, hf, ?_⟩)
  rw [TopLevel.log, f.log_eq]
  simp [hstmts]

/-- A wrong number of arguments is recorded. -/
theorem Call.parameterCount_eq {call : Call} (h : compile tokens = .ok c)
    (hquiet : ∀ d ∈ c.diagnostics, d.kind ≠ .argumentCount) {f : Function}
    (hf : .function f ∈ c.program.items)
    (hcall : call.entry <:+: Stmt.logs f.head.ty f.body.stmts) :
    call.callee.parameterCount = call.args.length := by
  by_contra hne
  have hmem : .report call.name.line .argumentCount ∈ c.program.log :=
    call.check_mem_log hf hcall (by simp [checkArgumentsLog, hne])
  obtain ⟨d, hd, hkind⟩ := reported_of_compile h hmem (List.mem_singleton_self _)
  exact hquiet d hd hkind

/-- Arguments of wrong types are recorded, unless their number is wrong. -/
theorem Call.signature_eq {call : Call} (h : compile tokens = .ok c)
    (hquiet : ∀ d ∈ c.diagnostics, d.kind ≠ .argumentType) {f : Function}
    (hf : .function f ∈ c.program.items)
    (hcall : call.entry <:+: Stmt.logs f.head.ty f.body.stmts)
    (hcount : call.callee.parameterCount = call.args.length) :
    call.callee.signature = call.args.signature := by
  by_contra hne
  have hmem : .report call.name.line .argumentType ∈ c.program.log :=
    call.check_mem_log hf hcall (by simp [checkArgumentsLog, Action.when, hcount, hne])
  obtain ⟨d, hd, hkind⟩ := reported_of_compile h hmem (List.mem_singleton_self _)
  exact hquiet d hd hkind

/-- The signature of arguments stands for their types. -/
theorem Args.types_of_signature {args : Args} {symbol : Symbol}
    (h : symbol.signature = args.signature) : symbol.parameterTypes = args.types := by
  have hcodes : ∀ exprs : List Expr,
      ((exprs.map Expr.ty).filterMap Ty.signatureCode?).filterMap Ty.ofSignatureCode? =
        exprs.map Expr.ty := by
    intro exprs
    induction exprs with
    | nil => rfl
    | cons expr exprs ih =>
        cases hcode : expr.ty.signatureCode? with
        | none => exact absurd (Ty.signatureCode?_eq_none_iff.1 hcode) expr.ty_ne_void
        | some code =>
            rw [List.map_cons, List.filterMap_cons_some hcode,
              List.filterMap_cons_some (Ty.ofSignatureCode?_of_signatureCode? hcode), ih]
  rw [Symbol.parameterTypes, h, Args.signature, String.toList_ofList, args.types_eq, hcodes]

/-- Every program that compiles keeps the protocol of calls. -/
theorem compile_callProtocol (h : compile tokens = .ok c) : CallProtocol c where
  nested := nestsCalls_of_functions h fun _ _ _ _ _ _ => trivial
  results := by
    rw [code_of_compile h]
    exact resultsTaken_items c.program.items
  announced := fun _ _ _ _ hcode hcallee => announced_of_compile h hcode hcallee
  counted := by
    intro hquiet
    refine nestsCalls_of_functions h fun before f after hitems call hcall front ty back hcode => ?_
    have hf : .function f ∈ c.program.items := by simp [hitems]
    have hcount := call.parameterCount_eq h (fun d hd => (hquiet d hd).1) hf hcall
    have hfits := call.callee_fits h (fun d hd => (hquiet d hd).2) hitems hcall hcode
    rw [Args.length_toList, ← hcount, hfits.1]
  typed := by
    intro hquiet
    refine nestsCalls_of_functions h fun before f after hitems call hcall front ty back hcode => ?_
    have hf : .function f ∈ c.program.items := by simp [hitems]
    have hcount := call.parameterCount_eq h (fun d hd => (hquiet d hd).1) hf hcall
    have hsignature := call.signature_eq h (fun d hd => (hquiet d hd).2.2) hf hcall hcount
    have hfits := call.callee_fits h (fun d hd => (hquiet d hd).2.1) hitems hcall hcode
    rw [← Args.types_eq, ← Args.types_of_signature hsignature, hfits.2]

end Compile

/-- `int f(int a, char b) { return (a); } void main() { f(f(1, 'c'), 'd'); }` -/
def nestedCallTokens : List Token :=
  scan 1 ["int f ( int a , char b ) \x7b return ( a ) ; \x7d"] ++
    scan 1 ["void main ( ) \x7b f ( f ( 1 , 'c' ) , 'd' ) ; \x7d"]

theorem callProtocol_nested : ∃ c, compile nestedCallTokens = .ok c ∧
    (c.code.filter fun instr => instr.callee?.isSome).length = 8 ∧ CallProtocol c ∧
    NestsCalls c (Call.TypesFit c.code) := by
  have hc := eq_ok_get (compile nestedCallTokens) (by decide +kernel)
  have hprotocol := compile_callProtocol hc
  exact ⟨_, hc, by decide +kernel, hprotocol, hprotocol.typed (by decide +kernel)⟩

end OnePass
