import OnePass.Proofs.Trace.Sink
import OnePass.Proofs.Feed.Declarations

/-!
Functions and whole programs in front of more tokens.
-/

namespace OnePass

namespace Pass

variable {s : State}

section Heads

theorem Steady.param (function : String) : Stable Anything [.kwInt, .ident] (Pass.param function) :=
  .typed rfl fun _ htype => .expected fun name => .blind (.checkRedefinition .local name) fun _ =>
    .blind (.addParameter function htype) fun _ => .blind (.declare _ _) fun _ => .pure _

/-- Whether a type comes next. -/
def atTypeName (cursor : Cursor) : Bool :=
  ((cursor.peekKind? 0).map TokenKind.isTypeName).getD false

theorem Settles.params (function : String) : Settles Closed [] (Pass.params function) := by
  have hnil : Settles Closed [] (Pure.pure Params.nil : Pass Params) := (Steady.pure _).settles
  rw [params_fix]
  refine .look (f := atTypeName) (a := false) (fun _ => rfl) ?_ hnil
  rintro cursor ⟨h, hclosed, hkind⟩
  rw [atTypeName, peekKind?_zero, hkind]
  cases h with
  | none => rfl
  | some kind =>
      cases kind with
      | kwInt | kwChar => cases hclosed
      | _ => rfl

theorem Steady.params (function : String) : Stable Closed [] (Pass.params function) := by
  have hsettles := Settles.params function
  refine ⟨fun s hs => .nest (fun more hmore s hs => ?_) hs, hsettles⟩
  have hmore : Steady Closed [] more (Pass.params function) := ⟨hmore, hsettles⟩
  rw [params_fix]
  refine .look (f := atTypeName) (fun _ => rfl) (fun cursor hne more => ?_) fun atType => ?_
  · simp only [atTypeName, peekKind?_zero, headKind_append_of_ne_nil hne]
  · cases atType with
    | false => exact (Steady.pure _).feeds s hs
    | true =>
        have hparam : Feeds Closed (Pass.param function) (Pass.param function) s :=
          ((Steady.param function).feeds s hs).mono fun _ _ => trivial
        refine hparam.andThen fun _ => .accept [] (fun _ h => h.ne rfl) (.pure _) fun _ => ?_
        exact .bind hmore (fun _ => .pure _) rfl fun _ => id

theorem Steady.valueHead : Stable Anything [.kwInt, .ident, .lparen, .rparen] Pass.valueHead :=
  .typed rfl fun type _ => .expected fun name => .blind (.openFunction type.ty name) fun _ =>
    .expected fun _ => .bind (.params name.value) (fun _ => .recovered fun _ => .pure _) rfl
      fun _ _ => rfl

theorem Steady.voidHead : Stable Anything [.kwVoid, .ident, .lparen, .rparen] Pass.voidHead ∧
      Spends .kwVoid Pass.voidHead :=
  Steady.expected_spends fun _ => .expected fun name => .blind (.openFunction .void name) fun _ =>
    .expected fun _ => .bind (.params name.value) (fun _ => .recovered fun _ => .pure _) rfl
      fun _ _ => rfl

theorem Steady.mainHead : Stable Anything [.kwVoid, .kwMain, .lparen, .rparen] Pass.mainHead :=
  .expected fun _ => .expected fun name => .blind (.openFunction .void name) fun _ =>
    .expected fun _ => .recovered fun _ => .pure _

end Heads

section Functions

theorem statement_of_isTypeName {token : Token} {rest : List Token} (returnType : Ty)
    (hrest : s.cursor.rest = token :: rest) (htype : token.kind.isTypeName = true) :
    statement returnType s = .error (.unexpectedToken .statement token) s := by
  rw [statement_fix, statementOf, bind_of_ok (current_cons hrest)]
  cases hkind : token.kind with
  | kwInt | kwChar => exact unexpected_cons hrest
  | _ =>
      rw [hkind] at htype
      cases htype

/-- No statement starts with a type. -/
theorem stops_statements (returnType : Ty) (h : Doomed s) :
    Stops (statements (statement returnType) s) s.emitter := by
  obtain ⟨token, other, paren, rest, hrest, htype, _⟩ := h
  have hstmt := statement_of_isTypeName returnType hrest htype
  have hnext : s.cursor.nextIs .rbrace = false := by
    rw [nextIs_eq, hrest]
    refine beq_eq_false_iff_ne.2 fun hbrace => ?_
    rw [Option.some.inj hbrace] at htype
    cases htype
  have hstmt? : statement? (statement returnType) s =
      .error (.unexpectedToken .statement token) s := by
    rw [statement?_eq, hnext]
    exact bind_of_error hstmt
  rw [statements_eq_many, many_eq fun _ => .statement? (.statement returnType)]
  exact ⟨_, s, bind_of_error hstmt?, rfl, rfl⟩

/-- The end of a body, where it is known whether it returns. -/
def bodyEnd (returnType : Ty) (consts : List ConstDecl) (vars : List VarDecl) (stmts : List Stmt) :
    Pass Body := do
  if returnType ≠ .void ∧ Stmt.anyAlwaysReturns stmts = false then
    report (← current).line .missingReturn
  return { consts, vars, stmts }

theorem body_eq (returnType : Ty) : body returnType = (do
    let consts ← constDecls .local
    let vars ← varDecls .local
    let stmts ← statements (statement returnType)
    bodyEnd returnType consts vars stmts) := rfl

theorem Steady.bodyEnd (returnType : Ty) (consts : List ConstDecl) (vars : List VarDecl)
    (stmts : List Stmt) : Stable AtBrace [] (Pass.bodyEnd returnType consts vars stmts) := by
  have hnext : ∀ token : Token, Steady AtBrace []
      (do
        Pass.report token.line .missingReturn
        return { consts, vars, stmts : Body })
      (do
        Pass.report token.line .missingReturn
        return { consts, vars, stmts : Body }) :=
    fun _ => .blind (.report _ _) fun _ => .pure _
  refine .ite ⟨fun s hs => .current fun token _ _ => (hnext token).feeds s hs, .current ?_ ?_⟩
    (.pure _)
  · rintro _ rfl
    rfl
  · exact fun token _ => (hnext token).settles

theorem Steady.body (returnType : Ty) : Stable AtBrace [] (Pass.body returnType) := by
  rw [body_eq]
  refine .bind (.constDecls .local) (fun consts => ?_) rfl ?_
  · refine .varDecls (fun vars => .bind (.statements (.statement returnType))
      (.bodyEnd returnType consts vars) rfl fun _ => id) (fun vars u hu => ?_) ?_
    · obtain ⟨error, t, hrun, hstops⟩ := stops_statements returnType hu
      exact ⟨error, t, bind_of_error hrun, hstops⟩
    · rintro _ rfl
      rfl
  · rintro _ rfl
    nofun

/-- What follows the head of a function. -/
def functionFrom (head : FunctionHead) : Pass Function := do
  announce head
  let lbrace ← expect .lbrace
  let body ← body head.ty
  if head.ty = .void then
    emit .retVoid
  emit .functionEnd
  let rbrace ← expect .rbrace
  keepTable head.name.value .local
  return { head, lbrace, body, rbrace }

theorem Steady.functionFrom (head : FunctionHead) :
    Stable Anything [.lbrace, .rbrace] (Pass.functionFrom head) :=
  .blind (.announce head) fun _ => .expected fun _ => .bind (.body head.ty) (fun _ =>
    .joined (.emit _) fun _ => .blind (.emit _) fun _ => .expected fun _ =>
      .blind (.keepTable _ _) fun _ => .pure _) rfl fun _ _ => rfl

theorem Steady.function {ks : List TokenKind} {head : Pass FunctionHead}
    (hhead : Stable Anything ks head) :
    Stable Anything (ks ++ [.lbrace, .rbrace]) (Pass.function head) :=
  .bind hhead .functionFrom rfl fun _ _ => trivial

end Functions

section Parts

/-- There is nothing more. -/
def AtEnd : Follow := fun next => next = none

/-- The parts of a program that follow each other from here. -/
def parts : Pass (List TopLevel) :=
  many topLevel?

/-- What the parts are, if `more` reads those behind the next one. -/
def partsOf (more : Pass (List TopLevel)) : Pass (List TopLevel) :=
  manyOf topLevel? more

theorem parts_fix : parts = partsOf parts :=
  many_eq fun _ => .topLevel?

theorem partsOf_eq (more : Pass (List TopLevel)) (s : State) :
    partsOf more s = manyOf (partAt s.cursor).pass more s := by
  have hpart := topLevel?_eq s
  cases hrun : (partAt s.cursor).pass s with
  | ok found t =>
      rw [hrun] at hpart
      rw [partsOf, manyOf, manyOf, bind_of_ok hpart, bind_of_ok hrun]
  | error error t =>
      rw [hrun] at hpart
      rw [partsOf, manyOf, manyOf, bind_of_error hpart, bind_of_error hrun]

theorem parts_eq (s : State) : parts s = manyOf (partAt s.cursor).pass parts s := by
  rw [← partsOf_eq, ← parts_fix]

/-- Global variables in front of more parts. -/
def afterVars (more : Pass (List TopLevel)) (decls : List VarDecl) : Pass (List TopLevel) := do
  let parts ← more
  return .vars decls :: parts

theorem manyOf_vars (more : Pass (List TopLevel)) :
    manyOf Part.vars.pass more = (varDecls .global >>= afterVars more) := by
  rw [manyOf, Part.pass, bind_assoc]
  rfl

theorem parts_nil (h : s.cursor.rest = []) : parts s = .ok [] s := by
  rw [parts_eq, partAt, peekKind?_zero_nil h]
  rfl

/-- Behind the end of a program there is nothing. -/
theorem Settles.parts : Settles AtEnd [] Pass.parts := by
  intro s tokens more hs hrest hkinds _ hmore
  obtain rfl := List.map_eq_nil_iff.1 hkinds
  have hnil : more = [] := by
    cases more with
    | nil => rfl
    | cons token more => cases hmore
  exact ⟨[], s, parts_nil (hrest.trans hnil), hrest, hs⟩

theorem partAt_of_isTypeName {cursor : Cursor} {token : Token} {rest : List Token}
    (hrest : cursor.rest = token :: rest) (htype : token.kind.isTypeName = true) :
    partAt cursor = if cursor.peekKind? 2 = some .lparen then .value else .vars := by
  have hpeek : cursor.peekKind? 0 = some token.kind := by
    rw [peekKind?_zero, hrest]
    rfl
  rw [partAt, hpeek]
  cases hkind : token.kind with
  | kwInt | kwChar => rfl
  | _ =>
      rw [hkind] at htype
      cases htype

theorem partAt_of_void {cursor : Cursor} {token : Token} {rest : List Token}
    (hrest : cursor.rest = token :: rest) (hkind : token.kind = .kwVoid) :
    partAt cursor = if headKind rest = some .kwMain then .main else .void := by
  have hpeek : cursor.peekKind? 0 = some .kwVoid := by
    rw [peekKind?_zero, hrest, ← hkind]
    rfl
  rw [partAt, hpeek, peekKind?_eq 1, hrest]
  rfl

theorem partAt_of_atVarDecl {cursor : Cursor} (h : atVarDecl cursor = true) :
    partAt cursor = .vars := by
  obtain ⟨token, rest, hrest, htype⟩ := (atVarDecl_iff.1 h).1
  rw [partAt_of_isTypeName hrest htype, if_neg]
  rw [peekKind?_eq]
  exact (atVarDecl_iff.1 h).2

theorem Declares.parts : Declares .global
    (fun decl => Pass.varDecls .global >>= fun decls => afterVars Pass.parts (decl :: decls))
    Pass.parts := by
  intro u hu
  rw [parts_eq, partAt_of_atVarDecl hu, manyOf_vars]
  exact Declares.varDecls _ u hu

/-- No function starts without a name. -/
theorem stops_parts (h : Doomed s) : Stops (parts s) s.emitter := by
  obtain ⟨token, other, paren, rest, hrest, htype, hname, hparen⟩ := h
  obtain ⟨type, hread⟩ := typeName_of_isTypeName htype
  have hthird : s.cursor.peekKind? 2 = some .lparen := by
    rw [peekKind?_eq, hrest]
    exact congrArg some hparen
  have hhead : valueHead s = .error (.unexpectedToken (.kind .ident) other)
      (s.take token (other :: paren :: rest)) := by
    rw [valueHead, bind_of_ok (hread s _ hrest)]
    exact bind_of_error ((expect_cons rfl).trans (if_neg hname))
  rw [parts_eq, partAt_of_isTypeName hrest htype, if_pos hthird]
  exact ⟨_, _, bind_of_error (bind_of_error (bind_of_error hhead)), rfl, rfl⟩

theorem Steady.functionPart {ks : List TokenKind} {head : Pass FunctionHead}
    (hhead : Stable Anything ks head) : Stable AtEnd (ks ++ [.lbrace, .rbrace])
      (do return some (TopLevel.function (← Pass.function head))) :=
  .bind (.function hhead) (fun _ => .pure _) (List.append_nil _).symm fun _ _ => trivial

theorem Steady.consts : Stable AtEnd [] Part.consts.pass := by
  refine .bind (.constDecls .global) (fun _ => .pure _) rfl ?_
  rintro _ rfl
  nofun

variable {more : Pass (List TopLevel)} (hmore : Steady AtEnd [] more Pass.parts)

include hmore

/-- A part that is the same with more tokens. -/
theorem Feeds.part (part : Part) (hpart : Feeds AtEnd part.pass part.pass s)
    (hat : ∀ tokens, partAt (s.feed tokens).cursor = part) :
    Feeds AtEnd (Pass.partsOf more) Pass.parts s := by
  have hnow : partAt s.cursor = part := by
    rw [← hat [], State.feed_nil]
  refine (hpart.andThen (.manyNext hmore)).congr ?_ fun _ tokens => ?_
  · rw [partsOf_eq, hnow]
    rfl
  · rw [parts_eq, hat]
    rfl

/-- Variables, if they remain such. -/
theorem Feeds.globals (hs : s.Free) (hat : atVarDecl s.cursor = true) :
    Feeds AtEnd (Pass.partsOf more) Pass.parts s := by
  have hnext : ∀ decls, Steady AtEnd [] (afterVars more decls) (afterVars Pass.parts decls) :=
    fun _ => .bind hmore (fun _ => .pure _) rfl fun _ => id
  have hhead : NotTyped AtEnd [] := by
    rintro _ rfl
    rfl
  have hstops : ∀ decls u, Doomed u → Stops (afterVars Pass.parts decls u) u.emitter := by
    intro decls u hu
    obtain ⟨error, t, hrun, hstops⟩ := stops_parts hu
    exact ⟨error, t, bind_of_error hrun, hstops⟩
  have hcont : ∀ decl, Steady AtEnd []
      (Pass.varDecls .global >>= fun decls => afterVars more (decl :: decls))
      (Pass.varDecls .global >>= fun decls => afterVars Pass.parts (decl :: decls)) :=
    fun decl => .varDecls (fun decls => hnext (decl :: decls))
      (fun decls => hstops (decl :: decls)) hhead
  refine (Feeds.declaration hs hat .parts (fun u => stops_parts) hcont).congr ?_ fun _ _ => rfl
  rw [partsOf_eq, partAt_of_atVarDecl hat, manyOf_vars]
  exact Declares.varDecls _ s hat

/-- The word `void` on its own, behind which a function is read that is not the main one. -/
theorem Feeds.loneVoid {token : Token} (hs : s.Free) (hrest : s.cursor.rest = [token])
    (hkind : token.kind = .kwVoid) : Feeds AtEnd (Pass.partsOf more) Pass.parts s := by
  obtain ⟨hhead, hspends⟩ := Steady.voidHead
  have hpass : Stable AtEnd [.kwVoid, .ident, .lparen, .rparen, .lbrace, .rbrace]
      Part.void.pass := .functionPart hhead
  have hpart : Steady AtEnd [.kwVoid, .ident, .lparen, .rparen, .lbrace, .rbrace]
      (Part.void.pass >>= manyNext more) (Part.void.pass >>= manyNext Pass.parts) :=
    .bind hpass (.manyNext hmore) rfl fun _ => id
  have hfunction : Spends .kwVoid (Pass.function Pass.voidHead) :=
    hspends.bind hhead.feeds fun head t ht => ((Steady.functionFrom head).feeds t ht).ends
  have hspends : Spends .kwVoid (Part.void.pass >>= manyNext more) := by
    refine (hfunction.bind (Steady.function hhead).feeds fun _ t ht => ?_).bind hpass.feeds
      fun found t ht => ((Steady.manyNext hmore found).feeds t ht).ends
    exact ((Steady.of_blind (.pure _)).feeds t ht).ends
  have hleft : Pass.partsOf more s = (Part.void.pass >>= manyNext more) s := by
    rw [partsOf_eq, partAt_of_void hrest hkind]
    rfl
  have hfree := (hpart.feeds s hs).free
  have hspent := hspends s token hs hrest hkind
  refine .of_spent (by simp [hrest]) (hleft ▸ hfree) (hleft ▸ hspent) ?_
  refine ⟨[.ident, .lparen, .rparen, .lbrace, .rbrace].map .ofKind, fun tokens htokens => ?_⟩
  unfold Leaves
  rw [parts_eq, partAt_of_void (State.rest_feed_cons hrest _) hkind]
  refine hpart.settles.completes hs _ ?_ ?_ tokens htokens
  · rw [hrest, List.map_singleton, hkind]
    rfl
  · rw [hrest]
    intro other hother hint
    rw [List.mem_singleton.1 hother, hkind] at hint
    cases hint

/-- A part that starts with a type is a function, once the parenthesis is there. -/
theorem Feeds.typedPart {token : Token} {rest : List Token} (hs : s.Free)
    (hrest : s.cursor.rest = token :: rest) (htype : token.kind.isTypeName = true) :
    Feeds AtEnd (Pass.partsOf more) Pass.parts s := by
  by_cases hat : atVarDecl s.cursor = true
  · exact .globals hmore hs hat
  · refine Feeds.part hmore .value ((Steady.functionPart .valueHead).feeds s hs) fun tokens => ?_
    have hfeed := State.rest_feed_cons hrest tokens
    have hnot := atVarDecl_feed_of_not (by simp [hrest]) (Bool.eq_false_iff.2 hat) tokens
    rw [partAt_of_isTypeName hfeed htype]
    refine if_pos (Decidable.not_not.1 fun hthird => Bool.eq_false_iff.1 hnot ?_)
    rw [peekKind?_eq] at hthird
    exact atVarDecl_iff.2 ⟨⟨token, _, hfeed, htype⟩, hthird⟩

/-- A part that starts with `void` is a function, whose name decides which. -/
theorem Feeds.voidPart {token : Token} {rest : List Token} (hs : s.Free)
    (hrest : s.cursor.rest = token :: rest) (hkind : token.kind = .kwVoid) :
    Feeds AtEnd (Pass.partsOf more) Pass.parts s := by
  cases rest with
  | nil => exact .loneVoid hmore hs hrest hkind
  | cons name rest =>
      have hat := fun tokens => partAt_of_void (State.rest_feed_cons hrest tokens) hkind
      by_cases hname : name.kind = .kwMain
      · refine Feeds.part hmore .main ((Steady.functionPart .mainHead).feeds s hs) fun tokens => ?_
        exact (hat tokens).trans (if_pos (congrArg some hname))
      · refine Feeds.part hmore .void ((Steady.functionPart Steady.voidHead.1).feeds s hs)
          fun tokens => ?_
        exact (hat tokens).trans (if_neg fun h => hname (Option.some.inj h))

/-- The parts behind the next one are read by `more`. -/
theorem Feeds.partsOf (hs : s.Free) : Feeds AtEnd (Pass.partsOf more) Pass.parts s := by
  cases hrest : s.cursor.rest with
  | nil =>
      have hnil : Pass.partsOf more s = .ok [] s := by
        rw [partsOf_eq, partAt, peekKind?_zero_nil hrest]
        rfl
      have hend : Feeds AtEnd (Pure.pure [] : Pass (List TopLevel)) (Pure.pure []) s :=
        (Steady.pure []).feeds s hs
      exact hend.congr hnil fun hne => absurd hrest hne
  | cons token rest =>
      have hfeed := State.rest_feed_cons hrest
      have hpeek : ∀ tokens, (s.feed tokens).cursor.peekKind? 0 = some token.kind :=
        fun tokens => peekKind?_zero_cons (hfeed tokens)
      by_cases htype : token.kind.isTypeName = true
      · exact Feeds.typedPart hmore hs hrest htype
      · cases hkind : token.kind with
        | kwConst =>
            refine Feeds.part hmore .consts ?_ fun tokens => ?_
            · exact (Steady.consts).feeds s hs
            · rw [partAt, hpeek, hkind]
        | kwVoid => exact Feeds.voidPart hmore hs hrest hkind
        | kwInt | kwChar =>
            rw [hkind] at htype
            exact absurd rfl htype
        | _ =>
            refine Feeds.part hmore .other .unexpected fun tokens => ?_
            rw [partAt, hpeek, hkind]

omit hmore

/-- A whole program, which may end behind any part. -/
theorem Steady.parts : Stable AtEnd [] Pass.parts :=
  ⟨fun _ hs => .nest (fun _ hmore _ hs => .partsOf ⟨hmore, .parts⟩ hs) hs, .parts⟩

end Parts

end Pass

section Compilations

open Pass

/-- The error of a compilation that fails. -/
def failure? : Except ParseError Compilation → Option ParseError
  | .ok _ => none
  | .error error => some error

theorem failure?_eq_some_iff {result : Except ParseError Compilation} {error : ParseError} :
    failure? result = some error ↔ result = .error error := by
  cases result with
  | ok c => exact ⟨nofun, nofun⟩
  | error other => simp [failure?]

/-- What the state is a compilation of, once its parts have been read. -/
def State.compilation (state : State) (items : List TopLevel) : Compilation :=
  { program := { items }
    code := state.emitter.code.toList
    strings := state.strings
    tables := state.tables.insert globalName (state.scopes.table .global)
    diagnostics := state.diagnostics.toList
    regCount := state.counters.regs
    labelCount := state.counters.labels }

variable {tokens : List Token}

theorem State.feed_start (sink : Sink) (tokens more : List Token) :
    (State.start sink tokens).feed more = State.start sink (tokens ++ more) := rfl

theorem flushFails_of_parts {items : List TopLevel} {t : State}
    (h : parts (.start {} tokens) = .ok items t) : t.emitter.sink.flushFails = false := by
  obtain ⟨emitted, hgrows⟩ := Composed.parts.grows (.start {} tokens) rfl
  rw [show Pass.many topLevel? (.start {} tokens) = .ok items t from h] at hgrows
  exact congrArg Sink.flushFails hgrows.sink

theorem compileTo_of_ok {items : List TopLevel} {t : State}
    (h : parts (.start {} tokens) = .ok items t) :
    compileTo {} tokens = (.ok (t.compilation items), t.emitter.sink) := by
  have hflush := flushFails_of_parts h
  have hfinish : ∀ tables, State.finish { t with tables } { items } =
      .ok { t.compilation items with tables } := by
    intro tables
    rw [State.finish, Emitter.finish?, hflush]
    rfl
  have hrun : program (.start {} tokens) =
      .ok { items } { t with tables := t.tables.insert globalName (t.scopes.table .global) } :=
    bind_of_ok h
  unfold compileTo
  rw [show program { cursor := .ofTokens tokens } = _ from hrun]
  exact congrArg (·, t.emitter.sink) (hfinish _)

theorem compileTo_of_error {error : ParseError} {t : State}
    (h : parts (.start {} tokens) = .error error t) :
    compileTo {} tokens = (.error error, t.emitter.sink) := by
  have hrun : program (.start {} tokens) = .error error t := bind_of_error h
  unfold compileTo
  rw [show program { cursor := .ofTokens tokens } = _ from hrun]

theorem compile_eq_ok_iff {c : Compilation} : compile tokens = .ok c ↔
    ∃ items t, parts (.start {} tokens) = .ok items t ∧ c = t.compilation items := by
  cases hrun : parts (.start {} tokens) with
  | ok items t =>
      rw [compile, compileTo_of_ok hrun]
      constructor
      · intro h
        cases h
        exact ⟨items, t, rfl, rfl⟩
      · rintro ⟨_, _, h, rfl⟩
        cases h
        rfl
  | error error t =>
      rw [compile, compileTo_of_error hrun]
      exact ⟨nofun, nofun⟩

theorem compile_eq_error_iff {error : ParseError} : compile tokens = .error error ↔
    ∃ t, parts (.start {} tokens) = .error error t := by
  cases hrun : parts (.start {} tokens) with
  | ok items t =>
      rw [compile, compileTo_of_ok hrun]
      exact ⟨nofun, nofun⟩
  | error error t =>
      rw [compile, compileTo_of_error hrun]
      constructor
      · intro h
        cases h
        exact ⟨t, rfl⟩
      · rintro ⟨_, h⟩
        cases h
        rfl

/-- The text of the code is written as the parts are read. -/
theorem compileTo_sink (tokens : List Token) :
    (compileTo {} tokens).2 = (endState (parts (.start {} tokens))).emitter.sink := by
  cases hrun : parts (.start {} tokens) with
  | ok items t => rw [compileTo_of_ok hrun, endState]
  | error error t => rw [compileTo_of_error hrun, endState]

end Compilations

end OnePass
