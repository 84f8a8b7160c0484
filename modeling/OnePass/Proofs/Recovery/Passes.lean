import OnePass.Proofs.Recovery.Crossing

/-!
Every pass gives a result like the one it gives with the semicolon, wherever in it the semicolon
ends something. Declarations and simple statements read up to the semicolon themselves; the others
have it in a part of theirs.
-/

namespace OnePass

theorem mem_ended {back behind : List Token} {semicolon : Option Token} :
    back ∈ ended semicolon behind ↔ semicolon.isSome = true ∧ back = behind := by
  cases semicolon <;> simp [ended]

/-- Both statements return on the same ways. -/
def Stmt.Like (stmt stmt' : Stmt) : Prop :=
  stmt'.alwaysReturns = stmt.alwaysReturns

namespace Pass

section Loops

theorem asks_statement? (stmt : Pass Stmt) :
    Asks (fun cursor => !cursor.nextIs .rbrace) stmt (statement? stmt) := by
  intro s
  rw [statement?_eq]
  by_cases h : s.cursor.nextIs .rbrace <;> simp [h]

theorem asks_constDecl? (scope : Scope) :
    Asks (Cursor.nextIs · .kwConst) (constDecl scope) (constDecl? scope) :=
  constDecl?_eq scope

theorem asks_varDecl? (scope : Scope) : Asks atVarDecl (varDecl scope) (varDecl? scope) :=
  varDecl?_eq scope

end Loops

section Tokens

variable {scope : Scope} {returnType : Ty}

theorem consumes_guarded (label : Label) (sense : Sense) :
    Consumes Guard.tokens (guarded label sense) :=
  .of_follows (follows_guarded label sense) fun guard => guard.tokensOf_children label sense

theorem consumes_statement : Consumes Stmt.tokens (statement returnType) :=
  .of_follows (follows_statement returnType) fun stmt => stmt.tokensOf_children returnType

theorem consumes_constDecl : Consumes ConstDecl.tokens (constDecl scope) :=
  .of_follows (follows_constDecl scope) fun decl => decl.tokensOf_children scope

theorem consumes_varDecl : Consumes VarDecl.tokens (varDecl scope) :=
  .of_follows (follows_varDecl scope) fun decl => decl.tokensOf_children scope

theorem consumes_statements :
    Consumes (List.flatMap Stmt.tokens) (statements (statement returnType)) := by
  have hitem : Nearsighted false IfSome (statement? (statement returnType)) :=
    fun _ => .statement? (.statement returnType .vacuous)
  exact .many (fun _ _ _ hrun => (later_of_misses hitem hrun).1)
    (.asked (asks_statement? _) consumes_statement)

theorem consumes_varDecls : Consumes (List.flatMap VarDecl.tokens) (varDecls scope) :=
  .many (fun _ _ _ hrun => (later_of_misses (fun _ => .varDecl? scope) hrun).1)
    (.asked (asks_varDecl? scope) consumes_varDecl)

theorem consumes_topLevel? : Consumes (fun found => found.elim [] TopLevel.tokens) topLevel? := by
  intro s found t hrun hquiet
  rcases plays_topLevel? hrun with ⟨rfl, rfl, _⟩ | ⟨item, rfl, hplays⟩
  · rfl
  · have hitem := item.tokensOf_tree []
    rw [Tree.tokensOf_nil, List.append_nil] at hitem
    rw [hplays.rest_of_quiet hquiet, ← hitem]
    rfl

end Tokens

namespace Starts

variable {scope : Scope} {returnType : Ty}

theorem calm_of_statement (s : State) (stmt : Stmt) (t : State)
    (h : Pass.statement returnType s = .ok stmt t) : Calm s.cursor.rest := by
  rw [statement_fix] at h
  refine calm_of_current (fun token hlinking s stmt t h => ?_) s stmt t h
  simp only [linking, List.mem_cons, List.not_mem_nil, or_false] at hlinking
  rcases hlinking with hkind | hkind | hkind | hkind | hkind | hkind | hkind | hkind | hkind <;>
    rw [hkind] at h <;> exact unexpected_ne_ok h

theorem statement : Starts (Pass.statement returnType) :=
  fun s stmt t h => .inl (calm_of_statement s stmt t h)

theorem calm_of_typeName (s : State) (type : TypeName) (t : State)
    (h : Pass.typeName s = .ok type t) : Calm s.cursor.rest := by
  refine calm_of_current (fun token hlinking s type t h => ?_) s type t h
  simp only [linking, List.mem_cons, List.not_mem_nil, or_false] at hlinking
  rcases hlinking with hkind | hkind | hkind | hkind | hkind | hkind | hkind | hkind | hkind <;>
    rw [hkind] at h <;> exact unexpected_ne_ok h

theorem statements : Starts (Pass.statements (Pass.statement returnType)) :=
  .many (.asked (asks_statement? _) .statement)

theorem constDecls : Starts (Pass.constDecls scope) :=
  .many (.asked (asks_constDecl? scope) (.first (calm_of_expect (by decide))))

theorem varDecls : Starts (Pass.varDecls scope) :=
  .many (.asked (asks_varDecl? scope) (.first calm_of_typeName))

theorem calm_of_valueHead (s : State) (head : FunctionHead) (t : State)
    (h : valueHead s = .ok head t) : Calm s.cursor.rest :=
  calm_of_bind calm_of_typeName s head t h

theorem calm_of_mainHead (s : State) (head : FunctionHead) (t : State)
    (h : mainHead s = .ok head t) : Calm s.cursor.rest :=
  calm_of_bind (calm_of_expect (by decide)) s head t h

theorem calm_of_voidHead (s : State) (head : FunctionHead) (t : State)
    (h : voidHead s = .ok head t) : Calm s.cursor.rest :=
  calm_of_bind (calm_of_expect (by decide)) s head t h

theorem pass (part : Part) : Starts part.pass := by
  cases part with
  | done => exact .pure _
  | consts => exact .bind .constDecls fun _ => .pure _
  | vars => exact .bind .varDecls fun _ => .pure _
  | value => exact .bind (.first calm_of_valueHead) fun _ => .pure _
  | main => exact .bind (.first calm_of_mainHead) fun _ => .pure _
  | void => exact .bind (.first calm_of_voidHead) fun _ => .pure _
  | other => exact fun _ _ _ h => absurd h unexpected_ne_ok

theorem topLevel? : Starts Pass.topLevel? := by
  intro s found t h
  rw [topLevel?_eq] at h
  exact pass _ s found t h

end Starts

/-- The end of a body, where all that matters is whether its statements return on every way. -/
theorem After.checkedBody {γ : Gap} {returnType : Ty} {consts consts' : List ConstDecl}
    {vars vars' : List VarDecl} {stmts stmts' : List Stmt}
    (h : Stmt.anyAlwaysReturns stmts' = Stmt.anyAlwaysReturns stmts) :
    After γ false (fun _ _ => True)
      (do
        if returnType ≠ .void ∧ Stmt.anyAlwaysReturns stmts = false then
          Pass.report (← Pass.current).line .missingReturn
        return Body.mk consts vars stmts)
      (do
        if returnType ≠ .void ∧ Stmt.anyAlwaysReturns stmts' = false then
          Pass.report (← Pass.current).line .missingReturn
        return Body.mk consts' vars' stmts') := by
  refine .ite (by rw [h]) ?_ (.pure trivial)
  exact .sim .current .current fun _ => .sim (.report rfl _) (.blind (.report _ _)) fun _ =>
    .pure trivial

/-- The semicolon ends a statement, or one within it. -/
abbrev CrossesStmt (γ : Gap) (n margin : Nat) (pass : Pass Stmt) : Prop :=
  Crosses γ n margin (fun _ stmt r => γ.back ∈ stmt.endings r) Stmt.Like pass

namespace Crosses

variable {γ : Gap} {n : Nat}

section Simple

theorem assignment : CrossesStmt γ n 1 Pass.assignment := by
  refine .firstUpTo (fun _ => .expect _) fun name =>
    .upTo (fun _ => .blind (.resolveTarget name)) fun target =>
      .upTo (fun σ => .accept fun _ => σ.new_calm _ (by decide)) fun found => ?_
  cases found with
  | none =>
      exact .upTo (fun _ => .expect _) fun eq => .upTo (fun _ => .expression) fun value =>
        .upTo (fun _ => .blind (.emit _)) fun _ => .closing (fun _ _ => mem_ended.1) fun _ => rfl
  | some lbracket =>
      exact .upTo (fun _ => .expression) fun index => .upTo (fun _ => .checkIndex index) fun _ =>
        .upTo (fun σ => .recover fun _ => σ.new_calm _ (by decide)) fun rbracket =>
          .upTo (fun _ => .expect _) fun eq => .upTo (fun _ => .expression) fun value =>
            .upTo (fun _ => .blind (.emit _)) fun _ =>
              .closing (fun _ _ => mem_ended.1) fun _ => rfl

theorem callStatement (name : String) : CrossesStmt γ n 1 (Pass.callStatement name) := by
  refine .upTo (fun _ => .blind (.function? name)) fun found => ?_
  cases found with
  | none =>
      exact .firstUpTo (fun _ => .skipUnknownCall) fun _ =>
        .closing (fun _ _ => mem_ended.1) fun _ => rfl
  | some callee =>
      exact .firstUpTo (fun _ => .call .expression callee) fun _ =>
        .closing (fun _ _ => mem_ended.1) fun _ => rfl

theorem nameStatement (name : String) : CrossesStmt γ n 1 (Pass.nameStatement name) := by
  refine .fork (by decide) (.callStatement name) (.behind (fun _ => .blind (.nearest? name))
    fun _ => .ite ?_ .assignment)
  exact .behind (fun _ => .advance) fun _ => .behind (fun _ => .blind (.report _ _)) fun _ =>
    .behind (fun _ => .skipPast _) fun _ => .pure fun _ => List.not_mem_nil

theorem scan : CrossesStmt γ n 1 Pass.scan :=
  .firstUpTo (fun _ => .expect _) fun _ => .upTo (fun _ => .expect _) fun _ =>
    .upTo (fun _ => .commaList (fun _ => .scanTarget) .scanTarget) fun _ =>
      .upTo (fun σ => .recover fun _ => σ.new_calm _ (by decide)) fun _ =>
        .closing (fun _ _ => mem_ended.1) fun _ => rfl

theorem print : CrossesStmt γ n 1 Pass.print :=
  .firstUpTo (fun _ => .expect _) fun _ => .upTo (fun _ => .expect _) fun _ =>
    .upTo (fun _ => .printItem) fun _ =>
      .upTo (fun σ => .recover fun _ => σ.new_calm _ (by decide)) fun _ =>
        .closing (fun _ _ => mem_ended.1) fun _ => rfl

theorem ret (returnType : Ty) : CrossesStmt γ n 1 (Pass.ret returnType) := by
  refine .firstUpTo (fun _ => .expect _) fun keyword =>
    .upTo (fun σ => .accept fun _ => σ.new_calm _ (by decide)) fun found => ?_
  cases found with
  | none =>
      exact .upTo (fun _ => .blind (.emit _)) fun _ => .upTo (fun _ => .checkReturn _ _) fun _ =>
        .closing (fun _ _ => mem_ended.1) fun _ => rfl
  | some lparen =>
      exact .upTo (fun _ => .expression) fun _ => .upTo (fun _ => .blind (.emit _)) fun _ =>
        .upTo (fun σ => .recover fun _ => σ.new_calm _ (by decide)) fun _ =>
          .upTo (fun _ => .checkReturn _ _) fun _ => .closing (fun _ _ => mem_ended.1) fun _ => rfl

theorem constDecl (scope : Scope) : Crosses γ n 2 (fun _ decl r => γ.back ∈ decl.endings r)
    (fun _ _ => True) (Pass.constDecl scope) :=
  .upTo (fun _ => .expect _) fun _ => .firstUpTo (fun _ => .typeName) fun type =>
    .firstUpTo (fun _ => .constItems scope type.ty) fun _ =>
      .closing (fun _ _ => mem_ended.1) fun _ => trivial

theorem varDecl (scope : Scope) : Crosses γ n 2 (fun _ decl r => γ.back ∈ decl.endings r)
    (fun _ _ => True) (Pass.varDecl scope) :=
  .firstUpTo (fun _ => .typeName) fun type => .firstUpTo (fun _ => .varItems scope type.ty) fun _ =>
    .closing (fun _ _ => mem_ended.1) fun _ => trivial

end Simple

section Nested

variable {returnType : Ty} (hstmt : CrossesStmt γ n 1 (Pass.statement returnType))

include hstmt

theorem conditional : CrossesStmt γ (n + 1) 2 (Pass.conditional (Pass.statement returnType)) := by
  refine .first (fun _ => .expect _) fun keyword => .behind (fun _ => .blind .freshLabel)
    fun elseLabel => .behind (fun _ => .guarded _ _ .vacuous) fun guard =>
      .split hstmt (fun _ => .statement _ .vacuous) (fun _ => rfl)
        (fun body m hm _ => ?_) fun body body' hbody => ?_
  · refine .pastBlind .freshLabel fun endLabel => .pastBlind (.emit _) fun _ =>
      .pastBlind (.emit _) fun _ => .past (fun _ => .accept nofun) (.accept _) fun found => ?_
    cases found with
    | none =>
        refine .pastBlind (.emit _) fun _ => .pure fun r hends => ?_
        simp only [Stmt.endings] at hends
        exact hends.2 hends.1
    | some elseKeyword =>
        refine .splitPast (hstmt.mono hm (Nat.le_refl _)) (fun _ => .statement _ .vacuous)
          consumes_statement (fun _ => rfl) (fun alternative _ _ _ => .pastBlind (.emit _) fun _ =>
            .pure fun r hends => ?_) fun alternative alternative' halternative =>
              .emit fun _ => .pure ?_
        · simp only [Stmt.endings, List.mem_append] at hends
          exact hends.1.1.elim hends.1.2 hends.2
        · simp only [Stmt.Like, Stmt.alwaysReturns] at halternative ⊢
          rw [halternative]
  · refine .freshLabel fun endLabel => .emit fun _ => .emit fun _ => .accept (by decide)
      (.emit fun _ => .pure ?_) fun elseKeyword => .sim (.statement rfl returnType) .statement
        fun alternative => .emit fun _ => .pure ?_
    · simp only [Stmt.Like, Stmt.alwaysReturns]
    · simp only [Stmt.Like, Stmt.alwaysReturns, Stmt.alwaysReturns_rename] at hbody ⊢
      rw [hbody]

theorem whileLoop : CrossesStmt γ (n + 1) 2 (Pass.whileLoop (Pass.statement returnType)) := by
  refine .first (fun _ => .expect _) fun keyword => .behind (fun _ => .blind .freshLabel)
    fun loopLabel => .behind (fun _ => .blind (.emit _)) fun _ => .behind (fun _ => .expect _)
      fun lparen => .behind (fun _ => .blind .freshLabel) fun endLabel =>
        .behind (fun _ => .condition _ _ .vacuous) fun condition =>
          .behind (fun _ => .recover nofun) fun rparen => .split hstmt
            (fun _ => .statement _ .vacuous) (fun _ => rfl) (fun body _ _ _ => ?_)
            fun body body' _ => ?_
  · refine .pastBlind (.emit _) fun _ => .pastBlind (.emit _) fun _ => .pure fun r hends => ?_
    simp only [Stmt.endings] at hends
    exact hends.2 hends.1
  · exact .emit fun _ => .emit fun _ => .pure (by simp only [Stmt.Like, Stmt.alwaysReturns])

theorem doLoop : CrossesStmt γ (n + 1) 2 (Pass.doLoop (Pass.statement returnType)) := by
  refine .first (fun _ => .expect _) fun keyword => .behind (fun _ => .blind .freshLabel)
    fun loopLabel => .behind (fun _ => .blind (.emit _)) fun _ =>
      .split hstmt (fun _ => .statement _ .vacuous) (fun _ => rfl)
        (fun body _ _ _ => ?_) fun body body' hbody => ?_
  · refine .past (fun _ => .recover nofun) (.recover _ _) fun whileKeyword =>
      .past (fun _ => .guarded _ _ .vacuous) (consumes_guarded _ _) fun guard =>
        .pure fun r hends => ?_
    simp only [Stmt.endings] at hends
    exact hends.2 hends.1
  · have hguard : Sim (.lines id) γ.residue ⟨true, true⟩ ⟨true, true⟩ (Guard.rename (.lines id))
        (Pass.guarded loopLabel .onTrue) (Pass.guarded (loopLabel.rename (.lines id)) .onTrue) :=
      .guarded _ _
    rw [Label.rename_lines] at hguard
    refine .recover (by decide) (fun s guard t hrun => ?_) hguard fun whileKeyword guard => ?_
    · have hnear : Nearsighted false Always (Pass.guarded loopLabel .onTrue) :=
        fun _ => .guarded _ _ .vacuous
      exact (later_of_misses hnear hrun).1
    · simpa only [Stmt.Like, Stmt.alwaysReturns] using hbody

theorem forLoop : CrossesStmt γ (n + 1) 2 (Pass.forLoop (Pass.statement returnType)) := by
  refine .first (fun _ => .expect _) fun keyword => .behind (fun _ => .expect _) fun lparen => ?_
  refine .behind (fun _ => .expect _) fun name =>
    .behind (fun _ => .blind (.resolveTarget name)) fun init => ?_
  refine .behind (fun _ => .expect _) fun initAssign => .behind (fun _ => .expression) fun start =>
    .behind (fun _ => .blind (.emit _)) fun _ => ?_
  refine .behind (fun _ => .blind .freshLabel) fun loopLabel =>
    .behind (fun _ => .blind (.emit _)) fun _ => .behind (fun _ => .recover nofun) fun initEnd => ?_
  refine .behind (fun _ => .blind .freshLabel) fun endLabel =>
    .behind (fun _ => .condition _ _ .vacuous) fun condition =>
      .behind (fun _ => .recover nofun) fun conditionEnd => ?_
  refine .behind (fun _ => .expect _) fun name =>
    .behind (fun _ => .blind (.resolveTarget name)) fun target => ?_
  refine .behind (fun _ => .expect _) fun stepAssign => .behind (fun _ => .expect _) fun name =>
    .behind (fun _ => .blind (.resolve name)) fun source => ?_
  refine .joined (.report _ _) fun _ => .behind (fun _ => .stepSign)
    fun (op, opToken) => .behind (fun _ => .unsigned) fun amount => .behind (fun _ => .recover nofun)
      fun rparen => .split hstmt (fun _ => .statement _ .vacuous) (fun _ => rfl)
        (fun body _ _ _ => ?_) fun body body' _ => ?_
  · refine .pastBlind (.emit _) fun _ => .pastBlind (.emit _) fun _ => .pastBlind (.emit _) fun _ =>
      .pure fun r hends => ?_
    simp only [Stmt.endings] at hends
    exact hends.2 hends.1
  · exact .emit fun _ => .emit fun _ => .emit fun _ =>
      .pure (by simp only [Stmt.Like, Stmt.alwaysReturns])

theorem statements : Crosses γ n 1
    (fun _ stmts r => γ.back ∈ endingsOf Stmt.tokens Stmt.endings stmts r)
    (fun stmts stmts' => Stmt.anyAlwaysReturns stmts' = Stmt.anyAlwaysReturns stmts)
    (Pass.statements (Pass.statement returnType)) := by
  have hsim : Respects (.lines id) γ.residue ⟨false, true⟩ ⟨false, true⟩ (Stmt.rename (.lines id))
      (Pass.statement returnType) :=
    (Sim.statement rfl returnType).mono id id (fun _ => rfl) id
  rw [statements_eq_many]
  refine .many (.asked (asks_statement? _) hstmt (fun _ => .statement _ .vacuous) (fun _ => rfl)
      fun _ u hlength => ?_)
    (fun _ => .statement? (.statement returnType))
    (fun _ => .statement? (.statement returnType .vacuous))
    (.asked (asks_statement? _) consumes_statement) (.asked (asks_statement? _) .statement)
    (.bind (.nextIs _) fun _ => .ite Iff.rfl (.pure rfl) (.bind hsim fun _ => .pure rfl))
    (fun _ => rfl) (fun _ => rfl) Stmt.anyAlwaysReturns_map_rename ?_
  · have hne := List.length_pos_iff.1 (Nat.lt_of_lt_of_le Nat.one_pos hlength)
    rw [Splice.nextIs_feed hne, Splice.nextIs_feed hne]
  · intro stmt stmt' stmts stmts' hlike hlikes
    simp only [Stmt.Like, Stmt.anyAlwaysReturns] at hlike ⊢
    rw [hlike, hlikes]

theorem block : CrossesStmt γ (n + 1) 2 (do
    let lbrace ← Pass.expect .lbrace
    let body ← Pass.statements (Pass.statement returnType)
    return .block lbrace body (← Pass.expect .rbrace)) := by
  refine .first (fun _ => .expect _) fun lbrace => .split (statements hstmt)
    (fun _ => .statements (.statement _ .vacuous) fun _ => .statement _) (fun _ => rfl)
    (fun body _ _ _ => ?_) fun body body' hbody => ?_
  · refine .past (fun _ => .expect _) (.expect _) fun rbrace => .pure fun r hends => ?_
    rw [Stmt.endings_block] at hends
    exact hends.2 hends.1
  · refine .sim (.expect _) (.expect (by decide)) fun rbrace => .pure ?_
    simpa only [Stmt.Like, Stmt.alwaysReturns] using hbody

theorem statementOf : CrossesStmt γ (n + 1) 1
    (Pass.statementOf returnType (Pass.statement returnType)) := by
  refine .current fun token => ?_
  cases token.kind with
  | kwIf => exact (conditional hstmt).mono (Nat.le_refl _) (by decide)
  | kwWhile => exact (whileLoop hstmt).mono (Nat.le_refl _) (by decide)
  | kwDo => exact (doLoop hstmt).mono (Nat.le_refl _) (by decide)
  | kwFor => exact (forLoop hstmt).mono (Nat.le_refl _) (by decide)
  | lbrace => exact (block hstmt).mono (Nat.le_refl _) (by decide)
  | ident => exact .nameStatement _
  | kwScanf => exact .scan
  | kwPrintf => exact .print
  | kwReturn => exact .ret returnType
  | semicolon => exact .behind (fun _ => .expect _) fun _ => .pure fun _ => List.not_mem_nil
  | _ => exact .unexpected _

end Nested

/-- A statement has fewer tokens ahead of the statements in it than ahead of itself. -/
theorem statement (returnType : Ty) : CrossesStmt γ n 1 (Pass.statement returnType) := by
  induction n with
  | zero => exact .zero
  | succ n ih =>
      rw [statement_fix]
      exact statementOf ih

section Declarations

theorem constDecls (scope : Scope) : Crosses γ n 2
    (fun _ decls r => γ.back ∈ endingsOf ConstDecl.tokens ConstDecl.endings decls r)
    (fun _ _ => True) (Pass.constDecls scope) := by
  have hsim : Respects (.lines id) γ.residue ⟨false, true⟩ ⟨false, true⟩
      (ConstDecl.rename (.lines id)) (Pass.constDecl scope) :=
    (Sim.constDecl fun _ => rfl).mono id id (fun _ => rfl) id
  rw [constDecls_eq_many]
  refine .many (.asked (asks_constDecl? scope) (.constDecl scope)
      (fun _ => .constDecl scope .vacuous) (fun _ => trivial) fun _ u hlength => ?_)
    (fun _ => .constDecl? scope) (fun _ => .constDecl? scope .vacuous)
    (.asked (asks_constDecl? scope) consumes_constDecl)
    (.asked (asks_constDecl? scope) (.first (Starts.calm_of_expect (by decide))))
    (.bind (.nextIs _) fun _ => .ite Iff.rfl (.bind hsim fun _ => .pure rfl) (.pure rfl))
    (fun _ => trivial) (fun _ => trivial) (fun _ => trivial) fun _ _ _ _ _ _ => trivial
  have hne := List.length_pos_iff.1 (Nat.lt_of_lt_of_le Nat.two_pos hlength)
  rw [Splice.nextIs_feed hne, Splice.nextIs_feed hne]

theorem varDecls (scope : Scope) : Crosses γ n 2
    (fun _ decls r => γ.back ∈ endingsOf VarDecl.tokens VarDecl.endings decls r)
    (fun _ _ => True) (Pass.varDecls scope) := by
  have hsim : Respects (.lines id) γ.residue ⟨false, true⟩ ⟨false, true⟩
      (VarDecl.rename (.lines id)) (Pass.varDecl scope) :=
    (Sim.varDecl fun _ => rfl).mono id id (fun _ => rfl) id
  rw [varDecls_eq_many]
  refine .many (.asked (asks_varDecl? scope) (.varDecl scope) (fun _ => .varDecl scope .vacuous)
      (fun _ => trivial) fun hcalm u hlength => ?_)
    (fun _ => .varDecl? scope) (fun _ => .varDecl? scope)
    (.asked (asks_varDecl? scope) consumes_varDecl)
    (.asked (asks_varDecl? scope) (.first Starts.calm_of_typeName))
    (.bind .nextIsTypeName fun _ => .bind .atFunction fun _ =>
      .ite Iff.rfl (.bind hsim fun _ => .pure rfl) (.pure rfl))
    (fun _ => trivial) (fun _ => trivial) (fun _ => trivial) fun _ _ _ _ _ _ => trivial
  obtain ⟨first, second, rest, hrest⟩ := Splice.exists_two hlength
  exact Misses.atVarDecl_feed (σ := γ.splice hcalm) hrest

end Declarations

section Program

theorem body (returnType : Ty) : Crosses γ n 1 (fun _ body r => γ.back ∈ body.endings r)
    (fun _ _ => True) (Pass.body returnType) := by
  have hstmts : ∀ moved, Respects (.lines id) γ.residue ⟨moved, true⟩ ⟨moved, true⟩
      (List.map (Stmt.rename (.lines id))) (Pass.statements (Pass.statement returnType)) :=
    fun _ => .statements (.statement rfl returnType)
  refine .split ((constDecls .local).mono (Nat.le_refl _) (by decide))
    (fun _ => .constDecls _ .vacuous) (fun _ => trivial) (fun consts _ _ _ => ?_)
    fun consts consts' _ => ?_
  · refine .splitPast ((varDecls .local).mono (Nat.le_refl _) (by decide)) (fun _ => .varDecls _)
      consumes_varDecls (fun _ => trivial) (fun vars _ _ _ => ?_) fun vars vars' _ => ?_
    · refine .splitPast (statements (statement returnType))
        (fun _ => .statements (.statement _ .vacuous) fun _ => .statement _) consumes_statements
        (fun _ => rfl) (fun stmts _ _ _ => ?_) fun stmts stmts' hlike => After.checkedBody hlike
      refine .ite (.current fun _ => .pastBlind (.report _ _) fun _ => .pure fun r => ?_)
        (.pure fun r => ?_)
      all_goals
        rintro ⟨⟨⟨hmem, hconsts⟩, hvars⟩, hstmts⟩
        simp only [Body.endings, List.mem_append] at hmem
        exact hmem.elim (fun h => h.elim hconsts hvars) hstmts
    · exact .sim (hstmts _) .statements fun stmts =>
        After.checkedBody (Stmt.anyAlwaysReturns_map_rename stmts)
  · exact .sim (.varDecls fun _ => rfl) .varDecls fun _ => .sim (hstmts _) .statements fun stmts =>
      After.checkedBody (Stmt.anyAlwaysReturns_map_rename stmts)

theorem function {head : Pass FunctionHead} (hhead : Nearsighted false Always head) :
    Crosses γ n 2 (fun _ f r => γ.back ∈ f.endings r) (fun _ _ => True) (Pass.function head) := by
  refine (first hhead fun head => .behind (fun _ => .blind (.announce head)) fun _ =>
    .behind (fun _ => .expect _) fun lbrace => .split (body head.ty) (fun _ => .body _)
      (fun _ => trivial) (fun body _ _ _ => ?_) fun body body' _ => ?_).mono (Nat.le_succ n)
        (Nat.le_refl _)
  · exact .joined (.emit _) fun _ => .pastBlind (.emit _) fun _ =>
      .past (fun _ => .expect _) (.expect _) fun _ => .pastBlind (.keepTable _ _) fun _ =>
        .pure fun r hends => hends.2 hends.1
  · exact .joined fun _ => .emit fun _ => .sim (.expect _) (.expect (by decide)) fun _ =>
      .sim (.keepTable (fun _ => rfl) _) (.blind (.keepTable _ _)) fun _ => .pure trivial

theorem topLevel? : Crosses γ n 2 (fun _ found r => γ.back ∈ found.elim [] (TopLevel.endings · r))
    (Option.Rel fun _ _ => True) Pass.topLevel? := by
  have hfunction : ∀ head, Nearsighted false Always head → Crosses γ n 2
      (fun _ found r => γ.back ∈ found.elim [] (TopLevel.endings · r)) (Option.Rel fun _ _ => True)
      (Pass.function head >>= fun f => Pure.pure (some (.function f))) :=
    fun head hhead => .split (function hhead) (fun σ _ => .function (hhead σ)) (fun _ => trivial)
      (fun _ _ _ _ => .pure fun r hends => hends.2 hends.1) fun _ _ _ => .pure (.some trivial)
  refine .decided partAt Part.pass topLevel?_eq (fun hcalm u hlength => ?_) fun part => ?_
  · obtain ⟨first, second, rest, hrest⟩ := Splice.exists_two hlength
    exact congrArg Part.pass (Misses.partAt_feed (σ := γ.splice hcalm) hrest)
  · cases part with
    | done => exact .pure fun _ => List.not_mem_nil
    | consts =>
        exact .split (constDecls .global) (fun _ => .constDecls _ .vacuous) (fun _ => trivial)
          (fun _ _ _ _ => .pure fun r hends => hends.2 hends.1) fun _ _ _ => .pure (.some trivial)
    | vars =>
        exact .split (varDecls .global) (fun _ => .varDecls _) (fun _ => trivial)
          (fun _ _ _ _ => .pure fun r hends => hends.2 hends.1) fun _ _ _ => .pure (.some trivial)
    | value => exact hfunction _ fun _ => .valueHead
    | main => exact hfunction _ fun _ => .mainHead
    | void => exact hfunction _ fun _ => .voidHead
    | other => exact .unexpected _

theorem parts : Crosses γ n 2
    (fun _ items r => γ.back ∈ endingsOf TopLevel.tokens TopLevel.endings items r)
    (fun _ _ => True) Pass.parts :=
  .many topLevel? (fun _ => .topLevel?) (fun _ => .topLevel?) consumes_topLevel? .topLevel?
    (.topLevel? rfl) (fun _ => trivial) (fun _ => trivial) (fun _ => trivial)
    fun _ _ _ _ _ _ => trivial

end Program

end Crosses

end Pass

end OnePass
