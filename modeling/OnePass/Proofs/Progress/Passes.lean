import OnePass.Proofs.Progress.Basic

/-!
Every pass consumes a token before it calls itself, so that the bound on nesting is never met: each
nested pass and each loop is its own phrase, calling itself.
-/

namespace OnePass

namespace Pass

variable {n : Nat}

/-- What an expression is, if `expr` reads the expressions inside it. -/
def expressionOf (expr : Pass Expr) : Pass Expr := do
  let first ← signedTerm expr
  extend (chainLink ArithOp.additive? (term expr) Term.value Expr.accumulator? Expr.value
    Expr.chain) first

/-- What makes arguments longer: a comma and an argument behind it. -/
def argumentLink (expr : Pass Expr) (function : String) (args : Args) : Pass (Option Args) := do
  match ← accept .comma with
  | none => return none
  | some comma => return some (.more args comma (← argument expr function args.length))

/-- What a statement is, if `stmt` reads the statements inside it. -/
def statementOf (returnType : Ty) (stmt : Pass Stmt) : Pass Stmt := do
  let token ← current
  match token.kind with
  | .kwIf => conditional stmt
  | .kwWhile => whileLoop stmt
  | .kwDo => doLoop stmt
  | .kwFor => forLoop stmt
  | .lbrace =>
    let lbrace ← expect .lbrace
    let body ← statements stmt
    return .block lbrace body (← expect .rbrace)
  | .ident => nameStatement token.value
  | .kwScanf => scan
  | .kwPrintf => print
  | .kwReturn => ret returnType
  | .semicolon => return .empty (← expect .semicolon)
  | _ => unexpected .statement

/-- What parameters are, if `more` reads those behind a comma. -/
def paramsOf (function : String) (more : Pass Params) : Pass Params := do
  if ← nextIsTypeName then
    let param ← param function
    match ← accept .comma with
    | none => return .last param
    | some comma => return .cons param comma (← more)
  else
    return .nil

/-- The next statement of a block, unless the block ends. -/
def statement? (stmt : Pass Stmt) : Pass (Option Stmt) := do
  if ← nextIs .rbrace then return none else return some (← stmt)

/-- The next constant declaration, if there is one. -/
def constDecl? (scope : Scope) : Pass (Option ConstDecl) := do
  if ← nextIs .kwConst then return some (← constDecl scope) else return none

/-- Whether a variable declaration comes next: a type, but no function. -/
def atVarDecl (cursor : Cursor) : Bool :=
  ((cursor.peekKind? 0).map TokenKind.isTypeName).getD false &&
    !decide (cursor.peekKind? 2 = some .lparen)

/-- The next variable declaration, if there is one. -/
def varDecl? (scope : Scope) : Pass (Option VarDecl) := do
  if (← nextIsTypeName) && !(← atFunction) then return some (← varDecl scope) else return none

/-- What may come next in a program. -/
inductive Part where
  | done
  | consts
  | vars
  | value
  | main
  | void
  | other

/-- What comes next in a program. -/
def partAt (cursor : Cursor) : Part :=
  match cursor.peekKind? 0 with
  | none => .done
  | some .kwConst => .consts
  | some .kwInt | some .kwChar => if cursor.peekKind? 2 = some .lparen then .value else .vars
  | some .kwVoid => if cursor.peekKind? 1 = some .kwMain then .main else .void
  | some _ => .other

/-- The pass that reads a part. -/
def Part.pass : Part → Pass (Option TopLevel)
  | done => return none
  | consts => return some (.consts (← constDecls .global))
  | vars => return some (.vars (← varDecls .global))
  | value => return some (.function (← function valueHead))
  | main => return some (.function (← function mainHead))
  | void => return some (.function (← function voidHead))
  | other => unexpected .declaration

theorem statements_eq_many (stmt : Pass Stmt) : statements stmt = many (statement? stmt) := rfl

theorem constDecls_eq_many (scope : Scope) : constDecls scope = many (constDecl? scope) := rfl

theorem varDecls_eq_many (scope : Scope) : varDecls scope = many (varDecl? scope) := rfl

theorem statement?_eq (stmt : Pass Stmt) (s : State) :
    statement? stmt s =
      if s.cursor.nextIs .rbrace then .ok none s else (stmt >>= fun a => pure (some a)) s := by
  change (if s.cursor.nextIs .rbrace then pure none else stmt >>= fun a => pure (some a) : Pass _) s
    = _
  by_cases h : s.cursor.nextIs .rbrace <;> simp only [h] <;> rfl

theorem constDecl?_eq (scope : Scope) (s : State) :
    constDecl? scope s =
      if s.cursor.nextIs .kwConst then (constDecl scope >>= fun a => pure (some a)) s
      else .ok none s := by
  change (if s.cursor.nextIs .kwConst then constDecl scope >>= fun a => pure (some a)
    else pure none : Pass _) s = _
  by_cases h : s.cursor.nextIs .kwConst <;> simp only [h] <;> rfl

theorem varDecl?_eq (scope : Scope) (s : State) :
    varDecl? scope s =
      if atVarDecl s.cursor then (varDecl scope >>= fun a => pure (some a)) s else .ok none s := by
  change (if atVarDecl s.cursor then varDecl scope >>= fun a => pure (some a)
    else pure none : Pass _) s = _
  by_cases h : atVarDecl s.cursor <;> simp only [h] <;> rfl

theorem nextIs_of_partAt {cursor : Cursor} (h : partAt cursor = .consts) :
    cursor.nextIs .kwConst = true := by
  unfold partAt at h
  unfold Cursor.nextIs
  split at h
  · cases h
  · next hpeek => rw [hpeek]; decide
  · split at h <;> cases h
  · split at h <;> cases h
  · split at h <;> cases h
  · cases h

theorem atVarDecl_of_partAt {cursor : Cursor} (h : partAt cursor = .vars) :
    atVarDecl cursor = true := by
  have hdecl : ∀ kind, cursor.peekKind? 0 = some kind → kind.isTypeName = true →
      (if cursor.peekKind? 2 = some .lparen then Part.value else .vars) = .vars →
      atVarDecl cursor = true := by
    intro kind hkind htype hvars
    by_cases hparen : cursor.peekKind? 2 = some .lparen
    · rw [if_pos hparen] at hvars
      cases hvars
    · simp [atVarDecl, hkind, htype, hparen]
  unfold partAt at h
  split at h
  · cases h
  · cases h
  · next hpeek => exact hdecl _ hpeek rfl h
  · next hpeek => exact hdecl _ hpeek rfl h
  · split at h <;> cases h
  · cases h

theorem topLevel?_eq (s : State) : topLevel? s = (partAt s.cursor).pass s := by
  have hpeek : topLevel? s = (peekKind 0 >>= _ : Pass _) s := rfl
  rw [hpeek, bind_of_ok (show peekKind 0 s = .ok (s.cursor.peekKind? 0) s from rfl), partAt]
  have hvalue : (do
      if ← atFunction then return some (TopLevel.function (← function valueHead))
      else return some (.vars (← varDecls .global)) : Pass _) s =
      (if s.cursor.peekKind? 2 = some .lparen then Part.value else .vars).pass s := by
    change (if decide (s.cursor.peekKind? 2 = some .lparen) = true then Part.value.pass
      else Part.vars.pass) s = _
    by_cases h : s.cursor.peekKind? 2 = some .lparen
    · rw [if_pos h, if_pos (decide_eq_true h)]
    · rw [if_neg h, if_neg (by simpa using h)]
  cases s.cursor.peekKind? 0 with
  | none => rfl
  | some kind =>
      cases kind with
      | kwInt | kwChar => exact hvalue
      | kwVoid =>
          change (if s.cursor.peekKind? 1 = some .kwMain then Part.main.pass
            else Part.void.pass) s = _
          by_cases h : s.cursor.peekKind? 1 = some .kwMain
          · simp only [if_pos h]
          · simp only [if_neg h]
      | _ => rfl

namespace Alike

section Literals

theorem unsigned : Runs n Always Pass.unsigned := by
  refine .past (.expect _) fun token => ?_
  cases Text.signed? token.value.toList with
  | none => exact .throw nofun nofun
  | some value => exact .pure id

theorem integer : Runs n Always Pass.integer :=
  .bind (.acceptAs _) fun _ => .past .unsigned fun _ =>
    .blindly (.noteOverflow _) fun _ => .pure id

/-- What follows a type follows `int` or `char`. -/
theorem typeName_bind {β : Type} {takes : β → Prop} {next : TypeName → Pass β}
    (hnext : ∀ token ty, ty ≠ .void → Runs n Never (next { token, ty })) :
    Runs n takes (Pass.typeName >>= next) := by
  have hfails : (Pass.unexpected .typeName >>= next) = Pass.unexpected .typeName := by
    funext s
    cases hrest : s.cursor.rest with
    | nil =>
        rw [unexpected_nil hrest]
        exact bind_of_error (unexpected_nil hrest)
    | cons token rest =>
        rw [unexpected_cons hrest]
        exact bind_of_error (unexpected_cons hrest)
  unfold Pass.typeName
  rw [bind_assoc]
  refine .bind .current fun token => ?_
  split
  · rw [bind_assoc]
    exact .past .advance fun token => hnext token .int nofun
  · rw [bind_assoc]
    exact .past .advance fun token => hnext token .char nofun
  · rw [hfails]
    exact .unexpected _

theorem typeName : Runs n Always Pass.typeName := by
  rw [← bind_pure Pass.typeName]
  exact .typeName_bind fun _ _ _ => .pure id

theorem nextIsTypeName : Runs n Never Pass.nextIsTypeName :=
  .bind (.peekKind 0) fun _ => .pure id

theorem atFunction : Runs n Never Pass.atFunction :=
  .bind (.peekKind 2) fun _ => .pure id

end Literals

section Expr

theorem checkIndex (index : Expr) : Runs n Never (Pass.checkIndex index) :=
  .ite (.bind .lastLine fun _ => .blind (.report _ _)) (.pure id)

theorem checkCondition (operand : Expr) :
    Runs n Never (Pass.checkCondition operand) :=
  .ite (.bind .lastLine fun _ => .blind (.report _ _)) (.pure id)

theorem skipParens :
    Runs n Never (Pass.onCursor Cursor.skipParens) := by
  rw [skipParens_eq]
  exact .bind (.expect _) fun _ => .skipClosing 0

theorem skipUnknownCall : Runs n Always Pass.skipUnknownCall :=
  .past .advance fun _ => .blindly (.report _ _) fun _ => .bind .skipParens fun _ => .pure id

/-- An operator comes before its operand, which need not consume anything of its own. -/
theorem chainLink {α β : Type} {operator? : TokenKind → Option ArithOp} {operand operand' : Pass β}
    {value : β → Operand} {accumulator? : α → Option Reg} {valueSoFar : α → Operand}
    {longer : α → ArithOp → Token → β → Reg → α} (hoperand : Alike n Never operand operand')
    (chain : α) :
    Alike n IfSome (Pass.chainLink operator? operand value accumulator? valueSoFar longer chain)
      (Pass.chainLink operator? operand' value accumulator? valueSoFar longer chain) :=
  .found (Nat.le_succ n) (.acceptAs _) (.pure nofun) fun _ => .bind hoperand fun _ =>
    .blindly (.combine _ _ _ _) fun _ => .pure id

variable {expr expr' : Pass Expr} (hexpr : Alike n Always expr expr')

include hexpr

theorem argument (function : String) (position : Nat) :
    Alike n Always (Pass.argument expr function position)
      (Pass.argument expr' function position) := by
  refine .past hexpr fun value => .blindly (.emit _) fun _ => ?_
  have hcode : ¬ value.ty.signatureCode?.isNone = true := by
    rw [Option.isNone_iff_eq_none, Ty.signatureCode?_eq_none_iff]
    exact value.ty_ne_void
  rw [if_neg hcode]
  exact .pure id

theorem argumentLink (function : String) (args : Args) :
    Alike n IfSome (Pass.argumentLink expr function args) (Pass.argumentLink expr' function args) :=
  .found (Nat.le_succ n) (.accept _) (.pure nofun) fun _ =>
    .bind (argument hexpr function args.length) fun _ => .pure id

theorem arguments (function : String) :
    Alike n Never (Pass.arguments expr function) (Pass.arguments expr' function) :=
  .bind (.nextIs _) fun _ => .bind (.nextIs _) fun _ => .ite (.pure id)
    (.bind (argument hexpr function 0) fun _ => .extend (argumentLink hexpr function) _)

theorem call (callee : Symbol) :
    Alike (n + 1) Always (Pass.call expr callee) (Pass.call expr' callee) :=
  .after (Nat.le_refl _) (.expect _) fun name => .bind (.expect _) fun _ =>
    .blindly (.emit _) fun _ => .bind (arguments hexpr name.value) fun args =>
      .blindly (.checkArguments name callee args) fun _ => .bind (.recover _ _) fun _ =>
        .blindly (.emit _) fun _ => .pure id

theorem callFactor (name : String) :
    Alike (n + 1) Always (Pass.callFactor expr name) (Pass.callFactor expr' name) := by
  refine .blindly (.function? name) fun found => ?_
  cases found with
  | none => exact .past .skipUnknownCall fun _ => .pure id
  | some callee =>
      exact .past (call hexpr callee) fun _ => .blindly .freshReg fun _ =>
        .blindly (.emit _) fun _ => .pure id

theorem nameFactor : Alike (n + 1) Always (Pass.nameFactor expr) (Pass.nameFactor expr') := by
  refine .after (Nat.le_refl _) (.expect _) fun name => .blindly (.resolve name) fun ref => ?_
  refine .joined (.blind (.report _ _)) fun _ => .bind (.accept _) fun found => ?_
  cases found with
  | none => exact .pure id
  | some lbracket =>
      exact .bind hexpr fun index => .bind (.checkIndex index) fun _ => .blindly .freshReg fun _ =>
        .blindly (.emit _) fun _ => .bind (.recover _ _) fun _ => .pure id

theorem factor : Alike (n + 1) Always (Pass.factor expr) (Pass.factor expr') := by
  refine .bind .current fun token => ?_
  have hinteger : Runs (n + 1) Always (do return Factor.int (← Pass.integer)) :=
    .past .integer fun _ => .pure id
  cases token.kind with
  | ident =>
      exact .bind (.peekKind 1) fun _ => .ite (callFactor hexpr token.value) (nameFactor hexpr)
  | lparen =>
      exact .after (Nat.le_refl _) .advance fun _ => .bind hexpr fun _ =>
        .bind (.recover _ _) fun _ => .pure id
  | charLit => exact .after (Nat.le_refl _) .advance fun _ => .pure id
  | intLit | plus | minus => exact hinteger
  | _ => exact .unexpected _

theorem term : Alike (n + 1) Always (Pass.term expr) (Pass.term expr') := by
  rw [term_eq, term_eq]
  exact .after (Nat.le_refl _) (factor hexpr) fun _ => .extend (chainLink (factor hexpr).later) _

theorem signedTerm : Alike (n + 1) Always (Pass.signedTerm expr) (Pass.signedTerm expr') := by
  refine .found (Nat.le_succ _) (.acceptAs _) ?_ fun found => ?_
  · exact .past (term hexpr) fun _ => .pure id
  · exact .bind (term hexpr) fun body => .ite (.blindly (.negate _) fun _ => .pure id) (.pure id)

theorem expressionOf : Alike (n + 1) Always (Pass.expressionOf expr) (Pass.expressionOf expr') :=
  .after (Nat.le_refl _) (signedTerm hexpr) fun _ => .extend (chainLink (term hexpr).later) _

omit hexpr

theorem expression : Runs n Always Pass.expression :=
  .nest fun _ _ _ => expressionOf

theorem condition (label : Label) (sense : Sense) :
    Runs n Always (Pass.condition label sense) := by
  refine .past .expression fun lhs => .bind (.checkCondition lhs) fun _ => ?_
  refine .bind (.acceptAs _) fun found => ?_
  cases found with
  | none => exact .blindly (.emit _) fun _ => .pure id
  | some found =>
      exact .bind .expression fun rhs => .bind (.checkCondition rhs) fun _ =>
        .blindly (.emit _) fun _ => .pure id

end Expr

section Stmt

theorem guarded (label : Label) (sense : Sense) :
    Runs n Always (Pass.guarded label sense) :=
  .past (.expect _) fun _ => .bind (.condition _ _) fun _ => .bind (.recover _ _) fun _ => .pure id

theorem stepSign : Runs n Never Pass.stepSign := by
  refine .bind (.acceptAs _) fun found => ?_
  cases found with
  | none => exact .unexpected _
  | some sign => exact .pure id

theorem assignment : Runs n Always Pass.assignment := by
  refine .past (.expect _) fun name =>
    .blindly (.resolveTarget name) fun target => .bind (.accept _) fun found => ?_
  cases found with
  | none =>
      exact .bind (.expect _) fun _ => .bind .expression fun _ => .blindly (.emit _) fun _ =>
        .bind (.recover _ _) fun _ => .pure id
  | some lbracket =>
      exact .bind .expression fun index => .bind (.checkIndex index) fun _ =>
        .bind (.recover _ _) fun _ => .bind (.expect _) fun _ => .bind .expression fun _ =>
          .blindly (.emit _) fun _ => .bind (.recover _ _) fun _ => .pure id

theorem callStatement (name : String) :
    Runs n Always (Pass.callStatement name) := by
  refine .blindly (.function? name) fun found => ?_
  cases found with
  | none => exact .past .skipUnknownCall fun _ => .bind (.recover _ _) fun _ => .pure id
  | some callee =>
      exact .past ((call .expression callee).weaken (Nat.le_succ n) fun _ => id)
        fun _ => .bind (.recover _ _) fun _ => .pure id

theorem nameStatement (name : String) :
    Runs n Always (Pass.nameStatement name) := by
  refine .bind (.peekKind 1) fun _ => .ite (.callStatement name) ?_
  refine .blindly (.nearest? name) fun _ => .ite ?_ .assignment
  exact .past .advance fun _ => .blindly (.report _ _) fun _ =>
    .bind (.skipPast _) fun _ => .pure id

theorem scanTarget : Runs n Always Pass.scanTarget := by
  refine .past (.expect _) fun name => .blindly (.resolve name) fun ref => ?_
  cases ref.symbol with
  | none => exact .blindly (.report _ _) fun _ => .pure id
  | some symbol => exact .blindly (.emit _) fun _ => .pure id

theorem scan : Runs n Always Pass.scan :=
  .past (.expect _) fun _ => .bind (.expect _) fun _ => .bind (.commaList .scanTarget) fun _ =>
    .bind (.recover _ _) fun _ => .bind (.recover _ _) fun _ => .pure id

theorem printValue : Runs n Always Pass.printValue := by
  refine .past .expression fun value => ?_
  cases value.ty <;> exact .blindly (.emit _) fun _ => .blindly (.emit _) fun _ => .pure id

theorem printItem : Runs n Never Pass.printItem := by
  refine .bind (.nextIs _) fun _ => .ite ?_ (.bind .printValue fun _ => .pure id)
  refine .bind .advance fun _ => .blindly (.intern _) fun _ => ?_
  refine .blindly (.emit _) fun _ => .bind (.accept _) fun found => ?_
  cases found with
  | none => exact .pure id
  | some comma => exact .bind .printValue fun _ => .pure id

theorem print : Runs n Always Pass.print :=
  .past (.expect _) fun _ => .bind (.expect _) fun _ => .bind .printItem fun _ =>
    .bind (.recover _ _) fun _ => .bind (.recover _ _) fun _ => .pure id

theorem checkReturn (returnType ty : Ty) :
    Runs n Never (Pass.checkReturn returnType ty) :=
  .ite (.bind .lastLine fun _ => .blind (.report _ _))
    (.ite (.bind .lastLine fun _ => .blind (.report _ _)) (.pure id))

theorem ret (returnType : Ty) : Runs n Always (Pass.ret returnType) := by
  refine .past (.expect _) fun keyword => .bind (.accept _) fun found => ?_
  cases found with
  | none =>
      exact .blindly (.emit _) fun _ => .bind (.checkReturn _ _) fun _ =>
        .bind (.recover _ _) fun _ => .pure id
  | some lparen =>
      exact .bind .expression fun _ => .blindly (.emit _) fun _ => .bind (.recover _ _) fun _ =>
        .bind (.checkReturn _ _) fun _ => .bind (.recover _ _) fun _ => .pure id

variable {stmt stmt' : Pass Stmt} (hstmt : Alike n Always stmt stmt')

include hstmt

theorem statement? : Alike n IfSome (Pass.statement? stmt) (Pass.statement? stmt') :=
  .bind (.nextIs _) fun _ => .ite (.pure nofun) (.past hstmt fun _ => .pure id)

theorem statements : Alike n Never (Pass.statements stmt) (Pass.statements stmt') :=
  .many (statement? hstmt)

theorem conditional :
    Alike (n + 1) Always (Pass.conditional stmt) (Pass.conditional stmt') := by
  refine .after (Nat.le_refl _) (.expect _) fun _ => .blindly .freshLabel fun _ => ?_
  refine .bind (.guarded _ _) fun _ => .bind hstmt fun _ => .blindly .freshLabel fun _ => ?_
  refine .blindly (.emit _) fun _ => .blindly (.emit _) fun _ => ?_
  refine .bind (.accept _) fun found => ?_
  cases found with
  | none => exact .blindly (.emit _) fun _ => .pure id
  | some elseKeyword => exact .bind hstmt fun _ => .blindly (.emit _) fun _ => .pure id

theorem whileLoop : Alike (n + 1) Always (Pass.whileLoop stmt) (Pass.whileLoop stmt') :=
  .after (Nat.le_refl _) (.expect _) fun _ => .blindly .freshLabel fun _ =>
    .blindly (.emit _) fun _ => .bind (.expect _) fun _ => .blindly .freshLabel fun _ =>
      .bind (.condition _ _) fun _ => .bind (.recover _ _) fun _ => .bind hstmt fun _ =>
        .blindly (.emit _) fun _ => .blindly (.emit _) fun _ => .pure id

theorem doLoop : Alike (n + 1) Always (Pass.doLoop stmt) (Pass.doLoop stmt') :=
  .after (Nat.le_refl _) (.expect _) fun _ => .blindly .freshLabel fun _ =>
    .blindly (.emit _) fun _ => .bind hstmt fun _ => .bind (.recover _ _) fun _ =>
      .bind (.guarded _ _) fun _ => .pure id

theorem forLoop : Alike (n + 1) Always (Pass.forLoop stmt) (Pass.forLoop stmt') := by
  refine .after (Nat.le_refl _) (.expect _) fun _ => .bind (.expect _) fun _ => ?_
  refine .bind (.expect _) fun name => .blindly (.resolveTarget name) fun _ => ?_
  refine .bind (.expect _) fun _ => .bind .expression fun _ => .blindly (.emit _) fun _ => ?_
  refine .blindly .freshLabel fun _ => .blindly (.emit _) fun _ => ?_
  refine .bind (.recover _ _) fun _ => .blindly .freshLabel fun _ => ?_
  refine .bind (.condition _ _) fun _ => .bind (.recover _ _) fun _ => ?_
  refine .bind (.expect _) fun name => .blindly (.resolveTarget name) fun _ => ?_
  refine .bind (.expect _) fun _ => .bind (.expect _) fun name => ?_
  refine .blindly (.resolve name) fun _ => .joined (.blind (.report _ _)) fun _ => ?_
  refine .bind .stepSign fun _ => .bind .unsigned fun _ => .bind (.recover _ _) fun _ => ?_
  exact .bind hstmt fun _ => .blindly (.emit _) fun _ => .blindly (.emit _) fun _ =>
    .blindly (.emit _) fun _ => .pure id

theorem statementOf (returnType : Ty) :
    Alike (n + 1) Always (Pass.statementOf returnType stmt) (Pass.statementOf returnType stmt') := by
  refine .bind .current fun token => ?_
  cases token.kind with
  | kwIf => exact conditional hstmt
  | kwWhile => exact whileLoop hstmt
  | kwDo => exact doLoop hstmt
  | kwFor => exact forLoop hstmt
  | lbrace =>
      exact .after (Nat.le_refl _) (.expect _) fun _ => .bind (statements hstmt) fun _ =>
        .bind (.expect _) fun _ => .pure id
  | ident => exact .nameStatement _
  | kwScanf => exact .scan
  | kwPrintf => exact .print
  | kwReturn => exact .ret returnType
  | semicolon => exact .after (Nat.le_refl _) (.expect _) fun _ => .pure id
  | _ => exact .unexpected _

omit hstmt

theorem statement (returnType : Ty) :
    Runs n Always (Pass.statement returnType) :=
  .nest fun _ _ _ hstmt => statementOf hstmt returnType

end Stmt

section Declarations

theorem constInit (ty : Ty) : Runs n Always (Pass.constInit ty) := by
  have hread : ∀ integer : Bool, Runs n Always
      (do
        if integer then return ConstInit.int (← Pass.integer)
        else
          let token ← Pass.advance
          return if token.kind = .charLit then .char token else .other token) :=
    fun integer => .ite (.past .integer fun _ => .pure id)
      (.past .advance fun _ => .pure id)
  exact .bind .current fun _ => .ite (hread _) (.blindly (.report _ _) fun _ => hread _)

theorem constItem (scope : Scope) (ty : Ty) :
    Runs n Always (Pass.constItem scope ty) :=
  .past (.expect _) fun name => .blindly (.checkRedefinition scope name)
    fun _ => .bind (.expect _) fun _ => .bind (.constInit ty) fun _ =>
      .blindly (.declare _ _) fun _ => .pure id

theorem constDecl (scope : Scope) :
    Runs n Always (Pass.constDecl scope) :=
  .past (.expect _) fun _ => .bind .typeName fun type =>
    .bind (.commaList (.constItem scope type.ty)) fun _ => .bind (.recover _ _) fun _ => .pure id

theorem constDecl? (scope : Scope) :
    Runs n IfSome (Pass.constDecl? scope) :=
  .bind (.nextIs _) fun _ => .ite (.past (.constDecl scope) fun _ => .pure id) (.pure nofun)

theorem constDecls (scope : Scope) :
    Runs n Never (Pass.constDecls scope) :=
  .many (.constDecl? scope)

theorem arraySize? : Runs n Never Pass.arraySize? := by
  refine .bind (.accept _) fun found => ?_
  cases found with
  | none => exact .pure id
  | some lbracket => exact .bind .unsigned fun _ => .bind (.recover _ _) fun _ => .pure id

theorem varItem (scope : Scope) (ty : Ty) :
    Runs n Always (Pass.varItem scope ty) :=
  .past (.expect _) fun name => .blindly (.checkRedefinition scope name)
    fun _ => .bind .arraySize? fun _ => .blindly (.declare _ _) fun _ =>
      .blindly (.emit _) fun _ => .pure id

theorem varDecl (scope : Scope) : Runs n Always (Pass.varDecl scope) :=
  .past .typeName fun type => .bind (.commaList (.varItem scope type.ty)) fun _ =>
    .bind (.recover _ _) fun _ => .pure id

theorem varDecl? (scope : Scope) : Runs n IfSome (Pass.varDecl? scope) :=
  .bind .nextIsTypeName fun _ => .bind .atFunction fun _ =>
    .ite (.past (.varDecl scope) fun _ => .pure id) (.pure nofun)

theorem varDecls (scope : Scope) : Runs n Never (Pass.varDecls scope) :=
  .many (.varDecl? scope)

end Declarations

section Program

theorem param (function : String) : Runs n Always (Pass.param function) :=
  .typeName_bind fun _ _ hty => .bind (.expect _) fun name =>
    .blindly (.checkRedefinition .local name) fun _ =>
      .blindly (.addParameter function hty) fun _ => .blindly (.declare _ _) fun _ => .pure id

theorem paramsOf (function : String) {more more' : Pass Params} (hmore : Alike n Never more more') :
    Alike (n + 1) Never (Pass.paramsOf function more) (Pass.paramsOf function more') := by
  refine .bind .nextIsTypeName fun _ => .ite ?_ (.pure id)
  refine .after (Nat.le_refl _) (.param function) fun _ => .bind (.accept _) fun found => ?_
  cases found with
  | none => exact .pure id
  | some comma => exact .bind hmore fun _ => .pure id

theorem params (function : String) : Runs n Never (Pass.params function) :=
  .nest fun _ _ _ => paramsOf function

theorem valueHead : Runs n Always Pass.valueHead :=
  .past .typeName fun type => .bind (.expect _) fun name =>
    .blindly (.openFunction type.ty name) fun _ => .bind (.expect _) fun _ =>
      .bind (.params name.value) fun _ => .bind (.recover _ _) fun _ => .pure id

theorem voidHead : Runs n Always Pass.voidHead :=
  .past (.expect _) fun _ => .bind (.expect _) fun name =>
    .blindly (.openFunction .void name) fun _ => .bind (.expect _) fun _ =>
      .bind (.params name.value) fun _ => .bind (.recover _ _) fun _ => .pure id

theorem mainHead : Runs n Always Pass.mainHead :=
  .past (.expect _) fun _ => .bind (.expect _) fun name =>
    .blindly (.openFunction .void name) fun _ => .bind (.expect _) fun _ =>
      .bind (.recover _ _) fun _ => .pure id

theorem body (returnType : Ty) : Runs n Never (Pass.body returnType) := by
  refine .bind (.constDecls _) fun _ => .bind (.varDecls _) fun _ => ?_
  refine .bind (.statements (.statement returnType)) fun _ => .ite ?_ (.pure id)
  exact .bind .current fun _ => .blindly (.report _ _) fun _ => .pure id

theorem function {head : Pass FunctionHead} (hhead : Runs n Always head) :
    Runs n Always (Pass.function head) := by
  refine .past hhead fun head => .blindly (.announce head) fun _ => ?_
  refine .bind (.expect _) fun _ => .bind (.body head.ty) fun _ => ?_
  refine .joined (.blind (.emit _)) fun _ => .blindly (.emit _) fun _ => ?_
  exact .bind (.expect _) fun _ => .blindly (.keepTable _ _) fun _ => .pure id

/-- What comes first in a loop comes before the rest of it. -/
theorem many_of_some {α : Type} {item : Pass (Option α)} (hitem : ∀ n, Runs n IfSome item)
    {s t : State} {items : List α} (hsome : ∀ u, item s ≠ .ok none u)
    (h : Pass.many item s = .ok items t) : t.ahead < s.ahead := by
  rw [many_eq hitem] at h
  obtain ⟨found, u, hfound, hrest⟩ := bind_eq_ok.1 h
  cases found with
  | none => exact absurd hfound (hsome u)
  | some a =>
      obtain ⟨rest, v, hmore, hpure⟩ := bind_eq_ok.1 hrest
      obtain ⟨_, rfl⟩ := pure_eq_ok.1 hpure
      have hu := (hitem _).ahead_lt s _ u (Nat.lt_succ_self _) hfound rfl
      exact Nat.lt_of_le_of_lt ((Alike.many (hitem 0)).ahead_le hmore) hu

theorem constDecls_of_const {scope : Scope} {s t : State} {decls : List ConstDecl}
    (hnext : s.cursor.nextIs .kwConst = true) (h : Pass.constDecls scope s = .ok decls t) :
    t.ahead < s.ahead := by
  refine many_of_some (fun n => .constDecl? scope) (fun u hnone => ?_) h
  rw [constDecl?_eq, if_pos hnext] at hnone
  obtain ⟨decl, w, _, hpure⟩ := bind_eq_ok.1 hnone
  cases (pure_eq_ok.1 hpure).1

theorem varDecls_of_type {scope : Scope} {s t : State} {decls : List VarDecl}
    (hnext : atVarDecl s.cursor = true) (h : Pass.varDecls scope s = .ok decls t) :
    t.ahead < s.ahead := by
  refine many_of_some (fun n => .varDecl? scope) (fun u hnone => ?_) h
  rw [varDecl?_eq, if_pos hnext] at hnone
  obtain ⟨decl, w, _, hpure⟩ := bind_eq_ok.1 hnone
  cases (pure_eq_ok.1 hpure).1

theorem pass (part : Part) : Runs n Never part.pass := by
  cases part with
  | done => exact .pure id
  | consts => exact .bind (.constDecls _) fun _ => .pure id
  | vars => exact .bind (.varDecls _) fun _ => .pure id
  | value => exact .bind (.function .valueHead) fun _ => .pure id
  | main => exact .bind (.function .mainHead) fun _ => .pure id
  | void => exact .bind (.function .voidHead) fun _ => .pure id
  | other => exact .unexpected _

/-- A part that is read as a loop starts with something that the loop reads. -/
theorem topLevel? : Runs n IfSome Pass.topLevel? := by
  have hvalue : Runs n Never (do if ← Pass.atFunction then Part.value.pass else Part.vars.pass) :=
    .bind .atFunction fun _ => .ite (.pass .value) (.pass .vars)
  have hparts : Runs n Never Pass.topLevel? := by
    refine .bind (.peekKind 0) fun kind => ?_
    split
    · exact .pass .done
    · exact .pass .consts
    · exact hvalue
    · exact hvalue
    · exact .bind (.peekKind 1) fun _ => .ite (.pass .main) (.pass .void)
    · exact .pass .other
  refine { hparts with ahead_lt := fun s found t _ hrun hsome => ?_ }
  have hfunction : ∀ head, (∀ n, Runs n Always head) →
      ((Pass.function head >>= fun f => Pure.pure (some (TopLevel.function f))) s = .ok found t) →
      t.ahead < s.ahead := by
    intro head hhead h
    obtain ⟨f, u, hf, hpure⟩ := bind_eq_ok.1 h
    obtain ⟨_, rfl⟩ := pure_eq_ok.1 hpure
    exact (function (hhead _)).ahead_lt s f u (Nat.lt_succ_self _) hf trivial
  rw [topLevel?_eq] at hrun
  cases hpart : partAt s.cursor with
  | done =>
      rw [hpart] at hrun
      obtain ⟨rfl, _⟩ := pure_eq_ok.1 hrun
      cases hsome
  | consts =>
      rw [hpart] at hrun
      obtain ⟨decls, u, hdecls, hpure⟩ := bind_eq_ok.1 hrun
      obtain ⟨_, rfl⟩ := pure_eq_ok.1 hpure
      exact constDecls_of_const (nextIs_of_partAt hpart) hdecls
  | vars =>
      rw [hpart] at hrun
      obtain ⟨decls, u, hdecls, hpure⟩ := bind_eq_ok.1 hrun
      obtain ⟨_, rfl⟩ := pure_eq_ok.1 hpure
      exact varDecls_of_type (atVarDecl_of_partAt hpart) hdecls
  | value =>
      rw [hpart] at hrun
      exact hfunction _ (fun _ => .valueHead) hrun
  | main =>
      rw [hpart] at hrun
      exact hfunction _ (fun _ => .mainHead) hrun
  | void =>
      rw [hpart] at hrun
      exact hfunction _ (fun _ => .voidHead) hrun
  | other =>
      rw [hpart] at hrun
      exact absurd hrun unexpected_ne_ok

/-- A program is read without stalling, whatever the tokens are, and without going back. -/
theorem program : Runs n Never Pass.program :=
  .bind (.many .topLevel?) fun _ => .blindly (.keepTable _ _) fun _ => .pure id

end Program

end Alike

/-- The parts of a program are made of emissions and silent steps. -/
theorem Composed.parts : Composed (many topLevel?) :=
  .of_orderly (Alike.many (n := 0) .topLevel?).orderly

/-- A whole compilation is made of emissions and silent steps. -/
theorem Composed.program : Composed program :=
  .of_orderly (Alike.program (n := 0)).orderly

theorem expression_fix : expression = expressionOf expression :=
  nest_eq fun _ _ _ => Alike.expressionOf

theorem statement_fix (returnType : Ty) :
    statement returnType = statementOf returnType (statement returnType) :=
  nest_eq fun _ _ _ hstmt => Alike.statementOf hstmt returnType

theorem params_fix (function : String) : params function = paramsOf function (params function) :=
  nest_eq fun _ _ _ => Alike.paramsOf function

end Pass

end OnePass
