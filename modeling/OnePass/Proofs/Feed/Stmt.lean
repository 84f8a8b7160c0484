import OnePass.Proofs.Feed.Expr

/-!
Statements in front of more tokens. A statement that comes to the end of the tokens can be ended
with a semicolon; behind it anything may come but an `else`, which a conditional would take for its
own.
-/

namespace OnePass

namespace Pass

/-- Anything but an `else` comes next. -/
def NotElse : Follow := fun next => next ≠ some .kwElse

/-- The end of a block comes next. -/
def AtBrace : Follow := fun next => next = some .rbrace

theorem AtBrace.notElse {next : Option TokenKind} (h : AtBrace next) : NotElse next := by
  rintro rfl
  cases h

/-- A statement of an unknown name, which is skipped. -/
def skipStatement : Pass Stmt := do
  let token ← advance
  report token.line .undefined
  onCursor (Cursor.skipPast .semicolon)
  return .skipped

section Simple

theorem Steady.guarded (label : Label) (sense : Sense) :
    Stable Anything [.lparen, .intLit, .rparen] (Pass.guarded label sense) :=
  .expected fun _ => .bind (.condition _ _) (fun _ => .recovered fun _ => .pure _) rfl fun _ _ => rfl

theorem Steady.stepSign : Stable Anything [.plus] Pass.stepSign := by
  refine ⟨fun s hs => .acceptAs hs [] .unexpected fun _ => .pure _, .of_take ?_⟩
  intro s token rest hrest hkind _
  have hmeaning : ArithOp.additive? token.kind = some .add := by
    rw [hkind]
    rfl
  exact ⟨_, bind_of_ok (acceptAs_cons_some hrest hmeaning)⟩

theorem Steady.assignment : Stable Anything [.ident, .assign, .intLit, .semicolon]
    Pass.assignment ∧ Spends .ident Pass.assignment := by
  refine Steady.expected_spends fun name => .blind (.resolveTarget name) fun target => ?_
  refine .accept [.intLit, .rbracket, .assign, .intLit, .semicolon] (fun _ _ => nofun) ?_ ?_
  · exact .expected fun _ => .bind .expression (fun _ => .blind (.emit _) fun _ =>
      .recovered fun _ => .pure _) rfl fun _ _ => rfl
  · intro lbracket
    refine .bind .expression (fun index => .quiet (.checkIndex index) fun _ =>
      .recovered fun _ => .expected fun _ => ?_) rfl fun _ _ => rfl
    exact .bind .expression (fun _ => .blind (.emit _) fun _ => .recovered fun _ => .pure _) rfl
      fun _ _ => rfl

theorem Steady.callStatement (name : String) :
    Stable Anything [.ident, .lparen, .intLit, .rparen, .semicolon] (Pass.callStatement name) := by
  refine .blind (.function? name) fun found => ?_
  cases found with
  | none =>
      exact .bind .skipUnknownCall (fun _ => .recovered fun _ => .pure _) rfl fun _ _ => trivial
  | some callee =>
      exact .bind (.call .expression callee) (fun _ => .recovered fun _ => .pure _) rfl
        fun _ _ => trivial

theorem Steady.skipStatement : Stable Anything [.ident, .assign, .intLit, .semicolon]
    Pass.skipStatement ∧ Spends .ident Pass.skipStatement := by
  have hskip : Stable Anything [.assign, .intLit, .semicolon]
      (Pass.onCursor (Cursor.skipPast .semicolon)) :=
    ⟨fun s hs => .skipPast .semicolon hs, .skipPast [.assign, .intLit] (by decide)⟩
  have hnext : ∀ token : Token, Steady Anything [.assign, .intLit, .semicolon]
      (do
        Pass.report token.line .undefined
        Pass.onCursor (Cursor.skipPast .semicolon)
        return Stmt.skipped)
      (do
        Pass.report token.line .undefined
        Pass.onCursor (Cursor.skipPast .semicolon)
        return Stmt.skipped) :=
    fun _ => .blind (.report _ _) fun _ => .bind hskip (fun _ => .pure _) rfl fun _ _ => trivial
  exact ⟨.advanced hnext, .advanced hnext⟩

theorem Feeds.nameStatement {s : State} {token : Token} {rest : List Token} (hs : s.Free)
    (hrest : s.cursor.rest = token :: rest) (hkind : token.kind = .ident) (name : String) :
    Feeds Anything (Pass.nameStatement name) (Pass.nameStatement name) s := by
  obtain ⟨hassign, hassign'⟩ := Steady.assignment
  obtain ⟨hskip, hskip'⟩ := Steady.skipStatement
  have hother : Stable Anything [.ident, .assign, .intLit, .semicolon]
      (do if (← Pass.nearest? name).isNone then Pass.skipStatement else Pass.assignment) :=
    .blind (.nearest? name) fun _ => .ite hskip hassign
  refine .fork [.assign, .intLit, .semicolon] hs hrest ?_
    ((Steady.callStatement name).feeds s hs) (hother.feeds s hs) ?_ ?_ fun _ _ => nofun
  · exact fun hint => nomatch hkind.symm.trans hint
  · rintro rfl
    exact Spends.blind (.nearest? name) (fun _ => .ite hskip' hassign') s token hs hrest hkind
  · rw [hkind]
    exact hother.settles

theorem Steady.scanTarget : Stable Anything [.ident] Pass.scanTarget := by
  refine .expected fun name => .blind (.resolve name) fun ref => ?_
  cases ref.symbol with
  | none => exact .blind (.report _ _) fun _ => .pure _
  | some symbol => exact .blind (.emit _) fun _ => .pure _

theorem Steady.scan :
    Stable Anything [.kwScanf, .lparen, .ident, .rparen, .semicolon] Pass.scan := by
  have htargets : Stable Closed [.ident] (Pass.commaList Pass.scanTarget) :=
    .commaList (fun _ => .scanTarget) (scanTarget.mono fun _ _ => trivial) fun _ h => h.ne rfl
  exact .expected fun _ => .expected fun _ => .bind htargets
    (fun _ => .recovered fun _ => .recovered fun _ => .pure _) rfl fun _ _ => rfl

theorem Steady.printValue : Stable Closed [.intLit] Pass.printValue := by
  refine .bind .expression (fun value => ?_) rfl fun _ => id
  cases value.ty <;> exact .blind (.emit _) fun _ => .blind (.emit _) fun _ => .pure _

theorem Steady.printItem : Stable Closed [.intLit] Pass.printItem := by
  have hvalue : Stable Closed [.intLit] (do return PrintItem.value (← Pass.printValue)) :=
    .bind .printValue (fun _ => .pure _) rfl fun _ => id
  refine ⟨fun s hs => .nextIs fun atText => ?_, .nextIs (fun _ _ => rfl) hvalue.settles⟩
  cases atText with
  | false => exact hvalue.feeds s hs
  | true =>
      have hadvance : Feeds Closed Pass.advance Pass.advance s :=
        ((Steady.advance .strLit).feeds s hs).mono fun _ _ => trivial
      refine hadvance.andThen fun literal => .blind (.intern _) fun _ => .blind (.emit _) fun _ => ?_
      refine .accept [.intLit] (fun _ h => h.ne rfl) (.pure _) fun comma => ?_
      exact .bind .printValue (fun _ => .pure _) rfl fun _ => id

theorem Steady.print :
    Stable Anything [.kwPrintf, .lparen, .intLit, .rparen, .semicolon] Pass.print :=
  .expected fun _ => .expected fun _ => .bind .printItem
    (fun _ => .recovered fun _ => .recovered fun _ => .pure _) rfl fun _ _ => rfl

theorem Steady.checkReturn (returnType ty : Ty) :
    Stable Anything [] (Pass.checkReturn returnType ty) :=
  .ite (.lastLine fun _ => .of_blind (.report _ _))
    (.ite (.lastLine fun _ => .of_blind (.report _ _)) (.pure _))

theorem Steady.ret (returnType : Ty) :
    Stable Anything [.kwReturn, .semicolon] (Pass.ret returnType) := by
  refine .expected fun keyword => .accept [.intLit, .rparen, .semicolon] (fun _ _ => nofun) ?_ ?_
  · exact .blind (.emit _) fun _ => .quiet (.checkReturn _ _) fun _ => .recovered fun _ => .pure _
  · exact fun _ => .bind .expression (fun _ => .blind (.emit _) fun _ => .recovered fun _ =>
      .quiet (.checkReturn _ _) fun _ => .recovered fun _ => .pure _) rfl fun _ _ => rfl

end Simple

section Nested

variable {returnType : Ty} {stmt : Pass Stmt}
  (hstmt : Steady NotElse [.semicolon] stmt (Pass.statement returnType))

include hstmt

theorem Steady.statements : Steady AtBrace [] (Pass.statements stmt)
    (Pass.statements (Pass.statement returnType)) := by
  have hsome : Steady AtBrace [.semicolon] (stmt >>= fun a => Pure.pure (some a))
      (Pass.statement returnType >>= fun a => Pure.pure (some a)) :=
    .bind hstmt (fun _ => .pure _) rfl fun _ => AtBrace.notElse
  refine .many (fun _ => .statement? (.statement returnType)) (fun s hs => .nextIs fun atEnd => ?_) ?_
  · cases atEnd with
    | true => exact (Steady.pure none).feeds s hs
    | false => exact hsome.feeds s hs
  · intro s hs
    refine (statement?_eq _ s).trans (if_pos ?_)
    rw [nextIs_eq, hs]
    rfl

theorem Steady.conditional : Steady NotElse [.kwIf, .lparen, .intLit, .rparen, .semicolon]
    (Pass.conditional stmt) (Pass.conditional (Pass.statement returnType)) := by
  refine .expected fun _ => .blind .freshLabel fun _ => .bind (.guarded _ _) (fun _ => ?_) rfl
    fun _ _ => trivial
  refine .bind hstmt (fun _ => .blind .freshLabel fun _ => .blind (.emit _) fun _ =>
    .blind (.emit _) fun _ => ?_) rfl fun _ => id
  refine .accept [.semicolon] (fun _ => id) (.blind (.emit _) fun _ => .pure _) fun _ => ?_
  exact .bind hstmt (fun _ => .blind (.emit _) fun _ => .pure _) rfl fun _ => id

theorem Steady.whileLoop : Steady NotElse [.kwWhile, .lparen, .intLit, .rparen, .semicolon]
    (Pass.whileLoop stmt) (Pass.whileLoop (Pass.statement returnType)) := by
  refine .expected fun _ => .blind .freshLabel fun _ => .blind (.emit _) fun _ =>
    .expected fun _ => .blind .freshLabel fun _ => .bind (.condition _ _) (fun _ => ?_) rfl
      fun _ _ => rfl
  exact .recovered fun _ => .bind hstmt (fun _ => .blind (.emit _) fun _ => .blind (.emit _) fun _ =>
    .pure _) rfl fun _ => id

theorem Steady.doLoop :
    Steady NotElse [.kwDo, .semicolon, .kwWhile, .lparen, .intLit, .rparen] (Pass.doLoop stmt)
      (Pass.doLoop (Pass.statement returnType)) := by
  refine .expected fun _ => .blind .freshLabel fun _ => .blind (.emit _) fun _ =>
    .bind hstmt (fun _ => .recovered fun _ => ?_) rfl fun _ _ => nofun
  exact .bind (.guarded _ _) (fun _ => .pure _) rfl fun _ _ => trivial

theorem Steady.forLoop :
    Steady NotElse [.kwFor, .lparen, .ident, .assign, .intLit, .semicolon, .intLit, .semicolon,
      .ident, .assign, .ident, .plus, .intLit, .rparen, .semicolon] (Pass.forLoop stmt)
      (Pass.forLoop (Pass.statement returnType)) := by
  refine .expected fun _ => .expected fun _ => .expected fun name =>
    .blind (.resolveTarget name) fun _ => .expected fun _ => ?_
  refine .bind .expression (fun _ => .blind (.emit _) fun _ => .blind .freshLabel fun _ =>
    .blind (.emit _) fun _ => .recovered fun _ => .blind .freshLabel fun _ => ?_) rfl fun _ _ => rfl
  refine .bind (.condition _ _) (fun _ => .recovered fun _ => .expected fun name =>
    .blind (.resolveTarget name) fun _ => .expected fun _ => .expected fun name => ?_) rfl
      fun _ _ => rfl
  refine .blind (.resolve name) fun _ => .joined (.report _ _) fun _ => ?_
  refine .bind .stepSign (fun _ => .bind .unsigned (fun _ => .recovered fun _ => ?_) rfl
    fun _ _ => trivial) rfl fun _ _ => trivial
  exact .bind hstmt (fun _ => .blind (.emit _) fun _ => .blind (.emit _) fun _ =>
    .blind (.emit _) fun _ => .pure _) rfl fun _ => id

theorem Steady.block : Steady Anything [.lbrace, .rbrace]
    (do
      let lbrace ← Pass.expect .lbrace
      let body ← Pass.statements stmt
      return Stmt.block lbrace body (← Pass.expect .rbrace))
    (do
      let lbrace ← Pass.expect .lbrace
      let body ← Pass.statements (Pass.statement returnType)
      return Stmt.block lbrace body (← Pass.expect .rbrace)) :=
  .expected fun _ => .bind (statements hstmt) (fun _ => .expected fun _ => .pure _) rfl fun _ _ => rfl

theorem Feeds.statementOf {s : State} (hs : s.Free) :
    Feeds NotElse (Pass.statementOf returnType stmt)
      (Pass.statementOf returnType (Pass.statement returnType)) s := by
  refine .current fun token rest hrest => ?_
  cases hkind : token.kind with
  | kwIf => exact (Steady.conditional hstmt).feeds s hs
  | kwWhile => exact (Steady.whileLoop hstmt).feeds s hs
  | kwDo => exact (Steady.doLoop hstmt).feeds s hs
  | kwFor => exact (Steady.forLoop hstmt).feeds s hs
  | lbrace => exact ((Steady.block hstmt).feeds s hs).mono fun _ _ => trivial
  | ident => exact (Feeds.nameStatement hs hrest hkind token.value).mono fun _ _ => trivial
  | kwScanf => exact (Steady.scan.feeds s hs).mono fun _ _ => trivial
  | kwPrintf => exact (Steady.print.feeds s hs).mono fun _ _ => trivial
  | kwReturn => exact ((Steady.ret returnType).feeds s hs).mono fun _ _ => trivial
  | semicolon =>
      have hempty : Stable NotElse [.semicolon] (do return Stmt.empty (← Pass.expect .semicolon)) :=
        .expected fun _ => .pure _
      exact hempty.feeds s hs
  | _ => exact .unexpected

omit hstmt

end Nested

theorem Settles.statement (returnType : Ty) :
    Settles NotElse [.semicolon] (Pass.statement returnType) := by
  rw [statement_fix]
  refine .current (fun _ _ => rfl) ?_
  rintro token ⟨_, _, hkind⟩
  rw [← Option.some.inj hkind]
  exact (Steady.expected fun _ => .pure _).settles

theorem Steady.statement (returnType : Ty) :
    Stable NotElse [.semicolon] (Pass.statement returnType) := by
  refine ⟨fun s hs => .nest (fun stmt hstmt s hs => ?_) hs, .statement returnType⟩
  rw [statement_fix]
  exact Feeds.statementOf ⟨hstmt, .statement returnType⟩ hs

end Pass

end OnePass
