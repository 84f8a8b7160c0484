import OnePass.Proofs.Progress.Passes
import OnePass.Proofs.Rename.Mirror

/-!
Every pass goes hand in hand with itself under a renaming. Inside a function all names are known to
be the same in both runs; between two parts of a program the local names are not, and there they
play no part.
-/

namespace OnePass

namespace Sim

variable {ρ : Renaming} {old : Residue} {stage : Stage} {moved : Bool}

section Literals

theorem unsigned :
    Respects ρ old stage ⟨true, stage.live⟩ (UnsignedLit.rename ρ) Pass.unsigned := by
  refine .bind (.expect .intLit) fun token => ?_
  simp only [Token.rename]
  cases Text.signed? token.value.toList with
  | none => exact .throw rfl
  | some value => exact .pure rfl

theorem integer : Respects ρ old stage ⟨true, stage.live⟩ (IntLit.rename ρ) Pass.integer := by
  refine .acceptAs ?_ fun op sign => ?_
  · exact .bind .unsigned fun _ => .bind (.noteOverflow _) fun _ => .pure rfl
  · exact .bind .unsigned fun _ => .bind (.noteOverflow _) fun _ => .pure rfl

theorem typeName : Respects ρ old stage ⟨true, stage.live⟩ (TypeName.rename ρ) Pass.typeName := by
  refine .bind .current fun token => ?_
  simp only [Token.rename]
  cases token.kind with
  | kwInt | kwChar => exact .bind .advance fun _ => .pure rfl
  | _ => exact .unexpected _ _

theorem nextIsTypeName : Respects ρ old stage stage id Pass.nextIsTypeName :=
  .bind (.peekKind 0) fun _ => .pure rfl

theorem atFunction : Respects ρ old stage stage id Pass.atFunction :=
  .bind (.peekKind 2) fun _ => .pure rfl

end Literals

section Expr

theorem negate (value : Operand) : Sim ρ old stage stage (Operand.rename ρ) (Pass.negate value)
    (Pass.negate (value.rename ρ)) := by
  unfold Pass.negate
  rw [Operand.literal?_rename]
  cases value.literal? with
  | some n => exact .bind (.noteOverflow _) fun _ => .pure rfl
  | none => exact .bind .freshReg fun _ => .bind (.emit rfl) fun _ => .pure rfl

theorem combine (accumulator : Option Reg) (op : ArithOp) (lhs rhs : Operand) :
    Sim ρ old stage stage (Reg.rename ρ) (Pass.combine accumulator op lhs rhs)
      (Pass.combine (accumulator.map (Reg.rename ρ)) op (lhs.rename ρ) (rhs.rename ρ)) := by
  unfold Pass.combine
  cases accumulator with
  | some reg => exact .bind (.pure rfl) fun _ => .bind (.emit rfl) fun _ => .pure rfl
  | none => exact .bind .freshReg fun _ => .bind (.emit rfl) fun _ => .pure rfl

theorem checkIndex (index : Expr) : Sim ρ old .inner .inner id (Pass.checkIndex index)
    (Pass.checkIndex (index.rename ρ)) :=
  .ite (by rw [Expr.ty_rename]) (.bind (.lastLine rfl) fun _ => .report rfl _) (.pure rfl)

theorem checkCondition (operand : Expr) : Sim ρ old .inner .inner id (Pass.checkCondition operand)
    (Pass.checkCondition (operand.rename ρ)) :=
  .ite (by rw [Expr.ty_rename]) (.bind (.lastLine rfl) fun _ => .report rfl _) (.pure rfl)

theorem checkArguments (name : Token) (callee : Symbol) (args : Args) :
    Sim ρ old stage stage id (Pass.checkArguments name callee args)
      (Pass.checkArguments (name.rename ρ) callee (args.rename ρ)) :=
  .ite (by rw [Args.length_rename]) (.report rfl _)
    (.ite (by rw [Args.signature_rename]) (.report rfl _) (.pure rfl))

theorem skipUnknownCall :
    Respects ρ old ⟨moved, true⟩ .inner (Token.rename ρ) Pass.skipUnknownCall := by
  unfold Pass.skipUnknownCall
  rw [Pass.skipParens_eq]
  exact .bind .advance fun _ => .bind (.report rfl _) fun _ =>
    .bind (.bind (.expect _) fun _ => .skipClosing 0) fun _ => .pure rfl

variable {expr : Pass Expr} (hexpr : Respects ρ old .inner .inner (Expr.rename ρ) expr)

include hexpr

theorem argument (function : String) (position : Nat) :
    Respects ρ old .inner .inner (Expr.rename ρ) (Pass.argument expr function position) := by
  refine .bind hexpr fun value => .bind (.emit (by rw [Expr.value_rename]; rfl)) fun _ => ?_
  refine .joined (by rw [Expr.ty_rename]) (.throw rfl) fun _ => .pure rfl

theorem arguments (function : String) :
    Respects ρ old .inner .inner (Args.rename ρ) (Pass.arguments expr function) := by
  refine .bind (.nextIs _) fun _ => .bind (.nextIs _) fun _ => .ite Iff.rfl (.pure ?_) ?_
  · simp only [Args.rename]
  · refine .bind (argument hexpr function 0) fun first => ?_
    have hfirst : Args.first (first.rename ρ) = (Args.first first).rename ρ := by
      simp only [Args.rename]
    rw [hfirst]
    refine .extend (f := Args.rename ρ) (fun args => .accept (.pure rfl) fun comma => ?_) _
    rw [Args.length_rename]
    refine .bind (argument hexpr function args.length) fun arg => .pure ?_
    simp only [Option.map_some, Args.rename]

theorem call (callee : Symbol) :
    Respects ρ old ⟨moved, true⟩ .inner (Call.rename ρ) (Pass.call expr callee) := by
  refine .bind (.expect _) fun name => .bind (.expect _) fun _ => .bind (.emit rfl) fun _ => ?_
  refine .bind (arguments hexpr name.value) fun args => .bind (.checkArguments name callee args) ?_
  exact fun _ => .bind (.recover rfl _ _) fun _ => .bind (.emit rfl) fun _ => .pure rfl

theorem callFactor (name : String) :
    Respects ρ old .inner .inner (Factor.rename ρ) (Pass.callFactor expr name) := by
  refine .bind (.function? name) fun found => ?_
  cases found with
  | none => exact .bind .skipUnknownCall fun _ => .pure rfl
  | some callee =>
      refine .bind (call hexpr callee) fun _ => .bind .freshReg fun _ => ?_
      exact .bind (.emit rfl) fun _ => .pure rfl

theorem nameFactor : Respects ρ old .inner .inner (Factor.rename ρ) (Pass.nameFactor expr) := by
  refine .bind (.expect _) fun name => .bind (.resolve rfl name) fun ref => ?_
  refine .joined Iff.rfl (.report rfl _) fun _ => .accept (.pure ?_) fun lbracket => ?_
  · simp only [Factor.rename]
  · refine .bind hexpr fun index => .bind (.checkIndex index) fun _ => .bind .freshReg fun _ => ?_
    refine .bind (.emit (by rw [Expr.value_rename]; rfl)) fun _ => ?_
    exact .bind (.recover rfl _ _) fun _ => .pure rfl

theorem factor : Respects ρ old .inner .inner (Factor.rename ρ) (Pass.factor expr) := by
  have hinteger : Respects ρ old .inner .inner (Factor.rename ρ)
      (Pass.integer >>= fun literal => Pure.pure (Factor.int literal)) := by
    exact .bind .integer fun literal => .pure rfl
  refine .bind .current fun token => ?_
  simp only [Token.rename]
  cases token.kind with
  | ident =>
      exact .bind (.peekKind 1) fun _ =>
        .ite Iff.rfl (callFactor hexpr token.value) (nameFactor hexpr)
  | lparen =>
      exact .bind .advance fun _ => .bind hexpr fun _ => .bind (.recover rfl _ _) fun _ => .pure rfl
  | charLit => exact .bind .advance fun _ => .pure rfl
  | intLit | plus | minus => exact hinteger
  | _ => exact .unexpected _ _

theorem term : Respects ρ old .inner .inner (Term.rename ρ) (Pass.term expr) := by
  refine .bind (factor hexpr) fun first => ?_
  have hfirst : Term.factor (first.rename ρ) = (Term.factor first).rename ρ := by
    simp only [Term.rename]
  rw [hfirst]
  refine .extend (f := Term.rename ρ) (fun lhs => .acceptAs (.pure rfl) fun op opToken => ?_) _
  refine .bind (factor hexpr) fun rhs => ?_
  rw [Term.accumulator?_rename, Term.value_rename, Factor.value_rename]
  refine .bind (.combine _ _ _ _) fun _ => .pure ?_
  simp only [Option.map_some, Term.rename]

theorem signedTerm : Respects ρ old .inner .inner (Expr.rename ρ) (Pass.signedTerm expr) := by
  refine .acceptAs ?_ fun op sign => ?_
  · exact .bind (term hexpr) fun _ => .pure rfl
  · refine .bind (term hexpr) fun body => .ite Iff.rfl ?_ (.pure ?_)
    · rw [Term.value_rename]
      exact .bind (.negate _) fun _ => .pure rfl
    · simp only [Expr.rename]

omit hexpr

theorem expression : Respects ρ old .inner .inner (Expr.rename ρ) Pass.expression := by
  refine .nest fun expr hexpr => .bind (signedTerm hexpr) fun first => ?_
  refine .extend (f := Expr.rename ρ) (fun lhs => .acceptAs (.pure rfl) fun op opToken => ?_) _
  refine .bind (term hexpr) fun rhs => ?_
  rw [Expr.accumulator?_rename, Expr.value_rename, Term.value_rename]
  refine .bind (.combine _ _ _ _) fun _ => .pure ?_
  simp only [Option.map_some, Expr.rename]

theorem condition (label : Label) (sense : Sense) :
    Sim ρ old .inner .inner (Condition.rename ρ) (Pass.condition label sense)
      (Pass.condition (label.rename ρ) sense) := by
  refine .bind .expression fun lhs => .bind (.checkCondition lhs) fun _ => ?_
  rw [Expr.value_rename]
  refine .acceptAs ?_ fun relation opToken => ?_
  · exact .bind (.emit (Instr.test_rename _ _ _).symm) fun _ => .pure rfl
  · refine .bind .expression fun rhs => .bind (.checkCondition rhs) fun _ => ?_
    rw [Expr.value_rename]
    exact .bind (.emit rfl) fun _ => .pure rfl

end Expr

section Stmt

theorem resolveTarget (name : Token) :
    Sim ρ old .inner .inner (NameRef.rename ρ) (Pass.resolveTarget name)
      (Pass.resolveTarget (name.rename ρ)) := by
  refine .bind (.resolve rfl name) fun ref => ?_
  obtain ⟨token, symbol⟩ := ref
  cases symbol with
  | none => exact .bind (.report rfl _) fun _ => .pure rfl
  | some symbol => exact .joined Iff.rfl (.report rfl _) fun _ => .pure rfl

theorem guarded (label : Label) (sense : Sense) :
    Sim ρ old ⟨moved, true⟩ .inner (Guard.rename ρ) (Pass.guarded label sense)
      (Pass.guarded (label.rename ρ) sense) :=
  .bind (.expect _) fun _ => .bind (.condition _ _) fun _ => .bind (.recover rfl _ _) fun _ =>
    .pure rfl

theorem stepSign : Respects ρ old .inner .inner (Prod.map id (Token.rename ρ)) Pass.stepSign :=
  .acceptAs (.unexpected _ _) fun _ _ => .pure rfl

theorem assignment : Respects ρ old ⟨moved, true⟩ .inner (Stmt.rename ρ) Pass.assignment := by
  refine .bind (.expect _) fun name => .bind (.resolveTarget name) fun target => ?_
  refine .accept ?_ fun lbracket => ?_
  · refine .bind (.expect _) fun _ => .bind .expression fun value => ?_
    refine .bind (.emit (by rw [Expr.value_rename]; rfl)) fun _ => ?_
    exact .bind (.recover rfl _ _) fun _ => .pure rfl
  · refine .bind .expression fun index => .bind (.checkIndex index) fun _ => ?_
    refine .bind (.recover rfl _ _) fun _ => .bind (.expect _) fun _ => ?_
    refine .bind .expression fun value => ?_
    refine .bind (.emit (by rw [Expr.value_rename, Expr.value_rename]; rfl)) fun _ => ?_
    exact .bind (.recover rfl _ _) fun _ => .pure rfl

theorem callStatement (name : String) :
    Respects ρ old ⟨moved, true⟩ .inner (Stmt.rename ρ) (Pass.callStatement name) := by
  refine .bind (.function? name) fun found => ?_
  cases found with
  | none => exact .bind .skipUnknownCall fun _ => .bind (.recover rfl _ _) fun _ => .pure rfl
  | some callee =>
      exact .bind (.call .expression callee) fun _ => .bind (.recover rfl _ _) fun _ => .pure rfl

theorem nameStatement (name : String) :
    Respects ρ old ⟨moved, true⟩ .inner (Stmt.rename ρ) (Pass.nameStatement name) := by
  refine .bind (.peekKind 1) fun _ => .ite Iff.rfl (.callStatement name) ?_
  refine .bind (.nearest? rfl name) fun _ => .ite Iff.rfl ?_ .assignment
  exact .bind .advance fun _ => .bind (.report rfl _) fun _ => .bind (.skipPast _) fun _ =>
    .pure rfl

theorem scanTarget : Respects ρ old .inner .inner (NameRef.rename ρ) Pass.scanTarget := by
  refine .bind (.expect _) fun name => .bind (.resolve rfl name) fun ref => ?_
  obtain ⟨token, symbol⟩ := ref
  cases symbol with
  | none => exact .bind (.report rfl _) fun _ => .pure rfl
  | some symbol => exact .bind (.emit rfl) fun _ => .pure rfl

theorem scan : Respects ρ old ⟨moved, true⟩ .inner (Stmt.rename ρ) Pass.scan := by
  refine .bind (.expect _) fun _ => .bind (.expect _) fun _ => .bind (.commaList .scanTarget) ?_
  exact fun _ => .bind (.recover rfl _ _) fun _ => .bind (.recover rfl _ _) fun _ => .pure rfl

theorem printValue : Respects ρ old .inner .inner (Expr.rename ρ) Pass.printValue := by
  refine .bind .expression fun value => ?_
  rw [Expr.ty_rename, Expr.value_rename]
  cases value.ty <;> exact .bind (.emit rfl) fun _ => .bind (.emit rfl) fun _ => .pure rfl

theorem checkReturn (returnType ty : Ty) :
    Respects ρ old .inner .inner id (Pass.checkReturn returnType ty) :=
  .ite Iff.rfl (.bind (.lastLine rfl) fun _ => .report rfl _)
    (.ite Iff.rfl (.bind (.lastLine rfl) fun _ => .report rfl _) (.pure rfl))

theorem ret (returnType : Ty) :
    Respects ρ old ⟨moved, true⟩ .inner (Stmt.rename ρ) (Pass.ret returnType) := by
  refine .bind (.expect _) fun keyword => .accept ?_ fun lparen => ?_
  · refine .bind (.emit rfl) fun _ => .bind (.checkReturn _ _) fun _ => ?_
    exact .bind (.recover rfl _ _) fun _ => .pure rfl
  · refine .bind .expression fun value => ?_
    rw [Expr.ty_rename, Expr.value_rename]
    refine .bind (.emit rfl) fun _ => .bind (.recover rfl _ _) fun _ => ?_
    exact .bind (.checkReturn _ _) fun _ => .bind (.recover rfl _ _) fun _ => .pure rfl

section Texts

variable (htexts : ρ.texts = old.texts.length)

include htexts

theorem printItem : Respects ρ old .inner .inner (PrintItem.rename ρ) Pass.printItem := by
  refine .bind (.nextIs _) fun _ => .ite Iff.rfl ?_ (.bind .printValue fun _ => .pure rfl)
  refine .bind .advance fun literal => .bind (.intern htexts literal.value) fun _ => ?_
  refine .bind (.emit rfl) fun _ => .accept (.pure rfl) fun comma => ?_
  exact .bind .printValue fun _ => .pure rfl

theorem print : Respects ρ old ⟨moved, true⟩ .inner (Stmt.rename ρ) Pass.print := by
  refine .bind (.expect _) fun _ => .bind (.expect _) fun _ => .bind (printItem htexts) ?_
  exact fun _ => .bind (.recover rfl _ _) fun _ => .bind (.recover rfl _ _) fun _ => .pure rfl

end Texts

section Nested

variable {stmt : Pass Stmt}

theorem statements (hstmt : Respects ρ old ⟨moved, true⟩ .inner (Stmt.rename ρ) stmt) :
    Respects ρ old ⟨moved, true⟩ ⟨moved, true⟩ (List.map (Stmt.rename ρ))
      (Pass.statements stmt) := by
  have hitem : Respects ρ old ⟨moved, true⟩ ⟨moved, true⟩ (Stmt.rename ρ) stmt :=
    hstmt.mono id id (fun _ => rfl) id
  exact .many (.bind (.nextIs _) fun _ => .ite Iff.rfl (.pure rfl) (.bind hitem fun _ => .pure rfl))

variable (hstmt : Respects ρ old .inner .inner (Stmt.rename ρ) stmt)

include hstmt

theorem conditional :
    Respects ρ old ⟨moved, true⟩ .inner (Stmt.rename ρ) (Pass.conditional stmt) := by
  refine .bind (.expect _) fun _ => .bind .freshLabel fun _ => .bind (.guarded _ _) fun _ => ?_
  refine .bind hstmt fun _ => .bind .freshLabel fun _ => ?_
  refine .bind (.emit rfl) fun _ => .bind (.emit rfl) fun _ => .accept ?_ fun elseKeyword => ?_
  · exact .bind (.emit rfl) fun _ => .pure rfl
  · exact .bind hstmt fun _ => .bind (.emit rfl) fun _ => .pure rfl

theorem whileLoop : Respects ρ old ⟨moved, true⟩ .inner (Stmt.rename ρ) (Pass.whileLoop stmt) := by
  refine .bind (.expect _) fun _ => .bind .freshLabel fun _ => .bind (.emit rfl) fun _ => ?_
  refine .bind (.expect _) fun _ => .bind .freshLabel fun _ => .bind (.condition _ _) fun _ => ?_
  refine .bind (.recover rfl _ _) fun _ => .bind hstmt fun _ => .bind (.emit rfl) fun _ => ?_
  exact .bind (.emit rfl) fun _ => .pure rfl

theorem doLoop : Respects ρ old ⟨moved, true⟩ .inner (Stmt.rename ρ) (Pass.doLoop stmt) := by
  refine .bind (.expect _) fun _ => .bind .freshLabel fun _ => .bind (.emit rfl) fun _ => ?_
  exact .bind hstmt fun _ => .bind (.recover rfl _ _) fun _ => .bind (.guarded _ _) fun _ =>
    .pure rfl

theorem forLoop : Respects ρ old ⟨moved, true⟩ .inner (Stmt.rename ρ) (Pass.forLoop stmt) := by
  refine .bind (.expect _) fun _ => .bind (.expect _) fun _ => ?_
  refine .bind (.expect _) fun name => .bind (.resolveTarget name) fun _ => ?_
  refine .bind (.expect _) fun _ => .bind .expression fun start => ?_
  refine .bind (.emit (by rw [Expr.value_rename]; rfl)) fun _ => ?_
  refine .bind .freshLabel fun _ => .bind (.emit rfl) fun _ => .bind (.recover rfl _ _) fun _ => ?_
  refine .bind .freshLabel fun _ => .bind (.condition _ _) fun _ => ?_
  refine .bind (.recover rfl _ _) fun _ => ?_
  refine .bind (.expect _) fun name => .bind (.resolveTarget name) fun _ => ?_
  refine .bind (.expect _) fun _ => .bind (.expect _) fun name => ?_
  refine .bind (.resolve rfl name) fun _ => .joined Iff.rfl (.report rfl _) fun _ => ?_
  refine .bind .stepSign fun sign => .bind .unsigned fun _ => ?_
  obtain ⟨op, opToken⟩ := sign
  refine .bind (.recover rfl _ _) fun _ => .bind hstmt fun _ => .bind (.emit rfl) fun _ => ?_
  exact .bind (.emit rfl) fun _ => .bind (.emit rfl) fun _ => .pure rfl

theorem statementOf (htexts : ρ.texts = old.texts.length) (returnType : Ty) :
    Respects ρ old ⟨moved, true⟩ .inner (Stmt.rename ρ) (Pass.statementOf returnType stmt) := by
  refine .bind .current fun token => ?_
  simp only [Token.rename]
  cases token.kind with
  | kwIf => exact conditional hstmt
  | kwWhile => exact whileLoop hstmt
  | kwDo => exact doLoop hstmt
  | kwFor => exact forLoop hstmt
  | lbrace =>
      refine .bind (.expect _) fun _ => .bind (statements hstmt) fun _ => ?_
      refine .bind (.expect _) fun _ => .pure ?_
      simp only [Stmt.rename, Stmt.renameAll_eq_map]
  | ident => exact .nameStatement _
  | kwScanf => exact .scan
  | kwPrintf => exact .print htexts
  | kwReturn => exact .ret returnType
  | semicolon => exact .bind (.expect _) fun _ => .pure rfl
  | _ => exact .unexpected _ _

omit hstmt

end Nested

theorem statement (htexts : ρ.texts = old.texts.length) (returnType : Ty) :
    Respects ρ old ⟨moved, true⟩ .inner (Stmt.rename ρ) (Pass.statement returnType) := by
  have hinner : Respects ρ old .inner .inner (Stmt.rename ρ) (Pass.statement returnType) :=
    .nest fun stmt hstmt => statementOf hstmt htexts returnType
  rw [Pass.statement_fix]
  exact statementOf hinner htexts returnType

end Stmt

section Declarations

theorem constInit (ty : Ty) :
    Respects ρ old stage ⟨true, stage.live⟩ (ConstInit.rename ρ) (Pass.constInit ty) := by
  have hread : ∀ (token : Token) (integer : Bool), Sim ρ old stage ⟨true, stage.live⟩
      (ConstInit.rename ρ)
      (if integer = true then return .int (← Pass.integer)
        else do
          let token ← Pass.advance
          return if token.kind = .charLit then .char token else .other token)
      (if integer = true then return .int (← Pass.integer)
        else do
          let token ← Pass.advance
          return if token.kind = .charLit then .char token else .other token) := by
    intro token integer
    refine .ite Iff.rfl (.bind .integer fun _ => .pure rfl) (.bind .advance fun token => .pure ?_)
    by_cases hchar : token.kind = .charLit
    · rw [if_pos hchar, if_pos (show (token.rename ρ).kind = .charLit from hchar)]
      rfl
    · rw [if_neg hchar, if_neg (show ¬ (token.rename ρ).kind = .charLit from hchar)]
      rfl
  refine .bind .current fun token => ?_
  exact .ite Iff.rfl (hread token _) (.bind (.report rfl _) fun _ => hread token _)

theorem arraySize? {live : Bool} :
    Respects ρ old ⟨true, live⟩ ⟨true, live⟩ (Option.map (ArraySize.rename ρ)) Pass.arraySize? :=
  .accept (.pure rfl) fun _ => .bind .unsigned fun _ => .bind (.recover rfl _ _) fun _ => .pure rfl

section Scoped

variable {live : Bool} {scope : Scope} (hscope : scope = .local → live = true)

include hscope

theorem constItem (ty : Ty) :
    Respects ρ old ⟨true, live⟩ ⟨true, live⟩ (ConstItem.rename ρ) (Pass.constItem scope ty) := by
  refine .bind (.expect _) fun name => .bind (.checkRedefinition hscope name) fun _ => ?_
  refine .bind (.expect _) fun assign => .bind (.constInit ty) fun init => ?_
  have hdeclare : Sim ρ old ⟨true, live⟩ ⟨true, live⟩ id
      (Pass.declare scope (ConstItem.symbol ⟨name, assign, init⟩ ty))
      (Pass.declare scope ((ConstItem.mk name assign init).rename ρ |>.symbol ty)) := by
    rw [ConstItem.symbol_rename]
    exact .declare hscope _
  exact .bind hdeclare fun _ => .pure rfl

theorem constDecl :
    Respects ρ old ⟨moved, live⟩ ⟨true, live⟩ (ConstDecl.rename ρ) (Pass.constDecl scope) :=
  .bind (.expect _) fun _ => .bind .typeName fun type =>
    .bind (.commaList (constItem hscope type.ty)) fun _ => .bind (.recover rfl _ _) fun _ =>
      .pure rfl

theorem constDecls : Respects ρ old ⟨moved, live⟩ ⟨moved, live⟩ (List.map (ConstDecl.rename ρ))
    (Pass.constDecls scope) := by
  have hdecl : Respects ρ old ⟨moved, live⟩ ⟨moved, live⟩ (ConstDecl.rename ρ)
      (Pass.constDecl scope) :=
    (constDecl hscope).mono id id (fun _ => rfl) id
  exact .many (.bind (.nextIs _) fun _ => .ite Iff.rfl (.bind hdecl fun _ => .pure rfl) (.pure rfl))

theorem varItem (ty : Ty) :
    Respects ρ old ⟨true, live⟩ ⟨true, live⟩ (VarItem.rename ρ) (Pass.varItem scope ty) := by
  refine .bind (.expect _) fun name => .bind (.checkRedefinition hscope name) fun _ => ?_
  refine .bind .arraySize? fun size => ?_
  have hdeclare : Sim ρ old ⟨true, live⟩ ⟨true, live⟩ id
      (Pass.declare scope (VarItem.symbol ⟨name, size⟩ ty))
      (Pass.declare scope ((VarItem.mk name size).rename ρ |>.symbol ty)) := by
    rw [VarItem.symbol_rename]
    exact .declare hscope _
  have hvar : Instr.var ty name.value ((VarItem.mk name size).rename ρ).length =
      (Instr.var ty name.value (VarItem.mk name size).length).rename ρ := by
    rw [VarItem.length_rename]
    rfl
  exact .bind hdeclare fun _ => .bind (.emit hvar) fun _ => .pure rfl

theorem varDecl :
    Respects ρ old ⟨moved, live⟩ ⟨true, live⟩ (VarDecl.rename ρ) (Pass.varDecl scope) :=
  .bind .typeName fun type => .bind (.commaList (varItem hscope type.ty)) fun _ =>
    .bind (.recover rfl _ _) fun _ => .pure rfl

theorem varDecls : Respects ρ old ⟨moved, live⟩ ⟨moved, live⟩ (List.map (VarDecl.rename ρ))
    (Pass.varDecls scope) := by
  have hdecl : Respects ρ old ⟨moved, live⟩ ⟨moved, live⟩ (VarDecl.rename ρ) (Pass.varDecl scope) :=
    (varDecl hscope).mono id id (fun _ => rfl) id
  exact .many (.bind .nextIsTypeName fun _ => .bind .atFunction fun _ =>
    .ite Iff.rfl (.bind hdecl fun _ => .pure rfl) (.pure rfl))

end Scoped

end Declarations

section Program

theorem openFunction (ty : Ty) (name : Token) : Sim ρ old stage ⟨stage.moved, true⟩ id
    (Pass.openFunction ty name) (Pass.openFunction ty (name.rename ρ)) := by
  have hscope : Scope.global = Scope.local → stage.live = true := fun h => absurd h (by decide)
  exact .bind (.checkRedefinition hscope name) fun _ => .bind (.declare hscope _) fun _ =>
    .resetLocals

theorem param (function : String) :
    Respects ρ old .inner .inner (Param.rename ρ) (Pass.param function) :=
  .bind .typeName fun type => .bind (.expect _) fun name =>
    .bind (.checkRedefinition (fun _ => rfl) name) fun _ =>
      .bind (.addParameter function type.ty) fun _ => .bind (.declare (fun _ => rfl) _) fun _ =>
        .pure rfl

theorem params (function : String) :
    Respects ρ old .inner .inner (Params.rename ρ) (Pass.params function) := by
  refine .nest fun more hmore => .bind .nextIsTypeName fun _ => .ite Iff.rfl ?_ (.pure rfl)
  refine .bind (.param function) fun _ => .accept (.pure rfl) fun comma => ?_
  exact .bind hmore fun _ => .pure rfl

theorem announce (head : FunctionHead) : Sim ρ old stage stage id (Pass.announce head)
    (Pass.announce (head.rename ρ)) := by
  unfold Pass.announce
  rw [FunctionHead.ty_rename, FunctionHead.params_rename, FunctionHead.name_rename]
  exact .bind (.emit rfl) fun _ => .forM fun _ => .emit rfl

theorem valueHead : Respects ρ old ⟨moved, false⟩ .inner (FunctionHead.rename ρ) Pass.valueHead :=
  .bind .typeName fun type => .bind (.expect _) fun name =>
    .bind (.openFunction type.ty name) fun _ => .bind (.expect _) fun _ =>
      .bind (.params name.value) fun _ => .bind (.recover rfl _ _) fun _ => .pure rfl

theorem voidHead : Respects ρ old ⟨moved, false⟩ .inner (FunctionHead.rename ρ) Pass.voidHead :=
  .bind (.expect _) fun _ => .bind (.expect _) fun name => .bind (.openFunction .void name) fun _ =>
    .bind (.expect _) fun _ => .bind (.params name.value) fun _ =>
      .bind (.recover rfl _ _) fun _ => .pure rfl

theorem mainHead : Respects ρ old ⟨moved, false⟩ .inner (FunctionHead.rename ρ) Pass.mainHead :=
  .bind (.expect _) fun _ => .bind (.expect _) fun name => .bind (.openFunction .void name) fun _ =>
    .bind (.expect _) fun _ => .bind (.recover rfl _ _) fun _ => .pure rfl

variable (htexts : ρ.texts = old.texts.length)

include htexts

theorem body (returnType : Ty) :
    Respects ρ old .inner .inner (Body.rename ρ) (Pass.body returnType) := by
  refine .bind (.constDecls fun _ => rfl) fun _ => .bind (.varDecls fun _ => rfl) fun _ => ?_
  refine .bind (.statements (.statement htexts returnType)) fun stmts => .ite ?_ ?_ (.pure rfl)
  · rw [Stmt.anyAlwaysReturns_map_rename]
  · exact .bind .current fun _ => .bind (.report rfl _) fun _ => .pure rfl

theorem function {head : Pass FunctionHead}
    (hhead : Respects ρ old .outer .inner (FunctionHead.rename ρ) head) :
    Respects ρ old .outer .inner (Function.rename ρ) (Pass.function head) := by
  refine .bind hhead fun head => .bind (.announce head) fun _ => .bind (.expect _) fun _ => ?_
  rw [FunctionHead.ty_rename, FunctionHead.name_rename]
  refine .bind (body htexts head.ty) fun _ => .joined Iff.rfl (.emit rfl) fun _ => ?_
  exact .bind (.emit rfl) fun _ => .bind (.expect _) fun _ =>
    .bind (.keepTable (fun _ => rfl) _) fun _ => .pure rfl

theorem topLevel? {live : Bool} :
    Respects ρ old ⟨false, live⟩ ⟨false, live⟩ (Option.map (TopLevel.rename ρ)) Pass.topLevel? := by
  have hglobal : Scope.global = Scope.local → live = true := fun h => absurd h (by decide)
  have hfunction : ∀ head, Respects ρ old .outer .inner (FunctionHead.rename ρ) head →
      Respects ρ old ⟨false, live⟩ ⟨false, live⟩ (Function.rename ρ) (Pass.function head) :=
    fun head hhead => (function htexts hhead).mono id (fun h => absurd h (by decide))
      (fun h => absurd h Bool.false_ne_true) (fun _ => rfl)
  have hvalue : Sim ρ old ⟨false, live⟩ ⟨false, live⟩ (Option.map (TopLevel.rename ρ))
      (do
        if ← Pass.atFunction then return some (.function (← Pass.function Pass.valueHead))
        else return some (.vars (← Pass.varDecls .global)))
      (do
        if ← Pass.atFunction then return some (.function (← Pass.function Pass.valueHead))
        else return some (.vars (← Pass.varDecls .global))) :=
    .bind .atFunction fun _ => .ite Iff.rfl (.bind (hfunction _ .valueHead) fun _ => .pure rfl)
      (.bind (.varDecls hglobal) fun _ => .pure rfl)
  refine .bind (.peekKind 0) fun next => ?_
  cases next with
  | none => exact .pure rfl
  | some kind =>
      cases kind with
      | kwConst => exact .bind (.constDecls hglobal) fun _ => .pure rfl
      | kwInt | kwChar => exact hvalue
      | kwVoid =>
          exact .bind (.peekKind 1) fun _ => .ite Iff.rfl
            (.bind (hfunction _ .mainHead) fun _ => .pure rfl)
            (.bind (hfunction _ .voidHead) fun _ => .pure rfl)
      | _ => exact .unexpected _ _

end Program

end Sim

end OnePass
