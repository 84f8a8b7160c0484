import OnePass.Compile

/-!
Syntax under a change of lines and numbers. A renaming moves every line somewhere else and adds an
offset to every register, every label and every index of a text. It reaches all that a compilation
puts into a phrase, but nothing that decides how the compilation goes on: types, signatures, lengths
and names stay as they are, and the operand of a renamed phrase is the renamed operand.
-/

namespace OnePass

/-- Where lines go, and what is added to the numbers of registers, labels and texts. -/
structure Renaming where
  line : UInt64 → UInt64 := id
  regs : Nat := 0
  labels : Nat := 0
  texts : Nat := 0

section Definitions

variable (ρ : Renaming)

def Token.rename (token : Token) : Token :=
  { token with line := ρ.line token.line }

def Diagnostic.rename (diagnostic : Diagnostic) : Diagnostic :=
  { diagnostic with line := ρ.line diagnostic.line }

def ParseError.rename : ParseError → ParseError
  | unexpectedToken expected found => unexpectedToken expected (found.rename ρ)
  | invalidInteger numeral => invalidInteger (numeral.rename ρ)
  | error => error

def Reg.rename (reg : Reg) : Reg :=
  ⟨ρ.regs + reg.number⟩

def Label.rename (label : Label) : Label :=
  ⟨ρ.labels + label.number⟩

def Operand.rename : Operand → Operand
  | reg r => reg (r.rename ρ)
  | named text => named text

def Instr.rename : Instr → Instr
  | label l => label (l.rename ρ)
  | jump l => jump (l.rename ρ)
  | branch relation lhs rhs l => branch relation (lhs.rename ρ) (rhs.rename ρ) (l.rename ρ)
  | branchZero value l => branchZero (value.rename ρ) (l.rename ρ)
  | branchNonzero value l => branchNonzero (value.rename ρ) (l.rename ρ)
  | arith op dst lhs rhs => arith op (dst.rename ρ) (lhs.rename ρ) (rhs.rename ρ)
  | neg dst value => neg (dst.rename ρ) (value.rename ρ)
  | load dst name => load (dst.rename ρ) name
  | loadElement dst name index => loadElement (dst.rename ρ) name (index.rename ρ)
  | assign name value => assign name (value.rename ρ)
  | assignElement name index value => assignElement name (index.rename ρ) (value.rename ρ)
  | push function value position => push function (value.rename ρ) position
  | takeResult dst => takeResult (dst.rename ρ)
  | printString index => printString (ρ.texts + index)
  | printInt value => printInt (value.rename ρ)
  | printChar value => printChar (value.rename ρ)
  | ret value => ret (value.rename ρ)
  | instr => instr

def UnsignedLit.rename (lit : UnsignedLit) : UnsignedLit :=
  { lit with token := lit.token.rename ρ }

def IntLit.rename (lit : IntLit) : IntLit :=
  { sign := lit.sign.map (Token.rename ρ), digits := lit.digits.rename ρ }

def NameRef.rename (ref : NameRef) : NameRef :=
  { ref with token := ref.token.rename ρ }

mutual

def Expr.rename : Expr → Expr
  | .term t => .term t.rename
  | .positive sign t => .positive (sign.rename ρ) t.rename
  | .negative sign t value => .negative (sign.rename ρ) t.rename (value.rename ρ)
  | .chain lhs op opToken rhs dst =>
    .chain lhs.rename op (opToken.rename ρ) rhs.rename (dst.rename ρ)

def Term.rename : Term → Term
  | .factor f => .factor f.rename
  | .chain lhs op opToken rhs dst =>
    .chain lhs.rename op (opToken.rename ρ) rhs.rename (dst.rename ρ)

def Factor.rename : Factor → Factor
  | .name ref => .name (ref.rename ρ)
  | .element ref lbracket index dst rbracket =>
    .element (ref.rename ρ) (lbracket.rename ρ) index.rename (dst.rename ρ)
      (rbracket.map (Token.rename ρ))
  | .call c dst => .call c.rename (dst.rename ρ)
  | .unknownCall name => .unknownCall (name.rename ρ)
  | .paren lparen inner rparen =>
    .paren (lparen.rename ρ) inner.rename (rparen.map (Token.rename ρ))
  | .char literal => .char (literal.rename ρ)
  | .int literal => .int (literal.rename ρ)

def Call.rename : Call → Call
  | .mk name lparen callee args rparen =>
    .mk (name.rename ρ) (lparen.rename ρ) callee args.rename (rparen.map (Token.rename ρ))

def Args.rename : Args → Args
  | .nil => .nil
  | .first expr => .first expr.rename
  | .more init comma expr => .more init.rename (comma.rename ρ) expr.rename

end

def Condition.rename : Condition → Condition
  | test value => test (value.rename ρ)
  | compare lhs relation opToken rhs =>
    compare (lhs.rename ρ) relation (opToken.rename ρ) (rhs.rename ρ)

def CommaList.rename {α : Type} (item : α → α) : CommaList α → CommaList α
  | one a => one (item a)
  | cons a comma rest => cons (item a) (comma.rename ρ) (rest.rename item)

def Guard.rename (guard : Guard) : Guard :=
  { lparen := guard.lparen.rename ρ
    condition := guard.condition.rename ρ
    rparen := guard.rparen.map (Token.rename ρ) }

def ForHeader.rename (header : ForHeader) : ForHeader :=
  { lparen := header.lparen.rename ρ
    init := header.init.rename ρ
    initAssign := header.initAssign.rename ρ
    start := header.start.rename ρ
    initEnd := header.initEnd.map (Token.rename ρ)
    condition := header.condition.rename ρ
    conditionEnd := header.conditionEnd.map (Token.rename ρ)
    target := header.target.rename ρ
    stepAssign := header.stepAssign.rename ρ
    source := header.source.rename ρ
    op := header.op
    opToken := header.opToken.rename ρ
    amount := header.amount.rename ρ
    rparen := header.rparen.map (Token.rename ρ) }

def PrintItem.rename : PrintItem → PrintItem
  | text literal index => text (literal.rename ρ) (ρ.texts + index)
  | textValue literal index comma v =>
    textValue (literal.rename ρ) (ρ.texts + index) (comma.rename ρ) (v.rename ρ)
  | value v => value (v.rename ρ)

mutual

def Stmt.rename : Stmt → Stmt
  | .ifThen keyword guard body elseLabel endLabel =>
    .ifThen (keyword.rename ρ) (guard.rename ρ) body.rename (elseLabel.rename ρ)
      (endLabel.rename ρ)
  | .ifElse keyword guard body elseKeyword alternative elseLabel endLabel =>
    .ifElse (keyword.rename ρ) (guard.rename ρ) body.rename (elseKeyword.rename ρ)
      alternative.rename (elseLabel.rename ρ) (endLabel.rename ρ)
  | .whileLoop keyword guard body loopLabel endLabel =>
    .whileLoop (keyword.rename ρ) (guard.rename ρ) body.rename (loopLabel.rename ρ)
      (endLabel.rename ρ)
  | .doLoop keyword body whileKeyword guard loopLabel =>
    .doLoop (keyword.rename ρ) body.rename (whileKeyword.map (Token.rename ρ)) (guard.rename ρ)
      (loopLabel.rename ρ)
  | .forLoop keyword header body loopLabel endLabel =>
    .forLoop (keyword.rename ρ) (header.rename ρ) body.rename (loopLabel.rename ρ)
      (endLabel.rename ρ)
  | .block lbrace body rbrace => .block (lbrace.rename ρ) (Stmt.renameAll body) (rbrace.rename ρ)
  | .call c semicolon => .call (c.rename ρ) (semicolon.map (Token.rename ρ))
  | .unknownCall name semicolon =>
    .unknownCall (name.rename ρ) (semicolon.map (Token.rename ρ))
  | .skipped => .skipped
  | .assign target eq value semicolon =>
    .assign (target.rename ρ) (eq.rename ρ) (value.rename ρ) (semicolon.map (Token.rename ρ))
  | .assignElement target lbracket index rbracket eq value semicolon =>
    .assignElement (target.rename ρ) (lbracket.rename ρ) (index.rename ρ)
      (rbracket.map (Token.rename ρ)) (eq.rename ρ) (value.rename ρ)
      (semicolon.map (Token.rename ρ))
  | .scan keyword lparen targets rparen semicolon =>
    .scan (keyword.rename ρ) (lparen.rename ρ) (targets.rename ρ (NameRef.rename ρ))
      (rparen.map (Token.rename ρ)) (semicolon.map (Token.rename ρ))
  | .print keyword lparen item rparen semicolon =>
    .print (keyword.rename ρ) (lparen.rename ρ) (item.rename ρ) (rparen.map (Token.rename ρ))
      (semicolon.map (Token.rename ρ))
  | .ret keyword semicolon => .ret (keyword.rename ρ) (semicolon.map (Token.rename ρ))
  | .retValue keyword lparen value rparen semicolon =>
    .retValue (keyword.rename ρ) (lparen.rename ρ) (value.rename ρ) (rparen.map (Token.rename ρ))
      (semicolon.map (Token.rename ρ))
  | .empty semicolon => .empty (semicolon.rename ρ)

def Stmt.renameAll : List Stmt → List Stmt
  | [] => []
  | stmt :: stmts => stmt.rename :: Stmt.renameAll stmts

end

def TypeName.rename (type : TypeName) : TypeName :=
  { type with token := type.token.rename ρ }

def ConstInit.rename : ConstInit → ConstInit
  | char literal => char (literal.rename ρ)
  | int literal => int (literal.rename ρ)
  | other token => other (token.rename ρ)

def ConstItem.rename (item : ConstItem) : ConstItem :=
  { name := item.name.rename ρ, assign := item.assign.rename ρ, init := item.init.rename ρ }

def ConstDecl.rename (decl : ConstDecl) : ConstDecl :=
  { keyword := decl.keyword.rename ρ
    type := decl.type.rename ρ
    items := decl.items.rename ρ (ConstItem.rename ρ)
    semicolon := decl.semicolon.map (Token.rename ρ) }

def ArraySize.rename (size : ArraySize) : ArraySize :=
  { lbracket := size.lbracket.rename ρ
    length := size.length.rename ρ
    rbracket := size.rbracket.map (Token.rename ρ) }

def VarItem.rename (item : VarItem) : VarItem :=
  { name := item.name.rename ρ, size := item.size.map (ArraySize.rename ρ) }

def VarDecl.rename (decl : VarDecl) : VarDecl :=
  { type := decl.type.rename ρ
    items := decl.items.rename ρ (VarItem.rename ρ)
    semicolon := decl.semicolon.map (Token.rename ρ) }

def Param.rename (param : Param) : Param :=
  { type := param.type.rename ρ, name := param.name.rename ρ }

def Params.rename : Params → Params
  | nil => nil
  | last param => last (param.rename ρ)
  | cons param comma rest => cons (param.rename ρ) (comma.rename ρ) rest.rename

def FunctionHead.rename : FunctionHead → FunctionHead
  | value type name lparen params rparen =>
    value (type.rename ρ) (name.rename ρ) (lparen.rename ρ) (params.rename ρ)
      (rparen.map (Token.rename ρ))
  | void keyword name lparen params rparen =>
    void (keyword.rename ρ) (name.rename ρ) (lparen.rename ρ) (params.rename ρ)
      (rparen.map (Token.rename ρ))
  | main keyword name lparen rparen =>
    main (keyword.rename ρ) (name.rename ρ) (lparen.rename ρ) (rparen.map (Token.rename ρ))

def Body.rename (body : Body) : Body :=
  { consts := body.consts.map (ConstDecl.rename ρ)
    vars := body.vars.map (VarDecl.rename ρ)
    stmts := body.stmts.map (Stmt.rename ρ) }

def Function.rename (f : Function) : Function :=
  { head := f.head.rename ρ
    lbrace := f.lbrace.rename ρ
    body := f.body.rename ρ
    rbrace := f.rbrace.rename ρ }

def TopLevel.rename : TopLevel → TopLevel
  | consts decls => consts (decls.map (ConstDecl.rename ρ))
  | vars decls => vars (decls.map (VarDecl.rename ρ))
  | function f => function (f.rename ρ)

end Definitions

section Values

variable {ρ : Renaming}

@[simp]
theorem Operand.literal?_rename (operand : Operand) :
    (operand.rename ρ).literal? = operand.literal? := by
  cases operand <;> rfl

theorem Instr.test_rename (value : Operand) (label : Label) (sense : Sense) :
    (Instr.test value label sense).rename ρ =
      Instr.test (value.rename ρ) (label.rename ρ) sense := by
  cases sense <;> rfl

@[simp]
theorem IntLit.value_rename (lit : IntLit) : (lit.rename ρ).value = lit.value := by
  cases lit with
  | mk sign digits => cases sign <;> rfl

@[simp]
theorem ConstInit.text_rename (init : ConstInit) : (init.rename ρ).text = init.text := by
  cases init with
  | int literal => simp only [rename, text, IntLit.value_rename]
  | _ => rfl

theorem ConstItem.symbol_rename (item : ConstItem) (ty : Ty) :
    (item.rename ρ).symbol ty = item.symbol ty := by
  simp only [symbol, rename, ConstInit.text_rename]
  rfl

@[simp]
theorem VarItem.length_rename (item : VarItem) : (item.rename ρ).length = item.length := by
  cases item with
  | mk name size => cases size <;> rfl

theorem VarItem.symbol_rename (item : VarItem) (ty : Ty) :
    (item.rename ρ).symbol ty = item.symbol ty := by
  cases item with
  | mk name size => cases size <;> rfl

mutual

/-- A renamed expression is held by the renamed operand. -/
@[simp]
theorem Expr.value_rename : (e : Expr) → (e.rename ρ).value = e.value.rename ρ
  | .term t | .positive _ t => by
      simp [Expr.rename, Expr.value, t.value_rename]
  | .negative _ _ _ | .chain _ _ _ _ _ => by
      simp [Expr.rename, Expr.value, Operand.rename]

@[simp]
theorem Term.value_rename : (t : Term) → (t.rename ρ).value = t.value.rename ρ
  | .factor f => by
      simp [Term.rename, Term.value, f.value_rename]
  | .chain lhs op opToken rhs dst => by
      simp [Term.rename, Term.value, Operand.rename]

@[simp]
theorem Factor.value_rename : (f : Factor) → (f.rename ρ).value = f.value.rename ρ
  | .paren _ inner _ => by
      simp [Factor.rename, Factor.value, inner.value_rename]
  | .name _ | .element _ _ _ _ _ | .call _ _ | .unknownCall _ | .char _ | .int _ => by
      simp [Factor.rename, Factor.value, NameRef.rename, NameRef.value, Operand.rename,
        Operand.ofChar, Operand.ofNumber, Token.rename]

end

@[simp]
theorem Factor.ty_rename (f : Factor) : (f.rename ρ).ty = f.ty := by
  cases f with
  | call c dst =>
      cases c
      simp [Factor.rename, Call.rename, Factor.ty, Call.callee]
  | _ => simp [Factor.rename, Factor.ty, NameRef.rename, NameRef.ty]

@[simp]
theorem Term.ty_rename (t : Term) : (t.rename ρ).ty = t.ty := by
  cases t <;> simp [Term.rename, Term.ty]

@[simp]
theorem Expr.ty_rename (e : Expr) : (e.rename ρ).ty = e.ty := by
  cases e <;> simp [Expr.rename, Expr.ty]

@[simp]
theorem Term.accumulator?_rename (t : Term) :
    (t.rename ρ).accumulator? = t.accumulator?.map (Reg.rename ρ) := by
  cases t <;> simp [Term.rename, Term.accumulator?]

@[simp]
theorem Expr.accumulator?_rename (e : Expr) :
    (e.rename ρ).accumulator? = e.accumulator?.map (Reg.rename ρ) := by
  cases e <;> simp [Expr.rename, Expr.accumulator?]

@[simp]
theorem Args.length_rename : (args : Args) → (args.rename ρ).length = args.length
  | .nil => by
      simp [Args.rename]
  | .first expr => by
      simp [Args.rename, Args.length]
  | .more init comma expr => by
      simp [Args.rename, Args.length, init.length_rename]

theorem Args.types_rename : (args : Args) → (args.rename ρ).types = args.types
  | .nil => by
      simp [Args.rename]
  | .first expr => by
      simp [Args.rename, Args.types]
  | .more init comma expr => by
      simp [Args.rename, Args.types, init.types_rename]

@[simp]
theorem Args.signature_rename (args : Args) : (args.rename ρ).signature = args.signature := by
  rw [signature, signature, types_rename]

theorem Stmt.renameAll_eq_map (stmts : List Stmt) :
    Stmt.renameAll ρ stmts = stmts.map (Stmt.rename ρ) := by
  induction stmts with
  | nil => simp [Stmt.renameAll]
  | cons stmt stmts ih => simp [Stmt.renameAll, ih]

mutual

theorem Stmt.alwaysReturns_rename : (stmt : Stmt) →
    (stmt.rename ρ).alwaysReturns = stmt.alwaysReturns
  | .ifElse keyword guard body elseKeyword alternative elseLabel endLabel => by
      simp [Stmt.rename, Stmt.alwaysReturns, body.alwaysReturns_rename,
        alternative.alwaysReturns_rename]
  | .doLoop keyword body whileKeyword guard loopLabel => by
      simp [Stmt.rename, Stmt.alwaysReturns, body.alwaysReturns_rename]
  | .block lbrace body rbrace => by
      simp [Stmt.rename, Stmt.alwaysReturns, Stmt.anyAlwaysReturns_renameAll body]
  | .ifThen _ _ _ _ _ | .whileLoop _ _ _ _ _ | .forLoop _ _ _ _ _ | .call _ _
  | .unknownCall _ _ | .skipped | .assign _ _ _ _ | .assignElement _ _ _ _ _ _ _
  | .scan _ _ _ _ _ | .print _ _ _ _ _ | .ret _ _ | .retValue _ _ _ _ _ | .empty _ => by
      simp [Stmt.rename, Stmt.alwaysReturns]

theorem Stmt.anyAlwaysReturns_renameAll : (stmts : List Stmt) →
    Stmt.anyAlwaysReturns (Stmt.renameAll ρ stmts) = Stmt.anyAlwaysReturns stmts
  | [] => by
      simp [Stmt.renameAll]
  | stmt :: stmts => by
      simp [Stmt.renameAll, Stmt.anyAlwaysReturns, stmt.alwaysReturns_rename,
        Stmt.anyAlwaysReturns_renameAll stmts]

end

@[simp]
theorem Stmt.anyAlwaysReturns_map_rename (stmts : List Stmt) :
    Stmt.anyAlwaysReturns (stmts.map (Stmt.rename ρ)) = Stmt.anyAlwaysReturns stmts := by
  rw [← Stmt.renameAll_eq_map, Stmt.anyAlwaysReturns_renameAll]

@[simp]
theorem FunctionHead.ty_rename (head : FunctionHead) : (head.rename ρ).ty = head.ty := by
  cases head <;> rfl

@[simp]
theorem FunctionHead.name_rename (head : FunctionHead) :
    (head.rename ρ).name = head.name.rename ρ := by
  cases head <;> rfl

theorem Params.toList_rename (params : Params) :
    (params.rename ρ).toList = params.toList.map (Param.rename ρ) := by
  induction params with
  | nil | last param => rfl
  | cons param comma rest ih => simp [rename, toList, ih]

@[simp]
theorem FunctionHead.params_rename (head : FunctionHead) :
    (head.rename ρ).params = head.params.map (Param.rename ρ) := by
  cases head with
  | main keyword name lparen rparen => rfl
  | _ => exact Params.toList_rename _

end Values

end OnePass
