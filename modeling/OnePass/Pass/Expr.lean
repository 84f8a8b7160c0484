import OnePass.Pass.State

/-!
Compilation of expressions. A value is held by an operand, and only operators, array
elements and calls need a register for it:

* the first operator of a chain takes a fresh register, the later ones reuse it;
* a minus in front negates a numeral on the spot, and anything else into a fresh register;
* arguments are pushed one by one, as soon as their values are known.
-/

namespace OnePass

namespace Pass

/-- Negates a numeral, or an operand into a fresh register. The least number is its own opposite, as
in a build without overflow checks. -/
def negate (value : Operand) : Pass Operand := do
  match value.literal? with
  | some n =>
    noteOverflow (n == Int64.minValue)
    return .ofNumber (-n)
  | none =>
    let dst ← freshReg
    emit (.neg dst value)
    return .reg dst

/-- Combines two operands into the register of their chain, or into a fresh one when the
chain has none yet. -/
def combine (accumulator : Option Reg) (op : ArithOp) (lhs rhs : Operand) : Pass Reg := do
  let dst ← match accumulator with
    | some reg => pure reg
    | none => freshReg
  emit (.arith op dst lhs rhs)
  return dst

/-- Records an array index that is no int. -/
def checkIndex (index : Expr) : Pass Unit := do
  if index.ty ≠ .int then
    report (← lastLine) .indexType

/-- Records an operand of a condition that is no int. -/
def checkCondition (operand : Expr) : Pass Unit := do
  if operand.ty ≠ .int then
    report (← lastLine) .conditionType

/-- A call of an unknown function: the name is kept and recorded, its arguments are skipped. -/
def skipUnknownCall : Pass Token := do
  let name ← advance
  report name.line .undefined
  onCursor Cursor.skipParens
  return name

/-- The argument at a position, which is pushed at once. -/
def argument (expr : Pass Expr) (function : String) (position : Nat) : Pass Expr := do
  let value ← expr
  emit (.push function value.value position)
  if value.ty.signatureCode?.isNone then
    throw .voidParameter
  return value

/-- The arguments of a call, which are left out before a parenthesis or a semicolon. -/
def arguments (expr : Pass Expr) (function : String) : Pass Args := do
  if (← nextIs .rparen) || (← nextIs .semicolon) then
    return .nil
  else
    let first ← argument expr function 0
    extend (fun args => do
      match ← accept .comma with
      | none => return none
      | some comma => return some (.more args comma (← argument expr function args.length)))
      (.first first)

/-- Records arguments that do not fit the callee's signature: a wrong number of them, or else
wrong types. -/
def checkArguments (name : Token) (callee : Symbol) (args : Args) : Pass Unit := do
  if callee.parameterCount ≠ args.length then
    report name.line .argumentCount
  else if callee.signature ≠ args.signature then
    report name.line .argumentType

/-- A call of a known function, `name(arguments)`. -/
def call (expr : Pass Expr) (callee : Symbol) : Pass Call := do
  let name ← expect .ident
  let lparen ← expect .lparen
  emit (.save name.value)
  let args ← arguments expr name.value
  checkArguments name callee args
  let rparen ← recoverParen
  emit (.call name.value)
  return .mk name lparen callee args rparen

/-- A call whose result is a value; the result is taken into a fresh register. -/
def callFactor (expr : Pass Expr) (name : String) : Pass Factor := do
  match ← function? name with
  | none => return .unknownCall (← skipUnknownCall)
  | some callee =>
    let call ← call expr callee
    let dst ← freshReg
    emit (.takeResult dst)
    return .call call dst

/-- A name, or an element of the array it names. -/
def nameFactor (expr : Pass Expr) : Pass Factor := do
  let ref ← resolve (← expect .ident)
  if ref.symbol.isNone then
    report ref.token.line .undefined
  match ← accept .lbracket with
  | none => return .name ref
  | some lbracket =>
    let index ← expr
    checkIndex index
    let dst ← freshReg
    emit (.loadElement dst ref.token.value index.value)
    return .element ref lbracket index dst (← recoverBracket)

/-- `name`, `name[expression]`, `name(arguments)`, `(expression)`, a character or an integer. -/
def factor (expr : Pass Expr) : Pass Factor := do
  let token ← current
  match token.kind with
  | .ident =>
    if (← peekKind 1) = some .lparen then callFactor expr token.value else nameFactor expr
  | .lparen =>
    let lparen ← advance
    let inner ← expr
    return .paren lparen inner (← recoverParen)
  | .charLit => return .char (← advance)
  | .intLit | .plus | .minus => return .int (← integer)
  | _ => unexpected .expression

/-- Factors with `*` and `/` between them. -/
def term (expr : Pass Expr) : Pass Term := do
  let first ← factor expr
  extend (fun lhs => do
    match ← acceptAs ArithOp.multiplicative? with
    | none => return none
    | some (op, opToken) =>
      let rhs ← factor expr
      let dst ← combine lhs.accumulator? op lhs.value rhs.value
      return some (.chain lhs op opToken rhs dst))
    (.factor first)

/-- A term under an optional sign. -/
def signedTerm (expr : Pass Expr) : Pass Expr := do
  match ← acceptAs ArithOp.additive? with
  | none => return .term (← term expr)
  | some (op, sign) =>
    let body ← term expr
    if op = .sub then
      return .negative sign body (← negate body.value)
    else
      return .positive sign body

/-- Terms with `+` and `-` between them, the first under an optional sign. -/
def expression : Pass Expr :=
  nest fun expr => do
    let first ← signedTerm expr
    extend (fun lhs => do
      match ← acceptAs ArithOp.additive? with
      | none => return none
      | some (op, opToken) =>
        let rhs ← term expr
        let dst ← combine lhs.accumulator? op lhs.value rhs.value
        return some (.chain lhs op opToken rhs dst))
      first

/-- An expression, or two with a relation between them, and the jump to a label that is taken in
the given sense. -/
def condition (label : Label) (sense : Sense) : Pass Condition := do
  let lhs ← expression
  checkCondition lhs
  match ← acceptAs Relation.ofKind? with
  | none =>
    emit (.test lhs.value label sense)
    return .test lhs
  | some (relation, opToken) =>
    let rhs ← expression
    checkCondition rhs
    emit (.compare relation lhs.value rhs.value label sense)
    return .compare lhs relation opToken rhs

end Pass

end OnePass
