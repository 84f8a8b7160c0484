import OnePass.Pass.Expr

/-!
Compilation of statements. Conditionals and the loops with their test in front jump on when
the test fails; the loop with its test behind jumps back when it holds. The step of a
counting loop is read with its header, but emitted after its body.
-/

namespace OnePass

namespace Pass

/-- Ties an assigned name to its declaration. An unknown name is recorded, and so is a
constant. -/
def resolveTarget (name : Token) : Pass NameRef := do
  let ref ← resolve name
  match ref.symbol with
  | none => report name.line .undefined
  | some symbol =>
    if symbol.kind = .const then
      report name.line .assignToConst
  return ref

/-- A condition in parentheses with its jump. -/
def guarded (label : Label) (sense : Sense) : Pass Guard := do
  let lparen ← expect .lparen
  let condition ← condition label sense
  return { lparen, condition, rparen := ← recoverParen }

/-- The statements of a block, up to its closing brace. -/
def statements (stmt : Pass Stmt) : Pass (List Stmt) :=
  many do
    if ← nextIs .rbrace then return none else return some (← stmt)

/-- `if (condition) statement`, with or without `else statement`. -/
def conditional (stmt : Pass Stmt) : Pass Stmt := do
  let keyword ← expect .kwIf
  let elseLabel ← freshLabel
  let guard ← guarded elseLabel .onFalse
  let body ← stmt
  let endLabel ← freshLabel
  emit (.jump endLabel)
  emit (.label elseLabel)
  match ← accept .kwElse with
  | none =>
    emit (.label endLabel)
    return .ifThen keyword guard body elseLabel endLabel
  | some elseKeyword =>
    let alternative ← stmt
    emit (.label endLabel)
    return .ifElse keyword guard body elseKeyword alternative elseLabel endLabel

/-- `while (condition) statement` -/
def whileLoop (stmt : Pass Stmt) : Pass Stmt := do
  let keyword ← expect .kwWhile
  let loopLabel ← freshLabel
  emit (.label loopLabel)
  let lparen ← expect .lparen
  let endLabel ← freshLabel
  let condition ← condition endLabel .onFalse
  let rparen ← recoverParen
  let body ← stmt
  emit (.jump loopLabel)
  emit (.label endLabel)
  return .whileLoop keyword { lparen, condition, rparen } body loopLabel endLabel

/-- `do statement while (condition)` -/
def doLoop (stmt : Pass Stmt) : Pass Stmt := do
  let keyword ← expect .kwDo
  let loopLabel ← freshLabel
  emit (.label loopLabel)
  let body ← stmt
  let whileKeyword ← recover .kwWhile .missingWhile
  let guard ← guarded loopLabel .onTrue
  return .doLoop keyword body whileKeyword guard loopLabel

/-- The sign between the source and the amount of a step. -/
def stepSign : Pass (ArithOp × Token) := do
  match ← acceptAs ArithOp.additive? with
  | some sign => return sign
  | none => unexpected .sign

/-- `for (name = expression; condition; name = name ± numeral) statement` -/
def forLoop (stmt : Pass Stmt) : Pass Stmt := do
  let keyword ← expect .kwFor
  let lparen ← expect .lparen
  let init ← resolveTarget (← expect .ident)
  let initAssign ← expect .assign
  let start ← expression
  emit (.assign init.token.value start.value)
  let loopLabel ← freshLabel
  emit (.label loopLabel)
  let initEnd ← recoverSemicolon
  let endLabel ← freshLabel
  let condition ← condition endLabel .onFalse
  let conditionEnd ← recoverSemicolon
  let target ← resolveTarget (← expect .ident)
  let stepAssign ← expect .assign
  let source ← resolve (← expect .ident)
  if source.symbol.isNone then
    report source.token.line .undefined
  let (op, opToken) ← stepSign
  let amount ← unsigned
  let rparen ← recoverParen
  let body ← stmt
  emit (.step target.token.value source.token.value op amount.value)
  emit (.jump loopLabel)
  emit (.label endLabel)
  let header : ForHeader :=
    { lparen, init, initAssign, start, initEnd, condition, conditionEnd, target, stepAssign,
      source, op, opToken, amount, rparen }
  return .forLoop keyword header body loopLabel endLabel

/-- `name = expression;` or `name[expression] = expression;` -/
def assignment : Pass Stmt := do
  let target ← resolveTarget (← expect .ident)
  match ← accept .lbracket with
  | none =>
    let eq ← expect .assign
    let value ← expression
    emit (.assign target.token.value value.value)
    return .assign target eq value (← recoverSemicolon)
  | some lbracket =>
    let index ← expression
    checkIndex index
    let rbracket ← recoverBracket
    let eq ← expect .assign
    let value ← expression
    emit (.assignElement target.token.value index.value value.value)
    return .assignElement target lbracket index rbracket eq value (← recoverSemicolon)

/-- A call that stands as a statement. -/
def callStatement (name : String) : Pass Stmt := do
  match ← function? name with
  | none =>
    let name ← skipUnknownCall
    return .unknownCall name (← recoverSemicolon)
  | some callee =>
    let call ← call expression callee
    return .call call (← recoverSemicolon)

/-- A statement that starts with a name. An unknown name makes it void up to its semicolon. -/
def nameStatement (name : String) : Pass Stmt := do
  if (← peekKind 1) = some .lparen then
    callStatement name
  else if (← nearest? name).isNone then
    let token ← advance
    report token.line .undefined
    onCursor (Cursor.skipPast .semicolon)
    return .skipped
  else
    assignment

/-- A name to read a value into. What is not a char is read as an int. -/
def scanTarget : Pass NameRef := do
  let ref ← resolve (← expect .ident)
  match ref.symbol with
  | none => report ref.token.line .undefined
  | some symbol => emit (.scan symbol.ty.asValue ref.token.value)
  return ref

/-- `scanf(name, …, name);` -/
def scan : Pass Stmt := do
  let keyword ← expect .kwScanf
  let lparen ← expect .lparen
  let targets ← commaList scanTarget
  let rparen ← recoverParen
  return .scan keyword lparen targets rparen (← recoverSemicolon)

/-- A value to print, which ends the output. -/
def printValue : Pass Expr := do
  let value ← expression
  match value.ty with
  | .char => emit (.printChar value.value)
  | _ => emit (.printInt value.value)
  emit .printEnd
  return value

/-- A text, a value, or a text and a value with a comma between them. -/
def printItem : Pass PrintItem := do
  if ← nextIs .strLit then
    let literal ← advance
    let index ← intern literal.value
    emit (.printString index)
    match ← accept .comma with
    | none => return .text literal index
    | some comma => return .textValue literal index comma (← printValue)
  else
    return .value (← printValue)

/-- `printf(item);` -/
def print : Pass Stmt := do
  let keyword ← expect .kwPrintf
  let lparen ← expect .lparen
  let item ← printItem
  let rparen ← recoverParen
  return .print keyword lparen item rparen (← recoverSemicolon)

/-- Records a return that does not fit the function's type. -/
def checkReturn (returnType ty : Ty) : Pass Unit := do
  if returnType = .void ∧ ty ≠ .void then
    report (← lastLine) .returnInVoid
  else if returnType ≠ ty then
    report (← lastLine) .missingReturn

/-- `return;` or `return (expression);` -/
def ret (returnType : Ty) : Pass Stmt := do
  let keyword ← expect .kwReturn
  match ← accept .lparen with
  | none =>
    emit .retVoid
    checkReturn returnType .void
    return .ret keyword (← recoverSemicolon)
  | some lparen =>
    let value ← expression
    emit (.ret value.value)
    let rparen ← recoverParen
    checkReturn returnType value.ty
    return .retValue keyword lparen value rparen (← recoverSemicolon)

/-- A statement of a function with the given return type. -/
def statement (returnType : Ty) : Pass Stmt :=
  nest fun stmt => do
    let token ← current
    match token.kind with
    | .kwIf => conditional stmt
    | .kwWhile => whileLoop stmt
    | .kwDo => doLoop stmt
    | .kwFor => forLoop stmt
    | .lbrace =>
      let lbrace ← expect .lbrace
      let body ← statements stmt
      return .block lbrace body (← expect .rbrace)
    | .ident => nameStatement token.value
    | .kwScanf => scan
    | .kwPrintf => print
    | .kwReturn => ret returnType
    | .semicolon => return .empty (← expect .semicolon)
    | _ => unexpected .statement

end Pass

end OnePass
