import OnePass.Pass.Stmt

/-!
Compilation of declarations, functions and whole programs. Constants leave no code;
variables are announced one by one, and a function's code stands between its announcement
and its end.
-/

namespace OnePass

namespace Pass

/-- What a constant of type `ty` is set to. Something else than a literal of that type is
recorded, and taken all the same. -/
def constInit (ty : Ty) : Pass ConstInit := do
  let token ← current
  let isInteger := token.kind == .intLit || token.kind.isSign
  unless (ty = .char ∧ token.kind = .charLit) ∨ (ty = .int ∧ isInteger) do
    report token.line .constInitialiser
  if isInteger then
    return .int (← integer)
  else
    let token ← advance
    return if token.kind = .charLit then .char token else .other token

/-- `name = init`, which is declared once it is read. -/
def constItem (scope : Scope) (ty : Ty) : Pass ConstItem := do
  let name ← expect .ident
  checkRedefinition scope name
  let assign ← expect .assign
  let init ← constInit ty
  let item : ConstItem := { name, assign, init }
  declare scope (item.symbol ty)
  return item

/-- `const type item, …, item;` -/
def constDecl (scope : Scope) : Pass ConstDecl := do
  let keyword ← expect .kwConst
  let type ← typeName
  let items ← commaList (constItem scope type.ty)
  return { keyword, type, items, semicolon := ← recoverSemicolon }

/-- The constant declarations that follow each other from here. -/
def constDecls (scope : Scope) : Pass (List ConstDecl) :=
  many do
    if ← nextIs .kwConst then return some (← constDecl scope) else return none

/-- The length of an array, if there is one. -/
def arraySize? : Pass (Option ArraySize) := do
  match ← accept .lbracket with
  | none => return none
  | some lbracket =>
    let length ← unsigned
    return some { lbracket, length, rbracket := ← recoverBracket }

/-- `name` or `name[numeral]`, which is declared and announced once it is read. -/
def varItem (scope : Scope) (ty : Ty) : Pass VarItem := do
  let name ← expect .ident
  checkRedefinition scope name
  let size ← arraySize?
  let item : VarItem := { name, size }
  declare scope (item.symbol ty)
  emit (.var ty name.value item.length)
  return item

/-- `type item, …, item;` -/
def varDecl (scope : Scope) : Pass VarDecl := do
  let type ← typeName
  let items ← commaList (varItem scope type.ty)
  return { type, items, semicolon := ← recoverSemicolon }

/-- Whether the token after next is a parenthesis, as it is in front of a function. -/
def atFunction : Pass Bool := do
  return (← peekKind 2) = some .lparen

/-- Whether the next token is `int` or `char`. -/
def nextIsTypeName : Pass Bool := do
  return ((← peekKind 0).map TokenKind.isTypeName).getD false

/-- The variable declarations that follow each other from here. -/
def varDecls (scope : Scope) : Pass (List VarDecl) :=
  many do
    if (← nextIsTypeName) && !(← atFunction) then return some (← varDecl scope) else return none

/-- Declares a function and opens its scope. -/
def openFunction (ty : Ty) (name : Token) : Pass Unit := do
  checkRedefinition .global name
  declare .global { name := name.value, kind := .function, ty }
  resetLocals

/-- `type name`, which is declared and added to the function's signature. -/
def param (function : String) : Pass Param := do
  let type ← typeName
  let name ← expect .ident
  checkRedefinition .local name
  addParameter function type.ty
  declare .local { name := name.value, kind := .parameter, ty := type.ty }
  return { type, name }

/-- The parameters of a function; a comma after the last one does no harm. -/
def params (function : String) : Pass Params :=
  nest fun more => do
    if ← nextIsTypeName then
      let param ← param function
      match ← accept .comma with
      | none => return .last param
      | some comma => return .cons param comma (← more)
    else
      return .nil

/-- Announces a function and its parameters. -/
def announce (head : FunctionHead) : Pass Unit := do
  emit (.funcDeclare head.ty head.name.value)
  head.params.forM fun param => emit (.param param.type.ty param.name.value)

/-- The head of a function that returns a value, `type name(parameters)`. -/
def valueHead : Pass FunctionHead := do
  let type ← typeName
  let name ← expect .ident
  openFunction type.ty name
  let lparen ← expect .lparen
  let params ← params name.value
  return .value type name lparen params (← recoverParen)

/-- The head of a function that returns none, `void name(parameters)`. -/
def voidHead : Pass FunctionHead := do
  let keyword ← expect .kwVoid
  let name ← expect .ident
  openFunction .void name
  let lparen ← expect .lparen
  let params ← params name.value
  return .void keyword name lparen params (← recoverParen)

/-- The head of the main function, `void main()`. -/
def mainHead : Pass FunctionHead := do
  let keyword ← expect .kwVoid
  let name ← expect .kwMain
  openFunction .void name
  let lparen ← expect .lparen
  return .main keyword name lparen (← recoverParen)

/-- The declarations and statements of a function. Unless it is void, all ways through it have
to return a value; if not, that is recorded at its closing brace. -/
def body (returnType : Ty) : Pass Body := do
  let consts ← constDecls .local
  let vars ← varDecls .local
  let stmts ← statements (statement returnType)
  if returnType ≠ .void ∧ Stmt.anyAlwaysReturns stmts = false then
    report (← current).line .missingReturn
  return { consts, vars, stmts }

/-- A function, whose head is read first. -/
def function (head : Pass FunctionHead) : Pass Function := do
  let head ← head
  announce head
  let lbrace ← expect .lbrace
  let body ← body head.ty
  if head.ty = .void then
    emit .retVoid
  emit .functionEnd
  let rbrace ← expect .rbrace
  keepTable head.name.value .local
  return { head, lbrace, body, rbrace }

/-- The next part of a program, or nothing at the end of the tokens. -/
def topLevel? : Pass (Option TopLevel) := do
  match ← peekKind 0 with
  | none => return none
  | some .kwConst => return some (.consts (← constDecls .global))
  | some .kwInt | some .kwChar =>
    if ← atFunction then
      return some (.function (← function valueHead))
    else
      return some (.vars (← varDecls .global))
  | some .kwVoid =>
    if (← peekKind 1) = some .kwMain then
      return some (.function (← function mainHead))
    else
      return some (.function (← function voidHead))
  | some _ => unexpected .declaration

/-- The name under which the global table is kept. -/
def globalName : String := "global"

/-- A whole program. The global table is kept last. -/
def program : Pass Program := do
  let items ← many topLevel?
  keepTable globalName .global
  return { items }

end Pass

end OnePass
