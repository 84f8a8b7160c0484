import OnePass.Ast.Program
import OnePass.Code.Output
import OnePass.Code.StringTable
import OnePass.Cursor
import OnePass.Names.Scopes

/-!
The state of a compilation and the small steps it is made of. Reading, checking and
emitting happen in one pass, so a step may move the cursor, look a name up, record a
diagnostic and emit an instruction.

All repetition goes through `nestFrom`, which bounds the depth of its calls by the number
of tokens left. The bound is never met as long as a call is made only after a token has
been consumed.
-/

namespace OnePass

/-- Where a compilation stands: the tokens ahead, the names in scope, the texts to print, the
code so far, the registers and labels in use, what there is to report, the symbol tables of the
functions behind, and whether a number was negated whose opposite is out of range. -/
structure State where
  cursor : Cursor
  scopes : Scopes := {}
  strings : StringTable := {}
  emitter : Emitter := {}
  counters : Counters := {}
  diagnostics : Array Diagnostic := #[]
  tables : SymbolTables := {}
  overflowed : Bool := false

/-- A step of a compilation. A step that fails still has a state, and with it all that was
emitted before. -/
abbrev Pass := EStateM ParseError State

namespace Pass

variable {α β ι : Type}

/-- A step that only concerns the cursor. -/
def onCursor (step : Cursor.Step α) : Pass α := fun state =>
  match step state.cursor with
  | .ok a cursor => .ok a { state with cursor }
  | .error error cursor => .error error { state with cursor }

/-- Consumes the next token. -/
def advance : Pass Token :=
  onCursor Cursor.advance

/-- The next token, which stays where it is. -/
def current : Pass Token :=
  onCursor Cursor.current

/-- Consumes the next token if it is of a kind. -/
def accept (kind : TokenKind) : Pass (Option Token) :=
  onCursor (Cursor.accept kind)

/-- Consumes the next token, which has to be of a kind. -/
def expect (kind : TokenKind) : Pass Token :=
  onCursor (Cursor.expect kind)

/-- The kind of the token `offset` places ahead. -/
def peekKind (offset : Nat) : Pass (Option TokenKind) := fun state =>
  .ok (state.cursor.peekKind? offset) state

/-- Whether the next token is of a kind. -/
def nextIs (kind : TokenKind) : Pass Bool := fun state =>
  .ok (state.cursor.nextIs kind) state

/-- The line of the last consumed token. -/
def lastLine : Pass UInt64 := fun state =>
  .ok state.cursor.lastLine state

/-- The number of tokens left. -/
def remaining : Pass Nat := fun state =>
  .ok state.cursor.rest.length state

/-- Fails at the next token, where the grammar has something else. -/
def unexpected (expected : Expected) : Pass α := fun state =>
  match state.cursor.peek? 0 with
  | some token => .error (.unexpectedToken expected token) state
  | none => .error (.unexpectedEof expected) state

/-- Consumes the next token if its kind stands for something, and says for what. -/
def acceptAs (meaning? : TokenKind → Option β) : Pass (Option (β × Token)) := do
  match (← peekKind 0).bind meaning? with
  | none => return none
  | some meaning => return some (meaning, ← advance)

/-- Records a diagnostic. -/
def report (line : UInt64) (kind : DiagnosticKind) : Pass Unit := fun state =>
  .ok () { state with diagnostics := state.diagnostics.push { line, kind } }

/-- Consumes a token that may be left out: if it is missing, that is recorded and reading
goes on as if it were there. -/
def recover (kind : TokenKind) (missing : DiagnosticKind) : Pass (Option Token) := do
  let (token, diagnostic) ← onCursor (Cursor.expectOrDiagnose kind missing)
  if let some found := diagnostic then
    report found.line found.kind
  return token

def recoverSemicolon : Pass (Option Token) :=
  recover .semicolon .missingSemicolon

def recoverParen : Pass (Option Token) :=
  recover .rparen .missingParen

def recoverBracket : Pass (Option Token) :=
  recover .rbracket .missingBracket

/-- Emits an instruction; a sink that does not take it ends the compilation. -/
def emit (instr : Instr) : Pass Unit := fun state =>
  match state.emitter.emit instr with
  | (emitter, true) => .ok () { state with emitter }
  | (emitter, false) => .error .trace { state with emitter }

/-- A register that was not used before. -/
def freshReg : Pass Reg := fun state =>
  let (reg, counters) := state.counters.freshReg
  .ok reg { state with counters }

/-- A label that was not used before. -/
def freshLabel : Pass Label := fun state =>
  let (label, counters) := state.counters.freshLabel
  .ok label { state with counters }

/-- Adds a text to the string table and gives its index. -/
def intern (text : String) : Pass Nat := fun state =>
  let (index, strings) := state.strings.intern text
  .ok index { state with strings }

/-- The symbol that a name has in a scope. -/
def lookup? (scope : Scope) (name : String) : Pass (Option Symbol) := fun state =>
  .ok (state.scopes.lookup? scope name) state

/-- The innermost symbol of a name. -/
def nearest? (name : String) : Pass (Option Symbol) := fun state =>
  .ok (state.scopes.nearest? name) state

/-- The function of a name. -/
def function? (name : String) : Pass (Option Symbol) := fun state =>
  .ok (state.scopes.function? name) state

/-- Declares a symbol in a scope. -/
def declare (scope : Scope) (symbol : Symbol) : Pass Unit := fun state =>
  .ok () { state with scopes := state.scopes.declare scope symbol }

/-- Empties the local scope. -/
def resetLocals : Pass Unit := fun state =>
  .ok () { state with scopes := state.scopes.reset .local }

/-- Adds a parameter type to the signature of a function. -/
def addParameter (function : String) (ty : Ty) : Pass Unit := fun state =>
  if ty.signatureCode?.isNone then .error .voidParameter state
  else
    let extend := fun symbol : Symbol => (symbol.addParameter? ty).getD symbol
    .ok () { state with scopes := state.scopes.modify .global function extend }

/-- Keeps the table of a scope, as it is now, under a name. -/
def keepTable (name : String) (scope : Scope) : Pass Unit := fun state =>
  .ok () { state with tables := state.tables.insert name (state.scopes.table scope) }

/-- Notes whether a number overflows where it is negated. -/
def noteOverflow (overflows : Bool) : Pass Unit := fun state =>
  .ok () { state with overflowed := state.overflowed || overflows }

/-- Records a name that its scope holds already. -/
def checkRedefinition (scope : Scope) (name : Token) : Pass Unit := do
  if (← lookup? scope name.value).isSome then
    report name.line .redefinition

/-- Ties a name to its innermost declaration. -/
def resolve (name : Token) : Pass NameRef := do
  return { token := name, symbol := ← nearest? name.value }

/-- Runs `phrase`, which may call itself at another index, to a depth of at most `bound`. -/
def nestUpTo (phrase : (ι → Pass α) → ι → Pass α) : Nat → ι → Pass α
  | 0, _ => throw .stalled
  | bound + 1, i => phrase (nestUpTo phrase bound) i

/-- Runs `phrase`, which may call itself at another index, once for every token left and once
more at the end of the tokens. -/
def nestFrom (phrase : (ι → Pass α) → ι → Pass α) (i : ι) : Pass α := do
  nestUpTo phrase ((← remaining) + 1) i

/-- Runs `phrase`, which may call itself. -/
def nest (phrase : Pass α → Pass α) : Pass α :=
  nestFrom (fun again _ => phrase (again ())) ()

/-- What `item` reads, over and over until it declines. -/
def many (item : Pass (Option α)) : Pass (List α) :=
  nest fun more => do
    match ← item with
    | none => return []
    | some a => return a :: (← more)

/-- Extends `a` by `link`, over and over until it declines. -/
def extend (link : α → Pass (Option α)) (a : α) : Pass α :=
  nestFrom (fun more a => do
    match ← link a with
    | none => return a
    | some longer => more longer) a

/-- Items with commas between them. -/
def commaList (item : Pass α) : Pass (CommaList α) :=
  nest fun more => do
    let a ← item
    match ← accept .comma with
    | none => return .one a
    | some comma => return .cons a comma (← more)

/-- A numeral of a signed word. -/
def unsigned : Pass UnsignedLit := do
  let token ← expect .intLit
  match Text.signed? token.value.toList with
  | some value => return { token, value }
  | none => throw (.invalidInteger token)

/-- A numeral after an optional sign. -/
def integer : Pass IntLit := do
  let sign ← acceptAs ArithOp.additive?
  let digits ← unsigned
  let literal : IntLit := { sign := sign.map Prod.snd, digits }
  noteOverflow literal.overflows
  return literal

/-- A keyword for a type of values. -/
def typeName : Pass TypeName := do
  match (← current).kind with
  | .kwInt => return { token := ← advance, ty := .int }
  | .kwChar => return { token := ← advance, ty := .char }
  | _ => unexpected .typeName

end Pass

end OnePass
