import OnePass.Listing
import OnePass.Pass.Program

/-!
Compilation of a list of tokens or of a listing to three-address code.
-/

namespace OnePass

/-- What a compilation makes of a program. -/
structure Compilation where
  program : Program
  code : List Instr
  strings : StringTable
  /-- The local table of each function by its name, and the global table as `global`. -/
  tables : SymbolTables
  diagnostics : List Diagnostic
  regCount : Nat
  labelCount : Nat

namespace Compilation

/-- The text of the code. -/
def trace (compilation : Compilation) : String :=
  Instr.render compilation.code

/-- The syntax tree of the program. -/
def tree (compilation : Compilation) : Tree :=
  compilation.program.tree

end Compilation

/-- The result of a compilation whose program has been read, if the sink can be flushed. -/
def State.finish (state : State) (program : Program) : Except ParseError Compilation :=
  match state.emitter.finish? with
  | none => .error .trace
  | some code => .ok
    { program
      code
      strings := state.strings
      tables := state.tables
      diagnostics := state.diagnostics.toList
      regCount := state.counters.regs
      labelCount := state.counters.labels }

/-- Compiles tokens and writes each instruction to a sink as it is emitted. The sink comes
back with what it took, also when the compilation fails. This is what a build does that does not
check for overflow. -/
def compileTo (sink : Sink) (tokens : List Token) : Except ParseError Compilation × Sink :=
  match Pass.program { cursor := .ofTokens tokens, emitter := { sink } } with
  | .ok program state => (state.finish program, state.emitter.sink)
  | .error error state => (.error error, state.emitter.sink)

/-- How a compilation ends in a build that checks for overflow. -/
inductive CheckedResult where
  | returned (result : Except ParseError Compilation)
  | panicked

/-- What becomes of a compilation in a build that checks for overflow. Such a build does the same
steps, but panics at the first negation whose result is out of range. -/
def compileChecked (sink : Sink) (tokens : List Token) : CheckedResult :=
  match Pass.program { cursor := .ofTokens tokens, emitter := { sink } } with
  | .ok program state => if state.overflowed then .panicked else .returned (state.finish program)
  | .error error state => if state.overflowed then .panicked else .returned (.error error)

/-- Compiles tokens. -/
def compile (tokens : List Token) : Except ParseError Compilation :=
  (compileTo {} tokens).1

inductive CompileError where
  | listing (error : ListingError)
  | parse (error : ParseError)
deriving DecidableEq, Repr

/-- The text of the error. -/
def CompileError.message : CompileError → String
  | listing error => "bad token listing: " ++ error.message
  | parse error => "parse error: " ++ error.message

/-- Compiles a token listing. -/
def compileListing (listing : String) : Except CompileError Compilation := do
  let tokens ← (Listing.read listing).mapError .listing
  (compile tokens).mapError .parse

end OnePass
