import OnePass.Command

/-!
The command line: `onepass [--trace FILE] [--symbols] INPUT`, where `-` is the standard input.
-/

namespace OnePass

open Command

/-- A system error in the command's words. -/
def systemError : IO.Error → SystemError
  | .noFileOrDirectory _ _ _ => .noSuchFile
  | error => .other error.toString

/-- Runs an action of the system. -/
def attempt {α : Type} (action : IO α) : IO (Except SystemError α) := do
  try
    return .ok (← action)
  catch error =>
    return .error (systemError error)

/-- Reads a stream to its end. -/
partial def readAll (stream : IO.FS.Stream) (sofar : String) : IO String := do
  let line ← stream.getLine
  if line.isEmpty then return sofar else readAll stream (sofar ++ line)

/-- Reads the listing. -/
def readListing (options : Options) : IO (Except SystemError String) :=
  attempt do
    match options.file? with
    | some path => IO.FS.readFile path
    | none => readAll (← IO.getStdin) ""

/-- Writes an outcome, with the text of the code on the standard output. -/
def Command.Outcome.print (outcome : Outcome) : IO UInt32 := do
  IO.print outcome.stdout
  IO.eprint outcome.stderr
  return outcome.status.toUInt32

/-- Does what the options ask for. -/
def execute (options : Options) : IO UInt32 := do
  match tokens (← readListing options) with
  | .error failure => (Outcome.failed failure).print
  | .ok tokens =>
    match options.trace with
    | none => (Command.compile options.symbols tokens).print
    | some path =>
      match ← attempt (IO.FS.writeFile path "") with
      | .error cause => (Outcome.failed (.uncreatable path cause)).print
      | .ok () =>
        let outcome := (Command.compile options.symbols tokens).toFile
        IO.FS.writeFile path (outcome.traceFile.getD "")
        outcome.print

end OnePass

def main (args : List String) : IO UInt32 := do
  match OnePass.Command.Options.ofArgs? {} args with
  | none =>
    IO.eprint OnePass.Command.usage
    return 2
  | some options => OnePass.execute options
