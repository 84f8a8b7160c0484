import OnePass.Compile
import OnePass.Dump

/-!
The command: it reads a token listing, writes the text of the code to the standard output or
to a file, and reports on the standard error. Its status is zero when it had nothing to
report. Here is what it does with what it is given; reading and writing is for `Main`.
-/

namespace OnePass

namespace Command

/-- Why the system refused a file. -/
inductive SystemError where
  | noSuchFile
  | other (text : String)
deriving DecidableEq, Repr

def SystemError.text : SystemError → String
  | noSuchFile => "No such file or directory (os error 2)"
  | other t => t

/-- Why the command gave up. -/
inductive Failure where
  | unreadable (cause : SystemError)
  | uncreatable (path : String) (cause : SystemError)
  | listing (error : ListingError)
  | parse (error : ParseError)
deriving DecidableEq, Repr

namespace Failure

def message : Failure → String
  | unreadable _ => "failed to read token listing"
  | uncreatable path _ => "failed to create " ++ path
  | listing error => error.message
  | parse error => error.message

def cause? : Failure → Option SystemError
  | unreadable cause => some cause
  | uncreatable _ cause => some cause
  | listing _ => none
  | parse _ => none

/-- The report of a failure. -/
def report (failure : Failure) : String :=
  "Error: " ++ failure.message ++ "\n" ++
    match failure.cause? with
    | none => ""
    | some cause => "\nCaused by:\n    " ++ cause.text ++ "\n"

end Failure

/-- What the command leaves behind. -/
structure Outcome where
  status : UInt8
  stdout : String := ""
  stderr : String := ""
  /-- The content of the trace file, if one was created. -/
  traceFile : Option String := none
deriving DecidableEq, Repr

/-- The outcome of a failure before anything was written. -/
def Outcome.failed (failure : Failure) : Outcome :=
  { status := 1, stderr := failure.report }

/-- The tokens of the listing that was read. Blanks at its end do not count. -/
def tokens (listing : Except SystemError String) : Except Failure (List Token) := do
  let text ← listing.mapError .unreadable
  (Listing.read (String.ofList (Text.trimEnd text.toList))).mapError .listing

/-- What the command says about a compilation: the dump if it is asked for, and a row for each
diagnostic. -/
def report (symbols : Bool) (compilation : Compilation) : String :=
  (if symbols then Dump.tables compilation.tables else "") ++
    String.join (compilation.diagnostics.map fun diagnostic => diagnostic.render ++ "\n")

/-- Compiles the tokens; the text of the code is the outcome's standard output. -/
def compile (symbols : Bool) (tokens : List Token) : Outcome :=
  let (result, sink) := compileTo {} tokens
  let stdout := sink.text?.getD ""
  match result with
  | .error error => { status := 1, stdout, stderr := (Failure.parse error).report }
  | .ok compilation =>
    { status := if compilation.diagnostics.isEmpty then 0 else 1
      stdout
      stderr := report symbols compilation }

/-- An outcome whose standard output goes to the trace file. -/
def Outcome.toFile (outcome : Outcome) : Outcome :=
  { outcome with stdout := "", traceFile := some outcome.stdout }

/-- Where the text of the code goes, and whether the file for it can be created. -/
inductive Target where
  | stdout
  | file (path : String) (created : Except SystemError Unit)

/-- The whole command. The file for the text of the code is created once the listing has been
read. -/
def run (symbols : Bool) (target : Target) (listing : Except SystemError String) : Outcome :=
  match tokens listing with
  | .error failure => .failed failure
  | .ok tokens =>
    match target with
    | .stdout => compile symbols tokens
    | .file _ (.ok ()) => (compile symbols tokens).toFile
    | .file path (.error cause) => .failed (.uncreatable path cause)

/-- The arguments of the command. The input `-` is the standard input. -/
structure Options where
  input : Option String := none
  trace : Option String := none
  symbols : Bool := false
deriving DecidableEq, Repr

/-- Reads the arguments, of which the input is the one without a dash. -/
def Options.ofArgs? (options : Options) : List String → Option Options
  | [] => if options.input.isSome then some options else none
  | "--symbols" :: args | "-s" :: args => ofArgs? { options with symbols := true } args
  | "--trace" :: path :: args | "-t" :: path :: args =>
    if options.trace.isSome then none else ofArgs? { options with trace := some path } args
  | arg :: args =>
    if options.input.isSome || (arg.startsWith "-" && arg != "-") then none
    else ofArgs? { options with input := some arg } args

/-- The input file, unless it is the standard input. -/
def Options.file? (options : Options) : Option String :=
  options.input.filter (· != "-")

def usage : String :=
  "Usage: onepass [--trace FILE] [--symbols] INPUT\n"

end Command

end OnePass
