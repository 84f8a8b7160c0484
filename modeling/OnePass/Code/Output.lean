import OnePass.Code.Instr

/-!
Emission of code. Every instruction goes into the code and, as a line of text, to a sink;
an instruction whose line the sink does not take in full is not in the code.
-/

namespace OnePass

/-- Where the text of the code goes. A sink with a limit takes that many bytes in total. -/
structure Sink where
  written : ByteArray := .empty
  limit : Option Nat := none
  flushFails : Bool := false

namespace Sink

/-- Writes a text. What fits is written also when not all of it fits; the second component
says whether all of it did. -/
def write (sink : Sink) (text : String) : Sink × Bool :=
  let bytes := text.toUTF8
  match sink.limit with
  | none => ({ sink with written := sink.written ++ bytes }, true)
  | some limit =>
    let room := limit - sink.written.size
    if bytes.size ≤ room then ({ sink with written := sink.written ++ bytes }, true)
    else ({ sink with written := sink.written ++ bytes.extract 0 room }, false)

/-- The written text, when the bytes are one. -/
def text? (sink : Sink) : Option String :=
  String.fromUTF8? sink.written

/-- A sink without a limit takes every text whole. -/
theorem write_of_unlimited {sink : Sink} (h : sink.limit = none) (text : String) :
    sink.write text = ({ sink with written := sink.written ++ text.toUTF8 }, true) := by
  simp only [write, h]

end Sink

structure Emitter where
  code : Array Instr := #[]
  sink : Sink := {}

namespace Emitter

/-- Emits an instruction; the second component says whether the sink took its line. -/
def emit (emitter : Emitter) (instr : Instr) : Emitter × Bool :=
  match emitter.sink.write instr.line with
  | (sink, true) => ({ code := emitter.code.push instr, sink }, true)
  | (sink, false) => ({ code := emitter.code, sink }, false)

/-- The code, if the sink can be flushed. -/
def finish? (emitter : Emitter) : Option (List Instr) :=
  if emitter.sink.flushFails then none else some emitter.code.toList

end Emitter

end OnePass
