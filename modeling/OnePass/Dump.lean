import OnePass.Names.Symbol

/-!
The dump of a program's symbol tables: nested records in braces, four spaces a level, a
comma after every entry, names in quotes.
-/

namespace OnePass

namespace Dump

/-- A line at a depth. -/
def line (depth : Nat) (text : String) : String :=
  String.ofList (List.replicate (4 * depth) ' ') ++ text ++ "\n"

/-- A character inside quotes. -/
def escape (c : Char) : String :=
  match c with
  | '"' => "\\\""
  | '\\' => "\\\\"
  | '\n' => "\\n"
  | '\r' => "\\r"
  | '\t' => "\\t"
  | '\x00' => "\\0"
  | c =>
    if c.toNat < 0x20 || c.toNat == 0x7f then
      "\\u\x7b" ++ String.ofList (Nat.toDigits 16 c.toNat) ++ "\x7d"
    else String.singleton c

/-- A text in quotes. -/
def quote (text : String) : String :=
  "\"" ++ String.join (text.toList.map escape) ++ "\""

def kindName : SymbolKind → String
  | .const => "Const"
  | .variable => "Variable"
  | .array => "Array"
  | .parameter => "Parameter"
  | .function => "Function"

def tyName : Ty → String
  | .void => "Void"
  | .char => "Char"
  | .int => "Int"

/-- A field that may have no value. -/
def optionalField (depth : Nat) (name : String) : Option String → String
  | none => line depth (name ++ ": None,")
  | some text => line depth (name ++ ": Some(") ++ line (depth + 1) (text ++ ",") ++ line depth "),"

/-- A map of entries under a heading; an empty map closes on the spot. -/
def entries (depth : Nat) (heading ending : String) (lines : List String) : String :=
  if lines.isEmpty then line depth (heading ++ "\x7b\x7d" ++ ending)
  else line depth (heading ++ "\x7b") ++ String.join lines ++ line depth ("\x7d" ++ ending)

def symbol (depth : Nat) (symbol : Symbol) : String :=
  line depth (quote symbol.name ++ ": Symbol \x7b") ++
    line (depth + 1) ("name: " ++ quote symbol.name ++ ",") ++
    line (depth + 1) ("kind: " ++ kindName symbol.kind ++ ",") ++
    line (depth + 1) ("ty: " ++ tyName symbol.ty ++ ",") ++
    optionalField (depth + 1) "const_value" (symbol.constValue.map quote) ++
    optionalField (depth + 1) "array_length" (symbol.arrayLength.map Text.wordText) ++
    line (depth + 1) ("parameters: " ++ quote symbol.signature ++ ",") ++
    line depth "\x7d,"

def table (depth : Nat) (name : String) (table : SymbolTable) : String :=
  line depth (quote name ++ ": SymbolTable \x7b") ++
    entries (depth + 1) "table: " "," (table.symbols.map (symbol (depth + 2))) ++
    line depth "\x7d,"

/-- The dump of all tables, in the order of their names. -/
def tables (tables : SymbolTables) : String :=
  entries 0 "" "" (tables.toList.map fun entry => table 1 entry.1 entry.2)

end Dump

end OnePass
