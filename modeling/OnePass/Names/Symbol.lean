import OnePass.Names.Ty
import Std.Data.TreeMap

/-!
Symbols and the table of one scope. Symbols are listed in the order of their names, by
code point.
-/

namespace OnePass

/-- What a name was declared as. -/
inductive SymbolKind where
  | const
  | variable
  | array
  | parameter
  | function
deriving DecidableEq, Repr, Inhabited

/-- A declared name with its attributes. -/
structure Symbol where
  name : String
  kind : SymbolKind
  ty : Ty
  constValue : Option String := none
  arrayLength : Option UInt64 := none
  /-- One code per parameter of a function, see `Ty.signatureCode?`. -/
  signature : String := ""
deriving DecidableEq, Repr

namespace Symbol

/-- A symbol to whose signature `ty` has been added; void cannot be added. -/
def addParameter? (symbol : Symbol) (ty : Ty) : Option Symbol :=
  ty.signatureCode?.map fun code => { symbol with signature := symbol.signature.push code }

/-- The length of the signature in bytes. -/
def parameterCount (symbol : Symbol) : Nat :=
  symbol.signature.utf8ByteSize

/-- The types that the signature's codes stand for. -/
def parameterTypes (symbol : Symbol) : List Ty :=
  symbol.signature.toList.filterMap Ty.ofSignatureCode?

def isFunction (symbol : Symbol) : Bool :=
  symbol.kind == .function

/-- The text that stands for a constant wherever it is used. -/
def substitute? (symbol : Symbol) : Option String :=
  match symbol.kind with
  | .const => symbol.constValue
  | _ => none

end Symbol

/-- The symbols of one scope by name. -/
abbrev SymbolTable := Std.TreeMap String Symbol

namespace SymbolTable

/-- Declares a symbol under its name, in place of an earlier one. -/
def declare (table : SymbolTable) (symbol : Symbol) : SymbolTable :=
  table.insert symbol.name symbol

/-- The symbols of a table, in the order of their names. -/
def symbols (table : SymbolTable) : List Symbol :=
  table.values

end SymbolTable

/-- Symbol tables by the names they are kept under. -/
abbrev SymbolTables := Std.TreeMap String SymbolTable

end OnePass
