import OnePass.Names.Symbol

/-!
The two scopes that are open while a function is compiled: the globals, functions among
them, and the locals of that function. Whether a declaration may replace another is for
the caller to say.
-/

namespace OnePass

/-- The two levels at which names are declared. There is no deeper nesting. -/
inductive Scope where
  | global
  | «local»
deriving DecidableEq, Repr, Inhabited

/-- How deep a scope lies. -/
def Scope.level : Scope → Nat
  | .global => 0
  | .local => 1

/-- The tables of the two scopes. -/
structure Scopes where
  globals : SymbolTable := {}
  locals : SymbolTable := {}

namespace Scopes

/-- The table of a scope. -/
def table (scopes : Scopes) : Scope → SymbolTable
  | .global => scopes.globals
  | .local => scopes.locals

/-- Changes the table of a scope. -/
def update (scopes : Scopes) (scope : Scope) (f : SymbolTable → SymbolTable) : Scopes :=
  match scope with
  | .global => { scopes with globals := f scopes.globals }
  | .local => { scopes with locals := f scopes.locals }

/-- Declares a symbol in a scope, in place of an earlier one of its name. -/
def declare (scopes : Scopes) (scope : Scope) (symbol : Symbol) : Scopes :=
  scopes.update scope fun table => table.declare symbol

/-- Changes the symbol that a name has in a scope, if it has one. -/
def modify (scopes : Scopes) (scope : Scope) (name : String) (f : Symbol → Symbol) : Scopes :=
  scopes.update scope fun table => table.modify name f

/-- Empties a scope. -/
def reset (scopes : Scopes) (scope : Scope) : Scopes :=
  scopes.update scope fun _ => {}

/-- The symbol that a name has in a scope. -/
def lookup? (scopes : Scopes) (scope : Scope) (name : String) : Option Symbol :=
  (scopes.table scope)[name]?

/-- The innermost symbol of a name. -/
def nearest? (scopes : Scopes) (name : String) : Option Symbol :=
  scopes.locals[name]? <|> scopes.globals[name]?

/-- The function of a name. Functions are global, and a local symbol does not hide one. -/
def function? (scopes : Scopes) (name : String) : Option Symbol :=
  scopes.globals[name]?.filter Symbol.isFunction

/-- The innermost scope that knows a name. -/
def scopeOf? (scopes : Scopes) (name : String) : Option Scope :=
  if scopes.locals.contains name then some .local
  else if scopes.globals.contains name then some .global
  else none

@[simp]
theorem table_update_self (scopes : Scopes) (scope : Scope) (f : SymbolTable → SymbolTable) :
    (scopes.update scope f).table scope = f (scopes.table scope) := by
  cases scope <;> rfl

/-- A change of one scope leaves the other alone. -/
theorem table_update_of_ne (scopes : Scopes) {scope other : Scope} (f : SymbolTable → SymbolTable)
    (h : other ≠ scope) : (scopes.update scope f).table other = scopes.table other := by
  cases scope <;> cases other <;> first | rfl | exact absurd rfl h

/-- A declared symbol is found under its name, and hides no other name. -/
theorem lookup?_declare (scopes : Scopes) (scope : Scope) (symbol : Symbol) (name : String) :
    (scopes.declare scope symbol).lookup? scope name =
      if symbol.name = name then some symbol else scopes.lookup? scope name := by
  simp only [lookup?, declare, table_update_self, SymbolTable.declare,
    Std.TreeMap.getElem?_insert, Std.compare_eq_iff_eq]

/-- A change reaches the symbol of its name alone. -/
theorem lookup?_modify (scopes : Scopes) (scope : Scope) (name other : String)
    (f : Symbol → Symbol) :
    (scopes.modify scope name f).lookup? scope other =
      if name = other then (scopes.lookup? scope other).map f
      else scopes.lookup? scope other := by
  simp only [lookup?, modify, table_update_self, Std.TreeMap.getElem?_modify,
    Std.compare_eq_iff_eq]
  by_cases h : name = other
  · subst h
    simp
  · simp [h]

/-- An emptied scope knows no name. -/
theorem lookup?_reset (scopes : Scopes) (scope : Scope) (name : String) :
    (scopes.reset scope).lookup? scope name = none := by
  simp [lookup?, reset]

end Scopes

end OnePass
