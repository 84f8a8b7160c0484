/-!
The texts a program prints. Each one gets the next free index, also when the table
holds the same text already.
-/

namespace OnePass

structure StringTable where
  texts : Array String := #[]
deriving DecidableEq, Repr

namespace StringTable

/-- Adds a text and gives its index. -/
def intern (table : StringTable) (text : String) : Nat × StringTable :=
  (table.texts.size, { table with texts := table.texts.push text })

/-- The text at an index. -/
def resolve? (table : StringTable) (index : Nat) : Option String :=
  table.texts[index]?

def size (table : StringTable) : Nat :=
  table.texts.size

def isEmpty (table : StringTable) : Bool :=
  table.texts.isEmpty

def toList (table : StringTable) : List String :=
  table.texts.toList

@[simp]
theorem toList_intern (table : StringTable) (text : String) :
    (table.intern text).2.toList = table.toList ++ [text] := by
  simp [intern, toList]

/-- An interned text is found at the index it was given. -/
theorem resolve?_intern (table : StringTable) (text : String) :
    (table.intern text).2.resolve? (table.intern text).1 = some text := by
  simp [intern, resolve?]

end StringTable

end OnePass
