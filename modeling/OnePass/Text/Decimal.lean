/-!
Decimal numerals of 64-bit words. A numeral is an optional sign and then one or more
ASCII digits, with any number of leading zeros; the number has to fit the word. A
word without sign admits no minus, not even before zero.
-/

namespace OnePass.Text

/-- The number that a non-empty list of ASCII digits spells. -/
def digits? (cs : List Char) : Option Nat :=
  if cs.isEmpty then none
  else if cs.all Char.isDigit then some (Nat.ofDigitChars 10 cs 0)
  else none

/-- Digits after an optional plus sign. -/
def magnitude? : List Char → Option Nat
  | '+' :: cs => digits? cs
  | cs => digits? cs

/-- The unsigned word that a numeral spells. -/
def unsigned? (cs : List Char) : Option UInt64 := do
  let n ← magnitude? cs
  if n < UInt64.size then some (UInt64.ofNat n) else none

/-- The magnitude of the least signed word; the greatest signed word is one below it. -/
def signedBound : Nat := 0x8000000000000000

/-- The signed word that a numeral spells. -/
def signed? : List Char → Option Int64
  | '-' :: cs => do
    let n ← digits? cs
    if n ≤ signedBound then some (Int64.ofInt (-(n : Int))) else none
  | cs => do
    let n ← magnitude? cs
    if n < signedBound then some (Int64.ofNat n) else none

/-- The numeral of an unsigned word, without leading zeros. -/
def wordText (n : UInt64) : String :=
  Nat.repr n.toNat

/-- The numeral of a signed word: digits without leading zeros, after a minus when it is
negative. -/
def numberText (n : Int64) : String :=
  Int.repr n.toInt

@[simp]
theorem digits?_nil : digits? [] = none := rfl

end OnePass.Text
