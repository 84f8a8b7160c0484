import OnePass.Compile

/-!
Names and literals as a scanner hands them over, and the values that literals have in the code.
A numeral that the compiler writes is read back as the number it was written for, and a name is
never taken for a literal.
-/

namespace OnePass

/-- Whether a text is a letter or an underscore, and then letters, digits and underscores. -/
def Text.isName (text : String) : Bool :=
  match text.toList with
  | [] => false
  | c :: cs => (c.isAlpha || c == '_') && cs.all fun d => d.isAlphanum || d == '_'

namespace Token

/-- Whether a name or a literal has the shape in which a scanner hands it over. -/
def isScanned (token : Token) : Bool :=
  match token.kind with
  | .ident => Text.isName token.value
  | .intLit => token.value.toList.all Char.isDigit
  | .charLit => token.value.toList.length = 1
  | _ => true

/-- The number that the digits of a token spell. -/
def number (token : Token) : Nat :=
  Nat.ofDigitChars 10 token.value.toList 0

/-- The code point of the first character of a token. -/
def charCode (token : Token) : Int :=
  (token.value.toList.head?.map Char.toNat).getD 0

end Token

namespace Text

/-- A quotation mark. -/
def quote : Char := Char.ofNat 39

/-- The value of a literal, which is a numeral or a character in quotation marks. -/
def literal? (text : String) : Option Int :=
  match signed? text.toList with
  | some n => some n.toInt
  | none =>
    match text.toList with
    | [left, c, right] => if left = quote ∧ right = quote then some c.toNat else none
    | _ => none

theorem digits?_eq_some {cs : List Char} (hne : cs ≠ []) (hdigits : cs.all Char.isDigit = true) :
    digits? cs = some (Nat.ofDigitChars 10 cs 0) := by
  unfold digits?
  rw [if_neg (by simpa using hne), if_pos hdigits]

theorem digits?_eq_none {c : Char} {cs : List Char} (hc : c.isDigit = false) :
    digits? (c :: cs) = none := by
  simp [digits?, hc]

/-- A word is read from its digits as the number they spell. -/
theorem signed?_of_digits {cs : List Char} (hne : cs ≠ []) (hdigits : cs.all Char.isDigit = true) :
    signed? cs =
      if Nat.ofDigitChars 10 cs 0 < signedBound then some (Int64.ofNat (Nat.ofDigitChars 10 cs 0))
      else none := by
  have hread := digits?_eq_some hne hdigits
  have hsign : ∀ c : Char, c.isDigit = false → ∀ tail, cs ≠ c :: tail := by
    rintro c hc tail rfl
    simp [hc] at hdigits
  unfold signed?
  split
  · next tail => exact absurd rfl (hsign '-' (by decide) tail)
  · have hmagnitude : magnitude? cs = digits? cs := by
      unfold magnitude?
      split
      · next tail _ => exact absurd rfl (hsign '+' (by decide) tail)
      · rfl
    rw [hmagnitude, hread]
    rfl

/-- A text that does not start like a numeral spells no word. -/
theorem signed?_eq_none {c : Char} {cs : List Char} (hc : c.isDigit = false) (hplus : c ≠ '+')
    (hminus : c ≠ '-') : signed? (c :: cs) = none := by
  unfold signed?
  split
  · next tail heq => exact absurd (List.cons.inj heq).1 hminus
  · have hmagnitude : magnitude? (c :: cs) = none := by
      unfold magnitude?
      split
      · next tail heq => exact absurd (List.cons.inj heq).1 hplus
      · exact digits?_eq_none hc
    rw [hmagnitude]
    rfl

theorem all_isDigit_repr (n : Nat) : n.repr.toList.all Char.isDigit = true := by
  rw [Nat.toList_repr, List.all_eq_true]
  intro c hc
  exact Nat.isDigit_of_mem_toDigits (by decide) (by decide) hc

theorem digits?_repr (n : Nat) : digits? n.repr.toList = some n := by
  have hne : n.repr.toList ≠ [] := by
    rw [Nat.toList_repr]
    exact Nat.toDigits_ne_nil
  rw [digits?_eq_some hne (all_isDigit_repr n), Nat.toList_repr, Nat.ofDigitChars_ten_toDigits]

theorem toInt_neg {n : Int64} (hn : n ≠ Int64.minValue) : (-n).toInt = -n.toInt := by
  have hne : n.toInt ≠ -2 ^ 63 := by
    intro heq
    exact hn (Int64.toInt_inj.1 heq)
  have hlower := n.le_toInt
  have hupper := n.toInt_lt
  rw [Int64.toInt_neg]
  apply Int.bmod_eq_of_le
  · omega
  · omega

theorem neg_ne_minValue {n : Int64} (hn : n ≠ Int64.minValue) : -n ≠ Int64.minValue := by
  intro heq
  have hneg := toInt_neg hn
  rw [heq, Int64.toInt_minValue] at hneg
  have hupper := n.toInt_lt
  omega

/-- What is read from digits is never negative, and it is their number. -/
theorem toInt_of_signed? {cs : List Char} {n : Int64} (hdigits : cs.all Char.isDigit = true)
    (h : signed? cs = some n) :
    n.toInt = Nat.ofDigitChars 10 cs 0 ∧ n ≠ Int64.minValue := by
  have hne : cs ≠ [] := by
    rintro rfl
    cases h
  rw [signed?_of_digits hne hdigits] at h
  by_cases hlt : Nat.ofDigitChars 10 cs 0 < signedBound
  · rw [if_pos hlt] at h
    obtain rfl := Option.some.inj h
    have hvalue : (Int64.ofNat (Nat.ofDigitChars 10 cs 0)).toInt = Nat.ofDigitChars 10 cs 0 :=
      Int64.toInt_ofNat_of_lt hlt
    refine ⟨hvalue, ?_⟩
    intro heq
    rw [heq, Int64.toInt_minValue] at hvalue
    omega
  · rw [if_neg hlt] at h
    cases h

/-- A word that was written as a numeral is read back. -/
theorem signed?_numberText (n : Int64) : signed? (numberText n).toList = some n := by
  have hlower := n.le_toInt
  have hupper := n.toInt_lt
  unfold numberText
  rw [Int.repr_eq_if]
  split
  · next hnonneg =>
      have hne : n.toInt.toNat.repr.toList ≠ [] := by
        rw [Nat.toList_repr]
        exact Nat.toDigits_ne_nil
      have hlt : n.toInt.toNat < signedBound := by
        unfold signedBound
        omega
      rw [signed?_of_digits hne (all_isDigit_repr _), Nat.toList_repr,
        Nat.ofDigitChars_ten_toDigits, if_pos hlt, Option.some.injEq, ← Int64.toInt_inj,
        Int64.toInt_ofNat_of_lt hlt]
      omega
  · next hneg =>
      have hle : (-n.toInt).toNat ≤ signedBound := by
        unfold signedBound
        omega
      have hvalue : -((-n.toInt).toNat : Int) = n.toInt := by omega
      rw [String.toList_append]
      change (do
        let k ← digits? (-n.toInt).toNat.repr.toList
        if k ≤ signedBound then some (Int64.ofInt (-(k : Int))) else none) = some n
      rw [digits?_repr]
      simp only [Option.bind_eq_bind, Option.bind_some]
      rw [if_pos hle, hvalue, Int64.ofInt_toInt]

theorem literal?_numberText (n : Int64) : literal? (numberText n) = some n.toInt := by
  unfold literal?
  rw [signed?_numberText]

theorem toList_ofChar {value : String} {c : Char} (h : value.toList = [c]) :
    (Operand.ofChar value).text.toList = [quote, c, quote] := by
  change ("'" ++ value ++ "'").toList = [quote, c, quote]
  rw [String.toList_append, String.toList_append, h]
  rfl

/-- What stands in quotation marks spells no number. -/
theorem signed?_ofChar (value : String) : signed? (Operand.ofChar value).text.toList = none := by
  change signed? ("'" ++ value ++ "'").toList = none
  rw [String.toList_append, String.toList_append]
  exact signed?_eq_none (by decide) (by decide) (by decide)

theorem literal?_ofChar {value : String} {c : Char} (h : value.toList = [c]) :
    literal? (Operand.ofChar value).text = some (c.toNat : Int) := by
  unfold literal?
  rw [signed?_ofChar, toList_ofChar h]
  rfl

theorem isDigit_of_isAlpha {c : Char} (h : c.isAlpha = true) : c.isDigit = false := by
  cases hdigit : c.isDigit with
  | false => rfl
  | true =>
      delta Char.isAlpha Char.isUpper Char.isLower at h
      simp only [Char.isDigit, Bool.or_eq_true, Bool.and_eq_true, decide_eq_true_eq, ge_iff_le,
        UInt32.le_iff_toNat_le] at h hdigit
      have hnine : ('9' : Char).val.toNat = 57 := rfl
      have hupper : ('A' : Char).val.toNat = 65 := rfl
      have hlower : ('a' : Char).val.toNat = 97 := rfl
      omega

theorem first_of_isName {text : String} (h : isName text = true) :
    ∃ c cs, text.toList = c :: cs ∧ c.isDigit = false ∧ c ≠ '+' ∧ c ≠ '-' ∧ c ≠ quote := by
  unfold isName at h
  cases htext : text.toList with
  | nil =>
      rw [htext] at h
      cases h
  | cons c cs =>
      simp only [htext, Bool.and_eq_true, Bool.or_eq_true, beq_iff_eq] at h
      refine ⟨c, cs, rfl, ?_⟩
      rcases h.1 with halpha | rfl
      · refine ⟨isDigit_of_isAlpha halpha, ?_⟩
        refine ⟨?_, ?_, ?_⟩ <;>
        · rintro rfl
          revert halpha
          decide
      · decide

/-- A name spells no number. -/
theorem signed?_of_isName {text : String} (h : isName text = true) :
    signed? text.toList = none := by
  obtain ⟨c, cs, htext, hdigit, hplus, hminus, -⟩ := first_of_isName h
  rw [htext]
  exact signed?_eq_none hdigit hplus hminus

/-- A name is no literal. -/
theorem literal?_of_isName {text : String} (h : isName text = true) : literal? text = none := by
  obtain ⟨c, cs, htext, -, -, -, hquote⟩ := first_of_isName h
  unfold literal?
  rw [signed?_of_isName h, htext]
  change (match c :: cs with
    | [left, d, right] => if left = quote ∧ right = quote then some (d.toNat : Int) else none
    | _ => none) = none
  split
  · next left d right hlist =>
      rw [if_neg]
      rintro ⟨rfl, -⟩
      exact hquote (List.cons.inj hlist).1
  · rfl

end Text

end OnePass
