import OnePass.Proofs.Literals

/-!
Words of a line. Blanks stand between words, but a character in quotation marks belongs to its word
even if it is a blank or a quotation mark itself. Names, numerals, quoted characters and what is put
together from them are read as they stand.
-/

namespace OnePass

namespace Text

/-- The words of a line whose first word has been read up to `word`, and of which the next `quoted`
characters belong to that word whatever they are. -/
def wordsFrom (quoted : Nat) (word : List Char) : List Char → List (List Char)
  | [] => [word]
  | c :: cs =>
    match quoted with
    | more + 1 => wordsFrom more (word ++ [c]) cs
    | 0 =>
      if c = ' ' then word :: wordsFrom 0 [] cs
      else wordsFrom (if c = quote then 2 else 0) (word ++ [c]) cs

/-- The words of a line. -/
def words (line : List Char) : List (List Char) :=
  wordsFrom 0 [] line

/-- A text that stands in one word of one line, whatever comes before and behind it. -/
structure Solid (cs : List Char) : Prop where
  word : ∀ word rest, wordsFrom 0 word (cs ++ rest) = wordsFrom 0 (word ++ cs) rest
  line : '\n' ∉ cs

namespace Solid

variable {front back cs : List Char}

theorem nil : Solid [] :=
  ⟨fun word rest => by simp, List.not_mem_nil⟩

theorem append (hfront : Solid front) (hback : Solid back) : Solid (front ++ back) := by
  refine ⟨fun word rest => ?_, ?_⟩
  · rw [List.append_assoc, hfront.word, hback.word, List.append_assoc]
  · rw [List.mem_append, not_or]
    exact ⟨hfront.line, hback.line⟩

/-- Any character but a blank, a quotation mark and a line feed stands for itself. -/
theorem singleton {c : Char} (hblank : c ≠ ' ') (hquote : c ≠ quote) (hline : c ≠ '\n') :
    Solid [c] := by
  refine ⟨fun word rest => ?_, by simpa using hline.symm⟩
  rw [List.singleton_append, wordsFrom]
  simp only [if_neg hblank, if_neg hquote]

theorem of_forall (h : ∀ c ∈ cs, c ≠ ' ' ∧ c ≠ quote ∧ c ≠ '\n') : Solid cs := by
  induction cs with
  | nil => exact nil
  | cons c cs ih =>
      rw [List.forall_mem_cons] at h
      exact (singleton h.1.1 h.1.2.1 h.1.2.2).append (ih h.2)

theorem of_all (h : (cs.all fun c => c != ' ' && c != quote && c != '\n') = true) : Solid cs :=
  of_forall fun c hc => by simpa [and_assoc] using List.all_eq_true.1 h c hc

/-- A quoted character is not looked at. -/
theorem quoted {c : Char} (hline : c ≠ '\n') : Solid [quote, c, quote] := by
  refine ⟨fun word rest => ?_, ?_⟩
  · have hblank : quote ≠ ' ' := by decide
    simp [wordsFrom, hblank]
  · have hquote : '\n' ≠ quote := by decide
    simp [hquote, hline.symm]

/-- A word ends at the next blank. -/
theorem words_append (h : Solid cs) (rest : List Char) :
    words (cs ++ ' ' :: rest) = cs :: words rest := by
  rw [words, h.word, wordsFrom]
  rfl

theorem words_eq (h : Solid cs) : words cs = [cs] := by
  have hword := h.word [] []
  rwa [List.append_nil] at hword

end Solid

/-- Whether a character may stand in a name or in a numeral. -/
def isPlain (c : Char) : Bool :=
  c.isAlphanum || c == '_' || c == '-'

/-- Whether a text is made of such characters. -/
def plain (text : String) : Bool :=
  text.toList.all isPlain

theorem ne_of_plain {text : String} (h : plain text = true) {c d : Char} (hc : c ∈ text.toList)
    (hd : isPlain d = false) : c ≠ d := by
  rintro rfl
  rw [List.all_eq_true.1 h c hc] at hd
  cases hd

theorem notMem_of_plain {text : String} (h : plain text = true) {d : Char}
    (hd : isPlain d = false) : d ∉ text.toList :=
  fun hmem => ne_of_plain h hmem hd rfl

theorem Solid.of_plain {text : String} (h : plain text = true) : Solid text.toList :=
  .of_forall fun _ hc =>
    ⟨ne_of_plain h hc (by decide), ne_of_plain h hc (by decide), ne_of_plain h hc (by decide)⟩

/-- Words that are told apart on a line. -/
def SolidAll (words : List String) : Prop :=
  ∀ word ∈ words, Solid word.toList

theorem SolidAll.nil : SolidAll [] := by
  simp [SolidAll]

theorem SolidAll.cons {word : String} {words : List String} (h : Solid word.toList)
    (hwords : SolidAll words) : SolidAll (word :: words) :=
  List.forall_mem_cons.2 ⟨h, hwords⟩

theorem SolidAll.plain {word : String} {words : List String} (h : plain word = true)
    (hwords : SolidAll words) : SolidAll (word :: words) :=
  .cons (.of_plain h) hwords

theorem SolidAll.assignment {target : String} {words : List String}
    (h : Solid target.toList) (hwords : SolidAll words) :
    SolidAll (target :: "=" :: words) :=
  .cons h (.cons (.of_all (by decide)) hwords)

/-- Words are found again in a line that is made of them. -/
theorem words_intercalate {ws : List String} (hne : ws ≠ []) (h : SolidAll ws) :
    words ([' '].intercalate (ws.map String.toList)) = ws.map String.toList := by
  induction ws with
  | nil => exact absurd rfl hne
  | cons w ws ih =>
      obtain ⟨hfirst, hrest⟩ := List.forall_mem_cons.1 h
      cases ws with
      | nil => simpa using hfirst.words_eq
      | cons next ws =>
          have ih := ih (List.cons_ne_nil _ _) hrest
          rw [List.map_cons] at ih
          rw [List.map_cons, List.map_cons, List.intercalate_cons_cons, List.append_assoc,
            List.singleton_append, hfirst.words_append, ih]

theorem newline_notMem_intercalate {ws : List String} (h : SolidAll ws) :
    '\n' ∉ [' '].intercalate (ws.map String.toList) := by
  induction ws with
  | nil => simp
  | cons w ws ih =>
      obtain ⟨hfirst, hrest⟩ := List.forall_mem_cons.1 h
      cases ws with
      | nil => simpa using hfirst.line
      | cons next ws =>
          have ih := ih hrest
          rw [List.map_cons] at ih
          rw [List.map_cons, List.map_cons, List.intercalate_cons_cons, List.mem_append,
            List.mem_append, not_or, not_or]
          exact ⟨⟨hfirst.line, by decide⟩, ih⟩

theorem plain_of_isName {text : String} (h : isName text = true) : plain text = true := by
  unfold isName at h
  unfold plain
  cases htext : text.toList with
  | nil => rfl
  | cons c cs =>
      simp only [htext, Bool.and_eq_true, Bool.or_eq_true, List.all_eq_true] at h
      rw [List.all_cons, Bool.and_eq_true, List.all_eq_true]
      refine ⟨?_, fun d hd => ?_⟩
      · rcases h.1 with halpha | hline
        · simp [isPlain, Char.isAlphanum, halpha]
        · simp [isPlain, hline]
      · rcases h.2 d hd with halpha | hline
        · simp [isPlain, halpha]
        · simp [isPlain, hline]

theorem isPlain_of_isDigit {c : Char} (h : c.isDigit = true) : isPlain c = true := by
  simp [isPlain, Char.isAlphanum, h]

theorem plain_repr (n : Nat) : plain n.repr = true := by
  rw [plain, List.all_eq_true]
  exact fun c hc => isPlain_of_isDigit (List.all_eq_true.1 (all_isDigit_repr n) c hc)

theorem plain_append {front back : String} (hfront : plain front = true)
    (hback : plain back = true) : plain (front ++ back) = true := by
  rw [plain, String.toList_append, List.all_append, Bool.and_eq_true]
  exact ⟨hfront, hback⟩

theorem plain_numberText (n : Int64) : plain (numberText n) = true := by
  unfold numberText
  rw [Int.repr_eq_if]
  split
  · exact plain_repr _
  · exact plain_append (by decide) (plain_repr _)

/-- The number that the digits in a text spell. -/
def number (text : String) : Nat :=
  Nat.ofDigitChars 10 (text.toList.filter Char.isDigit) 0

theorem number_append {front : String} (h : front.toList.filter Char.isDigit = []) (n : Nat) :
    number (front ++ n.repr) = n := by
  have hdigits : n.repr.toList.filter Char.isDigit = n.repr.toList :=
    List.filter_eq_self.2 (List.all_eq_true.1 (all_isDigit_repr n))
  rw [number, String.toList_append, List.filter_append, h, hdigits, List.nil_append,
    Nat.toList_repr, Nat.ofDigitChars_ten_toDigits]

end Text

end OnePass
