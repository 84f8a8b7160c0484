import Mathlib.Data.List.Forall2
import Mathlib.Data.List.TakeWhile
import OnePass.Proofs.Listing.RoundTrip

/-!
Listings are read row by row. The rows of a text are those in front of a line feed and those behind
it, so that a listing made of two is read as the one and then the other. What is wrong with a row can
be said of the row alone; the first row with something wrong decides, and its number counts all rows
in front of it, blank ones too.
-/

namespace OnePass

namespace Text

/-- A text consists of rows. Each row but the last ends at a line feed, to which a carriage return in
front of it belongs; the last one keeps its carriage return, and does not count if it is empty. -/
inductive Splits : List Char → List (List Char) → Prop where
  | nil : Splits [] []
  | last {row : List Char} (hrow : '\n' ∉ row) (hne : row ≠ []) : Splits row [row]
  | feed {row back : List Char} {rows : List (List Char)} (hrow : '\n' ∉ row)
      (hreturn : row.getLast? ≠ some '\r') (hback : Splits back rows) :
      Splits (row ++ '\n' :: back) (row :: rows)
  | returnFeed {row back : List Char} {rows : List (List Char)} (hrow : '\n' ∉ row)
      (hback : Splits back rows) : Splits (row ++ '\r' :: '\n' :: back) (row :: rows)

/-- A text is a piece without line feeds, or such a piece with a line feed and a text behind it. -/
@[elab_as_elim]
theorem feed_induction {P : List Char → Prop} (plain : ∀ cs, '\n' ∉ cs → P cs)
    (feed : ∀ front back, '\n' ∉ front → P back → P (front ++ '\n' :: back)) (cs : List Char) :
    P cs := by
  by_cases hfeed : '\n' ∈ cs
  · obtain ⟨front, back, hcs, hfront⟩ := List.eq_append_cons_of_mem hfeed
    have hshorter : back.length < cs.length := by
      rw [hcs, List.length_append, List.length_cons]
      omega
    rw [hcs]
    exact feed front back hfront (feed_induction plain feed back)
  · exact plain cs hfeed
termination_by cs.length

theorem rowsFrom_of_notMem {row cs : List Char} (h : '\n' ∉ cs) :
    rowsFrom [] row cs = if row = [] ∧ cs = [] then [] else [row.reverse ++ cs] := by
  induction cs generalizing row with
  | nil => cases row <;> simp [rowsFrom]
  | cons c cs ih =>
      rw [List.mem_cons, not_or] at h
      rw [rowsFrom, if_neg (Ne.symm h.1), ih h.2]
      simp

/-- A text without line feeds is a row, unless it is empty. -/
theorem rows_of_notMem {cs : List Char} (h : '\n' ∉ cs) : rows cs = if cs = [] then [] else [cs] := by
  rw [rows, rowsFrom_of_notMem h]
  simp

theorem splits_rows (cs : List Char) : Splits cs (rows cs) := by
  induction cs using feed_induction with
  | plain cs hnone =>
      rw [rows_of_notMem hnone]
      by_cases hne : cs = []
      · rw [if_pos hne, hne]
        exact .nil
      · rw [if_neg hne]
        exact .last hnone hne
  | feed front back hfront ih =>
      rw [rows_append hfront]
      rcases List.eq_nil_or_concat front with rfl | ⟨row, c, rfl⟩
      · exact .feed hfront (by simp) ih
      · rw [List.concat_eq_append] at hfront ⊢
        rw [chomp_concat]
        by_cases hreturn : c = '\r'
        · rw [if_pos hreturn, hreturn, List.append_assoc]
          exact .returnFeed (fun hmem => hfront (List.mem_append_left _ hmem)) ih
        · rw [if_neg hreturn]
          exact .feed hfront (by simpa using hreturn) ih

/-- The rows of a text go on behind a line feed as those of the text behind it. -/
theorem rows_feed (front back : List Char) :
    rows (front ++ '\n' :: back) = rows (front ++ ['\n']) ++ rows back := by
  induction front using feed_induction with
  | plain front hnone =>
      rw [rows_append hnone, rows_append hnone]
      rfl
  | feed first rest hfirst ih =>
      rw [List.append_assoc, List.append_assoc, List.cons_append, List.cons_append,
        rows_append hfirst, rows_append hfirst, ih]
      rfl

/-- A text that ends with a line feed has one row for each of them. -/
theorem length_rows_feed (front : List Char) :
    (rows (front ++ ['\n'])).length = 1 + front.count '\n' := by
  induction front using feed_induction with
  | plain front hnone =>
      rw [rows_append hnone, List.count_eq_zero_of_not_mem hnone]
      rfl
  | feed first rest hfirst ih =>
      rw [List.append_assoc, List.cons_append, rows_append hfirst, List.length_cons, ih,
        List.count_append, List.count_eq_zero_of_not_mem hfirst, List.count_cons_self]
      omega

/-- A line feed at the end adds at most an empty row, unless there is a carriage return for it to
take. -/
theorem rows_feed_eq_or {front : List Char} (h : front.getLast? ≠ some '\r') :
    rows (front ++ ['\n']) = rows front ∨ rows (front ++ ['\n']) = rows front ++ [[]] := by
  induction front using feed_induction with
  | plain front hnone =>
      rw [rows_append hnone, rows_of_notMem hnone, (chomp_eq_self_iff front).2 h]
      by_cases hne : front = []
      · simp [hne]
      · simp [hne]
  | feed first rest hfirst ih =>
      have hlast : rest.getLast? ≠ some '\r' := by
        cases rest with
        | nil => simp
        | cons c rest => simpa [List.getLast?_append, List.getLast?_cons] using h
      rw [List.append_assoc, List.cons_append, rows_append hfirst, rows_append hfirst]
      rcases ih hlast with hrest | hrest
      · exact .inl (by rw [hrest])
      · exact .inr (by rw [hrest]; rfl)

theorem cut_of_notMem {separator : Char} {cs : List Char} (h : separator ∉ cs) :
    cut separator cs = none := by
  have hdrop : cs.dropWhile (· != separator) = [] := by
    rw [List.dropWhile_eq_nil_iff]
    intro c hc
    rw [bne_iff_ne]
    rintro rfl
    exact h hc
  rw [cut, hdrop]

end Text

/-- The error for a row that comes so many rows further down. -/
def ListingError.below (rows : Nat) : ListingError → ListingError
  | missingField row => missingField (row + rows)
  | badLineNumber row found => badLineNumber (row + rows) found
  | unknownClass row name => unknownClass (row + rows) name

namespace Listing

section Joining

theorem readRow_below (number rows : Nat) (row : List Char) :
    readRow (number + rows) row = (readRow number row).mapError (·.below rows) := by
  unfold readRow
  split
  · rfl
  · split
    · rfl
    · dsimp only
      split <;> rfl

/-- Rows are read alike wherever they are, but for the numbers in errors. -/
theorem readRows_below (number below : Nat) (rows : List (List Char)) :
    readRows (number + below) rows = (readRows number rows).mapError (·.below below) := by
  induction rows generalizing number with
  | nil => rfl
  | cons row rows ih =>
      have hrest := ih (number + 1)
      rw [Nat.add_right_comm] at hrest
      rw [readRows, readRows]
      by_cases hblank : row.all Text.isBlank = true
      · rw [if_pos hblank, if_pos hblank, hrest]
      · rw [if_neg hblank, if_neg hblank, hrest, readRow_below]
        cases readRow number row with
        | error error => rfl
        | ok token => cases readRows (number + 1) rows <;> rfl

/-- Rows are read one after the other. -/
theorem readRows_append (number : Nat) (front back : List (List Char)) :
    readRows number (front ++ back) = (do
      let first ← readRows number front
      let second ← readRows (number + front.length) back
      return first ++ second) := by
  induction front generalizing number with
  | nil =>
      have hnone : readRows number [] = .ok [] := rfl
      rw [List.nil_append, List.length_nil, Nat.add_zero, hnone]
      cases readRows number back <;> rfl
  | cons row front ih =>
      have hlength : number + (row :: front).length = number + 1 + front.length := by
        rw [List.length_cons]
        omega
      rw [List.cons_append, readRows, readRows, hlength]
      by_cases hblank : row.all Text.isBlank = true
      · rw [if_pos hblank, if_pos hblank, ih]
      · rw [if_neg hblank, if_neg hblank, ih]
        cases readRow number row with
        | error error => rfl
        | ok token =>
            cases readRows (number + 1) front with
            | error error => rfl
            | ok first => cases readRows (number + 1 + front.length) back <;> rfl

/-- An empty row at the end adds nothing. -/
theorem readRows_concat_nil (number : Nat) (rows : List (List Char)) :
    readRows number (rows ++ [[]]) = readRows number rows := by
  rw [readRows_append]
  cases readRows number rows with
  | error error => rfl
  | ok tokens => exact congrArg Except.ok (List.append_nil tokens)

/-- A listing made of two is read as the one, and then the other further down. -/
theorem read_append {front : String} (h : front.toList.getLast? ≠ some '\r') (back : String) :
    read (front ++ "\n" ++ back) = (do
      let first ← read front
      let second ← (read back).mapError (·.below (1 + front.toList.count '\n'))
      return first ++ second) := by
  have hlist : (front ++ "\n" ++ back).toList = front.toList ++ '\n' :: back.toList := by
    have hfeed : ("\n" : String).toList = ['\n'] := rfl
    rw [String.toList_append, String.toList_append, hfeed, List.append_assoc]
    rfl
  have hfront : readRows 1 (Text.rows (front.toList ++ ['\n'])) = read front := by
    rcases Text.rows_feed_eq_or h with hrows | hrows
    · rw [hrows]
      rfl
    · rw [hrows, readRows_concat_nil]
      rfl
  rw [read, hlist, Text.rows_feed, readRows_append, hfront, Text.length_rows_feed, readRows_below]
  rfl

end Joining

section Faults

/-- A row has a line, a class and a value, with a space between them. Blanks in front do not count, and
the value may be left out together with the space in front of it. -/
structure Fields (row line className value : List Char) : Prop where
  split : ∃ fields, Text.trimStart row = line ++ ' ' :: fields ∧
    (fields = className ++ ' ' :: value ∨ fields = className ∧ value = [])
  line : ' ' ∉ line
  className : ' ' ∉ className

/-- What a row without errors stands for. -/
inductive Spells (row : List Char) : Token → Prop where
  | mk {line className value : List Char} {number : UInt64} {kind : TokenKind}
      (hrow : Fields row line className value) (hline : Text.unsigned? line = some number)
      (hclass : TokenKind.ofClassName? (String.ofList className) = some kind) :
      Spells row { kind, value := String.ofList value, line := number }

/-- What is wrong with a row of some number, of several things the first. -/
inductive Fault (number : Nat) (row : List Char) : ListingError → Prop where
  | missingField (hrow : ' ' ∉ Text.trimStart row) : Fault number row (.missingField number)
  | badLineNumber {line className value : List Char} (hrow : Fields row line className value)
      (hline : Text.unsigned? line = none) :
      Fault number row (.badLineNumber number (String.ofList line))
  | unknownClass {line className value : List Char} {n : UInt64}
      (hrow : Fields row line className value) (hline : Text.unsigned? line = some n)
      (hclass : TokenKind.ofClassName? (String.ofList className) = none) :
      Fault number row (.unknownClass number (String.ofList className))

theorem fields_or_notMem (row : List Char) :
    ' ' ∉ Text.trimStart row ∨ ∃ line className value, Fields row line className value := by
  by_cases hspace : ' ' ∈ Text.trimStart row
  · obtain ⟨line, fields, hrow, hline⟩ := List.eq_append_cons_of_mem hspace
    by_cases hvalue : ' ' ∈ fields
    · obtain ⟨className, value, hfields, hclass⟩ := List.eq_append_cons_of_mem hvalue
      exact .inr ⟨line, className, value, ⟨fields, hrow, .inl hfields⟩, hline, hclass⟩
    · exact .inr ⟨line, fields, [], ⟨fields, hrow, .inr ⟨rfl, rfl⟩⟩, hline, hvalue⟩
  · exact .inl hspace

theorem readRow_of_notMem {row : List Char} (h : ' ' ∉ Text.trimStart row) (number : Nat) :
    readRow number row = .error (.missingField number) := by
  rw [readRow, Text.cut_of_notMem h]

theorem readRow_of_fields {row line className value : List Char}
    (h : Fields row line className value) (number : Nat) :
    readRow number row =
      match Text.unsigned? line, TokenKind.ofClassName? (String.ofList className) with
      | none, _ => .error (.badLineNumber number (String.ofList line))
      | some _, none => .error (.unknownClass number (String.ofList className))
      | some n, some kind => .ok { kind, value := String.ofList value, line := n } := by
  obtain ⟨fields, hrow, hfields⟩ := h.split
  have hcut : (Text.cut ' ' fields).getD (fields, []) = (className, value) := by
    rcases hfields with rfl | ⟨rfl, rfl⟩
    · rw [Text.cut_append h.className, Option.getD_some]
    · rw [Text.cut_of_notMem h.className, Option.getD_none]
  rw [readRow, hrow, Text.cut_append h.line]
  simp only [hcut]
  cases Text.unsigned? line with
  | none => rfl
  | some n => cases TokenKind.ofClassName? (String.ofList className) <;> rfl

variable {number : Nat} {row : List Char} {error : ListingError} {token : Token}

theorem readRow_of_fault (h : Fault number row error) : readRow number row = .error error := by
  cases h with
  | missingField hrow => exact readRow_of_notMem hrow number
  | badLineNumber hrow hline => rw [readRow_of_fields hrow, hline]
  | unknownClass hrow hline hclass => rw [readRow_of_fields hrow, hline, hclass]

theorem readRow_of_spells (h : Spells row token) (number : Nat) :
    readRow number row = .ok token := by
  obtain ⟨hrow, hline, hclass⟩ := h
  rw [readRow_of_fields hrow, hline, hclass]

/-- There is something wrong with a row, or else it stands for a token. -/
theorem fault_or_spells (number : Nat) (row : List Char) :
    (∃ error, Fault number row error) ∨ ∃ token, Spells row token := by
  rcases fields_or_notMem row with hrow | ⟨line, className, value, hrow⟩
  · exact .inl ⟨_, .missingField hrow⟩
  · cases hline : Text.unsigned? line with
    | none => exact .inl ⟨_, .badLineNumber hrow hline⟩
    | some n =>
        cases hclass : TokenKind.ofClassName? (String.ofList className) with
        | none => exact .inl ⟨_, .unknownClass hrow hline hclass⟩
        | some kind => exact .inr ⟨_, .mk hrow hline hclass⟩

end Faults

section First

/-- A row that does no harm: it is blank, or stands for a token. -/
def Readable (row : List Char) : Prop :=
  row.all Text.isBlank = true ∨ ∃ token, Spells row token

/-- The error is about the first row that is not readable, where the rows are counted from `number`
on. -/
def FirstFault (number : Nat) (rows : List (List Char)) (error : ListingError) : Prop :=
  ∃ before row after, rows = before ++ row :: after ∧ (∀ earlier ∈ before, Readable earlier) ∧
    row.all Text.isBlank = false ∧ Fault (number + before.length) row error

variable {number : Nat} {row : List Char} {rows : List (List Char)} {error : ListingError}
  {token : Token} {tokens : List Token}

theorem Fault.not_readable (h : Fault number row error) (hblank : row.all Text.isBlank = false) :
    ¬ Readable row := by
  rintro (hrow | ⟨token, hspells⟩)
  · rw [hrow] at hblank
    cases hblank
  · have hread := readRow_of_spells hspells number
    rw [readRow_of_fault h] at hread
    cases hread

namespace FirstFault

theorem cons (h : FirstFault (number + 1) rows error) (hrow : Readable row) :
    FirstFault number (row :: rows) error := by
  obtain ⟨before, bad, after, rfl, hbefore, hblank, hfault⟩ := h
  refine ⟨row :: before, bad, after, rfl, List.forall_mem_cons.2 ⟨hrow, hbefore⟩, hblank, ?_⟩
  rwa [List.length_cons, Nat.add_comm before.length, ← Nat.add_assoc]

/-- The first of the rows is the first that is not readable, or else there is one behind it. -/
theorem head_or_tail (h : FirstFault number (row :: rows) error) :
    row.all Text.isBlank = false ∧ Fault number row error ∨
      Readable row ∧ FirstFault (number + 1) rows error := by
  obtain ⟨before, bad, after, hrows, hbefore, hblank, hfault⟩ := h
  cases before with
  | nil =>
      obtain ⟨rfl, _⟩ := List.cons.inj hrows
      exact .inl ⟨hblank, hfault⟩
  | cons first before =>
      obtain ⟨rfl, rfl⟩ := List.cons.inj hrows
      rw [List.forall_mem_cons] at hbefore
      rw [List.length_cons, Nat.add_comm before.length, ← Nat.add_assoc] at hfault
      exact .inr ⟨hbefore.1, before, bad, after, rfl, hbefore.2, hblank, hfault⟩

theorem exists_not_readable (h : FirstFault number rows error) : ∃ row ∈ rows, ¬ Readable row := by
  obtain ⟨before, bad, after, rfl, _, hblank, hfault⟩ := h
  exact ⟨bad, by simp, hfault.not_readable hblank⟩

end FirstFault

/-- All rows are readable, or else there is a first one that is not. -/
theorem readable_or_firstFault (number : Nat) (rows : List (List Char)) :
    (∀ row ∈ rows, Readable row) ∨ ∃ error, FirstFault number rows error := by
  induction rows generalizing number with
  | nil => exact .inl (by simp)
  | cons row rows ih =>
      by_cases hrow : Readable row
      · rcases ih (number + 1) with hrows | ⟨error, hfault⟩
        · exact .inl (List.forall_mem_cons.2 ⟨hrow, hrows⟩)
        · exact .inr ⟨error, hfault.cons hrow⟩
      · rcases fault_or_spells number row with ⟨error, hfault⟩ | hspells
        · have hblank : row.all Text.isBlank = false :=
            Bool.eq_false_iff.2 fun hblank => hrow (.inl hblank)
          exact .inr ⟨error, [], row, rows, rfl, by simp, hblank, hfault⟩
        · exact absurd (.inr hspells) hrow

theorem readRows_of_blank (h : row.all Text.isBlank = true) :
    readRows number (row :: rows) = readRows (number + 1) rows := by
  rw [readRows, if_pos h]

theorem readRows_of_fault (hblank : row.all Text.isBlank = false) (h : Fault number row error) :
    readRows number (row :: rows) = .error error := by
  rw [readRows, hblank, readRow_of_fault h]
  rfl

theorem readRows_of_spells (hblank : row.all Text.isBlank = false) (h : Spells row token) :
    readRows number (row :: rows) = (readRows (number + 1) rows).map (token :: ·) := by
  rw [readRows, hblank, readRow_of_spells h]
  cases readRows (number + 1) rows <;> rfl

theorem readRows_of_firstFault (h : FirstFault number rows error) :
    readRows number rows = .error error := by
  induction rows generalizing number with
  | nil =>
      obtain ⟨before, row, after, hrows, _⟩ := h
      simp at hrows
  | cons row rows ih =>
      rcases h.head_or_tail with ⟨hblank, hfault⟩ | ⟨hrow, hrows⟩
      · exact readRows_of_fault hblank hfault
      · cases hblank : row.all Text.isBlank with
        | true => rw [readRows_of_blank hblank, ih hrows]
        | false =>
            rcases hrow with hrow | ⟨token, hspells⟩
            · rw [hrow] at hblank
              cases hblank
            · rw [readRows_of_spells hblank hspells, ih hrows]
              rfl

/-- Whether a row is more than blanks. -/
def isFilled (row : List Char) : Bool :=
  !row.all Text.isBlank

/-- Readable rows are read as the tokens of those that are filled. -/
theorem exists_tokens (number : Nat) (h : ∀ row ∈ rows, Readable row) :
    ∃ tokens, List.Forall₂ Spells (rows.filter isFilled) tokens ∧
      readRows number rows = .ok tokens := by
  induction rows generalizing number with
  | nil => exact ⟨[], .nil, rfl⟩
  | cons row rows ih =>
      rw [List.forall_mem_cons] at h
      obtain ⟨tokens, htokens, hread⟩ := ih (number + 1) h.2
      cases hblank : row.all Text.isBlank with
      | true =>
          rw [List.filter_cons_of_neg (by simp [isFilled, hblank]), readRows_of_blank hblank]
          exact ⟨tokens, htokens, hread⟩
      | false =>
          rcases h.1 with hrow | ⟨token, hspells⟩
          · rw [hrow] at hblank
            cases hblank
          · rw [List.filter_cons_of_pos (by simp [isFilled, hblank]),
              readRows_of_spells hblank hspells, hread]
            exact ⟨token :: tokens, .cons hspells htokens, rfl⟩

theorem readRows_eq_error_iff :
    readRows number rows = .error error ↔ FirstFault number rows error := by
  refine ⟨fun h => ?_, readRows_of_firstFault⟩
  rcases readable_or_firstFault number rows with hrows | ⟨other, hfault⟩
  · obtain ⟨tokens, _, hok⟩ := exists_tokens number hrows
    rw [hok] at h
    cases h
  · rw [readRows_of_firstFault hfault] at h
    cases h
    exact hfault

theorem exists_error_iff :
    (∃ error, readRows number rows = .error error) ↔ ∃ row ∈ rows, ¬ Readable row := by
  constructor
  · rintro ⟨error, h⟩
    exact (readRows_eq_error_iff.1 h).exists_not_readable
  · rintro ⟨row, hmem, hrow⟩
    rcases readable_or_firstFault number rows with hrows | ⟨error, hfault⟩
    · exact absurd (hrows row hmem) hrow
    · exact ⟨error, readRows_of_firstFault hfault⟩

theorem spells_of_readRows (h : readRows number rows = .ok tokens) :
    List.Forall₂ Spells (rows.filter isFilled) tokens := by
  rcases readable_or_firstFault number rows with hrows | ⟨error, hfault⟩
  · obtain ⟨others, hothers, hok⟩ := exists_tokens number hrows
    rw [hok] at h
    cases h
    exact hothers
  · rw [readRows_of_firstFault hfault] at h
    cases h

end First

section Listings

/-- How a listing is read: as the tokens of its rows, unless there is a row with something wrong, of
which the first is reported. -/
structure ReadByRow (listing : String) : Prop where
  rows : Text.Splits listing.toList (Text.rows listing.toList)
  fails : (∃ error, read listing = .error error) ↔
    ∃ row ∈ Text.rows listing.toList, ¬ Readable row
  reports : ∀ error, read listing = .error error ↔
    FirstFault 1 (Text.rows listing.toList) error
  reads : ∀ tokens, read listing = .ok tokens →
    List.Forall₂ Spells ((Text.rows listing.toList).filter isFilled) tokens

/-- Two listings with a line feed between them are read as the first and then, with its rows counted
on, the second. So each row counts for itself, and the first one that is neither blank nor a token is
reported by its number. -/
theorem read_rowWise :
    (∀ front back : String, front.toList.getLast? ≠ some '\r' →
      read (front ++ "\n" ++ back) = (do
        let first ← read front
        let second ← (read back).mapError (·.below (1 + front.toList.count '\n'))
        return first ++ second)) ∧
    ∀ listing : String, ReadByRow listing :=
  ⟨fun _ back h => read_append h back, fun listing =>
    { rows := Text.splits_rows listing.toList
      fails := exists_error_iff
      reports := fun _ => readRows_eq_error_iff
      reads := fun _ => spells_of_readRows }⟩

/-- A row without a class is reported as the fourth, behind a token, a blank row and an empty one. -/
theorem read_rowWise_brokenRow :
    ("1 INTTK int\r\n\t\n".toList.getLast? ≠ some '\r') ∧
      read ("1 INTTK int\r\n\t\n" ++ "\n" ++ "7") = .error (.missingField 4) := by
  have hlast : "1 INTTK int\r\n\t\n".toList.getLast? ≠ some '\r' := by decide
  refine ⟨hlast, (read_rowWise.1 _ "7" hlast).trans ?_⟩
  have hfront : read "1 INTTK int\r\n\t\n" = .ok [⟨.kwInt, "int", 1⟩] := by decide +kernel
  have hback : read "7" = .error (.missingField 1) := by decide +kernel
  rw [hfront, hback]
  rfl

end Listings

end Listing

end OnePass
