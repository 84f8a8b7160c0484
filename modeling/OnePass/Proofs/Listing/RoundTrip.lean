import OnePass.Proofs.Literals

/-!
What is read from a listing that was written. No row has a line feed in it, so no value that is read
has one. Where the values have none, the rows are those of the tokens one by one, and each is read as
its token, less one carriage return at the end of its value.
-/

namespace OnePass

namespace Text

theorem isBlank_of_isDigit {c : Char} (h : c.isDigit = true) : isBlank c = false := by
  simp only [Char.isDigit, Bool.and_eq_true, decide_eq_true_eq, ge_iff_le,
    UInt32.le_iff_toNat_le] at h
  have hzero : ('0' : Char).val.toNat = 48 := rfl
  have hnine : ('9' : Char).val.toNat = 57 := rfl
  have hcode : c.toNat = c.val.toNat := rfl
  simp only [isBlank, blankRanges, List.any_cons, List.any_nil, Bool.or_false,
    Bool.or_eq_false_iff, Bool.and_eq_false_iff, decide_eq_false_iff_not]
  omega

/-- A numeral without sign is read from its digits. -/
theorem unsigned?_wordText (n : UInt64) : unsigned? (wordText n).toList = some n := by
  have hmagnitude : magnitude? n.toNat.repr.toList = some n.toNat := by
    unfold magnitude?
    split
    · next tail heq =>
        have hdigits := all_isDigit_repr n.toNat
        rw [heq] at hdigits
        exact absurd hdigits (by simp [show ('+' : Char).isDigit = false by decide])
    · exact digits?_repr n.toNat
  unfold unsigned? wordText
  rw [hmagnitude]
  simp only [Option.bind_eq_bind, Option.bind_some, n.toNat_lt_size, if_true, UInt64.ofNat_toNat]

theorem cut_append {separator : Char} {front : List Char} (h : separator ∉ front)
    (back : List Char) : cut separator (front ++ separator :: back) = some (front, back) := by
  have hfront : ∀ c ∈ front, (c != separator) = true := by
    intro c hc
    rw [bne_iff_ne]
    rintro rfl
    exact h hc
  unfold cut
  rw [List.dropWhile_append_of_pos hfront, List.takeWhile_append_of_pos hfront]
  simp

theorem mem_of_cut {separator c : Char} {cs front back : List Char}
    (h : cut separator cs = some (front, back)) (hc : c ∈ back) : c ∈ cs := by
  unfold cut at h
  split at h
  · cases h
  · next head after hdrop =>
      cases h
      refine (List.dropWhile_sublist (· != separator)).subset ?_
      rw [hdrop]
      exact List.mem_cons_of_mem head hc

/-- The content of a row, given as it stands in front of its line feed. -/
def chomp (row : List Char) : List Char :=
  closeRow row.reverse

theorem chomp_concat (row : List Char) (c : Char) :
    chomp (row ++ [c]) = if c = '\r' then row else row ++ [c] := by
  unfold chomp
  rw [List.reverse_append, List.reverse_singleton, List.singleton_append]
  by_cases hreturn : c = '\r'
  · rw [if_pos hreturn, hreturn]
    simp [closeRow]
  · rw [if_neg hreturn]
    unfold closeRow
    split
    · next tail heq => exact absurd (List.cons.inj heq).1 hreturn
    · simp

/-- A row keeps all that it has, unless it ends with a carriage return. -/
theorem chomp_eq_self_iff (row : List Char) : chomp row = row ↔ row.getLast? ≠ some '\r' := by
  rcases List.eq_nil_or_concat row with rfl | ⟨front, c, rfl⟩
  · simp [chomp, closeRow]
  · rw [List.concat_eq_append, chomp_concat, List.getLast?_concat]
    by_cases hreturn : c = '\r'
    · simp [hreturn]
    · simp [hreturn]

/-- Only what comes last in a row may be taken from it. -/
theorem chomp_append (front : List Char) {c : Char} (hc : c ≠ '\r') (back : List Char) :
    chomp (front ++ c :: back) = front ++ c :: chomp back := by
  rcases List.eq_nil_or_concat back with rfl | ⟨middle, last, rfl⟩
  · rw [chomp_concat, if_neg hc]
    rfl
  · have hassoc : front ++ c :: (middle ++ [last]) = (front ++ c :: middle) ++ [last] := by simp
    rw [List.concat_eq_append, hassoc, chomp_concat, chomp_concat]
    split
    · rfl
    · simp

section Rows

theorem rowsFrom_eq (done : List (List Char)) (row cs : List Char) :
    rowsFrom done row cs = done.reverse ++ rowsFrom [] row cs := by
  induction cs generalizing done row with
  | nil =>
      unfold rowsFrom
      split <;> simp
  | cons c cs ih =>
      unfold rowsFrom
      split
      · rw [ih, ih [closeRow row]]
        simp
      · exact ih done (c :: row)

/-- The row that has been begun ends at the next line feed. -/
theorem rowsFrom_append {row front : List Char} (h : '\n' ∉ front) (back : List Char) :
    rowsFrom [] row (front ++ '\n' :: back) = closeRow (front.reverse ++ row) :: rows back := by
  induction front generalizing row with
  | nil =>
      rw [List.nil_append, rowsFrom, if_pos rfl, rowsFrom_eq]
      rfl
  | cons c front ih =>
      rw [List.mem_cons, not_or] at h
      rw [List.cons_append, rowsFrom, if_neg (Ne.symm h.1), ih h.2, List.reverse_cons,
        List.append_assoc]
      rfl

theorem rows_append {front : List Char} (h : '\n' ∉ front) (back : List Char) :
    rows (front ++ '\n' :: back) = chomp front :: rows back := by
  have hrows : rows (front ++ '\n' :: back) = closeRow (front.reverse ++ []) :: rows back :=
    rowsFrom_append h back
  rwa [List.append_nil] at hrows

theorem mem_of_closeRow {c : Char} {row : List Char} (h : c ∈ closeRow row) : c ∈ row := by
  unfold closeRow at h
  split at h
  · exact List.mem_cons_of_mem _ (List.mem_reverse.1 h)
  · exact List.mem_reverse.1 h

/-- No row has a line feed in it. -/
theorem newline_notMem_of_rowsFrom {done : List (List Char)} {row cs : List Char}
    (hdone : ∀ finished ∈ done, '\n' ∉ finished) (hrow : '\n' ∉ row) :
    ∀ content ∈ rowsFrom done row cs, '\n' ∉ content := by
  induction cs generalizing done row with
  | nil =>
      intro content hcontent
      unfold rowsFrom at hcontent
      split at hcontent
      · exact hdone content (List.mem_reverse.1 hcontent)
      · rcases List.mem_cons.1 (List.mem_reverse.1 hcontent) with rfl | hcontent
        · rwa [List.mem_reverse]
        · exact hdone content hcontent
  | cons c cs ih =>
      unfold rowsFrom
      split
      · refine ih ?_ List.not_mem_nil
        rw [List.forall_mem_cons]
        exact ⟨fun hmem => hrow (mem_of_closeRow hmem), hdone⟩
      · next hc =>
          refine ih hdone ?_
          rw [List.mem_cons, not_or]
          exact ⟨Ne.symm hc, hrow⟩

theorem newline_notMem_of_mem_rows {cs row : List Char} (h : row ∈ rows cs) : '\n' ∉ row :=
  newline_notMem_of_rowsFrom (fun _ hmem => absurd hmem List.not_mem_nil) List.not_mem_nil row h

end Rows

end Text

namespace TokenKind

/-- The name of a class is one word. -/
theorem notMem_className (kind : TokenKind) :
    ' ' ∉ kind.className.toList ∧ '\n' ∉ kind.className.toList := by
  cases kind <;> decide

end TokenKind

namespace Listing

/-- A row in front of a value: a line and a class. -/
def rowHead (token : Token) : List Char :=
  (Text.wordText token.line).toList ++ ' ' :: token.kind.className.toList

theorem digit_of_mem_wordText {n : UInt64} {c : Char} (h : c ∈ (Text.wordText n).toList) :
    c.isDigit = true :=
  List.all_eq_true.1 (Text.all_isDigit_repr n.toNat) c h

theorem newline_notMem_rowHead (token : Token) : '\n' ∉ rowHead token := by
  unfold rowHead
  rw [List.mem_append, List.mem_cons, not_or, not_or]
  refine ⟨fun hmem => ?_, by decide, token.kind.notMem_className.2⟩
  exact absurd (digit_of_mem_wordText hmem) (by decide)

/-- A row starts with a digit. -/
theorem exists_rowHead (token : Token) :
    ∃ c cs, rowHead token = c :: cs ∧ Text.isBlank c = false := by
  cases hword : (Text.wordText token.line).toList with
  | nil =>
      have hread := Text.unsigned?_wordText token.line
      rw [hword] at hread
      cases hread
  | cons c cs =>
      refine ⟨c, _, by rw [rowHead, hword, List.cons_append], Text.isBlank_of_isDigit ?_⟩
      exact digit_of_mem_wordText (by rw [hword]; exact List.mem_cons_self)

/-- A row is read as its line, its class and whatever comes behind these. -/
theorem readRow_rowHead (number : Nat) (token : Token) (value : List Char) :
    readRow number (rowHead token ++ ' ' :: value) =
      .ok { token with value := String.ofList value } := by
  obtain ⟨c, cs, hhead, hblank⟩ := exists_rowHead token
  have htrim : Text.trimStart (rowHead token ++ ' ' :: value) = rowHead token ++ ' ' :: value := by
    rw [hhead, List.cons_append, Text.trimStart, List.dropWhile_cons_of_neg (by simp [hblank])]
  have hspace : ' ' ∉ (Text.wordText token.line).toList := fun hmem =>
    absurd (digit_of_mem_wordText hmem) (by decide)
  have hline : Text.cut ' ' (rowHead token ++ ' ' :: value) =
      some ((Text.wordText token.line).toList, token.kind.className.toList ++ ' ' :: value) := by
    rw [rowHead, List.append_assoc, List.cons_append]
    exact Text.cut_append hspace _
  have hclass := Text.cut_append token.kind.notMem_className.1 value
  unfold readRow
  rw [htrim, hline]
  simp only [Text.unsigned?_wordText, hclass, Option.getD_some, String.ofList_toList,
    TokenKind.ofClassName?_className]

/-- A value that is read stood in its row. -/
theorem mem_of_readRow {number : Nat} {row : List Char} {token : Token} {c : Char}
    (h : readRow number row = .ok token) (hc : c ∈ token.value.toList) : c ∈ row := by
  have htrimmed : ∀ {d : Char}, d ∈ Text.trimStart row → d ∈ row := fun hd =>
    (List.dropWhile_sublist Text.isBlank).subset hd
  unfold readRow at h
  split at h
  · cases h
  · next lineText fields hline =>
      split at h
      · cases h
      · split at h
        next className value hparts =>
          split at h
          · cases h
          · cases h
            rw [String.toList_ofList] at hc
            refine htrimmed (Text.mem_of_cut hline ?_)
            cases hclass : Text.cut ' ' fields with
            | none =>
                rw [hclass] at hparts
                cases hparts
                cases hc
            | some parts =>
                rw [hclass] at hparts
                cases hparts
                exact Text.mem_of_cut hclass hc

/-- A value that is read has no line feed, since no row has one. -/
theorem newline_notMem_of_readRows {number : Nat} {rows : List (List Char)} {tokens : List Token}
    (hrows : ∀ row ∈ rows, '\n' ∉ row) (h : readRows number rows = .ok tokens) :
    ∀ token ∈ tokens, '\n' ∉ token.value.toList := by
  induction rows generalizing number tokens with
  | nil =>
      cases h
      exact fun token htoken => absurd htoken List.not_mem_nil
  | cons row rows ih =>
      rw [List.forall_mem_cons] at hrows
      unfold readRows at h
      split at h
      · exact ih hrows.2 h
      · cases hrow : readRow number row with
        | error e =>
            rw [hrow] at h
            cases h
        | ok token =>
            cases hrest : readRows (number + 1) rows with
            | error e =>
                rw [hrow, hrest] at h
                cases h
            | ok others =>
                rw [hrow, hrest] at h
                cases h
                rw [List.forall_mem_cons]
                exact ⟨fun hmem => hrows.1 (mem_of_readRow hrow hmem), ih hrows.2 hrest⟩

section Written

theorem toList_writeRow (token : Token) :
    (writeRow token).toList = rowHead token ++ ' ' :: token.value.toList ++ ['\n'] := by
  have hspace : (" " : String).toList = [' '] := rfl
  have hfeed : ("\n" : String).toList = ['\n'] := rfl
  simp only [writeRow, rowHead, String.toList_append, hspace, hfeed, List.append_assoc,
    List.cons_append, List.nil_append]

theorem toList_write_cons (token : Token) (tokens : List Token) :
    (write (token :: tokens)).toList =
      (rowHead token ++ ' ' :: token.value.toList) ++ '\n' :: (write tokens).toList := by
  rw [write, List.map_cons, String.join_cons, String.toList_append, toList_writeRow,
    List.append_assoc, List.singleton_append]
  rfl

/-- What is read back of a token: its value loses one carriage return at its end. -/
def readBack (token : Token) : Token :=
  { token with value := String.ofList (Text.chomp token.value.toList) }

theorem readBack_eq_self_iff (token : Token) :
    readBack token = token ↔ token.value.toList.getLast? ≠ some '\r' := by
  rw [← Text.chomp_eq_self_iff]
  constructor
  · intro h
    have hvalue := congrArg (fun t => t.value.toList) h
    simpa only [readBack, String.toList_ofList] using hvalue
  · intro h
    rw [readBack, h, String.ofList_toList]

/-- Where no value has a line feed, a written listing has one row for each token. -/
theorem readRows_write {tokens : List Token} (h : ∀ token ∈ tokens, '\n' ∉ token.value.toList)
    (number : Nat) :
    readRows number (Text.rows (write tokens).toList) = .ok (tokens.map readBack) := by
  induction tokens generalizing number with
  | nil => rfl
  | cons token tokens ih =>
      rw [List.forall_mem_cons] at h
      have hrow : '\n' ∉ rowHead token ++ ' ' :: token.value.toList := by
        rw [List.mem_append, List.mem_cons, not_or, not_or]
        exact ⟨newline_notMem_rowHead token, by decide, h.1⟩
      have hfull : (rowHead token ++ ' ' :: Text.chomp token.value.toList).all Text.isBlank =
          false := by
        obtain ⟨c, cs, hhead, hblank⟩ := exists_rowHead token
        rw [hhead, List.cons_append, List.all_cons, hblank, Bool.false_and]
      rw [toList_write_cons, Text.rows_append hrow, Text.chomp_append _ (by decide), readRows,
        hfull, readRow_rowHead, ih h.2]
      rfl

end Written

/-- A listing that is written gives its tokens back exactly if no value has a line feed or ends with
a carriage return. -/
theorem read_write_eq_ok_iff (tokens : List Token) :
    read (write tokens) = .ok tokens ↔
      ∀ token ∈ tokens,
        '\n' ∉ token.value.toList ∧ token.value.toList.getLast? ≠ some '\r' := by
  constructor
  · intro h
    have hfeed := newline_notMem_of_readRows (fun _ => Text.newline_notMem_of_mem_rows) h
    have hmap : tokens.map readBack = tokens :=
      Except.ok.inj ((readRows_write hfeed 1).symm.trans h)
    intro token htoken
    refine ⟨hfeed token htoken, (readBack_eq_self_iff token).1 ?_⟩
    exact List.map_eq_map_iff.1 (hmap.trans (List.map_id tokens).symm) token htoken
  · intro h
    have hmap : tokens.map readBack = tokens :=
      (List.map_congr_left fun token htoken =>
        (readBack_eq_self_iff token).2 (h token htoken).2).trans (List.map_id tokens)
    exact (readRows_write (fun token htoken => (h token htoken).1) 1).trans (congrArg _ hmap)

end Listing

end OnePass
