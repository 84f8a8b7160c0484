import OnePass.Proofs.Run

/-!
The steps that look at the next token, by what the next token is. At the end of the tokens a step
declines or fails, and leaves the state as it is.
-/

namespace OnePass

/-- The state in which `token` has been consumed and `rest` is ahead. -/
def State.take (s : State) (token : Token) (rest : List Token) : State :=
  { s with cursor := { consumed := token :: s.cursor.consumed, rest } }

namespace Pass

section

variable {s : State} {token : Token} {rest : List Token} {kind : TokenKind}

theorem peekKind?_zero_nil (h : s.cursor.rest = []) : s.cursor.peekKind? 0 = none := by
  rw [Cursor.peekKind?, Cursor.peek?, h]
  rfl

theorem peekKind?_zero_cons (h : s.cursor.rest = token :: rest) :
    s.cursor.peekKind? 0 = some token.kind := by
  rw [Cursor.peekKind?, Cursor.peek?, h]
  rfl

theorem current_nil (h : s.cursor.rest = []) : current s = .error (.unexpectedEof .token) s := by
  simp only [current, onCursor, Cursor.current, h]

theorem current_cons (h : s.cursor.rest = token :: rest) : current s = .ok token s := by
  simp only [current, onCursor, Cursor.current, h]

/-- The next token decides what is done. -/
theorem current_bind_eq {α : Type} (next : Token → Pass α) (s : State) :
    (current >>= next) s =
      s.cursor.rest.head?.elim (throw (.unexpectedEof .token)) next s := by
  cases hrest : s.cursor.rest with
  | nil =>
      rw [bind_of_error (current_nil hrest)]
      rfl
  | cons token rest =>
      rw [bind_of_ok (current_cons hrest)]
      rfl

theorem advance_nil (h : s.cursor.rest = []) : advance s = .error (.unexpectedEof .token) s := by
  simp only [advance, onCursor, Cursor.advance, h]

theorem advance_cons (h : s.cursor.rest = token :: rest) :
    advance s = .ok token (s.take token rest) := by
  simp only [advance, onCursor, Cursor.advance, h]
  rfl

theorem accept_nil (h : s.cursor.rest = []) : accept kind s = .ok none s := by
  simp only [accept, onCursor, Cursor.accept, h]

theorem accept_cons (h : s.cursor.rest = token :: rest) :
    accept kind s =
      if token.kind = kind then .ok (some token) (s.take token rest) else .ok none s := by
  simp only [accept, onCursor, Cursor.accept, h]
  by_cases hkind : token.kind = kind
  · simp only [if_pos hkind]
    rfl
  · simp only [if_neg hkind]

theorem acceptAs_nil {β : Type} {meaning? : TokenKind → Option β} (h : s.cursor.rest = []) :
    acceptAs meaning? s = .ok none s := by
  refine acceptAs_eq_none.2 ⟨rfl, ?_⟩
  rw [peekKind?_zero_nil h]
  rfl

theorem acceptAs_cons_none {β : Type} {meaning? : TokenKind → Option β}
    (h : s.cursor.rest = token :: rest) (hmeaning : meaning? token.kind = none) :
    acceptAs meaning? s = .ok none s := by
  refine acceptAs_eq_none.2 ⟨rfl, ?_⟩
  rw [peekKind?_zero_cons h]
  exact hmeaning

theorem acceptAs_cons_some {β : Type} {meaning? : TokenKind → Option β} {meaning : β}
    (h : s.cursor.rest = token :: rest) (hmeaning : meaning? token.kind = some meaning) :
    acceptAs meaning? s = .ok (some (meaning, token)) (s.take token rest) :=
  acceptAs_eq_some.2 ⟨hmeaning, advance_cons h⟩

theorem expect_nil (h : s.cursor.rest = []) :
    expect kind s = .error (.unexpectedEof (.kind kind)) s := by
  simp only [expect, onCursor, Cursor.expect, h]

theorem expect_cons (h : s.cursor.rest = token :: rest) :
    expect kind s =
      if token.kind = kind then .ok token (s.take token rest)
      else .error (.unexpectedToken (.kind kind) token) s := by
  simp only [expect, onCursor, Cursor.expect, h]
  by_cases hkind : token.kind = kind
  · simp only [if_pos hkind]
    rfl
  · simp only [if_neg hkind]

theorem unexpected_nil {α : Type} {expected : Expected} (h : s.cursor.rest = []) :
    (unexpected expected : Pass α) s = .error (.unexpectedEof expected) s := by
  simp only [unexpected, Cursor.peek?, h, List.getElem?_nil]

theorem unexpected_cons {α : Type} {expected : Expected} (h : s.cursor.rest = token :: rest) :
    (unexpected expected : Pass α) s = .error (.unexpectedToken expected token) s := by
  simp only [unexpected, Cursor.peek?, h, List.getElem?_cons_zero]

theorem skipPast_nil (h : s.cursor.rest = []) :
    onCursor (Cursor.skipPast kind) s = .error (.unexpectedEof (.kind kind)) s := by
  simp only [onCursor, Cursor.skipPast, h, Cursor.skipPastFrom]
  rw [← h]

theorem skipPast_cons (h : s.cursor.rest = token :: rest) :
    onCursor (Cursor.skipPast kind) s =
      if token.kind = kind then .ok () (s.take token rest)
      else onCursor (Cursor.skipPast kind) (s.take token rest) := by
  simp only [onCursor, Cursor.skipPast, h, Cursor.skipPastFrom]
  by_cases hkind : token.kind = kind
  · simp only [if_pos hkind]
    rfl
  · simp only [if_neg hkind]
    rfl

end

/-- How deep the parentheses are behind a token, or nothing if it closes the last of them. -/
def depthAfter (depth : Nat) (kind : TokenKind) : Option Nat :=
  match kind, depth with
  | .lparen, depth => some (depth + 1)
  | .rparen, 0 => none
  | .rparen, depth + 1 => some depth
  | _, depth => some depth

theorem skipClosingFrom_step (depth : Nat) (consumed : List Token) (token : Token)
    (rest : List Token) :
    Cursor.skipClosingFrom depth consumed (token :: rest) =
      match depthAfter depth token.kind with
      | none => .ok () { consumed := token :: consumed, rest }
      | some inner => Cursor.skipClosingFrom inner (token :: consumed) rest := by
  simp only [Cursor.skipClosingFrom, depthAfter]
  cases token.kind with
  | rparen => cases depth <;> rfl
  | _ => rfl

/-- Consumes tokens up to the parenthesis that closes `depth + 1` open ones. -/
def skipClosing (depth : Nat) : Pass Unit :=
  onCursor fun cursor => Cursor.skipClosingFrom depth cursor.consumed cursor.rest

theorem skipParens_eq : onCursor Cursor.skipParens = (do
    let _ ← expect .lparen
    skipClosing 0) := by
  funext s
  simp only [onCursor, Cursor.skipParens, expect, skipClosing, bind, EStateM.bind]
  cases Cursor.expect .lparen s.cursor <;> rfl

section

variable {s : State} {token : Token} {rest : List Token} {depth : Nat}

theorem skipClosing_nil (h : s.cursor.rest = []) :
    skipClosing depth s = .error (.unexpectedEof (.kind .rparen)) s := by
  simp only [skipClosing, onCursor, h, Cursor.skipClosingFrom]
  rw [← h]

theorem skipClosing_cons (h : s.cursor.rest = token :: rest) :
    skipClosing depth s =
      match depthAfter depth token.kind with
      | none => .ok () (s.take token rest)
      | some depth => skipClosing depth (s.take token rest) := by
  simp only [skipClosing, onCursor, h, skipClosingFrom_step]
  cases depthAfter depth token.kind <;> rfl

end

end Pass

end OnePass
