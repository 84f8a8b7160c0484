import OnePass.Diagnostic
import OnePass.ParseError

/-!
A place in a list of tokens. The tokens before it are kept, latest first, since a missing
token is reported on the line of the one it should have followed.
-/

namespace OnePass

structure Cursor where
  consumed : List Token := []
  rest : List Token
deriving DecidableEq, Repr

namespace Cursor

/-- The start of a list of tokens. -/
def ofTokens (tokens : List Token) : Cursor :=
  { rest := tokens }

/-- All tokens, those consumed first. -/
def tokens (cursor : Cursor) : List Token :=
  cursor.consumed.reverse ++ cursor.rest

/-- The number of consumed tokens. -/
def position (cursor : Cursor) : Nat :=
  cursor.consumed.length

def atEnd (cursor : Cursor) : Bool :=
  cursor.rest.isEmpty

/-- The token `offset` places ahead. -/
def peek? (cursor : Cursor) (offset : Nat) : Option Token :=
  cursor.rest[offset]?

def peekKind? (cursor : Cursor) (offset : Nat) : Option TokenKind :=
  (cursor.peek? offset).map Token.kind

/-- Whether the next token is of a kind. -/
def nextIs (cursor : Cursor) (kind : TokenKind) : Bool :=
  cursor.peekKind? 0 == some kind

/-- The line of the last consumed token; before the first one, the line of that. -/
def lastLine (cursor : Cursor) : UInt64 :=
  match cursor.consumed, cursor.rest with
  | token :: _, _ => token.line
  | [], token :: _ => token.line
  | [], [] => 0

/-- A step of a cursor. A step that fails still says where it left the cursor. -/
abbrev Step := EStateM ParseError Cursor

/-- The next token, which stays where it is. -/
def current : Step Token := fun cursor =>
  match cursor.rest with
  | [] => .error (.unexpectedEof .token) cursor
  | token :: _ => .ok token cursor

/-- Consumes the next token. -/
def advance : Step Token := fun cursor =>
  match cursor.rest with
  | [] => .error (.unexpectedEof .token) cursor
  | token :: rest => .ok token { consumed := token :: cursor.consumed, rest }

/-- Consumes the next token if it is of a kind. -/
def accept (kind : TokenKind) : Step (Option Token) := fun cursor =>
  match cursor.rest with
  | [] => .ok none cursor
  | token :: rest =>
    if token.kind = kind then .ok (some token) { consumed := token :: cursor.consumed, rest }
    else .ok none cursor

/-- Consumes the next token, which has to be of a kind. -/
def expect (kind : TokenKind) : Step Token := fun cursor =>
  match cursor.rest with
  | [] => .error (.unexpectedEof (.kind kind)) cursor
  | token :: rest =>
    if token.kind = kind then .ok token { consumed := token :: cursor.consumed, rest }
    else .error (.unexpectedToken (.kind kind) token) cursor

/-- Consumes the next token if it is of a kind. Otherwise it counts as left out: nothing is
consumed and a diagnostic comes back. -/
def expectOrDiagnose (kind : TokenKind) (missing : DiagnosticKind) :
    Step (Option Token × Option Diagnostic) := do
  match ← accept kind with
  | some token => return (some token, none)
  | none => return (none, some { line := (← get).lastLine, kind := missing })

/-- Consumes tokens up to the first of a kind, that one included. -/
def skipPastFrom (kind : TokenKind) (consumed : List Token) :
    List Token → EStateM.Result ParseError Cursor Unit
  | [] => .error (.unexpectedEof (.kind kind)) { consumed, rest := [] }
  | token :: rest =>
    if token.kind = kind then .ok () { consumed := token :: consumed, rest }
    else skipPastFrom kind (token :: consumed) rest

/-- Consumes tokens up to the first of a kind, that one included. -/
def skipPast (kind : TokenKind) : Step Unit := fun cursor =>
  skipPastFrom kind cursor.consumed cursor.rest

/-- Consumes tokens up to the parenthesis that closes `depth + 1` open ones. The depth is
a number without a bound, and not a counter of 32 bits, which overflows at 2^31 open ones. -/
def skipClosingFrom (depth : Nat) (consumed : List Token) :
    List Token → EStateM.Result ParseError Cursor Unit
  | [] => .error (.unexpectedEof (.kind .rparen)) { consumed, rest := [] }
  | token :: rest =>
    match token.kind, depth with
    | .lparen, _ => skipClosingFrom (depth + 1) (token :: consumed) rest
    | .rparen, 0 => .ok () { consumed := token :: consumed, rest }
    | .rparen, depth + 1 => skipClosingFrom depth (token :: consumed) rest
    | _, _ => skipClosingFrom depth (token :: consumed) rest

/-- Consumes a group in parentheses, with the groups nested in it. -/
def skipParens : Step Unit := do
  let _ ← expect .lparen
  fun cursor => skipClosingFrom 0 cursor.consumed cursor.rest

/-- Consuming a token moves it over, and leaves one token less. -/
theorem rest_of_advance {cursor after : Cursor} {token : Token}
    (h : advance cursor = .ok token after) :
    cursor.rest = token :: after.rest ∧ after.consumed = token :: cursor.consumed := by
  unfold advance at h
  split at h
  · cases h
  · next head rest hrest =>
      cases h
      exact ⟨hrest, rfl⟩

/-- A token is consumed as expected exactly when it is next and of the kind. -/
theorem expect_eq_ok_iff {kind : TokenKind} {cursor after : Cursor} {token : Token} :
    expect kind cursor = .ok token after ↔
      token.kind = kind ∧ advance cursor = .ok token after := by
  unfold expect advance
  split
  · constructor
    · intro h
      cases h
    · intro h
      cases h.2
  · next head rest hrest =>
      by_cases hkind : head.kind = kind
      · rw [if_pos hkind]
        constructor
        · intro h
          cases h
          exact ⟨hkind, rfl⟩
        · intro h
          exact h.2
      · rw [if_neg hkind]
        constructor
        · intro h
          cases h
        · intro h
          cases h.2
          exact absurd h.1 hkind

end Cursor

end OnePass
