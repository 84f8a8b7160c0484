import Mathlib.Data.Nat.Find
import OnePass.Proofs.Grammar.Completeness.Expr
import OnePass.Proofs.Steps

/-!
Where the skips stop. A group in parentheses ends where as many of them have been closed as were
opened, and this is the shortest piece of the tokens ahead of which that can be said; what is
skipped up to a kind ends with the first token of that kind. Where there is no such place, all
tokens are consumed.
-/

namespace OnePass

namespace Cursor

/-- The cursor with `front` behind it and `back` ahead. -/
def past (cursor : Cursor) (front back : List Token) : Cursor :=
  { consumed := front.reverse ++ cursor.consumed, rest := back }

/-- Tokens that close `depth` parentheses more than they open. -/
def Closes (depth : Nat) (piece : List Token) : Prop :=
  (piece.map Token.kind).count .rparen = (piece.map Token.kind).count .lparen + depth

/-- Tokens that open and close the same number of parentheses. -/
def Level (piece : List Token) : Prop :=
  (piece.map Token.kind).count .lparen = (piece.map Token.kind).count .rparen

/-- Of the pieces that `tokens` start with and that have a property, `front` is the shortest one
that is not empty, and `back` is what comes behind it. -/
structure Shortest (P : List Token → Prop) (tokens front back : List Token) : Prop where
  split : tokens = front ++ back
  nonempty : front ≠ []
  holds : P front
  least : ∀ piece, piece <+: tokens → piece ≠ [] → P piece → front.length ≤ piece.length

section Shortest

variable {P : List Token → Prop} {tokens piece : List Token}

/-- If there is a piece at all, there is a shortest one. -/
theorem exists_shortest (hpiece : piece <+: tokens) (hne : piece ≠ []) (hP : P piece) :
    ∃ front back, Shortest P tokens front back := by
  classical
  have hlengths : ∃ n, ∃ front, front <+: tokens ∧ front ≠ [] ∧ P front ∧ front.length = n :=
    ⟨_, piece, hpiece, hne, hP, rfl⟩
  obtain ⟨front, ⟨back, hsplit⟩, hfront, hholds, hlength⟩ := Nat.find_spec hlengths
  refine ⟨front, back, hsplit.symm, hfront, hholds, fun other hother hotherNe hotherP => ?_⟩
  rw [hlength]
  exact Nat.find_min' hlengths ⟨other, hother, hotherNe, hotherP, rfl⟩

variable {token : Token} {rest front back : List Token}

/-- A shortest piece starts with the first token. -/
theorem Shortest.exists_cons (h : Shortest P (token :: rest) front back) :
    ∃ tail, front = token :: tail ∧ rest = tail ++ back := by
  cases front with
  | nil => exact absurd rfl h.nonempty
  | cons first tail =>
      obtain ⟨rfl, hrest⟩ := List.cons.inj h.split
      exact ⟨tail, rfl, hrest⟩

/-- If the first token alone will do, it is the shortest piece. -/
theorem Shortest.eq_singleton (h : Shortest P (token :: rest) front back) (htoken : P [token]) :
    front = [token] ∧ back = rest := by
  obtain ⟨tail, rfl, hrest⟩ := h.exists_cons
  have hle := h.least [token] (List.prefix_append [token] rest) (List.cons_ne_nil _ _) htoken
  obtain rfl : tail = [] :=
    List.length_eq_zero_iff.1 (Nat.le_zero.1 (Nat.le_of_succ_le_succ hle))
  exact ⟨rfl, hrest.symm⟩

/-- If the first token alone will not do, a shortest piece goes on behind it. -/
theorem Shortest.tail {Q : List Token → Prop} (h : Shortest P (token :: rest) front back)
    (hcons : ∀ piece, P (token :: piece) ↔ Q piece) (hnil : ¬ Q []) :
    ∃ tail, front = token :: tail ∧ Shortest Q rest tail back := by
  obtain ⟨tail, rfl, hrest⟩ := h.exists_cons
  have hholds : Q tail := (hcons tail).1 h.holds
  refine ⟨tail, rfl, hrest, ?_, hholds, fun piece hpiece _ hQ => ?_⟩
  · rintro rfl
    exact hnil hholds
  · have hle := h.least (token :: piece) ((List.prefix_cons_inj token).2 hpiece)
      (List.cons_ne_nil token piece) ((hcons piece).2 hQ)
    exact Nat.le_of_succ_le_succ hle

end Shortest

section Parentheses

open Pass (depthAfter)

/-- What a token does to the parentheses that are still to be closed. -/
theorem closes_cons (depth : Nat) (token : Token) (piece : List Token) :
    Closes (depth + 1) (token :: piece) ↔
      match depthAfter depth token.kind with
      | none => Closes 0 piece
      | some inner => Closes (inner + 1) piece := by
  unfold Closes depthAfter
  rw [List.map_cons]
  generalize token.kind = kind
  cases kind with
  | lparen =>
      have hne : TokenKind.lparen ≠ .rparen := by decide
      simp only [List.count_cons_self, List.count_cons_of_ne hne]
      omega
  | rparen =>
      cases depth <;>
        simp only [List.count_cons_self,
          List.count_cons_of_ne (show TokenKind.rparen ≠ .lparen by decide)] <;> omega
  | _ => simp

variable {depth : Nat} {consumed rest front back : List Token}

theorem not_closes_nil (depth : Nat) : ¬ Closes (depth + 1) [] := by
  unfold Closes
  simp

/-- Tokens are skipped to the end of the shortest piece that closes what is open. -/
theorem skipClosingFrom_of_shortest (h : Shortest (Closes (depth + 1)) rest front back) :
    skipClosingFrom depth consumed rest =
      .ok () { consumed := front.reverse ++ consumed, rest := back } := by
  induction rest generalizing depth consumed front with
  | nil => exact absurd (List.append_eq_nil_iff.1 h.split.symm).1 h.nonempty
  | cons token rest ih =>
      rw [Pass.skipClosingFrom_step]
      have hcons := closes_cons depth token
      cases hdepth : depthAfter depth token.kind with
      | none =>
          -- The token closes the last parenthesis, so that it is a piece by itself.
          rw [hdepth] at hcons
          obtain ⟨rfl, rfl⟩ := h.eq_singleton ((hcons []).2 rfl)
          rfl
      | some inner =>
          rw [hdepth] at hcons
          obtain ⟨tail, rfl, htail⟩ := h.tail hcons (not_closes_nil inner)
          simp only [ih htail, List.reverse_cons, List.append_assoc, List.singleton_append]

/-- Where nothing closes what is open, all tokens are consumed. -/
theorem skipClosingFrom_of_open (h : ∀ piece, piece <+: rest → ¬ Closes (depth + 1) piece) :
    skipClosingFrom depth consumed rest =
      .error (.unexpectedEof (.kind .rparen)) { consumed := rest.reverse ++ consumed, rest := [] } := by
  induction rest generalizing depth consumed with
  | nil => rfl
  | cons token rest ih =>
      have hcons := closes_cons depth token
      rw [Pass.skipClosingFrom_step]
      cases hdepth : depthAfter depth token.kind with
      | none =>
          rw [hdepth] at hcons
          exact absurd ((hcons []).2 rfl) (h [token] (List.prefix_append [token] rest))
      | some inner =>
          rw [hdepth] at hcons
          have hrest : ∀ piece, piece <+: rest → ¬ Closes (inner + 1) piece :=
            fun piece hpiece hcloses => h (token :: piece)
              ((List.prefix_cons_inj token).2 hpiece) ((hcons piece).2 hcloses)
          simp only [ih hrest, List.reverse_cons, List.append_assoc, List.singleton_append]

theorem level_cons_iff {token : Token} (h : token.kind = .lparen) (piece : List Token) :
    Level (token :: piece) ↔ Closes 1 piece := by
  unfold Level Closes
  rw [List.map_cons, h, List.count_cons_self, List.count_cons_of_ne (by decide)]
  exact eq_comm

end Parentheses

section Groups

variable {cursor : Cursor} {front back : List Token}

theorem nextIs_eq_true_iff {kind : TokenKind} :
    cursor.nextIs kind = true ↔ ∃ token rest, cursor.rest = token :: rest ∧ token.kind = kind := by
  unfold nextIs peekKind? peek?
  cases cursor.rest <;> simp

/-- The group starts behind its first parenthesis. -/
theorem skipParens_cons {token : Token} {rest : List Token} (hrest : cursor.rest = token :: rest)
    (htoken : token.kind = .lparen) :
    skipParens cursor = skipClosingFrom 0 (token :: cursor.consumed) rest := by
  have hexpect : expect .lparen cursor = .ok token { consumed := token :: cursor.consumed, rest } := by
    simp only [expect, hrest, htoken, if_true]
  simp only [skipParens, bind, EStateM.bind, hexpect]

/-- Without a parenthesis there is no group. -/
theorem skipParens_of_error {error : ParseError} (h : expect .lparen cursor = .error error cursor) :
    skipParens cursor = .error error cursor := by
  simp only [skipParens, bind, EStateM.bind, h]

theorem skipParens_of_shortest (hnext : cursor.nextIs .lparen = true)
    (h : Shortest Level cursor.rest front back) :
    skipParens cursor = .ok () (cursor.past front back) := by
  obtain ⟨token, rest, hrest, htoken⟩ := nextIs_eq_true_iff.1 hnext
  rw [hrest] at h
  obtain ⟨tail, rfl, htail⟩ := h.tail (level_cons_iff htoken) (not_closes_nil 0)
  rw [skipParens_cons hrest htoken, skipClosingFrom_of_shortest htail, past, List.reverse_cons,
    List.append_assoc, List.singleton_append]

theorem skipParens_of_open (hnext : cursor.nextIs .lparen = true)
    (h : ∀ piece, piece <+: cursor.rest → piece ≠ [] → ¬ Level piece) :
    skipParens cursor = .error (.unexpectedEof (.kind .rparen)) (cursor.past cursor.rest []) := by
  obtain ⟨token, rest, hrest, htoken⟩ := nextIs_eq_true_iff.1 hnext
  rw [hrest] at h
  have hopen : ∀ piece, piece <+: rest → ¬ Closes 1 piece := fun piece hpiece hcloses =>
    h (token :: piece) ((List.prefix_cons_inj token).2 hpiece) (List.cons_ne_nil token piece)
      ((level_cons_iff htoken piece).2 hcloses)
  rw [skipParens_cons hrest htoken, skipClosingFrom_of_open hopen, past, hrest, List.reverse_cons,
    List.append_assoc, List.singleton_append]

/-- A group that is skipped starts with a parenthesis. -/
theorem nextIs_of_skipParens {after : Cursor} (h : skipParens cursor = .ok () after) :
    cursor.nextIs .lparen = true := by
  cases hexpect : expect .lparen cursor with
  | ok token mid =>
      obtain ⟨hkind, hadvance⟩ := expect_eq_ok_iff.1 hexpect
      exact nextIs_eq_true_iff.2 ⟨token, mid.rest, (rest_of_advance hadvance).1, hkind⟩
  | error error mid =>
      simp only [skipParens, bind, EStateM.bind, hexpect] at h
      cases h

/-- A group that is skipped is the shortest level piece. -/
theorem shortest_of_skipParens (hnext : cursor.nextIs .lparen = true) {after : Cursor}
    (h : skipParens cursor = .ok () after) :
    ∃ front back, Shortest Level cursor.rest front back ∧ after = cursor.past front back := by
  by_cases hpiece : ∃ piece, piece <+: cursor.rest ∧ piece ≠ [] ∧ Level piece
  · obtain ⟨piece, hprefix, hne, hlevel⟩ := hpiece
    obtain ⟨front, back, hshortest⟩ := exists_shortest hprefix hne hlevel
    rw [skipParens_of_shortest hnext hshortest] at h
    cases h
    exact ⟨front, back, hshortest, rfl⟩
  · rw [skipParens_of_open hnext fun piece hprefix hne hlevel =>
      hpiece ⟨piece, hprefix, hne, hlevel⟩] at h
    cases h

/-- How the skip of a group ends, from a cursor. -/
structure SkipsGroup (cursor : Cursor) : Prop where
  /-- It starts with a parenthesis only, and otherwise stays where it is. -/
  refuses : cursor.nextIs .lparen = false → ∃ error, skipParens cursor = .error error cursor ∧
    (cursor.rest = [] ∧ error = .unexpectedEof (.kind .lparen) ∨
      ∃ token, cursor.peek? 0 = some token ∧ error = .unexpectedToken (.kind .lparen) token)
  /-- It succeeds if some piece of the tokens ahead is level, and only then. -/
  succeeds : cursor.nextIs .lparen = true → ((∃ after, skipParens cursor = .ok () after) ↔
    ∃ piece, piece <+: cursor.rest ∧ piece ≠ [] ∧ Level piece)
  /-- It consumes the shortest of these pieces. -/
  consumes : cursor.nextIs .lparen = true → ∀ after, skipParens cursor = .ok () after →
    ∃ front back, Shortest Level cursor.rest front back ∧ after = cursor.past front back
  /-- If there is none, it consumes all tokens and fails. -/
  runsOut : cursor.nextIs .lparen = true →
    (∀ piece, piece <+: cursor.rest → piece ≠ [] → ¬ Level piece) →
    skipParens cursor = .error (.unexpectedEof (.kind .rparen)) (cursor.past cursor.rest [])

theorem skipsGroup (cursor : Cursor) : cursor.SkipsGroup where
  refuses := by
    intro hnext
    cases hrest : cursor.rest with
    | nil =>
        have hexpect : expect .lparen cursor = .error (.unexpectedEof (.kind .lparen)) cursor := by
          simp only [expect, hrest]
        exact ⟨_, skipParens_of_error hexpect, .inl ⟨rfl, rfl⟩⟩
    | cons token rest =>
        have hkind : token.kind ≠ .lparen := fun hkind => by
          rw [nextIs_eq_true_iff.2 ⟨token, rest, hrest, hkind⟩] at hnext
          cases hnext
        have hexpect : expect .lparen cursor =
            .error (.unexpectedToken (.kind .lparen) token) cursor := by
          simp only [expect, hrest, if_neg hkind]
        have hpeek : cursor.peek? 0 = some token := by rw [peek?, hrest, List.getElem?_cons_zero]
        exact ⟨_, skipParens_of_error hexpect, .inr ⟨token, hpeek, rfl⟩⟩
  succeeds := by
    intro hnext
    constructor
    · rintro ⟨after, hskip⟩
      obtain ⟨front, back, hshortest, _⟩ := shortest_of_skipParens hnext hskip
      refine ⟨front, ?_, hshortest.nonempty, hshortest.holds⟩
      rw [hshortest.split]
      exact List.prefix_append front back
    · rintro ⟨piece, hprefix, hne, hlevel⟩
      obtain ⟨front, back, hshortest⟩ := exists_shortest hprefix hne hlevel
      exact ⟨_, skipParens_of_shortest hnext hshortest⟩
  consumes := fun hnext _ => shortest_of_skipParens hnext
  runsOut := skipParens_of_open

end Groups

section Kinds

variable {cursor : Cursor} {kind : TokenKind}

/-- How the skip of everything up to a kind ends, from a cursor. -/
structure SkipsPast (kind : TokenKind) (cursor : Cursor) : Prop where
  /-- It succeeds if a token of the kind is ahead, and only then. -/
  succeeds : (∃ after, skipPast kind cursor = .ok () after) ↔
    ∃ token ∈ cursor.rest, token.kind = kind
  /-- It consumes the first such token with all in front of it. -/
  consumes : ∀ front token back, cursor.rest = front ++ token :: back →
    (∀ other ∈ front, other.kind ≠ kind) → token.kind = kind →
    skipPast kind cursor = .ok () (cursor.past (front ++ [token]) back)
  /-- If there is none, it consumes all tokens and fails. -/
  runsOut : (∀ token ∈ cursor.rest, token.kind ≠ kind) →
    skipPast kind cursor = .error (.unexpectedEof (.kind kind)) (cursor.past cursor.rest [])

theorem skipPast_of_first {front back : List Token} {token : Token}
    (hrest : cursor.rest = front ++ token :: back) (hfront : ∀ other ∈ front, other.kind ≠ kind)
    (htoken : token.kind = kind) :
    skipPast kind cursor = .ok () (cursor.past (front ++ [token]) back) := by
  have hnone : kind ∉ front.map Token.kind := by
    intro hmem
    obtain ⟨other, hother, hkind⟩ := List.mem_map.1 hmem
    exact hfront other hother hkind
  rw [skipPast, hrest, skipPastFrom_append _ _ _ _ hnone htoken, past, List.reverse_append]
  rfl

theorem skipPastFrom_of_none {rest : List Token} (h : ∀ token ∈ rest, token.kind ≠ kind)
    (consumed : List Token) : skipPastFrom kind consumed rest =
      .error (.unexpectedEof (.kind kind)) { consumed := rest.reverse ++ consumed, rest := [] } := by
  induction rest generalizing consumed with
  | nil => rfl
  | cons token rest ih =>
      rw [List.forall_mem_cons] at h
      rw [skipPastFrom, if_neg h.1, ih h.2, List.reverse_cons, List.append_assoc,
        List.singleton_append]

/-- A token of a kind that is ahead has a first one of that kind in front of it. -/
theorem exists_first {tokens : List Token} (h : ∃ token ∈ tokens, token.kind = kind) :
    ∃ front token back, tokens = front ++ token :: back ∧ (∀ other ∈ front, other.kind ≠ kind) ∧
      token.kind = kind := by
  obtain ⟨token, htoken, rfl⟩ := h
  have hmem : token.kind ∈ tokens.map Token.kind := List.mem_map_of_mem htoken
  obtain ⟨front, back, hkinds, hfront⟩ := List.eq_append_cons_of_mem hmem
  obtain ⟨first, rest, rfl, rfl, hrest⟩ := List.map_eq_append_iff.1 hkinds
  obtain ⟨found, back, rfl, hfound, _⟩ := List.map_eq_cons_iff.1 hrest
  exact ⟨first, found, back, rfl, fun other hother heq => hfront (heq ▸ List.mem_map_of_mem hother),
    hfound⟩

/-- What is skipped ends with the first token of the kind. -/
theorem first_of_skipPast {after : Cursor} (h : skipPast kind cursor = .ok () after) :
    ∃ front token back, cursor.rest = front ++ token :: back ∧
      (∀ other ∈ front, other.kind ≠ kind) ∧ token.kind = kind ∧
      after = cursor.past (front ++ [token]) back := by
  by_cases hsome : ∃ token ∈ cursor.rest, token.kind = kind
  · obtain ⟨front, token, back, hrest, hfront, htoken⟩ := exists_first hsome
    rw [skipPast_of_first hrest hfront htoken] at h
    cases h
    exact ⟨front, token, back, hrest, hfront, htoken, rfl⟩
  · rw [skipPast, skipPastFrom_of_none fun token htoken hkind => hsome ⟨token, htoken, hkind⟩] at h
    cases h

theorem skipsPast (kind : TokenKind) (cursor : Cursor) : cursor.SkipsPast kind where
  succeeds := by
    constructor
    · rintro ⟨after, hskip⟩
      obtain ⟨front, token, back, hrest, _, htoken, _⟩ := first_of_skipPast hskip
      exact ⟨token, by simp [hrest], htoken⟩
    · intro hsome
      obtain ⟨front, token, back, hrest, hfront, htoken⟩ := exists_first hsome
      exact ⟨_, skipPast_of_first hrest hfront htoken⟩
  consumes := fun _ _ _ => skipPast_of_first
  runsOut := fun hnone => skipPastFrom_of_none hnone cursor.consumed

end Kinds

/-- The skips stop exactly where they should, from every cursor. -/
theorem skips_exact (cursor : Cursor) : cursor.SkipsGroup ∧ ∀ kind, cursor.SkipsPast kind :=
  ⟨cursor.skipsGroup, fun kind => cursor.skipsPast kind⟩

end Cursor

end OnePass
