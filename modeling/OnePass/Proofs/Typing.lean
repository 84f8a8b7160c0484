import OnePass.Proofs.Progress.Termination

/-!
The types of expressions. An expression is a char when it is a single factor that is one: a
character, a name or an element that is declared as a char, or a call of such a function. Signs,
operators, parentheses and whatever is unknown or void make it an int. So no argument and no
parameter is ever void, which has no code in a signature.
-/

namespace OnePass

theorem Ty.asValue_eq_char_iff {ty : Ty} : ty.asValue = .char ↔ ty = .char := by
  cases ty <;> decide

/-- The factors of type char that are read in a state. -/
inductive Factor.IsChar (s : State) : Factor → Prop where
  | char {literal : Token} (hnext : s.cursor.peek? 0 = some literal)
      (hkind : literal.kind = .charLit) : IsChar s (.char literal)
  | name {ref : NameRef} {symbol : Symbol} (hnext : s.cursor.peek? 0 = some ref.token)
      (hkind : ref.token.kind = .ident) (hsymbol : s.scopes.nearest? ref.token.value = some symbol)
      (hty : symbol.ty = .char) : IsChar s (.name ref)
  | element {ref : NameRef} {lbracket : Token} {index : Expr} {dst : Reg} {rbracket : Option Token}
      {symbol : Symbol} (hnext : s.cursor.peek? 0 = some ref.token)
      (hkind : ref.token.kind = .ident) (hsymbol : s.scopes.nearest? ref.token.value = some symbol)
      (hty : symbol.ty = .char) : IsChar s (.element ref lbracket index dst rbracket)
  | call {c : Call} {dst : Reg} {symbol : Symbol} (hnext : s.cursor.peek? 0 = some c.name)
      (hkind : c.name.kind = .ident) (hsymbol : s.scopes.function? c.name.value = some symbol)
      (hty : symbol.ty = .char) : IsChar s (.call c dst)

section Factors

variable {s t : State}

theorem Pass.peek?_of_advance {token : Token} (h : Pass.advance s = .ok token t) :
    s.cursor.peek? 0 = some token := by
  obtain ⟨rest, hrest, _⟩ := Pass.advance_eq_ok.1 h
  rw [Cursor.peek?, hrest, List.getElem?_cons_zero]

/-- A name that is read stands next, and is looked up where it stands. -/
theorem NameRef.of_plays {ref : NameRef} (h : Plays ref.readLog s t) :
    s.cursor.peek? 0 = some ref.token ∧ ref.token.kind = .ident ∧
      s.scopes.nearest? ref.token.value = ref.symbol := by
  obtain ⟨u, ⟨v, ⟨hkind, hadvance⟩, _, ⟨hnearest, _⟩, _⟩, _⟩ := plays_append.1 h
  have hscopes : v.scopes = s.scopes := by
    obtain ⟨_, _, rfl⟩ := Pass.advance_eq_ok.1 hadvance
    rfl
  exact ⟨Pass.peek?_of_advance hadvance, hkind, hscopes ▸ hnearest⟩

/-- A name is a char when its innermost symbol is. -/
theorem NameRef.ty_eq_char_iff {ref : NameRef} :
    ref.ty = .char ↔ ∃ symbol, ref.symbol = some symbol ∧ symbol.ty = .char := by
  cases hsymbol : ref.symbol with
  | none => simp [NameRef.ty, hsymbol]
  | some symbol => simp [NameRef.ty, hsymbol, Ty.asValue_eq_char_iff]

theorem Factor.ty_eq_char_iff {f : Factor} (h : Plays f.log s t) : f.ty = .char ↔ f.IsChar s := by
  cases f with
  | name ref =>
      obtain ⟨hnext, hkind, hsymbol⟩ := NameRef.of_plays h
      change ref.ty = .char ↔ _
      rw [NameRef.ty_eq_char_iff, ← hsymbol]
      constructor
      · rintro ⟨symbol, hfound, hty⟩
        exact .name hnext hkind hfound hty
      · rintro (_ | ⟨_, _, hfound, hty⟩)
        exact ⟨_, hfound, hty⟩
  | element ref lbracket index dst rbracket =>
      unfold Factor.log at h
      obtain ⟨u, href, _⟩ := plays_append.1 h
      obtain ⟨hnext, hkind, hsymbol⟩ := NameRef.of_plays href
      change ref.ty = .char ↔ _
      rw [NameRef.ty_eq_char_iff, ← hsymbol]
      constructor
      · rintro ⟨symbol, hfound, hty⟩
        exact .element hnext hkind hfound hty
      · rintro (_ | _ | ⟨_, _, hfound, hty⟩)
        exact ⟨_, hfound, hty⟩
  | call c dst =>
      cases c with
      | mk name lparen callee args rparen =>
          unfold Factor.log Call.log at h
          obtain ⟨_, ⟨hcallee, rfl⟩, _, ⟨hkind, hadvance⟩, _⟩ := h
          change callee.ty.asValue = .char ↔ _
          rw [Ty.asValue_eq_char_iff]
          constructor
          · intro hty
            exact .call (Pass.peek?_of_advance hadvance) hkind hcallee hty
          · rintro (_ | _ | _ | ⟨_, _, hfound, hty⟩)
            cases hcallee.symm.trans hfound
            exact hty
  | char literal =>
      unfold Factor.log at h
      obtain ⟨_, ⟨hkind, hadvance⟩, _⟩ := h
      exact ⟨fun _ => .char (Pass.peek?_of_advance hadvance) hkind, fun _ => rfl⟩
  | unknownCall fn | paren lparen inner rparen | int literal =>
      constructor <;> intro hty <;> cases hty

end Factors

section Ends

variable {s t : State} {expr : Pass Expr}

theorem Pass.IsBlind.peekKind?_eq {α : Type} {step : Pass α} {a : α} (hstep : step.IsBlind)
    (h : step s = .ok a t) (offset : Nat) : t.cursor.peekKind? offset = s.cursor.peekKind? offset := by
  have hcursor := hstep.cursor_eq s
  rw [h] at hcursor
  exact congrArg (Cursor.peekKind? · offset) hcursor

theorem Pass.declines_of_term {e : Term} (h : Pass.term expr s = .ok e t) :
    (t.cursor.peekKind? 0).bind ArithOp.multiplicative? = none := by
  rw [Pass.term_eq] at h
  obtain ⟨_, _, _, h⟩ := Pass.bind_eq_ok.1 h
  exact Pass.chain_declines h

theorem Pass.declines_of_signedTerm {e : Expr} (h : Pass.signedTerm expr s = .ok e t) :
    (t.cursor.peekKind? 0).bind ArithOp.multiplicative? = none := by
  obtain ⟨found, u, _, h⟩ := Pass.bind_eq_ok.1 h
  cases found with
  | none =>
      obtain ⟨body, v, hbody, h⟩ := Pass.bind_eq_ok.1 h
      obtain ⟨_, rfl⟩ := Pass.pure_eq_ok.1 h
      exact Pass.declines_of_term hbody
  | some found =>
      obtain ⟨body, v, hbody, h⟩ := Pass.bind_eq_ok.1 h
      split at h
      · obtain ⟨value, w, hvalue, h⟩ := Pass.bind_eq_ok.1 h
        obtain ⟨_, rfl⟩ := Pass.pure_eq_ok.1 h
        rw [(Pass.IsBlind.negate _).peekKind?_eq hvalue]
        exact Pass.declines_of_term hbody
      · obtain ⟨_, rfl⟩ := Pass.pure_eq_ok.1 h
        exact Pass.declines_of_term hbody

/-- Behind an expression there is no operator that would go on with it. -/
theorem Pass.declines_of_expression {e : Expr} (h : Pass.expression s = .ok e t) :
    (t.cursor.peekKind? 0).bind ArithOp.additive? = none ∧
      (t.cursor.peekKind? 0).bind ArithOp.multiplicative? = none := by
  rw [Pass.expression_eq] at h
  refine Pass.nest_ok (P := fun _ _ t => (t.cursor.peekKind? 0).bind ArithOp.additive? = none ∧
    (t.cursor.peekKind? 0).bind ArithOp.multiplicative? = none) ?_ h
  intro expr _ s e t h
  obtain ⟨first, u, hfirst, h⟩ := Pass.bind_eq_ok.1 h
  refine ⟨Pass.chain_declines h, ?_⟩
  -- each link ends with a term, behind which there is no operator of the terms
  refine Pass.chain_ok (P := fun _ u => (u.cursor.peekKind? 0).bind ArithOp.multiplicative? = none)
    ?_ (Pass.declines_of_signedTerm hfirst) h
  intro lhs op opToken rhs dst u v w x _ _ _ hrhs hdst
  rw [(Pass.IsBlind.combine _ op _ _).peekKind?_eq hdst]
  exact Pass.declines_of_term hrhs

end Ends

/-- How an expression is typed that is read between two states. What it consists of are the tokens
between them, each of the kind that its place has, and no operator follows. -/
structure Expr.TypedIn (s t : State) (e : Expr) : Prop where
  read : Plays e.log s t
  ends : ∀ kind ∈ t.cursor.peekKind? 0, kind ∉ [.plus, .minus, .star, .slash]
  char_iff : e.ty = .char ↔ ∃ f, e = .term (.factor f) ∧ f.IsChar s
  int_iff : e.ty = .int ↔ ¬ ∃ f, e = .term (.factor f) ∧ f.IsChar s
  ne_void : e.ty ≠ .void

theorem Expr.typedIn {s t : State} {e : Expr} (h : Pass.expression s = .ok e t) :
    e.TypedIn s t := by
  have hplays := Pass.follows_expression s e t h
  have hchar : e.ty = .char ↔ ∃ f, e = .term (.factor f) ∧ f.IsChar s := by
    cases e with
    | term first =>
        unfold Expr.log at hplays
        obtain ⟨_, ⟨_, rfl⟩, hplays⟩ := hplays
        cases first with
        | factor f =>
            unfold Term.log at hplays
            rw [Expr.ty, Term.ty, Factor.ty_eq_char_iff hplays]
            constructor
            · intro hf
              exact ⟨f, rfl, hf⟩
            · rintro ⟨_, ⟨⟩, hf⟩
              exact hf
        | chain lhs op opToken rhs dst =>
            constructor
            · intro hty
              cases hty
            · rintro ⟨_, ⟨⟩, _⟩
    | positive _ _ | negative _ _ _ | chain _ _ _ _ _ =>
        constructor
        · intro hty
          cases hty
        · rintro ⟨_, ⟨⟩, _⟩
  refine ⟨hplays, fun kind hkind => ?_, hchar, ?_, e.ty_ne_void⟩
  · obtain ⟨hadditive, hmultiplicative⟩ := Pass.declines_of_expression h
    rw [Option.mem_def.1 hkind, Option.bind_some] at hadditive hmultiplicative
    cases kind with
    | plus | minus => cases hadditive
    | star | slash => cases hmultiplicative
    | _ => decide
  · rw [← hchar]
    cases hty : e.ty with
    | void => exact absurd hty e.ty_ne_void
    | char | int => decide

/-- What a cursor looks at, by its place in the list of all tokens. Every place is in range. -/
structure Cursor.InRange (cursor : Cursor) : Prop where
  position_le : cursor.position ≤ cursor.tokens.length
  peek : ∀ offset, cursor.peek? offset = cursor.tokens[cursor.position + offset]?
  accept : ∀ kind token after, Cursor.accept kind cursor = .ok (some token) after →
    ∃ h : cursor.position < cursor.tokens.length, cursor.tokens[cursor.position] = token ∧
      after.position = cursor.position + 1
  lastLine : cursor.tokens ≠ [] → ∃ h : cursor.position - 1 < cursor.tokens.length,
    cursor.lastLine = cursor.tokens[cursor.position - 1].line

theorem Cursor.inRange (cursor : Cursor) : cursor.InRange := by
  obtain ⟨consumed, rest⟩ := cursor
  refine ⟨position_le_length _, fun offset => ?_, fun kind token after h => ?_, fun hne => ?_⟩
  · simp [peek?, tokens, position, List.getElem?_append_right]
  · cases rest with
    | nil => cases h
    | cons next rest =>
        unfold Cursor.accept at h
        dsimp only at h
        split at h
        · cases h
          refine ⟨by simp [position, tokens], ?_, rfl⟩
          simp [position, tokens, List.getElem_append_right]
        · cases h
  · cases consumed with
    | nil =>
        cases rest with
        | nil => exact absurd rfl hne
        | cons next rest => exact ⟨by simp [position, tokens], by simp [lastLine, position, tokens]⟩
    | cons last consumed =>
        refine ⟨by simp [position, tokens], ?_⟩
        simp [lastLine, position, tokens, List.getElem_append_right]

/-- Expressions are typed exactly and never void, so that the guard for void in signatures is never
met, and no cursor looks outside its tokens. -/
theorem expression_typed :
    (∀ s e t, Pass.expression s = .ok e t → e.TypedIn s t) ∧
    (∀ sink tokens, (compileTo sink tokens).1 ≠ .error .voidParameter) ∧
    ∀ cursor : Cursor, cursor.InRange := by
  refine ⟨fun s e t => Expr.typedIn, fun sink tokens herror => ?_, Cursor.inRange⟩
  have hguard := (comesToEnd sink tokens).error _ herror
  cases hguard

/-- In front of an expression, where `c` is an array of chars and `f` a function that gives one. -/
def charState (source : String) : State :=
  let scopes : Scopes := ({} : Scopes).declare .global
    { name := "c", kind := .array, ty := .char, arrayLength := some 3 }
  { cursor := .ofTokens (scan 1 [source])
    scopes := scopes.declare .global { name := "f", kind := .function, ty := .char } }

/-- Expressions with their types. -/
def typedSources : List (Ty × String) :=
  [(.char, "'a'"), (.char, "c [ 0 ]"), (.char, "f ( )"), (.int, "- 'a'"), (.int, "'a' + 1"),
    (.int, "( 'a' )")]

theorem expression_typed_sources : ∀ source ∈ typedSources, ∃ e t,
    Pass.expression (charState source.2) = .ok e t ∧ t.cursor.rest = [] ∧ e.ty = source.1 ∧
      e.TypedIn (charState source.2) t := by
  intro source hsource
  have hrun : ∀ source ∈ typedSources, Pass.expression.succeeds (charState source.2)
      (fun e t => t.cursor.rest.isEmpty && e.ty == source.1) = true := by
    decide +kernel
  obtain ⟨e, t, he, hends⟩ := Pass.eq_ok_of_succeeds (hrun source hsource)
  rw [Bool.and_eq_true, List.isEmpty_iff, beq_iff_eq] at hends
  exact ⟨e, t, he, hends.1, hends.2, expression_typed.1 _ e t he⟩

end OnePass
