import Mathlib.Algebra.Group.Nat.Defs
import OnePass.Proofs.Grammar.Completeness.Stmt
import OnePass.Proofs.Literals

/-!
Every program of the grammar compiles, and no structural diagnostic is recorded. Declarations are
read in runs, each as long as the next tokens look like one more declaration of its sort. With what
is known of the programs that compile, the compiler accepts exactly the grammar.
-/

namespace OnePass

namespace Pass

open Grammar (NotNext Begins LooksDeclared Repeated notNext_cons)

section Declarations

variable {ks rest : List TokenKind}

theorem reads_typeName {β : Type} {kind : TokenKind} {next : TypeName → Pass β} {result : β → Prop}
    (h : kind ∈ Grammar.types)
    (hnext : ∀ type, Ty.ofKind? kind = some type.ty → type.ty ≠ .void →
      Yields (next type) ks rest result) :
    Yields (typeName >>= next) (kind :: ks) rest result := by
  have htype : Yields typeName [kind] (ks ++ rest) fun type =>
      Ty.ofKind? kind = some type.ty ∧ type.ty ≠ .void := by
    apply reads_current rfl
    intro token htoken
    simp only [Grammar.types, List.mem_cons, List.not_mem_nil, or_false] at h
    rcases h with rfl | rfl
    all_goals
      simp only [htoken]
      apply reads_advance
      intro token
      exact yields_pure ⟨rfl, Ty.noConfusion⟩
  apply Yields.bind htype
  rintro type ⟨hkind, hvoid⟩
  exact hnext type hkind hvoid

theorem reads_constInt (h : Grammar.Integer ks) : Reads (constInit .int) ks rest := by
  have hread : Yields (integer >>= fun literal => pure (ConstInit.int literal)) ks rest
      fun _ => True := by
    apply (reads_integer h).before
    intro literal
    exact reads_pure _
  obtain ⟨kind, hkind, tail, rfl⟩ := h.begins
  apply reads_current rfl
  intro token htoken
  have hinteger : (kind == .intLit || kind.isSign) = true := by
    clear h hread htoken
    revert kind
    decide
  simp only [htoken, hinteger, and_true, or_true, if_true]
  exact hread

theorem reads_constChar : Reads (constInit .char) [.charLit] rest := by
  apply reads_current rfl
  intro token htoken
  simp only [htoken]
  rw [if_pos (Or.inl ⟨trivial, trivial⟩), if_neg (by decide)]
  apply reads_advance
  intro token
  exact reads_pure _

/-- A constant is read once its value is. -/
theorem reads_constItem {value : List TokenKind} (scope : Scope) (ty : Ty)
    (h : Reads (constInit ty) value rest) :
    Reads (constItem scope ty) (.ident :: .assign :: value) rest := by
  apply reads_expect
  intro name
  apply (reads_checkRedefinition scope name).andThen
  intro _
  apply reads_expect
  intro assign
  apply h.before
  intro init
  apply (reads_declare scope _).andThen
  intro _
  exact reads_pure _

/-- Constants of a type are read once each of them is. -/
theorem reads_constants {kind : TokenKind} {ty : Ty} {phrase : List TokenKind → Prop}
    {items : List TokenKind} {scope : Scope} (hkind : kind ∈ Grammar.types)
    (hty : Ty.ofKind? kind = some ty)
    (hitem : ∀ item rest, phrase item → Reads (constItem scope ty) item rest)
    (h : Grammar.Listed phrase items) :
    Reads (constDecl scope) (.kwConst :: kind :: (items ++ [.semicolon])) rest := by
  apply reads_expect
  intro keyword
  apply reads_typeName hkind
  intro type htype _
  obtain rfl : ty = type.ty := Option.some.inj (hty.symm.trans htype)
  have hitems : Reads (commaList (constItem scope type.ty)) items (.semicolon :: rest) :=
    reads_commaList (fun item rest h _ => hitem item rest h) List.not_mem_nil h
      (notNext_cons (by decide))
  apply hitems.bind
  intro items
  apply reads_recover
  intro semicolon
  exact reads_pure _

theorem reads_constDecl (h : Grammar.ConstDeclaration ks) (scope : Scope) :
    Reads (constDecl scope) ks rest := by
  cases h with
  | int hitems =>
      refine reads_constants (by decide) rfl ?_ hitems
      rintro _ rest ⟨value, hvalue, rfl⟩
      exact reads_constItem scope .int (reads_constInt hvalue)
  | char hitems =>
      refine reads_constants (by decide) rfl ?_ hitems
      rintro _ rest rfl
      exact reads_constItem scope .char reads_constChar

/-- Constant declarations are read up to what does not begin with one. -/
theorem reads_constDecls (h : Repeated Grammar.ConstDeclaration ks)
    (hrest : NotNext [.kwConst] rest) (scope : Scope) : Reads (constDecls scope) ks rest := by
  apply reads_many
  refine rounds_of_repeated ?_ ?_ ?_ h (Nat.le_refl _)
  · intro _
    exact reads_nextIsNot (hrest.ne (by decide)) (yields_pure rfl)
  · intro decl hdecl
    exact hdecl.begins.ne_nil
  · intro _ decl more hdecl _ _
    obtain ⟨kind, hkind, tail, hks⟩ := hdecl.begins
    obtain rfl := List.mem_singleton.1 hkind
    refine reads_nextIs (by rw [hks]; rfl) ?_
    apply (reads_constDecl hdecl scope).before
    intro d
    exact yields_pure ⟨d, rfl⟩

theorem reads_varItem (h : Grammar.Variable ks) (hrest : NotNext [.lbracket] rest) (scope : Scope)
    (ty : Ty) : Reads (varItem scope ty) ks rest := by
  have hsize : ∃ size, ks = .ident :: size ∧ Reads arraySize? size rest := by
    cases h with
    | scalar =>
        exact ⟨[], rfl, reads_decline (hrest.ne (by decide)) (reads_pure _)⟩
    | array =>
        refine ⟨_, rfl, ?_⟩
        apply reads_accept
        intro lbracket
        apply reads_unsigned.bind
        intro length
        apply reads_recover
        intro rbracket
        exact reads_pure _
  obtain ⟨size, rfl, hsize⟩ := hsize
  apply reads_expect
  intro name
  apply (reads_checkRedefinition scope name).andThen
  intro _
  apply hsize.before
  intro size
  apply (reads_declare scope _).andThen
  intro _
  apply (reads_emit _).andThen
  intro _
  exact reads_pure _

theorem reads_varDecl (h : Grammar.VarDeclaration ks) (scope : Scope) :
    Reads (varDecl scope) ks rest := by
  obtain ⟨htype, hitems⟩ := h
  apply reads_typeName htype
  intro type _ _
  have hitem : ∀ item rest, Grammar.Variable item → NotNext [.lbracket] rest →
      Reads (varItem scope type.ty) item rest := by
    intro item rest hvariable hnot
    exact reads_varItem hvariable hnot scope type.ty
  apply (reads_commaList hitem (by decide) hitems (notNext_cons (by decide))).bind
  intro items
  apply reads_recover
  intro semicolon
  exact reads_pure _

theorem yields_nextIsTypeName :
    Yields nextIsTypeName [] rest fun answer => answer = true ↔ Begins Grammar.types rest := by
  apply reads_peekKind
  apply yields_pure
  cases rest with
  | nil => simp [Begins]
  | cons kind tail =>
      have hmem : kind.isTypeName = true ↔ kind ∈ Grammar.types := by
        cases kind <;> decide
      simpa [Begins] using hmem

theorem yields_atFunction :
    Yields atFunction [] rest fun answer => answer = true ↔ rest[2]? = some .lparen := by
  apply reads_peekKind
  apply yields_pure
  exact decide_eq_true_iff

/-- Variable declarations are read up to what does not look like one. -/
theorem reads_varDecls (h : Repeated Grammar.VarDeclaration ks) (hrest : ¬ LooksDeclared rest)
    (scope : Scope) : Reads (varDecls scope) ks rest := by
  apply reads_many
  refine rounds_of_repeated ?_ ?_ ?_ h (Nat.le_refl _)
  · intro _
    refine yields_nextIsTypeName.andThen ?_
    intro typed htyped
    refine yields_atFunction.andThen ?_
    intro called hcalled
    rw [if_neg ?_]
    · exact yields_pure rfl
    · intro hlooks
      rw [Bool.and_eq_true, Bool.not_eq_true'] at hlooks
      apply hrest
      refine ⟨htyped.1 hlooks.1, ?_⟩
      intro hparen
      exact Bool.noConfusion (hlooks.2.symm.trans (hcalled.2 hparen))
  · intro decl hdecl
    exact hdecl.begins.ne_nil
  · intro _ decl more hdecl _ _
    have hlooks := Grammar.looksDeclared_append hdecl (more ++ rest)
    refine yields_nextIsTypeName.andThen ?_
    intro typed htyped
    refine yields_atFunction.andThen ?_
    intro called hcalled
    rw [if_pos ?_]
    · apply (reads_varDecl hdecl scope).before
      intro d
      exact yields_pure ⟨d, rfl⟩
    · rw [Bool.and_eq_true, Bool.not_eq_true']
      refine ⟨htyped.2 hlooks.1, ?_⟩
      cases called with
      | false => rfl
      | true => exact absurd (hcalled.1 rfl) hlooks.2

end Declarations

section Functions

variable {ks rest : List TokenKind}

theorem reads_openFunction (ty : Ty) (name : Token) : Reads (openFunction ty name) [] rest := by
  apply (reads_checkRedefinition .global name).andThen
  intro _
  apply (reads_declare _ _).andThen
  intro _
  exact reads_resetLocals

theorem reads_param {type : TokenKind} (h : type ∈ Grammar.types) (function : String) :
    Reads (param function) [type, .ident] rest := by
  apply reads_typeName h
  intro type _ hvoid
  apply reads_expect
  intro name
  apply (reads_checkRedefinition .local name).andThen
  intro _
  apply (reads_addParameter function hvoid).andThen
  intro _
  apply (reads_declare _ _).andThen
  intro _
  exact reads_pure _

/-- The parameters of a function are read, up to its parenthesis. -/
theorem reads_params (h : Grammar.Parameters ks) (function : String) :
    Reads (params function) ks (.rparen :: rest) := by
  refine reads_nest
    (P := fun ks back => Grammar.Parameters ks ∧ back = .rparen :: rest) ?_ ⟨h, rfl⟩
  rintro more ks _ ⟨h, rfl⟩ hagain
  refine yields_nextIsTypeName.andThen ?_
  intro typed htyped
  rcases h.cases_first with rfl | ⟨type, htype, hks⟩
  · rw [if_neg ?_]
    · exact reads_pure Params.nil
    · rw [htyped]
      rintro ⟨kind, hkind, tail, htail⟩
      cases htail
      exact absurd hkind (by decide)
  · rcases hks with rfl | ⟨others, hothers, rfl⟩
    · rw [if_pos (htyped.2 (Grammar.begins_cons htype))]
      apply (reads_param htype function).before
      intro p
      apply reads_decline (by simp)
      exact reads_pure _
    · rw [if_pos (htyped.2 (Grammar.begins_cons htype))]
      have hfirst : Reads (param function) [type, .ident] (.comma :: others ++ .rparen :: rest) :=
        reads_param htype function
      apply hfirst.bind
      intro p
      apply reads_accept
      intro comma
      apply (hagain others _ ⟨hothers, rfl⟩ (by simp; omega)).before
      intro ps
      exact reads_pure _

theorem reads_announce (head : FunctionHead) : Reads (announce head) [] rest := by
  apply (reads_emit _).andThen
  intro _
  generalize head.params = ps
  induction ps with
  | nil => exact reads_pure _
  | cons p ps ih =>
      apply (reads_emit _).andThen
      intro _
      exact ih

theorem reads_valueHead {type : TokenKind} (htype : type ∈ Grammar.types)
    (h : Grammar.Parameters ks) :
    Reads valueHead (type :: .ident :: .lparen :: (ks ++ [.rparen])) rest := by
  apply reads_typeName htype
  intro type _ _
  apply reads_expect
  intro name
  apply (reads_openFunction type.ty name).andThen
  intro _
  apply reads_expect
  intro lparen
  apply (reads_params h name.value).bind
  intro ps
  apply reads_recover
  intro rparen
  exact reads_pure _

theorem reads_voidHead (h : Grammar.Parameters ks) :
    Reads voidHead (.kwVoid :: .ident :: .lparen :: (ks ++ [.rparen])) rest := by
  apply reads_expect
  intro keyword
  apply reads_expect
  intro name
  apply (reads_openFunction .void name).andThen
  intro _
  apply reads_expect
  intro lparen
  apply (reads_params h name.value).bind
  intro ps
  apply reads_recover
  intro rparen
  exact reads_pure _

theorem reads_mainHead : Reads mainHead [.kwVoid, .kwMain, .lparen, .rparen] rest := by
  apply reads_expect
  intro keyword
  apply reads_expect
  intro name
  apply (reads_openFunction .void name).andThen
  intro _
  apply reads_expect
  intro lparen
  apply reads_recover
  intro rparen
  exact reads_pure _

theorem reads_body (h : Grammar.Body ks) (returnType : Ty) :
    Reads (body returnType) ks (.rbrace :: rest) := by
  obtain @⟨consts, vars, stmts, hconsts, hvars, hstmts⟩ := h
  have hstmt : ReadsStatements (statement returnType) (stmts.length + 1) := by
    intro complete ks rest hpaired _ hrest
    exact reads_statement hpaired hrest returnType
  have hconstsEnd : NotNext [.kwConst] (vars ++ stmts ++ .rbrace :: rest) := by
    rw [List.append_assoc]
    cases hvars with
    | nil => exact hstmts.notNext (by decide) (notNext_cons (by decide))
    | cons hfirst _ => exact ((hfirst.begins.append _).append _).notNext (by decide)
  have hvarsEnd : ¬ LooksDeclared (stmts ++ .rbrace :: rest) := by
    rintro ⟨hbegins, _⟩
    exact (hstmts.notNext (by decide) (notNext_cons (by decide))).not_begins hbegins
  apply (reads_constDecls hconsts hconstsEnd .local).bind
  intro consts
  apply (reads_varDecls hvars hvarsEnd .local).bind
  intro vars
  apply (reads_statements hstmt hstmts (Nat.lt_succ_self _)).before
  intro stmts
  split
  · apply reads_current rfl
    intro token _
    apply (reads_report _ rfl).andThen
    intro _
    exact reads_pure _
  · exact reads_pure _

theorem reads_function {head : Pass FunctionHead} {front body : List TokenKind}
    (hhead : Reads head front (.lbrace :: (body ++ [.rbrace]) ++ rest)) (h : Grammar.Body body) :
    Reads (function head) (front ++ .lbrace :: (body ++ [.rbrace])) rest := by
  apply hhead.bind
  intro head
  apply (reads_announce head).andThen
  intro _
  apply reads_expect
  intro lbrace
  apply (reads_body h head.ty).bind
  intro body
  apply Reads.joined fun _ => reads_emit _
  apply (reads_emit _).andThen
  intro _
  apply reads_expect
  intro rbrace
  apply (reads_keepTable _ _).andThen
  intro _
  exact reads_pure _

end Functions

section Program

variable {ks rest : List TokenKind}

/-- What begins with a type is a function or else a run of variable declarations. -/
theorem yields_typed {result : Option TopLevel → Prop} (hbegins : Begins Grammar.types ks)
    (h : Yields (do
      if ← atFunction then
        return some (.function (← function valueHead))
      else
        return some (.vars (← varDecls .global))) ks rest result) :
    Yields topLevel? ks rest result := by
  obtain ⟨kind, hkind, tail, rfl⟩ := hbegins
  simp only [Grammar.types, List.mem_cons, List.not_mem_nil, or_false] at hkind
  apply reads_peekKind
  rcases hkind with rfl | rfl
  · exact h
  · exact h

/-- A function is read as the next part of a program. -/
theorem yields_function {head body : List TokenKind} (hhead : Grammar.FunctionHead head)
    (hbody : Grammar.Body body) :
    Yields topLevel? (head ++ .lbrace :: (body ++ [.rbrace])) rest
      fun found => ∃ item, found = some item := by
  cases hhead with
  | value htype hparams =>
      apply yields_typed (Grammar.begins_cons htype)
      refine yields_atFunction.andThen ?_
      intro called hcalled
      rw [if_pos (hcalled.2 rfl)]
      apply (reads_function (reads_valueHead htype hparams) hbody).before
      intro f
      exact yields_pure ⟨_, rfl⟩
  | void hparams =>
      apply reads_peekKind
      apply reads_peekKind
      apply (reads_function (reads_voidHead hparams) hbody).before
      intro f
      exact yields_pure ⟨_, rfl⟩
  | main =>
      apply reads_peekKind
      apply reads_peekKind
      apply (reads_function reads_mainHead hbody).before
      intro f
      exact yields_pure ⟨_, rfl⟩

end Program

end Pass

/-- Digits that spell a number within the signed words. -/
def Token.IsNumeral (token : Token) : Prop :=
  token.value.toList ≠ [] ∧ token.value.toList.all Char.isDigit = true ∧ token.number ≤ 2 ^ 63 - 1

instance (token : Token) : Decidable token.IsNumeral :=
  inferInstanceAs (Decidable (_ ∧ _ ∧ _))

theorem Token.IsNumeral.spelled {token : Token} (h : token.kind = .intLit → token.IsNumeral) :
    token.Spelled := by
  intro hkind
  obtain ⟨hne, hdigits, hbound⟩ := h hkind
  have hlt : Nat.ofDigitChars 10 token.value.toList 0 < Text.signedBound := by
    change token.number < 2 ^ 63
    omega
  exact ⟨_, by rw [Text.signed?_of_digits hne hdigits, if_pos hlt]⟩

end OnePass
