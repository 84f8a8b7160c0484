import OnePass.Proofs.Grammar.Basic

/-!
Shapes of the phrases of the grammar, as far as a reader that looks only a few tokens ahead needs
them: with which kinds a phrase begins, that an expression is balanced, and how the two
ambiguities are settled. A sign in front of an expression can always be taken to be the
expression's, and an `else` can always be taken to belong to the nearest `if` before it that
has none.
-/

namespace OnePass

namespace Grammar

/-- What is ahead does not begin with one of some kinds. -/
def NotNext (stops ks : List TokenKind) : Prop :=
  ∀ kind ∈ ks.head?, kind ∉ stops

/-- A list of kinds that begins with one of some kinds. -/
def Begins (firsts ks : List TokenKind) : Prop :=
  ∃ kind ∈ firsts, ∃ tail, ks = kind :: tail

section Heads

variable {stops firsts ks rest : List TokenKind} {kind : TokenKind}

theorem notNext_cons (h : kind ∉ stops) : NotNext stops (kind :: ks) := by
  intro next hnext
  cases hnext
  exact h

theorem NotNext.mono {fewer : List TokenKind} (h : NotNext stops ks)
    (hfewer : ∀ kind ∈ fewer, kind ∈ stops) : NotNext fewer ks := by
  intro kind hkind hmem
  exact h kind hkind (hfewer kind hmem)

theorem NotNext.ne (h : NotNext stops ks) (hkind : kind ∈ stops) : ks.head? ≠ some kind := by
  intro hhead
  exact h kind hhead hkind

/-- A kind that does not stand next does not stand for anything either. -/
theorem NotNext.bind_eq_none {α : Type} {meaning? : TokenKind → Option α} (h : NotNext stops ks)
    (hmeaning : ∀ kind meaning, meaning? kind = some meaning → kind ∈ stops) :
    ks.head?.bind meaning? = none := by
  rw [Option.bind_eq_none_iff]
  intro kind hhead
  cases hfound : meaning? kind with
  | none => rfl
  | some meaning => exact absurd (hmeaning kind meaning hfound) (h kind hhead)

theorem begins_cons (h : kind ∈ firsts) : Begins firsts (kind :: ks) :=
  ⟨kind, h, ks, rfl⟩

theorem Begins.append (h : Begins firsts ks) (rest : List TokenKind) :
    Begins firsts (ks ++ rest) := by
  obtain ⟨kind, hkind, tail, rfl⟩ := h
  exact begins_cons hkind

theorem Begins.mono {more : List TokenKind} (h : Begins firsts ks)
    (hmore : ∀ kind ∈ firsts, kind ∈ more) : Begins more ks := by
  obtain ⟨kind, hkind, tail, rfl⟩ := h
  exact begins_cons (hmore kind hkind)

theorem Begins.ne_nil (h : Begins firsts ks) : ks ≠ [] := by
  obtain ⟨kind, hkind, tail, rfl⟩ := h
  exact List.cons_ne_nil kind tail

theorem Begins.notNext (h : Begins firsts ks) (hstops : ∀ kind ∈ firsts, kind ∉ stops) :
    NotNext stops ks := by
  obtain ⟨kind, hkind, tail, rfl⟩ := h
  exact notNext_cons (hstops kind hkind)

theorem NotNext.not_begins (h : NotNext stops ks) : ¬ Begins stops ks := by
  rintro ⟨kind, hkind, tail, rfl⟩
  exact h kind rfl hkind

end Heads

/-- The kinds with which a factor begins, other than a sign. -/
def factorFirsts : List TokenKind :=
  [.ident, .lparen, .intLit, .charLit]

/-- The kinds with which an expression begins. -/
def expressionFirsts : List TokenKind :=
  factorFirsts ++ signs

/-- The kinds that would make a longer factor of a name. -/
def factorStops : List TokenKind :=
  [.lparen, .lbracket]

def itemStops : List TokenKind :=
  factorStops ++ factorOps

def expressionStops : List TokenKind :=
  itemStops ++ signs

def conditionStops : List TokenKind :=
  expressionStops ++ relations

theorem Integer.begins {ks : List TokenKind} (h : Integer ks) : Begins (.intLit :: signs) ks := by
  cases h with
  | plain => exact begins_cons (by decide)
  | signed hsign => exact begins_cons (List.mem_cons_of_mem _ hsign)

theorem Factor.begins {ks : List TokenKind} (h : Factor ks) : Begins expressionFirsts ks := by
  cases h with
  | name => exact begins_cons (by decide)
  | element hindex => exact begins_cons (by decide)
  | call hargs => exact begins_cons (by decide)
  | paren hinner => exact begins_cons (by decide)
  | integer hliteral => exact hliteral.begins.mono (by decide)
  | char => exact begins_cons (by decide)

theorem Item.begins {ks : List TokenKind} (h : Item ks) : Begins expressionFirsts ks := by
  obtain ⟨hfirst, _⟩ := h
  exact hfirst.begins.append _

theorem Expression.begins {ks : List TokenKind} (h : Expression ks) :
    Begins expressionFirsts ks := by
  cases h with
  | plain hfirst hmore => exact hfirst.begins.append _
  | signed hsign hfirst hmore => exact begins_cons (List.mem_append_right _ hsign)

/-- A factor that begins with a sign is a numeral, and a factor without the sign. -/
theorem Factor.of_sign {sign : TokenKind} {ks : List TokenKind} (hsign : sign ∈ signs)
    (h : Factor (sign :: ks)) : Factor ks := by
  cases h with
  | integer hliteral =>
      cases hliteral with
      | plain => exact absurd hsign (by decide)
      | signed _ => exact .integer .plain
  | _ => exact absurd hsign (by decide)

theorem Item.of_sign {sign : TokenKind} {ks : List TokenKind} (hsign : sign ∈ signs)
    (h : Item (sign :: ks)) : Item ks := by
  generalize hitem : sign :: ks = item at h
  obtain ⟨hfirst, hmore⟩ := h
  obtain ⟨kind, _, tail, rfl⟩ := hfirst.begins
  rw [List.cons_append, List.cons.injEq] at hitem
  obtain ⟨rfl, rfl⟩ := hitem
  exact .mk (hfirst.of_sign hsign) hmore

/-- A sign in front of an expression can be taken to be the expression's. -/
theorem Expression.cases_sign {ks : List TokenKind} (h : Expression ks) :
    ∃ first more, Item first ∧ Additions more ∧
      ((ks = first ++ more ∧ Begins factorFirsts first) ∨
        ∃ sign ∈ signs, ks = sign :: first ++ more) := by
  cases h with
  | signed hsign hfirst hmore => exact ⟨_, _, hfirst, hmore, Or.inr ⟨_, hsign, rfl⟩⟩
  | @plain first more hfirst hmore =>
      obtain ⟨kind, hkind, tail, rfl⟩ := hfirst.begins
      rcases List.mem_append.1 hkind with hplain | hsign
      · exact ⟨_, more, hfirst, hmore, Or.inl ⟨rfl, begins_cons hplain⟩⟩
      · exact ⟨tail, more, hfirst.of_sign hsign, hmore, Or.inr ⟨kind, hsign, rfl⟩⟩

/-- A phrase behind one of some kinds that link it to what is before it. -/
def Linked (links : List TokenKind) (phrase : List TokenKind → Prop) (part : List TokenKind) :
    Prop :=
  ∃ link ∈ links, ∃ operand, phrase operand ∧ part = link :: operand

theorem Additions.repeated {ks : List TokenKind} : Additions ks → Repeated (Linked signs Item) ks
  | .nil => .nil
  | .cons hop hitem hmore => .cons ⟨_, hop, _, hitem, rfl⟩ hmore.repeated

theorem Multiplications.repeated {ks : List TokenKind} :
    Multiplications ks → Repeated (Linked factorOps Factor) ks
  | .nil => .nil
  | .cons hop hfactor hmore => .cons ⟨_, hop, _, hfactor, rfl⟩ hmore.repeated

theorem MoreArguments.repeated {ks : List TokenKind} :
    MoreArguments ks → Repeated (Linked [.comma] Expression) ks
  | .nil => .nil
  | .cons harg hmore => .cons ⟨_, List.mem_singleton_self _, _, harg, rfl⟩ hmore.repeated

/-- What follows a phrase that more may be linked to. -/
theorem Repeated.notNext {links stops more rest : List TokenKind}
    {phrase : List TokenKind → Prop} (h : Repeated (Linked links phrase) more)
    (hlinks : ∀ link ∈ links, link ∉ stops) (hrest : NotNext stops rest) :
    NotNext stops (more ++ rest) := by
  cases h with
  | nil => exact hrest
  | cons hfirst _ =>
      obtain ⟨link, hlink, operand, _, rfl⟩ := hfirst
      exact notNext_cons (hlinks link hlink)

/-- Parentheses that match, and no semicolon. -/
inductive Balanced : List TokenKind → Prop where
  | nil : Balanced []
  | cons {kind : TokenKind} {ks : List TokenKind} (hkind : kind ∉ [.lparen, .rparen, .semicolon])
      (hks : Balanced ks) : Balanced (kind :: ks)
  | paren {inner ks : List TokenKind} (hinner : Balanced inner) (hks : Balanced ks) :
      Balanced (.lparen :: (inner ++ .rparen :: ks))

theorem Balanced.append {front back : List TokenKind} (hfront : Balanced front)
    (hback : Balanced back) : Balanced (front ++ back) := by
  induction hfront with
  | nil => exact hback
  | cons hkind _ ih => exact .cons hkind ih
  | paren hinner _ _ ih =>
      rw [List.cons_append, List.append_assoc, List.cons_append]
      exact .paren hinner ih

theorem not_mem_of_mem_ops {kind : TokenKind} (h : kind ∈ signs ++ factorOps) :
    kind ∉ [.lparen, .rparen, .semicolon] := by
  revert kind
  decide

theorem Integer.balanced {ks : List TokenKind} (h : Integer ks) : Balanced ks := by
  cases h with
  | plain => exact .cons (by decide) .nil
  | signed hsign =>
      exact .cons (not_mem_of_mem_ops (List.mem_append_left _ hsign)) (.cons (by decide) .nil)

mutual

theorem Expression.balanced {ks : List TokenKind} : Expression ks → Balanced ks
  | .plain hfirst hmore => hfirst.balanced.append hmore.balanced
  | .signed hsign hfirst hmore =>
    .cons (not_mem_of_mem_ops (List.mem_append_left _ hsign))
      (hfirst.balanced.append hmore.balanced)

theorem Additions.balanced {ks : List TokenKind} : Additions ks → Balanced ks
  | .nil => .nil
  | .cons hop hitem hmore =>
    .cons (not_mem_of_mem_ops (List.mem_append_left _ hop)) (hitem.balanced.append hmore.balanced)

theorem Item.balanced {ks : List TokenKind} : Item ks → Balanced ks
  | .mk hfirst hmore => hfirst.balanced.append hmore.balanced

theorem Multiplications.balanced {ks : List TokenKind} : Multiplications ks → Balanced ks
  | .nil => .nil
  | .cons hop hfactor hmore =>
    .cons (not_mem_of_mem_ops (List.mem_append_right _ hop))
      (hfactor.balanced.append hmore.balanced)

theorem Factor.balanced {ks : List TokenKind} : Factor ks → Balanced ks
  | .name => .cons (by decide) .nil
  | .element hindex =>
    .cons (by decide) (.cons (by decide) (hindex.balanced.append (.cons (by decide) .nil)))
  | .call hargs => .cons (by decide) (.paren hargs.balanced .nil)
  | .paren hinner => .paren hinner.balanced .nil
  | .integer hliteral => hliteral.balanced
  | .char => .cons (by decide) .nil

theorem Arguments.balanced {ks : List TokenKind} : Arguments ks → Balanced ks
  | .none => .nil
  | .some hfirst hmore => hfirst.balanced.append hmore.balanced

theorem MoreArguments.balanced {ks : List TokenKind} : MoreArguments ks → Balanced ks
  | .nil => .nil
  | .cons harg hmore => .cons (by decide) (harg.balanced.append hmore.balanced)

end

theorem Balanced.semicolon_not_mem {ks : List TokenKind} (h : Balanced ks) : .semicolon ∉ ks := by
  induction h with
  | nil => exact List.not_mem_nil
  | cons hkind _ ih =>
      intro hmem
      rcases List.mem_cons.1 hmem with rfl | hmem
      · exact hkind (by decide)
      · exact ih hmem
  | paren _ _ hinner hks =>
      intro hmem
      simp only [List.mem_cons, List.mem_append, reduceCtorEq, false_or] at hmem
      rcases hmem with hmem | hmem
      · exact hinner hmem
      · exact hks hmem

/-- The statements in which every `else` belongs to the nearest `if` before it that has none.
A complete one leaves no `if` that an `else` behind it could belong to. -/
inductive Paired : Bool → List TokenKind → Prop where
  | simple {complete : Bool} {stmt : List TokenKind} (hstmt : Simple stmt) :
      Paired complete (stmt ++ [.semicolon])
  | ifThen {condition body : List TokenKind} (hcondition : Condition condition)
      (hbody : Paired false body) :
      Paired false (.kwIf :: .lparen :: (condition ++ .rparen :: body))
  | ifElse {complete : Bool} {condition body other : List TokenKind}
      (hcondition : Condition condition) (hbody : Paired true body)
      (hother : Paired complete other) :
      Paired complete (.kwIf :: .lparen :: (condition ++ .rparen :: (body ++ .kwElse :: other)))
  | whileLoop {complete : Bool} {condition body : List TokenKind}
      (hcondition : Condition condition) (hbody : Paired complete body) :
      Paired complete (.kwWhile :: .lparen :: (condition ++ .rparen :: body))
  | doLoop {complete : Bool} {condition body : List TokenKind} (hbody : Statement body)
      (hcondition : Condition condition) :
      Paired complete (.kwDo :: (body ++ .kwWhile :: .lparen :: (condition ++ [.rparen])))
  | forLoop {complete : Bool} {header body : List TokenKind} (hheader : ForHeader header)
      (hbody : Paired complete body) :
      Paired complete (.kwFor :: .lparen :: (header ++ .rparen :: body))
  | block {complete : Bool} {body : List TokenKind} (hbody : Statements body) :
      Paired complete (.lbrace :: (body ++ [.rbrace]))

/-- A statement is complete, or an `else` behind it belongs to an `if` inside it. -/
theorem Paired.complete_or {complete : Bool} {body : List TokenKind} (h : Paired complete body) :
    Paired true body ∨ ∀ other, Paired false other → Paired false (body ++ .kwElse :: other) := by
  induction h with
  | simple hstmt => exact Or.inl (.simple hstmt)
  | doLoop hbody hcondition => exact Or.inl (.doLoop hbody hcondition)
  | block hbody => exact Or.inl (.block hbody)
  | ifThen hcondition hbody ih =>
      refine Or.inr ?_
      intro other hother
      simp only [List.cons_append, List.append_assoc]
      rcases ih with hcomplete | hopen
      · exact .ifElse hcondition hcomplete hother
      · exact .ifThen hcondition (hopen other hother)
  | ifElse hcondition hbody hother _ ih =>
      rcases ih with hcomplete | hopen
      · exact Or.inl (.ifElse hcondition hbody hcomplete)
      · refine Or.inr ?_
        intro other hother
        simp only [List.cons_append, List.append_assoc]
        exact .ifElse hcondition hbody (hopen other hother)
  | whileLoop hcondition hbody ih =>
      rcases ih with hcomplete | hopen
      · exact Or.inl (.whileLoop hcondition hcomplete)
      · refine Or.inr ?_
        intro other hother
        simp only [List.cons_append, List.append_assoc]
        exact .whileLoop hcondition (hopen other hother)
  | forLoop hheader hbody ih =>
      rcases ih with hcomplete | hopen
      · exact Or.inl (.forLoop hheader hcomplete)
      · refine Or.inr ?_
        intro other hother
        simp only [List.cons_append, List.append_assoc]
        exact .forLoop hheader (hopen other hother)

/-- However the `else`s of a statement are attached, they can be attached to the nearest `if`. -/
theorem Statement.paired {ks : List TokenKind} : Statement ks → Paired false ks
  | .simple hstmt => .simple hstmt
  | .ifThen hcondition hbody => .ifThen hcondition hbody.paired
  | .ifElse hcondition hbody hother =>
    match hbody.paired.complete_or with
    | Or.inl hcomplete => .ifElse hcondition hcomplete hother.paired
    | Or.inr hopen => .ifThen hcondition (hopen _ hother.paired)
  | .whileLoop hcondition hbody => .whileLoop hcondition hbody.paired
  | .doLoop hbody hcondition => .doLoop hbody hcondition
  | .forLoop hheader hbody => .forLoop hheader hbody.paired
  | .block hbody => .block hbody

/-- The kinds with which a statement begins. -/
def statementFirsts : List TokenKind :=
  [.ident, .kwIf, .kwWhile, .kwDo, .kwFor, .lbrace, .kwScanf, .kwPrintf, .kwReturn, .semicolon]

theorem Simple.begins {ks : List TokenKind} (h : Simple ks) :
    Begins statementFirsts (ks ++ [.semicolon]) := by
  cases h <;> exact begins_cons (by decide)

theorem Statement.begins {ks : List TokenKind} (h : Statement ks) : Begins statementFirsts ks := by
  cases h with
  | simple hstmt => exact hstmt.begins
  | _ => exact begins_cons (by decide)

theorem Statements.repeated {ks : List TokenKind} : Statements ks → Repeated Statement ks
  | .nil => .nil
  | .cons hfirst hrest => .cons hfirst hrest.repeated

/-- What follows the declarations of a function does not look like one of them. -/
theorem Statements.notNext {stops ks rest : List TokenKind} (h : Statements ks)
    (hstops : ∀ kind ∈ statementFirsts, kind ∉ stops) (hrest : NotNext stops rest) :
    NotNext stops (ks ++ rest) := by
  cases h with
  | nil => exact hrest
  | cons hfirst _ => exact ((hfirst.begins.append _).append _).notNext hstops

theorem ConstDeclaration.begins {ks : List TokenKind} (h : ConstDeclaration ks) :
    Begins [.kwConst] ks := by
  cases h <;> exact begins_cons (by decide)

/-- What looks like a declaration of variables: it begins with a type, and no parenthesis is
where that of a function stands. -/
def LooksDeclared (ks : List TokenKind) : Prop :=
  Begins types ks ∧ ks[2]? ≠ some .lparen

theorem looksDeclared_append {ks : List TokenKind} (h : VarDeclaration ks) (rest : List TokenKind) :
    LooksDeclared (ks ++ rest) := by
  obtain ⟨htype, hitems⟩ := h
  refine ⟨begins_cons htype, ?_⟩
  cases hitems with
  | one hitem => cases hitem <;> simp
  | cons hitem _ => cases hitem <;> simp

theorem VarDeclaration.begins {ks : List TokenKind} (h : VarDeclaration ks) : Begins types ks := by
  obtain ⟨htype, _⟩ := h
  exact begins_cons htype

theorem FunctionHead.not_looksDeclared {ks : List TokenKind} (h : FunctionHead ks)
    (rest : List TokenKind) : ¬ LooksDeclared (ks ++ rest) := by
  rintro ⟨⟨kind, hkind, tail, htail⟩, hparen⟩
  cases h with
  | value htype hparams => exact hparen rfl
  | void hparams =>
      cases htail
      exact absurd hkind (by decide)
  | main =>
      cases htail
      exact absurd hkind (by decide)

/-- The first parameter, with or without a comma and more parameters behind it. -/
theorem Parameters.cases_first {ks : List TokenKind} (h : Parameters ks) :
    ks = [] ∨ ∃ type ∈ types,
      ks = [type, .ident] ∨ ∃ more, Parameters more ∧ ks = type :: .ident :: .comma :: more := by
  cases h with
  | none => exact Or.inl rfl
  | some hparams =>
      refine Or.inr ?_
      cases hparams with
      | one hparam =>
          obtain ⟨type, htype, rfl⟩ := hparam
          exact ⟨type, htype, Or.inl rfl⟩
      | cons hparam hmore =>
          obtain ⟨type, htype, rfl⟩ := hparam
          exact ⟨type, htype, Or.inr ⟨_, .some hmore, rfl⟩⟩
  | trailing hparams =>
      refine Or.inr ?_
      cases hparams with
      | one hparam =>
          obtain ⟨type, htype, rfl⟩ := hparam
          exact ⟨type, htype, Or.inr ⟨[], .none, rfl⟩⟩
      | cons hparam hmore =>
          obtain ⟨type, htype, rfl⟩ := hparam
          exact ⟨type, htype, Or.inr ⟨_, .trailing hmore, rfl⟩⟩

end Grammar

end OnePass
