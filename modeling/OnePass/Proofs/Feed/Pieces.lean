import OnePass.Proofs.Feed.Program

/-!
A program that compiles without a diagnostic consists of pieces, each a single declaration or a
function, that are read as they are whatever follows. The state behind them is thus all that the
rest of a program has to do with: it is compiled as if it started there.

The pieces are finer than the parts of the syntax tree, since declarations behind the last part
join those in it.
-/

namespace OnePass

namespace Pass

variable {α β : Type} {s t u : State}

section Exact

/-- What is read as a thing that is `done` is read so whatever follows. -/
def Exact (done : α → Prop) (pass : Pass α) : Prop :=
  ∀ s a t, s.Free → pass s = .ok a t → done a →
    s.cursor.rest ≠ [] ∧ t.Free ∧ ∀ more, pass (s.feed more) = .ok a (t.feed more)

namespace Exact

variable {done : β → Prop} {step : Pass α} {next : α → Pass β}

/-- A step in front of what is read exactly. -/
theorem bind {before : Follow} {ks : List TokenKind} (hstep : Stable before ks step)
    (hnext : ∀ a, Exact done (next a)) : Exact done (step >>= next) := by
  intro s b t hs hrun hdone
  obtain ⟨a, u, ha, hb⟩ := bind_eq_ok.1 hrun
  have hfeeds := hstep.feeds s hs
  obtain ⟨hne, ht, hmore⟩ := hnext a u b t (hfeeds.free a u ha) hb hdone
  refine ⟨fun hnil => hne ((hfeeds.ends hnil).1 a u ha), ht, fun more => ?_⟩
  rw [bind_of_ok (hfeeds.keeps a u ha hne more), hmore]

/-- Nothing is read behind what was read exactly. -/
theorem last {found : α → Prop} (hstep : Exact found step) (hnext : ∀ a, IsBlind (next a))
    (hfound : ∀ a s b t, next a s = .ok b t → done b → found a) : Exact done (step >>= next) := by
  intro s b t hs hrun hdone
  obtain ⟨a, u, ha, hb⟩ := bind_eq_ok.1 hrun
  obtain ⟨hne, hu, hmore⟩ := hstep s a u hs ha (hfound a u b t hb hdone)
  refine ⟨hne, ?_, fun more => ?_⟩
  · obtain ⟨b', t', hb', ht⟩ := (hnext a).okay u hu
    rw [hb] at hb'
    cases hb'
    exact ht
  · rw [bind_of_ok (hmore more), (hnext a).feed hb]

theorem ite {done : α → Prop} {condition : Prop} [Decidable condition] {yes no : Pass α}
    (hyes : Exact done yes) (hno : Exact done no) :
    Exact done (if condition then yes else no) := by
  by_cases h : condition
  · rw [if_pos h]
    exact hyes
  · rw [if_neg h]
    exact hno

theorem of_take {done : α → Prop} {pass : Pass α}
    (h : ∀ s a t, pass s = .ok a t → done a → ∃ token rest, s.cursor.rest = token :: rest ∧
      ∀ u rest, u.cursor.rest = token :: rest → pass u = .ok a (u.take token rest)) :
    Exact done pass := by
  intro s a t hs hrun hdone
  obtain ⟨token, rest, hrest, htake⟩ := h s a t hrun hdone
  rw [htake s rest hrest] at hrun
  cases hrun
  refine ⟨by simp [hrest], hs, fun more => ?_⟩
  exact htake _ _ (State.rest_feed_cons hrest more)

theorem expect (kind : TokenKind) : Exact (fun _ => True) (Pass.expect kind) := by
  refine .of_take fun s token t hrun _ => ?_
  obtain ⟨hkind, hadvance⟩ := expect_eq_ok.1 hrun
  obtain ⟨rest, hrest, _⟩ := advance_eq_ok.1 hadvance
  exact ⟨token, rest, hrest, fun u rest hu => (expect_cons hu).trans (if_pos hkind)⟩

/-- A token that may be left out, but is not. -/
theorem recover (kind : TokenKind) (missing : DiagnosticKind) :
    Exact (fun found => found.isSome = true) (Pass.recover kind missing) := by
  refine .of_take fun s found t hrun hfound => ?_
  cases found with
  | none => cases hfound
  | some token =>
      obtain ⟨hkind, hadvance⟩ := recover_eq_some hrun
      obtain ⟨rest, hrest, _⟩ := advance_eq_ok.1 hadvance
      refine ⟨token, rest, hrest, fun u rest hu => ?_⟩
      rw [recover_eq, bind_of_ok ((accept_cons hu).trans (if_pos hkind))]
      rfl

theorem constDecl (scope : Scope) :
    Exact (fun decl => decl.semicolon.isSome = true) (Pass.constDecl scope) := by
  refine .bind (.expect _) fun _ => .bind (.typeName .kwInt rfl) fun type =>
    .bind (.constItems scope type.ty) fun _ => .last (.recover _ _) (fun _ => .pure _) ?_
  intro semicolon s decl t hrun hdone
  rwa [(pure_eq_ok.1 hrun).1] at hdone

theorem varDecl (scope : Scope) :
    Exact (fun decl => decl.semicolon.isSome = true) (Pass.varDecl scope) := by
  refine .bind (.typeName .kwInt rfl) fun type =>
    .bind (.varItemList scope type.ty) fun _ => .last (.recover _ _) (fun _ => .pure _) ?_
  intro semicolon s decl t hrun hdone
  rwa [(pure_eq_ok.1 hrun).1] at hdone

/-- A function ends with its brace. -/
theorem function {ks : List TokenKind} {head : Pass FunctionHead}
    (hhead : Stable Anything ks head) : Exact (fun _ => True) (Pass.function head) := by
  refine .bind hhead fun head => .bind (.of_blind (.announce head)) fun _ =>
    .bind (.expect _) fun _ => .bind (.body head.ty) fun _ => ?_
  have hend : ∀ body lbrace, Exact (fun _ => True) (do
      Pass.emit .functionEnd
      let rbrace ← Pass.expect .rbrace
      Pass.keepTable head.name.value .local
      return { head, lbrace, body, rbrace : Function }) := by
    intro body lbrace
    refine .bind (.of_blind (.emit _)) fun _ => .last (.expect _) (fun _ => ?_) fun _ _ _ _ _ => id
    exact .bind (.keepTable _ _) fun _ => .pure _
  exact .ite (.bind (.of_blind (.emit _)) fun _ => hend _ _) (hend _ _)

end Exact

end Exact

section Skim

/-- The rest of a program, of which the syntax is dropped. -/
def skim : Pass Unit := do
  let _ ← parts

theorem skim_of_ok {items : List TopLevel} (h : parts s = .ok items t) : skim s = .ok () t :=
  bind_of_ok h

theorem skim_of_error {error : ParseError} (h : parts s = .error error t) :
    skim s = .error error t :=
  bind_of_error h

theorem parts_of_skim (h : skim s = .ok () t) : ∃ items, parts s = .ok items t := by
  obtain ⟨items, u, hitems, hpure⟩ := bind_eq_ok.1 h
  obtain ⟨_, rfl⟩ := pure_eq_ok.1 hpure
  exact ⟨items, hitems⟩

theorem parts_of_skim_error {error : ParseError} (h : skim s = .error error t) :
    parts s = .error error t := by
  cases hrun : parts s with
  | ok items u => cases (skim_of_ok hrun).symm.trans h
  | error error' u =>
      cases (skim_of_error hrun).symm.trans h
      rfl

theorem endState_skim (s : State) : endState (skim s) = endState (parts s) := by
  cases hrun : parts s with
  | ok items t => rw [skim_of_ok hrun, endState, endState]
  | error error t => rw [skim_of_error hrun, endState, endState]

/-- The next part comes before the rest. -/
theorem skim_of_part {step : Pass α} (toPart : α → TopLevel)
    (h : (partAt s.cursor).pass = step >>= fun a => pure (some (toPart a))) :
    skim s = (step >>= fun _ => skim) s := by
  have hparts : parts s = (step >>= fun a => parts >>= fun rest => pure (toPart a :: rest)) s := by
    rw [parts_eq, h, manyOf, bind_assoc]
    rfl
  cases hstep : step s with
  | error error u =>
      rw [bind_of_error hstep] at hparts ⊢
      exact skim_of_error hparts
  | ok a u =>
      rw [bind_of_ok hstep] at hparts ⊢
      cases hrest : parts u with
      | error error t =>
          rw [bind_of_error hrest] at hparts
          rw [skim_of_error hparts, skim_of_error hrest]
      | ok rest t =>
          rw [bind_of_ok hrest] at hparts
          rw [skim_of_ok hparts, skim_of_ok hrest]

theorem partAt_of_const (h : s.cursor.nextIs .kwConst = true) : partAt s.cursor = .consts := by
  rw [nextIs_eq, beq_iff_eq, ← peekKind?_zero] at h
  rw [partAt, h]

theorem constDecls_of_not (h : s.cursor.nextIs .kwConst = false) (scope : Scope) :
    constDecls scope s = .ok [] s := by
  have hnone : constDecl? scope s = .ok none s := by
    rw [constDecl?_eq, h]
    rfl
  rw [constDecls_eq_many, many_eq fun _ => .constDecl? scope]
  exact bind_of_ok hnone

/-- Constants that come next are read by what follows them as well. -/
theorem constDecls_skim (s : State) : (constDecls .global >>= fun _ => skim) s = skim s := by
  cases hat : s.cursor.nextIs .kwConst with
  | true =>
      refine (skim_of_part TopLevel.consts ?_).symm
      rw [partAt_of_const hat]
      rfl
  | false => exact bind_of_ok (constDecls_of_not hat .global)

theorem varDecls_skim (s : State) : (varDecls .global >>= fun _ => skim) s = skim s := by
  cases hat : atVarDecl s.cursor with
  | true =>
      refine (skim_of_part TopLevel.vars ?_).symm
      rw [partAt_of_atVarDecl hat]
      rfl
  | false => exact bind_of_ok (varDecls_of_not hat)

theorem skim_of_constDecl {decl : ConstDecl} (hat : s.cursor.nextIs .kwConst = true)
    (h : constDecl .global s = .ok decl t) : skim s = skim t := by
  have hdecl : constDecl? .global s = (constDecl .global >>= fun decl => pure (some decl)) s := by
    rw [constDecl?_eq, if_pos hat]
  have hmany : constDecls .global = manyOf (constDecl? .global) (constDecls .global) :=
    many_eq fun _ => .constDecl? .global
  calc skim s
      = (constDecls .global >>= fun _ => skim) s := (constDecls_skim s).symm
    _ = (manyOf (constDecl? .global) (constDecls .global) >>= fun _ => skim) s := by rw [← hmany]
    _ = (constDecl .global >>= fun _ => constDecls .global >>= fun _ => skim) s :=
        manyOf_of_some hdecl
    _ = (constDecls .global >>= fun _ => skim) t := bind_of_ok h
    _ = skim t := constDecls_skim t

theorem skim_of_varDecl {decl : VarDecl} (hat : atVarDecl s.cursor = true)
    (h : varDecl .global s = .ok decl t) : skim s = skim t :=
  calc skim s
      = (varDecls .global >>= fun _ => skim) s := (varDecls_skim s).symm
    _ = (varDecl .global >>= fun _ => varDecls .global >>= fun _ => skim) s :=
        Declares.varDecls _ s hat
    _ = (varDecls .global >>= fun _ => skim) t := bind_of_ok h
    _ = skim t := varDecls_skim t

/-- How the head of a function is read, if a part is one. -/
def Part.head? : Part → Option (Pass FunctionHead)
  | value => some valueHead
  | main => some mainHead
  | void => some voidHead
  | _ => none

theorem Part.head?_cases {part : Part} {head : Pass FunctionHead} (h : part.head? = some head) :
    (part = .value ∧ head = valueHead) ∨ (part = .main ∧ head = mainHead) ∨
      (part = .void ∧ head = voidHead) := by
  cases part with
  | value => exact .inl ⟨rfl, (Option.some.inj h).symm⟩
  | main => exact .inr (.inl ⟨rfl, (Option.some.inj h).symm⟩)
  | void => exact .inr (.inr ⟨rfl, (Option.some.inj h).symm⟩)
  | _ => cases h

theorem Part.pass_of_head? {part : Part} {head : Pass FunctionHead} (h : part.head? = some head) :
    part.pass = Pass.function head >>= fun f => Pure.pure (some (TopLevel.function f)) := by
  rcases Part.head?_cases h with ⟨rfl, rfl⟩ | ⟨rfl, rfl⟩ | ⟨rfl, rfl⟩ <;> rfl

theorem skim_of_function {head : Pass FunctionHead} {f : Function}
    (hat : (partAt s.cursor).head? = some head) (h : function head s = .ok f t) :
    skim s = skim t :=
  (skim_of_part _ (Part.pass_of_head? hat)).trans (bind_of_ok h)

end Skim

section Pieces

/-- From one state to another by declarations with their semicolons and functions. -/
inductive Pieces : State → State → Prop where
  | refl (s : State) : Pieces s s
  | const {s t u : State} {decl : ConstDecl} (hat : s.cursor.nextIs .kwConst = true)
      (hdecl : constDecl .global s = .ok decl t) (hdone : decl.semicolon.isSome = true)
      (hrest : Pieces t u) : Pieces s u
  | var {s t u : State} {decl : VarDecl} (hat : atVarDecl s.cursor = true)
      (hdecl : varDecl .global s = .ok decl t) (hdone : decl.semicolon.isSome = true)
      (hrest : Pieces t u) : Pieces s u
  | function {s t u : State} {head : Pass FunctionHead} {f : Function}
      (hat : (partAt s.cursor).head? = some head) (hf : function head s = .ok f t)
      (hrest : Pieces t u) : Pieces s u

theorem Pieces.trans (hfront : Pieces s t) (hback : Pieces t u) : Pieces s u := by
  induction hfront with
  | refl s => exact hback
  | const hat hdecl hdone _ ih => exact .const hat hdecl hdone (ih hback)
  | var hat hdecl hdone _ ih => exact .var hat hdecl hdone (ih hback)
  | function hat hf _ ih => exact .function hat hf (ih hback)

/-- A declaration with its semicolon takes three tokens at least. -/
theorem three_le_of_varDecl {scope : Scope} {decl : VarDecl} (h : varDecl scope s = .ok decl t)
    (hdone : decl.semicolon.isSome = true) : 3 ≤ s.cursor.rest.length := by
  obtain ⟨type, v, htype, h⟩ := bind_eq_ok.1 h
  obtain ⟨items, w, hitems, h⟩ := bind_eq_ok.1 h
  obtain ⟨semicolon, x, hsemicolon, h⟩ := bind_eq_ok.1 h
  obtain ⟨rfl, rfl⟩ := pure_eq_ok.1 h
  have hv : v.ahead < s.ahead :=
    Alike.typeName.ahead_lt s type v (Nat.lt_succ_self _) htype trivial
  have hw : w.ahead < v.ahead :=
    (Alike.commaList (.varItem scope type.ty)).ahead_lt v items w (Nat.lt_succ_self _) hitems trivial
  have hne : w.cursor.rest.length ≠ 0 := by
    cases semicolon with
    | none => cases hdone
    | some token =>
        obtain ⟨rest, hrest, _⟩ := advance_eq_ok.1 (recover_eq_some hsemicolon).2
        simp [hrest]
  unfold State.ahead at hv hw
  omega

/-- So does a function, with its braces alone. -/
theorem three_le_of_function {head : Pass FunctionHead} {f : Function}
    (hhead : ∀ n, Runs n Always head) (h : function head s = .ok f t) :
    3 ≤ s.cursor.rest.length := by
  obtain ⟨head, s₁, hrun, h⟩ := bind_eq_ok.1 h
  obtain ⟨_, s₂, hannounce, h⟩ := bind_eq_ok.1 h
  obtain ⟨lbrace, s₃, hlbrace, h⟩ := bind_eq_ok.1 h
  obtain ⟨body, s₄, hbody, h⟩ := bind_eq_ok.1 h
  obtain ⟨s₅, hreturn, h⟩ := joined_eq_ok.1 h
  obtain ⟨_, s₆, hend, h⟩ := bind_eq_ok.1 h
  obtain ⟨rbrace, s₇, hrbrace, _⟩ := bind_eq_ok.1 h
  have h₁ := (hhead _).ahead_lt s head s₁ (Nat.lt_succ_self _) hrun trivial
  have h₂ := (Alike.blind (n := 0) (.announce head)).ahead_le hannounce
  have h₃ := (Alike.expect _).ahead_lt s₂ lbrace s₃ (Nat.lt_succ_self _) hlbrace trivial
  have h₄ := (Alike.body (n := 0) head.ty).ahead_le hbody
  have h₅ := (Alike.ite (n := 0) (.blind (.emit _)) (.pure id)).ahead_le hreturn
  have h₆ := (Alike.blind (n := 0) (.emit _)).ahead_le hend
  have h₇ := (Alike.expect _).ahead_lt s₆ rbrace s₇ (Nat.lt_succ_self _) hrbrace trivial
  unfold State.ahead at *
  omega

/-- Three tokens tell what comes next. -/
theorem partAt_feed (h : 3 ≤ s.cursor.rest.length) (more : List Token) :
    partAt (s.feed more).cursor = partAt s.cursor := by
  have hpeek : ∀ offset, offset < 3 →
      (s.feed more).cursor.peekKind? offset = s.cursor.peekKind? offset := by
    intro offset hoffset
    have hne : s.cursor.rest.drop offset ≠ [] := by
      rw [ne_eq, List.drop_eq_nil_iff]
      omega
    rw [peekKind?_eq, peekKind?_eq, State.feed, List.drop_append_of_le_length (by omega),
      headKind_append_of_ne_nil hne]
  rw [partAt, partAt, hpeek 0 (by decide), hpeek 1 (by decide), hpeek 2 (by decide)]

/-- A piece is a piece whatever follows, so that what follows starts behind it. -/
theorem Pieces.skim_feed (h : Pieces s u) (hs : s.Free) :
    u.Free ∧ ∀ more, skim (s.feed more) = skim (u.feed more) := by
  induction h with
  | refl s => exact ⟨hs, fun _ => rfl⟩
  | @const s t u decl hat hdecl hdone _ ih =>
      obtain ⟨hne, ht, hfeed⟩ := Exact.constDecl .global s decl t hs hdecl hdone
      refine ⟨(ih ht).1, fun more => ?_⟩
      have hat : (s.feed more).cursor.nextIs .kwConst = true := by
        rw [nextIs_eq, State.feed, headKind_append_of_ne_nil hne, ← nextIs_eq, hat]
      rw [skim_of_constDecl hat (hfeed more), (ih ht).2]
  | @var s t u decl hat hdecl hdone _ ih =>
      obtain ⟨_, ht, hfeed⟩ := Exact.varDecl .global s decl t hs hdecl hdone
      refine ⟨(ih ht).1, fun more => ?_⟩
      have hat : atVarDecl (s.feed more).cursor = true := by
        rw [atVarDecl_feed (three_le_of_varDecl hdecl hdone), hat]
      rw [skim_of_varDecl hat (hfeed more), (ih ht).2]
  | @function s t u head f hat hf _ ih =>
      have hhead : Exact (fun _ => True) (Pass.function head) ∧ ∀ n, Runs n Always head := by
        rcases Part.head?_cases hat with ⟨_, rfl⟩ | ⟨_, rfl⟩ | ⟨_, rfl⟩
        · exact ⟨.function .valueHead, fun _ => .valueHead⟩
        · exact ⟨.function .mainHead, fun _ => .mainHead⟩
        · exact ⟨.function Steady.voidHead.1, fun _ => .voidHead⟩
      obtain ⟨_, ht, hfeed⟩ := hhead.1 s f t hs hf trivial
      refine ⟨(ih ht).1, fun more => ?_⟩
      have hat : (partAt (s.feed more).cursor).head? = some head := by
        rw [partAt_feed (three_le_of_function hhead.2 hf), hat]
      rw [skim_of_function hat (hfeed more), (ih ht).2]

/-- The declarations of a part have their semicolons. -/
def TopLevel.Ended : TopLevel → Prop
  | .consts decls => ∀ decl ∈ decls, decl.semicolon.isSome = true
  | .vars decls => ∀ decl ∈ decls, decl.semicolon.isSome = true
  | .function _ => True

/-- A step that is taken where it applies. -/
theorem optional_eq_ok {applies : Bool} {step : Pass α} {found : Option α}
    (h : (if applies then (step >>= fun a => pure (some a)) s else .ok none s) = .ok found t) :
    (found = none ∧ s = t) ∨ ∃ a, found = some a ∧ applies = true ∧ step s = .ok a t := by
  cases applies with
  | false =>
      cases h
      exact .inl ⟨rfl, rfl⟩
  | true =>
      obtain ⟨a, u, ha, hpure⟩ := bind_eq_ok.1 h
      obtain ⟨rfl, rfl⟩ := pure_eq_ok.1 hpure
      exact .inr ⟨a, rfl, rfl, ha⟩

/-- Declarations that are read as long as they apply, each of them a piece if it has ended. -/
theorem pieces_of_many {decl? : Pass (Option α)} {decl : Pass α} {applies : State → Bool}
    {ended : α → Bool}
    (hdecl? : ∀ s, decl? s =
      if applies s then (decl >>= fun a => pure (some a)) s else .ok none s)
    (hpiece : ∀ {s t u : State} {a : α}, applies s = true → decl s = .ok a t → ended a = true →
      Pieces t u → Pieces s u)
    {decls : List α} (h : many decl? s = .ok decls t) (hended : ∀ a ∈ decls, ended a = true) :
    Pieces s t := by
  refine many_ok (P := fun s decls t => (∀ a ∈ decls, ended a = true) → Pieces s t) ?_ ?_ h hended
  · intro s t hnone _
    rcases optional_eq_ok ((hdecl? s).symm.trans hnone) with ⟨_, rfl⟩ | ⟨_, hsome, _⟩
    · exact .refl s
    · cases hsome
  · intro s u t a decls hsome hrest hended
    rw [List.forall_mem_cons] at hended
    rcases optional_eq_ok ((hdecl? s).symm.trans hsome) with ⟨hnone, _⟩ | ⟨_, hsame, hat, ha⟩
    · cases hnone
    · cases hsame
      exact hpiece hat ha hended.1 (hrest hended.2)

theorem pieces_of_constDecls {decls : List ConstDecl} (h : constDecls .global s = .ok decls t)
    (hended : ∀ decl ∈ decls, decl.semicolon.isSome = true) : Pieces s t :=
  pieces_of_many (constDecl?_eq .global) Pieces.const h hended

theorem pieces_of_varDecls {decls : List VarDecl} (h : varDecls .global s = .ok decls t)
    (hended : ∀ decl ∈ decls, decl.semicolon.isSome = true) : Pieces s t :=
  pieces_of_many (varDecl?_eq .global) Pieces.var h hended

theorem pieces_of_function (head : Pass FunctionHead) {found : Option TopLevel}
    (hat : (partAt s.cursor).head? = some head)
    (h : (function head >>= fun f => pure (some (TopLevel.function f))) s = .ok found t) :
    Pieces s t := by
  obtain ⟨f, u, hf, hpure⟩ := bind_eq_ok.1 h
  obtain ⟨_, rfl⟩ := pure_eq_ok.1 hpure
  exact .function hat hf (.refl u)

/-- A part is made of pieces, unless a semicolon is missing in it. -/
theorem pieces_of_topLevel? {found : Option TopLevel} (h : topLevel? s = .ok found t)
    (hended : ∀ item ∈ found, TopLevel.Ended item) : Pieces s t := by
  rw [topLevel?_eq] at h
  cases hpart : partAt s.cursor with
  | done =>
      rw [hpart] at h
      obtain ⟨_, rfl⟩ := pure_eq_ok.1 h
      exact .refl s
  | consts =>
      rw [hpart] at h
      obtain ⟨decls, u, hdecls, hpure⟩ := bind_eq_ok.1 h
      obtain ⟨rfl, rfl⟩ := pure_eq_ok.1 hpure
      exact pieces_of_constDecls hdecls (hended _ rfl)
  | vars =>
      rw [hpart] at h
      obtain ⟨decls, u, hdecls, hpure⟩ := bind_eq_ok.1 h
      obtain ⟨rfl, rfl⟩ := pure_eq_ok.1 hpure
      exact pieces_of_varDecls hdecls (hended _ rfl)
  | value =>
      rw [hpart] at h
      exact pieces_of_function valueHead (hpart ▸ rfl) h
  | main =>
      rw [hpart] at h
      exact pieces_of_function mainHead (hpart ▸ rfl) h
  | void =>
      rw [hpart] at h
      exact pieces_of_function voidHead (hpart ▸ rfl) h
  | other =>
      rw [hpart] at h
      exact absurd h unexpected_ne_ok

theorem pieces_of_parts {items : List TopLevel} (h : parts s = .ok items t)
    (hended : ∀ item ∈ items, TopLevel.Ended item) : Pieces s t := by
  refine many_ok (P := fun s items t => (∀ item ∈ items, TopLevel.Ended item) → Pieces s t)
    ?_ ?_ h hended
  · intro s t hnone _
    exact pieces_of_topLevel? hnone fun item hitem => absurd hitem (Option.not_mem_none item)
  · intro s u t item items hitem hrest hended
    rw [List.forall_mem_cons] at hended
    refine (pieces_of_topLevel? hitem ?_).trans (hrest hended.2)
    intro found hfound
    cases hfound
    exact hended.1

/-- The parts go to the end of the tokens. -/
theorem rest_of_parts {items : List TopLevel} (h : parts s = .ok items t) : t.cursor.rest = [] := by
  refine many_ok (P := fun _ _ t => t.cursor.rest = []) ?_ ?_ h
  · intro s t hnone
    rcases plays_topLevel? hnone with ⟨_, rfl, hrest⟩ | ⟨item, hitem, _⟩
    · exact hrest
    · cases hitem
  · exact fun _ _ _ _ _ _ hrest => hrest

end Pieces

end Pass

section Compilations

open Pass

variable {tokens : List Token} {c : Compilation}

theorem not_mem_log_of_clean (h : compile tokens = .ok c) (hclean : c.diagnostics = [])
    (kind : DiagnosticKind) : .reportHere kind ∉ c.program.log := by
  intro hmem
  have hrecords : kind ∈ (Action.reportHere kind).records := List.mem_cons_self
  obtain ⟨d, hd, _⟩ := reported_of_compile h hmem hrecords
  rw [hclean] at hd
  cases hd

/-- Where nothing is recorded, no semicolon is missing. -/
theorem ended_of_compile (h : compile tokens = .ok c) (hclean : c.diagnostics = []) :
    ∀ item ∈ c.program.items, TopLevel.Ended item := by
  intro item hitem
  have hmissing : .reportHere .missingSemicolon ∉ item.log := fun hmem =>
    not_mem_log_of_clean h hclean _
      (List.mem_append_left _ (List.mem_flatMap.2 ⟨item, hitem, hmem⟩))
  cases item with
  | consts decls =>
      intro decl hdecl
      cases hsemicolon : decl.semicolon with
      | some token => rfl
      | none =>
          refine absurd (List.mem_flatMap.2 ⟨decl, hdecl, ?_⟩) hmissing
          simp [ConstDecl.log, semicolonLog, recoverLog, hsemicolon]
  | vars decls =>
      intro decl hdecl
      cases hsemicolon : decl.semicolon with
      | some token => rfl
      | none =>
          refine absurd (List.mem_flatMap.2 ⟨decl, hdecl, ?_⟩) hmissing
          simp [VarDecl.log, semicolonLog, recoverLog, hsemicolon]
  | function f => trivial

/-- What follows a program without diagnostics is compiled from the state behind it. -/
theorem exists_behind_of_compile (h : compile tokens = .ok c) (hclean : c.diagnostics = []) :
    ∃ (items : List TopLevel) (u : State), parts (.start {} tokens) = .ok items u ∧
      c = u.compilation items ∧ u.Free ∧
      ∀ more, skim (.start {} (tokens ++ more)) = skim (u.feed more) := by
  obtain ⟨items, u, hparts, hc⟩ := compile_eq_ok_iff.1 h
  have hended := ended_of_compile h hclean
  rw [hc] at hended
  obtain ⟨hfree, hskim⟩ := (pieces_of_parts hparts hended).skim_feed rfl
  exact ⟨items, u, hparts, hc, hfree, hskim⟩

end Compilations

end OnePass
