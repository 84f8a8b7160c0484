import OnePass.Proofs.Feed.Stmt

/-!
Declarations in front of more tokens. What looks like variables may turn out to be a function, once
the parenthesis behind the name is there. Until then the tokens are too few for a declaration, so
that either more of them make it one, or no name stands where both want one.
-/

namespace OnePass

namespace Pass

variable {α β : Type} {after : Follow} {ks : List TokenKind} {s : State} {scope : Scope}

section TypeNames

theorem typeName_of_isTypeName {token : Token} (hkind : token.kind.isTypeName = true) :
    ∃ type, ∀ u rest, u.cursor.rest = token :: rest →
      typeName u = .ok type (u.take token rest) := by
  have hread : ∀ ty : Ty, ∀ u rest, u.cursor.rest = token :: rest →
      (do return { token := ← advance, ty } : Pass TypeName) u =
        .ok { token, ty } (u.take token rest) :=
    fun ty u rest hu => bind_of_ok (advance_cons hu)
  cases hkinds : token.kind with
  | kwInt =>
      refine ⟨⟨token, .int⟩, fun u rest hu => ?_⟩
      rw [typeName, bind_of_ok (current_cons hu), hkinds]
      exact hread .int u rest hu
  | kwChar =>
      refine ⟨⟨token, .char⟩, fun u rest hu => ?_⟩
      rw [typeName, bind_of_ok (current_cons hu), hkinds]
      exact hread .char u rest hu
  | _ =>
      rw [hkinds] at hkind
      cases hkind

theorem ty_ne_void_of_typeName {type : TypeName} {t : State} (h : typeName s = .ok type t) :
    type.ty ≠ .void := by
  obtain ⟨token, u, _, h⟩ := bind_eq_ok.1 h
  cases hkind : token.kind with
  | kwInt | kwChar =>
      rw [hkind] at h
      obtain ⟨_, _, _, hpure⟩ := bind_eq_ok.1 h
      rw [(pure_eq_ok.1 hpure).1]
      nofun
  | _ =>
      rw [hkind] at h
      exact absurd h unexpected_ne_ok

theorem Steady.typeName (kind : TokenKind) (hkind : kind.isTypeName = true) :
    Stable Anything [kind] Pass.typeName := by
  refine ⟨fun s hs => ?_, .of_take fun s token rest hrest htoken _ => ?_⟩
  · cases hrest : s.cursor.rest with
    | nil => exact .of_eof hrest (bind_of_error (current_nil hrest))
    | cons token rest =>
        by_cases htype : token.kind.isTypeName = true
        · obtain ⟨type, hread⟩ := typeName_of_isTypeName htype
          exact .of_take hs hrest (hread s rest hrest) fun more =>
            hread _ _ (State.rest_feed_cons hrest more)
        · have hother : Feeds Anything (Pass.current >>= fun _ => Pass.unexpected .typeName)
              (Pass.current >>= fun _ => (Pass.unexpected .typeName : Pass TypeName)) s :=
            .current fun _ _ _ => .unexpected
          have heq : ∀ u rest, u.cursor.rest = token :: rest →
              Pass.typeName u = (Pass.current >>= fun _ => Pass.unexpected .typeName) u := by
            intro u rest hu
            rw [Pass.typeName, bind_of_ok (current_cons hu), bind_of_ok (current_cons hu)]
            cases hkinds : token.kind with
            | kwInt | kwChar =>
                rw [hkinds] at htype
                exact absurd rfl htype
            | _ => rfl
          exact hother.congr (heq s rest hrest) fun _ more =>
            heq _ _ (State.rest_feed_cons hrest more)
  · obtain ⟨type, hread⟩ := typeName_of_isTypeName (htoken ▸ hkind)
    exact ⟨type, hread s rest hrest⟩

theorem Steady.typed {kind : TokenKind} {next next' : TypeName → Pass β}
    (hkind : kind.isTypeName = true)
    (hnext : ∀ type, type.ty ≠ .void → Steady after ks (next type) (next' type)) :
    Steady after (kind :: ks) (Pass.typeName >>= next) (Pass.typeName >>= next') := by
  have htype := Steady.typeName kind hkind
  refine ⟨fun s hs => ?_, ?_⟩
  · exact (htype.feeds s hs).bind
      (fun type t hrun ht => (hnext type (ty_ne_void_of_typeName hrun)).feeds t ht)
      (fun type _ _ hrun => (hnext type (ty_ne_void_of_typeName hrun)).settles) fun _ _ => trivial
  · exact htype.settles.bind
      (fun type _ _ hrun => (hnext type (ty_ne_void_of_typeName hrun)).settles) rfl
      fun _ _ => trivial

end TypeNames

section Constants

theorem Steady.constInit (ty : Ty) : Stable Anything [.intLit] (Pass.constInit ty) := by
  have hread : ∀ integer : Bool, Steady Anything [if integer then .intLit else .charLit]
      (do
        if integer then return ConstInit.int (← Pass.integer)
        else
          let token ← Pass.advance
          return if token.kind = .charLit then .char token else .other token)
      (do
        if integer then return ConstInit.int (← Pass.integer)
        else
          let token ← Pass.advance
          return if token.kind = .charLit then .char token else .other token) := by
    intro integer
    cases integer with
    | true => exact .bind .integer (fun _ => .pure _) rfl fun _ _ => trivial
    | false => exact .advanced fun _ => .pure _
  refine ⟨fun s hs => .current fun token _ _ => ?_, .current (fun _ _ => rfl) ?_⟩
  · exact (Steady.ite (hread _) (.blind (.report _ _) fun _ => hread _)).feeds s hs
  · rintro token ⟨_, _, hkind⟩
    rw [← Option.some.inj hkind]
    exact (Steady.ite (hread true) (.blind (.report _ _) fun _ => hread true)).settles

theorem Steady.constItem (scope : Scope) (ty : Ty) :
    Stable Anything [.ident, .assign, .intLit] (Pass.constItem scope ty) :=
  .expected fun name => .blind (.checkRedefinition scope name) fun _ => .expected fun _ =>
    .bind (.constInit ty) (fun _ => .blind (.declare _ _) fun _ => .pure _) rfl fun _ _ => trivial

theorem Steady.constItems (scope : Scope) (ty : Ty) :
    Stable Closed [.ident, .assign, .intLit] (Pass.commaList (Pass.constItem scope ty)) :=
  .commaList (fun _ => .constItem scope ty) ((constItem scope ty).mono fun _ _ => trivial)
    fun _ h => h.ne rfl

theorem Steady.constDecl (scope : Scope) :
    Stable Anything [.kwConst, .kwInt, .ident, .assign, .intLit, .semicolon]
      (Pass.constDecl scope) :=
  .expected fun _ => .typed rfl fun type _ => .bind (.constItems scope type.ty)
    (fun _ => .recovered fun _ => .pure _) rfl fun _ _ => rfl

/-- No constants come next. -/
def NotConst : Follow := fun next => next ≠ some .kwConst

theorem Steady.constDecls (scope : Scope) : Stable NotConst [] (Pass.constDecls scope) := by
  have hsome : Stable NotConst [.kwConst, .kwInt, .ident, .assign, .intLit, .semicolon]
      (Pass.constDecl scope >>= fun decl => Pure.pure (some decl)) :=
    .bind (.constDecl scope) (fun _ => .pure _) rfl fun _ _ => trivial
  refine .many (fun _ => .constDecl? scope) (fun s hs => .nextIs fun atConst => ?_) ?_
  · cases atConst with
    | true => exact hsome.feeds s hs
    | false => exact (Steady.pure none).feeds s hs
  · intro s hs
    refine (constDecl?_eq scope s).trans (if_neg ?_)
    rw [nextIs_eq, beq_iff_eq]
    exact hs

end Constants

section Variables

theorem Steady.arraySize? : Stable Closed [] Pass.arraySize? :=
  .accept [.intLit, .rbracket] (fun _ h => h.ne rfl) (.pure none) fun _ =>
    .bind .unsigned (fun _ => .recovered fun _ => .pure _) rfl fun _ _ => trivial

theorem Steady.varItem (scope : Scope) (ty : Ty) : Stable Closed [.ident] (Pass.varItem scope ty) ∧
      Spends .ident (Pass.varItem scope ty) :=
  Steady.expected_spends fun name => .blind (.checkRedefinition scope name) fun _ =>
    .bind .arraySize? (fun _ => .blind (.declare _ _) fun _ => .blind (.emit _) fun _ => .pure _) rfl
      fun _ => id

theorem Steady.varItemList (scope : Scope) (ty : Ty) :
    Stable Closed [.ident] (Pass.commaList (Pass.varItem scope ty)) :=
  .commaList (fun _ => .varItem scope ty) (varItem scope ty).1 fun _ h => h.ne rfl

/-- What follows the type of a variable declaration. -/
def varItems (scope : Scope) (type : TypeName) : Pass VarDecl := do
  let items ← commaList (varItem scope type.ty)
  return { type, items, semicolon := ← recoverSemicolon }

theorem varDecl_eq (scope : Scope) : varDecl scope = (typeName >>= varItems scope) := rfl

theorem Steady.varItems (scope : Scope) (type : TypeName) :
    Stable Anything [.ident, .semicolon] (Pass.varItems scope type) ∧
      Spends .ident (Pass.varItems scope type) := by
  have hprogress := fun n => Alike.varItem (n := n) scope type.ty
  obtain ⟨hitem, hspends⟩ := Steady.varItem scope type.ty
  have hitems := Steady.varItemList scope type.ty
  have hspends : Spends .ident (Pass.commaList (Pass.varItem scope type.ty)) := by
    rw [commaList_eq hprogress]
    refine hspends.bind hitem.feeds fun a t ht hnil => ?_
    rw [bind_of_ok (accept_nil hnil)]
    exact ((Steady.of_blind (.pure _)).feeds t ht).ends hnil
  have hlast : ∀ items, Stable Anything [.semicolon]
      (do return { type, items, semicolon := ← Pass.recoverSemicolon } : Pass VarDecl) :=
    fun _ => .recovered fun _ => .pure _
  exact ⟨.bind hitems hlast rfl fun _ _ => rfl,
    hspends.bind hitems.feeds fun items t ht => ((hlast items).feeds t ht).ends⟩

theorem Steady.varDecl {kind : TokenKind} (hkind : kind.isTypeName = true) (scope : Scope) :
    Stable Anything [kind, .ident, .semicolon] (Pass.varDecl scope) :=
  .typed hkind fun type _ => (varItems scope type).1

end Variables

section Glances

theorem atVarDecl_iff {cursor : Cursor} : atVarDecl cursor = true ↔
    (∃ token rest, cursor.rest = token :: rest ∧ token.kind.isTypeName = true) ∧
      headKind (cursor.rest.drop 2) ≠ some .lparen := by
  rw [atVarDecl, peekKind?_eq 2, peekKind?_zero, Bool.and_eq_true]
  refine and_congr ?_ (by simp)
  cases cursor.rest with
  | nil => simp [headKind]
  | cons token rest => simp [headKind]

/-- A type is followed by something else than a name, and this by a parenthesis: that makes neither
a variable nor a function. -/
def Doomed (s : State) : Prop :=
  ∃ type other paren rest, s.cursor.rest = type :: other :: paren :: rest ∧
    type.kind.isTypeName = true ∧ other.kind ≠ .ident ∧ paren.kind = .lparen

theorem Doomed.not_atVarDecl (h : Doomed s) : atVarDecl s.cursor = false := by
  obtain ⟨type, other, paren, rest, hrest, _, _, hparen⟩ := h
  refine Bool.eq_false_iff.2 fun hat => (atVarDecl_iff.1 hat).2 ?_
  rw [hrest]
  exact congrArg some hparen

theorem varDecls_of_not (h : atVarDecl s.cursor = false) : varDecls scope s = .ok [] s := by
  have hnone : varDecl? scope s = .ok none s := by
    rw [varDecl?_eq, h]
    rfl
  rw [varDecls_eq_many, many_eq fun _ => .varDecl? scope]
  exact bind_of_ok hnone

theorem varDecl?_of_at (h : atVarDecl s.cursor = true) :
    varDecl? scope s = (varDecl scope >>= fun decl => pure (some decl)) s := by
  rw [varDecl?_eq, if_pos h]

/-- Three tokens tell a declaration from a function. -/
theorem atVarDecl_feed (h : 3 ≤ s.cursor.rest.length) (more : List Token) :
    atVarDecl (s.feed more).cursor = atVarDecl s.cursor := by
  have hthird : s.cursor.rest.drop 2 ≠ [] := by
    rw [ne_eq, List.drop_eq_nil_iff]
    omega
  have hfirst : s.cursor.rest ≠ [] := by
    intro hnil
    rw [hnil] at h
    cases h
  rw [atVarDecl, atVarDecl, State.feed, peekKind?_eq 2, peekKind?_eq 2, peekKind?_zero,
    peekKind?_zero, headKind_append_of_ne_nil hfirst,
    List.drop_append_of_le_length (by omega), headKind_append_of_ne_nil hthird]

end Glances

section Undecided

variable {cont cont' : VarDecl → Pass β} {r : Pass β} {token : Token} {rest : List Token}

/-- What is read where no function stands is a declaration. -/
def Declares (scope : Scope) (cont : VarDecl → Pass β) (r : Pass β) : Prop :=
  ∀ u, atVarDecl u.cursor = true → r u = (varDecl scope >>= cont) u

theorem spelled_of_isTypeName (htype : token.kind.isTypeName = true) : token.Spelled := by
  intro hint
  rw [hint] at htype
  cases htype

/-- A declaration is complete with a name and a semicolon. -/
theorem Declares.leaves (hr : Declares scope cont' r) (hs : s.Free)
    (hrest : s.cursor.rest = token :: rest) (htype : token.kind.isTypeName = true)
    (hcont : ∀ decl, Settles after ks (cont' decl)) (back : List TokenKind)
    (hkinds : rest.map Token.kind ++ back = .ident :: .semicolon :: ks)
    (hspelled : ∀ other ∈ rest, other.Spelled) (more : List Token) (hmore : after (headKind more)) :
    Leaves r (s.feed (back.map .ofKind ++ more)) more := by
  have hat : atVarDecl (s.feed (back.map .ofKind ++ more)).cursor = true := by
    have hfeed := State.rest_feed_cons hrest (back.map .ofKind ++ more)
    refine atVarDecl_iff.2 ⟨⟨token, _, hfeed, htype⟩, ?_⟩
    rw [hfeed, headKind, ← List.head?_map, List.map_drop, List.map_cons, List.map_append,
      List.map_append, Token.map_kind_ofKind, ← List.append_assoc, hkinds]
    intro hparen
    cases hparen
  have hdecl : Settles after (token.kind :: .ident :: .semicolon :: ks) (varDecl scope >>= cont') :=
    (Steady.varDecl htype scope).settles.bind (fun decl _ _ _ => hcont decl) rfl fun _ _ => trivial
  unfold Leaves
  rw [hr _ hat]
  refine hdecl.completes hs back ?_ ?_ more hmore
  · rw [hrest, List.map_cons, List.cons_append, hkinds]
  · rw [hrest]
    intro other hother
    rcases List.mem_cons.1 hother with rfl | hother
    · exact spelled_of_isTypeName htype
    · exact hspelled other hother

/-- Where a name should be there is something else, which more tokens do not change. -/
theorem Feeds.misnamed {second : Token} (hr : Declares scope cont' r)
    (hdoomed : ∀ u, Doomed u → Stops (r u) u.emitter) (hrest : s.cursor.rest = [token, second])
    (htype : token.kind.isTypeName = true) (hname : second.kind ≠ .ident) :
    Feeds after (varDecl scope >>= cont) r s := by
  obtain ⟨type, hread⟩ := typeName_of_isTypeName htype
  have hstop : ∀ (cont : VarDecl → Pass β) u rest, u.cursor.rest = token :: second :: rest →
      (varDecl scope >>= cont) u =
        .error (.unexpectedToken (.kind .ident) second) (u.take token (second :: rest)) := by
    intro cont u rest hu
    have hitem : varItem scope type.ty (u.take token (second :: rest)) =
        .error (.unexpectedToken (.kind .ident) second) (u.take token (second :: rest)) :=
      bind_of_error ((expect_cons rfl).trans (if_neg hname))
    rw [varDecl_eq, bind_assoc, bind_of_ok (hread u _ hu), varItems,
      commaList_eq fun _ => .varItem scope type.ty]
    exact bind_of_error (bind_of_error (bind_of_error hitem))
  refine .of_stop (by simp [hrest]) (hstop cont s [] hrest) rfl fun more => ?_
  have hfeed : (s.feed more).cursor.rest = token :: second :: more := State.rest_feed_cons hrest more
  by_cases hat : atVarDecl (s.feed more).cursor = true
  · rw [hr _ hat]
    exact ⟨_, _, hstop cont' _ more hfeed, rfl, rfl⟩
  · refine hdoomed (s.feed more) ?_
    rw [atVarDecl_iff, hfeed] at hat
    cases more with
    | nil => exact absurd ⟨⟨token, _, rfl, htype⟩, nofun⟩ hat
    | cons third more =>
        refine ⟨token, second, third, more, hfeed, htype, hname, ?_⟩
        refine Decidable.not_not.1 fun hparen => hat ⟨⟨token, _, rfl, htype⟩, fun h => hparen ?_⟩
        exact Option.some.inj h

/-- A declaration that is read because no parenthesis is there as yet. -/
theorem Feeds.declaration (hs : s.Free) (hat : atVarDecl s.cursor = true)
    (hr : Declares scope cont' r) (hdoomed : ∀ u, Doomed u → Stops (r u) u.emitter)
    (hcont : ∀ decl, Steady after ks (cont decl) (cont' decl)) :
    Feeds after (varDecl scope >>= cont) r s := by
  obtain ⟨token, rest, hrest, htype⟩ := (atVarDecl_iff.1 hat).1
  have hne : s.cursor.rest ≠ [] := by simp [hrest]
  have hdecl : Steady after (token.kind :: .ident :: .semicolon :: ks) (varDecl scope >>= cont)
      (varDecl scope >>= cont') :=
    .bind (.varDecl htype scope) hcont rfl fun _ _ => trivial
  obtain ⟨type, hread⟩ := typeName_of_isTypeName htype
  obtain ⟨hitems, hspends⟩ := Steady.varItems scope type
  have hleft : (varDecl scope >>= cont) s = (varItems scope type >>= cont) (s.take token rest) := by
    rw [varDecl_eq, bind_assoc, bind_of_ok (hread s rest hrest)]
  have hleaves := hr.leaves hs hrest htype fun decl => (hcont decl).settles
  have hfree := (hdecl.feeds s hs).free
  cases rest with
  | nil =>
      have hspent : IsSpent ((varItems scope type >>= cont) (s.take token [])) :=
        ((Steady.bind hitems hcont rfl fun _ _ => trivial).feeds (s.take token []) hs).ends rfl
      exact .of_spent hne hfree (hleft ▸ hspent) ⟨_, hleaves (.ident :: .semicolon :: ks) rfl nofun⟩
  | cons second rest =>
      cases rest with
      | nil =>
          by_cases hname : second.kind = .ident
          · have hspends := hspends.bind hitems.feeds fun decl t ht => ((hcont decl).feeds t ht).ends
            have hspent := hspends (s.take token [second]) second hs rfl hname
            refine .of_spent hne hfree (hleft ▸ hspent) ⟨_, hleaves (.semicolon :: ks) ?_ ?_⟩
            · rw [List.map_singleton, hname]
              rfl
            · intro other hother
              rw [List.mem_singleton.1 hother]
              exact fun hint => nomatch hname.symm.trans hint
          · exact .misnamed hr hdoomed hrest htype hname
      | cons third tail =>
          refine (hdecl.feeds s hs).congr rfl fun _ more => hr _ ?_
          rw [atVarDecl_feed (by simp [hrest])]
          exact hat

theorem atVarDecl_feed_of_not (hne : s.cursor.rest ≠ []) (h : atVarDecl s.cursor = false)
    (more : List Token) : atVarDecl (s.feed more).cursor = false := by
  cases hrest : s.cursor.rest with
  | nil => exact absurd hrest hne
  | cons token rest =>
      rw [Bool.eq_false_iff, ne_eq, atVarDecl_iff] at h ⊢
      rw [State.rest_feed_cons hrest]
      rw [hrest] at h
      rintro ⟨htype, hthird⟩
      refine h ⟨?_, fun hparen => hthird ?_⟩
      · obtain ⟨_, _, hcons, htype⟩ := htype
        cases hcons
        exact ⟨token, rest, rfl, htype⟩
      · cases rest with
        | nil => cases hparen
        | cons second rest =>
            cases rest with
            | nil => cases hparen
            | cons third rest => exact hparen

variable {next next' : List VarDecl → Pass β}

/-- No type comes next. -/
def NotTyped (after : Follow) (ks : List TokenKind) : Prop :=
  ∀ h, after h → ((ks.head?.or h).map TokenKind.isTypeName).getD false = false

theorem Declares.varDecls (next : List VarDecl → Pass β) :
    Declares scope (fun decl => Pass.varDecls scope >>= fun decls => next (decl :: decls))
      (Pass.varDecls scope >>= next) := by
  intro u hu
  have hmany : Pass.varDecls scope = manyOf (varDecl? scope) (Pass.varDecls scope) :=
    many_eq fun _ => .varDecl? scope
  calc (Pass.varDecls scope >>= next) u
      = (manyOf (varDecl? scope) (Pass.varDecls scope) >>= next) u := by rw [← hmany]
    _ = _ := manyOf_of_some (varDecl?_of_at hu)

theorem Settles.varDecls (hnext : Settles after ks (next [])) (hhead : NotTyped after ks) :
    Settles after ks (Pass.varDecls scope >>= next) := by
  refine hnext.congr fun u hu => bind_of_ok (varDecls_of_not ?_)
  obtain ⟨h, hafter, hkind⟩ := hu
  rw [atVarDecl, peekKind?_zero, hkind, hhead h hafter]
  rfl

/-- Declarations under a bound, and what follows them, which wants something else than a type. -/
theorem Feeds.varDeclsUpTo (bound : Nat) (hs : s.Free)
    (hnext : ∀ decls, Steady after ks (next decls) (next' decls))
    (hdoomed : ∀ decls u, Doomed u → Stops (next' decls u) u.emitter) (hhead : NotTyped after ks) :
    Feeds after
      (Pass.nestUpTo (fun more _ => Pass.manyOf (varDecl? scope) (more ())) bound () >>= next)
      (Pass.varDecls scope >>= next') s := by
  induction bound generalizing s next next' with
  | zero => exact .of_stalled rfl
  | succ bound ih =>
      by_cases hat : atVarDecl s.cursor = true
      · have hstops : ∀ u, Doomed u → Stops ((Pass.varDecls scope >>= next') u) u.emitter := by
          intro u hu
          rw [bind_of_ok (varDecls_of_not hu.not_atVarDecl)]
          exact hdoomed [] u hu
        have hcont : ∀ decl, Steady after ks
            (Pass.nestUpTo (fun more _ => Pass.manyOf (varDecl? scope) (more ())) bound () >>=
              fun decls => next (decl :: decls))
            (Pass.varDecls scope >>= fun decls => next' (decl :: decls)) :=
          fun decl => ⟨fun u hu => ih hu (fun decls => hnext (decl :: decls))
            (fun decls => hdoomed (decl :: decls)), .varDecls (hnext [decl]).settles hhead⟩
        exact (Feeds.declaration hs hat (.varDecls next') hstops hcont).congr
          (manyOf_of_some (varDecl?_of_at hat)) fun _ _ => rfl
      · have hat : atVarDecl s.cursor = false := Bool.eq_false_iff.2 hat
        have hnone : varDecl? scope s = .ok none s := by
          rw [varDecl?_eq, hat]
          rfl
        refine ((hnext []).feeds s hs).congr (bind_of_ok (bind_of_ok hnone)) fun hne more => ?_
        exact bind_of_ok (varDecls_of_not (atVarDecl_feed_of_not hne hat more))

theorem Steady.varDecls (hnext : ∀ decls, Steady after ks (next decls) (next' decls))
    (hdoomed : ∀ decls u, Doomed u → Stops (next' decls u) u.emitter) (hhead : NotTyped after ks) :
    Steady after ks (Pass.varDecls scope >>= next) (Pass.varDecls scope >>= next') :=
  ⟨fun s hs => (Feeds.varDeclsUpTo (s.cursor.rest.length + 1) hs hnext hdoomed hhead).congr rfl
    fun _ _ => rfl, .varDecls (hnext []).settles hhead⟩

end Undecided

end Pass

end OnePass
