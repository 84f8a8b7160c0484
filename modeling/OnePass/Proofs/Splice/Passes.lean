import OnePass.Proofs.Log.Program
import OnePass.Proofs.Progress.Passes
import OnePass.Proofs.Splice.Basic

/-!
No pass sees what comes behind the token at which it ends. Expressions, and the lists of names and
constants in a declaration, may end right at the point where the tokens differ, and so may a
statement or a declaration, if a name comes next in the second run. Lists of them, and functions,
are compared where they end in front of it, since the token behind them decides whether they go on.
-/

namespace OnePass

theorem mem_linking_of_additive? {kind : TokenKind} (h : (ArithOp.additive? kind).isSome = true) :
    kind ∈ linking := by
  cases kind with
  | plus | minus => decide
  | _ => cases h

theorem mem_linking_of_multiplicative? {kind : TokenKind}
    (h : (ArithOp.multiplicative? kind).isSome = true) : kind ∈ linking := by
  cases kind with
  | star | slash => decide
  | _ => cases h

namespace Pass

/-- The arguments of a call that has some. -/
def someArguments (expr : Pass Expr) (function : String) : Pass Args := do
  let first ← argument expr function 0
  extend (fun args => do
    match ← accept .comma with
    | none => return none
    | some comma => return some (.more args comma (← argument expr function args.length)))
    (.first first)

theorem arguments_eq (expr : Pass Expr) (function : String) (s : State) :
    arguments expr function s =
      if s.cursor.nextIs .rparen || s.cursor.nextIs .semicolon then .ok .nil s
      else someArguments expr function s := by
  change (if s.cursor.nextIs .rparen || s.cursor.nextIs .semicolon then pure .nil
    else someArguments expr function : Pass Args) s = _
  split <;> rfl

namespace Misses

variable {σ : Splice} {lax : Bool}

section Literals

theorem unsigned : Unaware σ lax Always Pass.unsigned := by
  refine .after (.expect _) fun token => ?_
  cases Text.signed? token.value.toList with
  | none => exact .throw
  | some value => exact .pure id

theorem integer : Unaware σ lax Always Pass.integer :=
  .bind (.acceptAs fun _ => σ.bind_eq_none fun _ => mem_linking_of_additive?) fun _ =>
    .after .unsigned fun _ => .blindly (.noteOverflow _) fun _ => .pure id

theorem typeName : Unaware σ lax Always Pass.typeName := by
  refine .current (fun _ _ => trivial) fun token => ?_
  split
  · exact .after .advance fun _ => .pure id
  · exact .after .advance fun _ => .pure id
  · exact .unexpected _

end Literals

section Expr

theorem checkIndex (index : Expr) : Unaware σ lax Never (Pass.checkIndex index) :=
  .ite (.bind .lastLine fun _ => .blind (.report _ _)) (.pure id)

theorem checkCondition (operand : Expr) : Unaware σ lax Never (Pass.checkCondition operand) :=
  .ite (.bind .lastLine fun _ => .blind (.report _ _)) (.pure id)

theorem skipUnknownCall : Unaware σ lax Always Pass.skipUnknownCall := by
  unfold Pass.skipUnknownCall
  rw [skipParens_eq]
  exact .after .advance fun _ => .blindly (.report _ _) fun _ =>
    .bind (.bind (.expect _) fun _ => .skipClosing 0) fun _ => .pure id

theorem chain {α β : Type} {operator? : TokenKind → Option ArithOp} {operand operand' : Pass β}
    {value : β → Operand} {accumulator? : α → Option Reg} {valueSoFar : α → Operand}
    {longer : α → ArithOp → Token → β → Reg → α}
    (hoperator : ∀ kind, (operator? kind).isSome = true → kind ∈ linking)
    (hprogress : ∀ n, Alike n Never operand' operand')
    (hoperand : Misses σ lax Always operand operand') (first : α) :
    Misses σ lax Never
      (Pass.extend (Pass.chainLink operator? operand value accumulator? valueSoFar longer) first)
      (Pass.extend (Pass.chainLink operator? operand' value accumulator? valueSoFar longer)
        first) := by
  refine .extend (fun n => .chainLink (hprogress n)) (fun chain => ?_) first
  exact .found (.acceptAs fun _ => σ.bind_eq_none hoperator) (.pure nofun) fun _ =>
    .bind hoperand fun _ => .blindly (.combine _ _ _ _) fun _ => .pure id

/-- A token that may be left out, looked for at the old tokens or behind them, is gone past or
recorded. -/
theorem not_allows_of_recover {β : Type} {kind : TokenKind} {missing : DiagnosticKind}
    {next : Option Token → Pass β} {took : β → Prop} {s t : State} {b : β}
    (hquiet : σ.quiet = true) (hnext : ∀ found, Unaware σ lax took (next found))
    (hahead : s.ahead ≤ σ.old.length) (hrun : (Pass.recover kind missing >>= next) s = .ok b t) :
    ¬ σ.Allows lax t := by
  intro hallows
  obtain ⟨found, v, hfound, hrun⟩ := bind_eq_ok.1 hrun
  have hlater := (hnext found).later v b t hrun
  cases found with
  | some token =>
      have hlt := ahead_lt_of_advance (recover_eq_some hfound).2
      have hle := Nat.le_trans hallows.le_ahead hlater.ahead_le
      exact absurd hle (Nat.not_le_of_lt (Nat.lt_of_lt_of_le hlt hahead))
  | none =>
      have hreport := recover_eq_none hfound
      cases hreport
      rcases hallows with hfar | ⟨_, _, hnone⟩
      · have hlt := Nat.lt_of_lt_of_le (Nat.lt_of_le_of_lt (Nat.le_add_right _ _) hfar)
          hlater.ahead_le
        exact absurd hlt (Nat.not_lt_of_le hahead)
      · exact absurd (hlater.quiet (hnone hquiet)) (by simp)

variable {expr : Pass Expr} (hexpr : Misses σ lax Always expr Pass.expression)

include hexpr

theorem argument (function : String) (position : Nat) :
    Misses σ lax Always (Pass.argument expr function position)
      (Pass.argument Pass.expression function position) :=
  .after hexpr fun _ => .blindly (.emit _) fun _ => .joined .throw fun _ => .pure id

theorem someArguments (function : String) :
    Misses σ lax Always (Pass.someArguments expr function)
      (Pass.someArguments Pass.expression function) := by
  refine .after (argument hexpr function 0) fun first => .extend (fun n args => ?_)
    (fun args => ?_) _
  · exact .found (Nat.le_succ n) (.accept _) (.pure nofun) fun _ =>
      .bind (.argument .expression function args.length) fun _ => .pure id
  · exact .found (.link (by decide)) (.pure nofun) fun _ =>
      .bind (argument hexpr function args.length) fun _ => .pure id

theorem arguments (function : String) :
    Misses σ false Never (Pass.arguments expr function)
      (Pass.arguments Pass.expression function) :=
  .nextIs nofun fun _ => .nextIs nofun fun _ => .ite (.pure id)
    ((someArguments hexpr function).strict.weaken fun _ => False.elim)

/-- Behind an opening parenthesis, no call is at the old tokens. They could only be a semicolon,
which leaves the arguments out, and then the closing parenthesis is missing. -/
theorem rest_ne_nil_of_lparen {u t : State} {function : String} {lparen : Token}
    {consumed : List Token} {β : Type} {b : β} {next : Args → Pass β}
    (hu : σ.Here u) (hlparen : lparen.kind = .lparen)
    (hconsumed : u.cursor.consumed = lparen :: consumed)
    (hlater : ∀ args s b t, next args s = .ok b t → s.Later t)
    (hquiet : σ.quiet = true → ∀ s b t, s.ahead = σ.old.length → next .nil s = .ok b t →
      ¬ σ.Allows lax t)
    (hrun : (Pass.arguments expr function >>= next) (u.feed σ.old) = .ok b t)
    (hallows : σ.Allows lax t) : u.cursor.rest ≠ [] := by
  intro hnil
  obtain ⟨args, s, hargs, hnext⟩ := bind_eq_ok.1 hrun
  have hs := hallows.earlier (hlater args s b t hnext)
  have hahead := Splice.ahead_feed_of_nil hnil σ.old
  rw [arguments_eq] at hargs
  split at hargs
  · rename_i hend
    cases hargs
    have hsemicolon : headKind σ.old = some .semicolon := by
      rw [Bool.or_eq_true, Cursor.nextIs, Cursor.nextIs, Splice.headKind_rest_feed, hnil,
        List.nil_append, beq_iff_eq, beq_iff_eq] at hend
      exact hend.resolve_left (σ.old_calm _ (by decide))
    cases hσ : σ.quiet with
    | true => exact hquiet hσ _ b t hahead hnext hallows
    | false =>
        refine σ.closed hσ hsemicolon ?_
        rw [← hu, Cursor.tokens, hnil, hconsumed]
        simp [lastKind, hlparen]
  · have hlt := (someArguments hexpr function).takes _ args s hargs trivial
    rw [hahead] at hlt
    exact absurd hs.le_ahead (Nat.not_le_of_lt hlt)

theorem runs_arguments {function : String} {u t : State} {args : Args} (hu : σ.Here u)
    (hne : u.cursor.rest ≠ []) (hrun : Pass.arguments expr function (u.feed σ.old) = .ok args t)
    (hallows : σ.Allows lax t) : ∃ v, σ.Here v ∧ t = v.feed σ.old ∧
      Pass.arguments Pass.expression function (u.feed σ.new) = .ok args (v.feed σ.new) := by
  rw [arguments_eq] at hrun ⊢
  simp only [Splice.nextIs_feed hne] at hrun ⊢
  split at hrun
  · cases hrun
    exact ⟨u, hu, rfl, if_pos ‹_›⟩
  · rw [if_neg ‹_›]
    exact (someArguments hexpr function).runs u args t hu hrun hallows

/-- Whether a call has arguments does not depend on what comes behind it. -/
theorem call (callee : Symbol) :
    Misses σ lax Always (Pass.call expr callee) (Pass.call Pass.expression callee) := by
  refine .after (.expect _) fun name => ?_
  have hclose : ∀ (lparen : Token) (args : Args) (rparen : Option Token), Misses σ lax Never
      (do
        Pass.emit (.call name.value)
        return Call.mk name lparen callee args rparen)
      (do
        Pass.emit (.call name.value)
        return Call.mk name lparen callee args rparen) :=
    fun _ _ _ => .blindly (.emit _) fun _ => .pure id
  have hchecked : ∀ (lparen : Token) (args : Args), Misses σ lax Never
      (do
        Pass.checkArguments name callee args
        let rparen ← Pass.recoverParen
        Pass.emit (.call name.value)
        return Call.mk name lparen callee args rparen)
      (do
        Pass.checkArguments name callee args
        let rparen ← Pass.recoverParen
        Pass.emit (.call name.value)
        return Call.mk name lparen callee args rparen) :=
    fun lparen args => .blindly (.checkArguments name callee args) fun _ =>
      .bind (.close (by decide)) (hclose lparen args)
  have hstrict : Misses σ false Never _ _ := .bind (.expect .lparen) fun lparen =>
    .blindly (.emit (.save name.value)) fun _ =>
      .bind (arguments hexpr name.value) fun args => (hchecked lparen args).strict
  refine { hstrict with runs := fun u c t hu hrun hallows => ?_ }
  obtain ⟨lparen, s₁, hlparen, hrun₁⟩ := bind_eq_ok.1 hrun
  obtain ⟨_, s₂, hsave, hrun₂⟩ := bind_eq_ok.1 hrun₁
  obtain ⟨args, s₃, hargs, hrun₃⟩ := bind_eq_ok.1 hrun₂
  have hs₃ := hallows.earlier ((hchecked lparen args).later s₃ c t hrun₃)
  have hs₂ := hs₃.earlier ((arguments hexpr name.value).later s₂ args s₃ hargs)
  have hemit : Misses σ lax Never _ _ := .blind (.emit (.save name.value))
  obtain ⟨v₁, hv₁, rfl, hlparen'⟩ := (Misses.expect .lparen).runs u lparen s₁ hu hlparen
    (hs₂.earlier (hemit.later s₁ _ s₂ hsave))
  obtain ⟨v₂, hv₂, rfl, hsave'⟩ := hemit.runs v₁ _ s₂ hv₁ hsave hs₂
  have hconsumed : v₂.cursor.consumed = lparen :: u.cursor.consumed := by
    have hcursor := (IsBlind.emit (.save name.value)).cursor_eq (v₁.feed σ.old)
    rw [hsave] at hcursor
    obtain ⟨rest, _, htake⟩ := advance_eq_ok.1 (expect_eq_ok.1 hlparen).2
    exact (congrArg Cursor.consumed hcursor).trans (congrArg (·.cursor.consumed) htake)
  have hne : v₂.cursor.rest ≠ [] := by
    refine rest_ne_nil_of_lparen hexpr hv₂ (expect_eq_ok.1 hlparen).1 hconsumed
      (fun args => (hchecked lparen args).later) (fun hσ s c t hahead hrun => ?_) hrun₂ hallows
    obtain ⟨_, w, hcheck, hrun⟩ := bind_eq_ok.1 hrun
    have hblind : Misses σ lax Never _ _ := .blind (.checkArguments name callee .nil)
    refine not_allows_of_recover hσ (hclose lparen .nil) ?_ hrun
    rw [← hahead]
    exact (hblind.later s _ w hcheck).ahead_le
  obtain ⟨v₃, hv₃, rfl, hargs'⟩ := runs_arguments hexpr hv₂ hne hargs hs₃
  obtain ⟨v, hv, ht, hrun₃'⟩ := (hchecked lparen args).runs v₃ c t hv₃ hrun₃ hallows
  exact ⟨v, hv, ht, bind_eq_ok.2 ⟨lparen, _, hlparen', bind_eq_ok.2 ⟨_, _, hsave',
    bind_eq_ok.2 ⟨args, _, hargs', hrun₃'⟩⟩⟩⟩

theorem callFactor (name : String) :
    Misses σ lax Always (Pass.callFactor expr name) (Pass.callFactor Pass.expression name) := by
  refine .blindly (.function? name) fun found => ?_
  cases found with
  | none => exact .after .skipUnknownCall fun _ => .pure id
  | some callee =>
      exact .after (call hexpr callee) fun _ => .blindly .freshReg fun _ =>
        .blindly (.emit _) fun _ => .pure id

theorem nameFactor :
    Misses σ lax Always (Pass.nameFactor expr) (Pass.nameFactor Pass.expression) := by
  refine .after (.expect _) fun name => .blindly (.resolve name) fun ref => ?_
  refine .joined (.blind (.report _ _)) fun _ => .bind (.link (by decide)) fun found => ?_
  cases found with
  | none => exact .pure id
  | some lbracket =>
      exact .bind hexpr fun index => .bind (.checkIndex index) fun _ => .blindly .freshReg fun _ =>
        .blindly (.emit _) fun _ => .bind (.close (by decide)) fun _ => .pure id

theorem factor : Misses σ lax Always (Pass.factor expr) (Pass.factor Pass.expression) := by
  refine .current (fun _ _ => trivial) fun token => ?_
  have hinteger : Unaware σ lax Always (do return Factor.int (← Pass.integer)) :=
    .after .integer fun _ => .pure id
  cases token.kind with
  | ident => exact .fork (by decide) (callFactor hexpr token.value) (nameFactor hexpr)
  | lparen =>
      exact .after .advance fun _ => .bind hexpr fun _ =>
        .bind (.close (by decide)) fun _ => .pure id
  | charLit => exact .after .advance fun _ => .pure id
  | intLit | plus | minus => exact hinteger
  | _ => exact .unexpected _

theorem term : Misses σ lax Always (Pass.term expr) (Pass.term Pass.expression) := by
  rw [term_eq, term_eq]
  exact .after (factor hexpr) fun _ => .chain (fun _ => mem_linking_of_multiplicative?)
    (fun _ => (Alike.factor .expression).later) (factor hexpr) _

theorem signedTerm :
    Misses σ lax Always (Pass.signedTerm expr) (Pass.signedTerm Pass.expression) := by
  refine .found (.acceptAs fun _ => σ.bind_eq_none fun _ => mem_linking_of_additive?) ?_
    fun found => ?_
  · exact .after (term hexpr) fun _ => .pure id
  · exact .bind (term hexpr) fun body => .ite (.blindly (.negate _) fun _ => .pure id) (.pure id)

omit hexpr

theorem expression : Unaware σ lax Always Pass.expression := by
  refine .nest fun expr hexpr => ?_
  rw [expression_fix]
  exact .after (signedTerm hexpr) fun _ => .chain (fun _ => mem_linking_of_additive?)
    (fun _ => (Alike.term .expression).later) (term hexpr) _

theorem condition (label : Label) (sense : Sense) (hname : lax = true → σ.Named) :
    Unaware σ lax Always (Pass.condition label sense) := by
  refine .after .expression fun lhs => .bind (.checkCondition lhs) fun _ =>
    .bind (.acceptAs fun h => (hname h).bind_eq_none rfl) fun found => ?_
  cases found with
  | none => exact .blindly (.emit _) fun _ => .pure id
  | some found =>
      exact .bind .expression fun rhs => .bind (.checkCondition rhs) fun _ =>
        .blindly (.emit _) fun _ => .pure id

end Expr

section Simple

theorem scanTarget : Unaware σ lax Always Pass.scanTarget := by
  refine .after (.expect _) fun name => .blindly (.resolve name) fun ref => ?_
  cases ref.symbol with
  | none => exact .blindly (.report _ _) fun _ => .pure id
  | some symbol => exact .blindly (.emit _) fun _ => .pure id

theorem printValue : Unaware σ lax Always Pass.printValue := by
  refine .after .expression fun value => ?_
  cases value.ty <;> exact .blindly (.emit _) fun _ => .blindly (.emit _) fun _ => .pure id

theorem printItem : Unaware σ lax Always Pass.printItem := by
  refine .nextIs (fun _ _ => trivial) fun _ => .ite ?_ (.after .printValue fun _ => .pure id)
  refine .after .advance fun _ => .blindly (.intern _) fun _ =>
    .blindly (.emit _) fun _ => .bind (.link (by decide)) fun found => ?_
  cases found with
  | none => exact .pure id
  | some comma => exact .bind .printValue fun _ => .pure id

theorem checkReturn (returnType ty : Ty) : Unaware σ lax Never (Pass.checkReturn returnType ty) :=
  .ite (.bind .lastLine fun _ => .blind (.report _ _))
    (.ite (.bind .lastLine fun _ => .blind (.report _ _)) (.pure id))

end Simple

section Stmt

theorem passOver {β : Type} {kind : TokenKind} {missing : DiagnosticKind} {took : β → Prop}
    {next next' : Option Token → Pass β} (hname : lax = true → σ.Named) (hkind : kind ≠ .ident)
    (hnext : ∀ found, Misses σ lax took (next found) (next' found)) :
    Misses σ lax took (Pass.recover kind missing >>= next) (Pass.recover kind missing >>= next') :=
  .bind (.recover fun h => (hname h).ne hkind) hnext

theorem guarded (label : Label) (sense : Sense) (hname : lax = true → σ.Named) :
    Unaware σ lax Always (Pass.guarded label sense) :=
  .after (.expect _) fun _ => .bind (.condition _ _ hname) fun _ =>
    .passOver hname nofun fun _ => .pure id

theorem stepSign : Unaware σ lax Never Pass.stepSign := by
  refine .bind (.acceptAs fun _ => σ.bind_eq_none fun _ => mem_linking_of_additive?)
    fun found => ?_
  cases found with
  | none => exact .unexpected _
  | some sign => exact .pure id

theorem assignment (hname : lax = true → σ.Named) : Unaware σ lax Always Pass.assignment := by
  refine .after (.expect _) fun name => .blindly (.resolveTarget name) fun _ =>
    .bind (.link (by decide)) fun found => ?_
  cases found with
  | none =>
      exact .bind (.expect _) fun _ => .bind .expression fun _ => .blindly (.emit _) fun _ =>
        .passOver hname nofun fun _ => .pure id
  | some lbracket =>
      exact .bind .expression fun index => .bind (.checkIndex index) fun _ =>
        .passOver hname nofun fun _ => .bind (.expect _) fun _ => .bind .expression fun _ =>
          .blindly (.emit _) fun _ => .passOver hname nofun fun _ => .pure id

theorem callStatement (name : String) (hname : lax = true → σ.Named) :
    Unaware σ lax Always (Pass.callStatement name) := by
  refine .blindly (.function? name) fun found => ?_
  cases found with
  | none => exact .after .skipUnknownCall fun _ => .passOver hname nofun fun _ => .pure id
  | some callee =>
      exact .after (call .expression callee) fun _ => .passOver hname nofun fun _ => .pure id

theorem nameStatement (name : String) (hname : lax = true → σ.Named) :
    Unaware σ lax Always (Pass.nameStatement name) := by
  refine .fork (by decide) (.callStatement name hname) (.blindly (.nearest? name) fun _ =>
    .ite ?_ (.assignment hname))
  exact .after .advance fun _ => .blindly (.report _ _) fun _ =>
    .bind (.skipPast _) fun _ => .pure id

theorem scan (hname : lax = true → σ.Named) : Unaware σ lax Always Pass.scan :=
  .after (.expect _) fun _ => .bind (.expect _) fun _ =>
    .bind (.commaList (fun _ => .scanTarget) .scanTarget) fun _ => .passOver hname nofun fun _ =>
      .passOver hname nofun fun _ => .pure id

theorem print (hname : lax = true → σ.Named) : Unaware σ lax Always Pass.print :=
  .after (.expect _) fun _ => .bind (.expect _) fun _ => .bind .printItem fun _ =>
    .passOver hname nofun fun _ => .passOver hname nofun fun _ => .pure id

theorem ret (returnType : Ty) (hname : lax = true → σ.Named) :
    Unaware σ lax Always (Pass.ret returnType) := by
  refine .after (.expect _) fun keyword => .bind (.link (by decide)) fun found => ?_
  cases found with
  | none =>
      exact .blindly (.emit _) fun _ => .bind (.checkReturn _ _) fun _ =>
        .passOver hname nofun fun _ => .pure id
  | some lparen =>
      exact .bind .expression fun _ => .blindly (.emit _) fun _ => .passOver hname nofun fun _ =>
        .bind (.checkReturn _ _) fun _ => .passOver hname nofun fun _ => .pure id

section Heads

variable (hname : lax = true → σ.Named)

include hname

theorem ifHead : Unaware σ lax Always Pass.ifHead :=
  .after (.expect _) fun _ => .blindly .freshLabel fun _ => .bind (.guarded _ _ hname)
    fun _ => .pure id

theorem whileHead : Unaware σ lax Always Pass.whileHead :=
  .after (.expect _) fun _ => .blindly .freshLabel fun _ => .blindly (.emit _) fun _ =>
    .bind (.expect _) fun _ => .blindly .freshLabel fun _ =>
      .bind (.condition _ _ hname) fun _ => .passOver hname nofun fun _ => .pure id

theorem forHead : Unaware σ lax Always Pass.forHead := by
  refine .after (.expect _) fun _ => .bind (.expect _) fun _ => ?_
  refine .bind (.expect _) fun name => .blindly (.resolveTarget name) fun _ => ?_
  refine .bind (.expect _) fun _ => .bind .expression fun _ => .blindly (.emit _) fun _ => ?_
  refine .blindly .freshLabel fun _ => .blindly (.emit _) fun _ => ?_
  refine .passOver hname nofun fun _ => .blindly .freshLabel fun _ => ?_
  refine .bind (.condition _ _ hname) fun _ => .passOver hname nofun fun _ => ?_
  refine .bind (.expect _) fun name => .blindly (.resolveTarget name) fun _ => ?_
  refine .bind (.expect _) fun _ => .bind (.expect _) fun name => ?_
  refine .blindly (.resolve name) fun _ => .joined (.blind (.report _ _)) fun _ => ?_
  exact .bind .stepSign fun _ => .bind .unsigned fun _ => .passOver hname nofun fun _ => .pure id

omit hname

theorem doHead : Unaware σ lax Always Pass.doHead :=
  .after (.expect _) fun _ => .blindly .freshLabel fun _ => .blindly (.emit _) fun _ => .pure id

end Heads

variable {stmt stmt' : Pass Stmt}

theorem statement? (hstmt : Misses σ false Always stmt stmt') :
    Misses σ false IfSome (Pass.statement? stmt) (Pass.statement? stmt') :=
  .nextIs nofun fun _ => .ite (.pure nofun) (.after hstmt fun _ => .pure id)

theorem statements (hstmt : Misses σ false Always stmt stmt')
    (hprogress : ∀ n, Alike n Always stmt' stmt') :
    Misses σ false Never (Pass.statements stmt) (Pass.statements stmt') :=
  .many (fun n => .statement? (hprogress n)) (statement? hstmt)

variable (hstmt : Misses σ lax Always stmt stmt') (hname : lax = true → σ.Named)

include hstmt hname

theorem conditional : Misses σ lax Always (Pass.conditional stmt) (Pass.conditional stmt') := by
  rw [conditional_eq, conditional_eq]
  refine .after (.ifHead hname) fun _ => .bind hstmt fun _ => .blindly .freshLabel fun _ =>
    .blindly (.emit _) fun _ => .blindly (.emit _) fun _ =>
      .bind (.accept fun h => (hname h).ne (by decide)) fun found => ?_
  cases found with
  | none => exact .blindly (.emit _) fun _ => .pure id
  | some elseKeyword => exact .bind hstmt fun _ => .blindly (.emit _) fun _ => .pure id

theorem whileLoop : Misses σ lax Always (Pass.whileLoop stmt) (Pass.whileLoop stmt') := by
  rw [whileLoop_eq, whileLoop_eq]
  exact .after (.whileHead hname) fun _ => .bind hstmt fun _ => .blindly (.emit _) fun _ =>
    .blindly (.emit _) fun _ => .pure id

theorem doLoop : Misses σ lax Always (Pass.doLoop stmt) (Pass.doLoop stmt') := by
  rw [doLoop_eq, doLoop_eq]
  exact .after .doHead fun _ => .bind hstmt fun _ => .passOver hname nofun fun _ =>
    .bind (.guarded _ _ hname) fun _ => .pure id

theorem forLoop : Misses σ lax Always (Pass.forLoop stmt) (Pass.forLoop stmt') := by
  rw [forLoop_eq, forLoop_eq]
  exact .after (.forHead hname) fun _ => .bind hstmt fun _ => .blindly (.emit _) fun _ =>
    .blindly (.emit _) fun _ => .blindly (.emit _) fun _ => .pure id

omit hstmt hname

/-- A block ends behind the brace that its statements end in front of. -/
theorem statement (returnType : Ty) (hname : lax = true → σ.Named) :
    Unaware σ lax Always (Pass.statement returnType) := by
  refine .nest fun stmt hstmt => ?_
  rw [statement_fix]
  refine .current (fun _ _ => trivial) fun token => ?_
  cases token.kind with
  | kwIf => exact conditional hstmt hname
  | kwWhile => exact whileLoop hstmt hname
  | kwDo => exact doLoop hstmt hname
  | kwFor => exact forLoop hstmt hname
  | lbrace =>
      have hclose : ∀ (lbrace : Token) (body : List Stmt), Unaware σ lax Always
          (Pass.expect .rbrace >>= fun rbrace => Pure.pure (Stmt.block lbrace body rbrace)) :=
        fun _ _ => .after (.expect _) fun _ => .pure id
      refine .after (.expect _) fun lbrace => .strictly (fun h => (hname h).slack_eq)
        (statements hstmt.strict fun _ => .statement returnType)
        (fun body => (hclose lbrace body).weaken fun _ => False.elim)
        fun body s stmt t hahead hrun hallows => ?_
      have hlt := (hclose lbrace body).takes s stmt t hrun trivial
      rw [hahead] at hlt
      exact absurd hallows.le_ahead (Nat.not_le_of_lt hlt)
  | ident => exact .nameStatement _ hname
  | kwScanf => exact .scan hname
  | kwPrintf => exact .print hname
  | kwReturn => exact .ret returnType hname
  | semicolon => exact .after (.expect _) fun _ => .pure id
  | _ => exact .unexpected _

end Stmt

section Declarations

theorem constInit (ty : Ty) : Unaware σ lax Always (Pass.constInit ty) := by
  have hread : ∀ integer : Bool, Misses σ lax Always
      (do
        if integer then return ConstInit.int (← Pass.integer)
        else
          let token ← Pass.advance
          return if token.kind = .charLit then .char token else .other token)
      (do
        if integer then return ConstInit.int (← Pass.integer)
        else
          let token ← Pass.advance
          return if token.kind = .charLit then .char token else .other token) :=
    fun integer => .ite (.after .integer fun _ => .pure id) (.after .advance fun _ => .pure id)
  exact .current (fun _ _ => trivial) fun _ =>
    .ite (hread _) (.blindly (.report _ _) fun _ => hread _)

theorem constItem (scope : Scope) (ty : Ty) : Unaware σ lax Always (Pass.constItem scope ty) :=
  .after (.expect _) fun name => .blindly (.checkRedefinition scope name) fun _ =>
    .bind (.expect _) fun _ => .bind (.constInit ty) fun _ => .blindly (.declare _ _) fun _ =>
      .pure id

theorem constItems (scope : Scope) (ty : Ty) :
    Unaware σ lax Always (Pass.commaList (Pass.constItem scope ty)) :=
  .commaList (fun _ => .constItem scope ty) (.constItem scope ty)

theorem constDecl (scope : Scope) (hname : lax = true → σ.Named) :
    Unaware σ lax Always (Pass.constDecl scope) :=
  .after (.expect _) fun _ => .bind .typeName fun type => .bind (.constItems scope type.ty) fun _ =>
    .passOver hname nofun fun _ => .pure id

/-- At the old tokens no declaration is read, and a name does not begin one. -/
theorem constDecl? (scope : Scope) (hname : lax = true → σ.Named) :
    Unaware σ lax IfSome (Pass.constDecl? scope) := by
  have hdecl : ∀ took, Unaware σ lax took (Pass.constDecl scope >>= fun a => Pure.pure (some a)) :=
    fun took => .after (.constDecl scope hname) fun _ => .pure id
  have heq : ∀ s, Pass.constDecl? scope s = (if s.cursor.nextIs .kwConst = true then
      Pass.constDecl scope >>= fun a => Pure.pure (some a) else Pure.pure none : Pass _) s := by
    intro s
    rw [constDecl?_eq]
    split <;> rfl
  have hbranch : ∀ answer : Bool, Misses σ lax IfSome
      (if answer = true then Pass.constDecl scope >>= fun a => Pure.pure (some a)
        else Pure.pure none)
      (if answer = true then Pass.constDecl scope >>= fun a => Pure.pure (some a)
        else Pure.pure none) :=
    fun _ => .ite (hdecl _) (.pure nofun)
  refine .decided (Cursor.nextIs · .kwConst) heq heq hbranch fun u a t hrun hallows => ?_
  by_cases hnil : u.cursor.rest = []
  · have hahead := Splice.ahead_feed_of_nil hnil σ.old
    by_cases hconst : (u.feed σ.old).cursor.nextIs .kwConst = true
    · rw [if_pos hconst] at hrun
      have hlt := (hdecl Always).takes _ a t hrun trivial
      rw [hahead] at hlt
      exact absurd hallows.le_ahead (Nat.not_le_of_lt hlt)
    · rw [if_neg hconst] at hrun ⊢
      obtain ⟨_, rfl⟩ := pure_eq_ok.1 hrun
      have hnew : headKind σ.new ≠ some .kwConst :=
        (hname (hallows.lax_of_ahead_le (Nat.le_of_eq hahead))).ne (by decide)
      rw [if_neg]
      rwa [Cursor.nextIs, Splice.headKind_rest_feed, hnil, List.nil_append, beq_iff_eq]
  · rw [Splice.nextIs_feed hnil, Splice.nextIs_feed hnil]

theorem constDecls (scope : Scope) (hname : lax = true → σ.Named) :
    Unaware σ lax Never (Pass.constDecls scope) :=
  .many (fun _ => .constDecl? scope) (.constDecl? scope hname)

theorem arraySize? : Unaware σ lax Never Pass.arraySize? := by
  refine .bind (.link (by decide)) fun found => ?_
  cases found with
  | none => exact .pure id
  | some lbracket => exact .bind .unsigned fun _ => .bind (.close (by decide)) fun _ => .pure id

theorem varItem (scope : Scope) (ty : Ty) : Unaware σ lax Always (Pass.varItem scope ty) :=
  .after (.expect _) fun name => .blindly (.checkRedefinition scope name) fun _ =>
    .bind .arraySize? fun _ => .blindly (.declare _ _) fun _ => .blindly (.emit _) fun _ => .pure id

theorem varItems (scope : Scope) (ty : Ty) :
    Unaware σ lax Always (Pass.commaList (Pass.varItem scope ty)) :=
  .commaList (fun _ => .varItem scope ty) (.varItem scope ty)

theorem varDecl (scope : Scope) (hname : lax = true → σ.Named) :
    Unaware σ lax Always (Pass.varDecl scope) :=
  .after .typeName fun type => .bind (.varItems scope type.ty) fun _ =>
    .passOver hname nofun fun _ => .pure id

theorem atVarDecl_feed {u : State} {first second : Token} {rest : List Token}
    (hrest : u.cursor.rest = first :: second :: rest) :
    atVarDecl (u.feed σ.new).cursor = atVarDecl (u.feed σ.old).cursor := by
  simp only [atVarDecl, Splice.peekKind?_zero_feed hrest, σ.peekKind?_two_feed hrest]

theorem atVarDecl_feed_of_singleton [σ.Tame] {u : State} {first : Token}
    (hslack : σ.slack = 0) (hrest : u.cursor.rest = [first]) :
    atVarDecl (u.feed σ.old).cursor = first.kind.isTypeName := by
  have hthird : (u.feed σ.old).cursor.peekKind? 2 ≠ some .lparen := by
    rw [peekKind?_eq, State.feed, hrest]
    simpa using Splice.Tame.tail_calm hslack
  simp [atVarDecl, Splice.peekKind?_zero_feed hrest, hthird]

/-- With one token left of the front, the tokens behind it could make it a declaration, which then
would not end in front of them. -/
theorem varDecl? [σ.Tame] (scope : Scope) : Unaware σ false IfSome (Pass.varDecl? scope) := by
  have hdecl : ∀ took, Unaware σ false took (Pass.varDecl scope >>= fun a => Pure.pure (some a)) :=
    fun took => .after (.varDecl scope .vacuous) fun _ => .pure id
  have heq : ∀ s, Pass.varDecl? scope s = (if atVarDecl s.cursor = true then
      Pass.varDecl scope >>= fun a => Pure.pure (some a) else Pure.pure none : Pass _) s := by
    intro s
    rw [varDecl?_eq]
    split <;> rfl
  have hbranch : ∀ answer : Bool, Misses σ false IfSome
      (if answer = true then Pass.varDecl scope >>= fun a => Pure.pure (some a) else Pure.pure none)
      (if answer = true then Pass.varDecl scope >>= fun a => Pure.pure (some a)
        else Pure.pure none) :=
    fun _ => .ite (hdecl _) (.pure nofun)
  refine .decided atVarDecl heq heq hbranch fun u a t hrun hallows => ?_
  obtain ⟨first, rest, hrest⟩ := List.exists_cons_of_ne_nil
    ((hbranch _).rest_ne_nil nofun hrun hallows)
  cases rest with
  | cons second rest => rw [atVarDecl_feed hrest]
  | nil =>
      have hslack : σ.slack = 0 := by
        have hfar := Nat.lt_of_lt_of_le hallows.far ((hbranch _).later _ a t hrun).ahead_le
        rw [Splice.ahead_feed, hrest, List.length_singleton] at hfar
        omega
      have hold := atVarDecl_feed_of_singleton hslack hrest
      by_cases htype : first.kind.isTypeName = true
      · rw [if_pos (hold.trans htype)] at hrun
        have hlt := (hdecl Always).takes _ a t hrun trivial
        obtain ⟨_, _, _, htwo⟩ := Splice.exists_second hlt hallows
        rw [hrest] at htwo
        cases htwo
      · simp [atVarDecl, Splice.peekKind?_zero_feed hrest, htype]

theorem varDecls [σ.Tame] (scope : Scope) : Unaware σ false Never (Pass.varDecls scope) :=
  .many (fun _ => .varDecl? scope) (.varDecl? scope)

/-- A declaration has a type and a name. -/
theorem ahead_of_varDecl (σ : Splice) {scope : Scope} {s t : State} {decl : VarDecl}
    (h : Pass.varDecl scope s = .ok decl t) : t.ahead + 2 ≤ s.ahead := by
  obtain ⟨type, s₁, htype, h⟩ := bind_eq_ok.1 h
  obtain ⟨items, s₂, hitems, h⟩ := bind_eq_ok.1 h
  obtain ⟨semicolon, s₃, hsemicolon, h⟩ := bind_eq_ok.1 h
  obtain ⟨_, rfl⟩ := pure_eq_ok.1 h
  have hfirst : Misses σ false Always _ _ := .typeName
  have hsecond : Misses σ false Always _ _ := .varItems scope type.ty
  have hthird : Misses σ false Never (Pass.recover .semicolon .missingSemicolon) _ := .recover nofun
  have h₁ := hfirst.takes s type s₁ htype trivial
  have h₂ := hsecond.takes s₁ items s₂ hitems trivial
  have h₃ := (hthird.later s₂ semicolon s₃ hsemicolon).ahead_le
  omega

/-- Where no type comes next, and at a name, there is no declaration. -/
theorem atVarDecl_feed_of_named (hname : σ.Named) {u : State} (htype : ∀ kind,
    headKind (u.feed σ.old).cursor.rest = some kind → kind.isTypeName = false) :
    atVarDecl (u.feed σ.new).cursor = false := by
  cases hrest : u.cursor.rest with
  | nil =>
      have hhead : (u.feed σ.new).cursor.peekKind? 0 = some .ident := by
        rw [Splice.headKind_rest_feed, hrest, List.nil_append, hname.head]
      simp [atVarDecl, hhead, TokenKind.isTypeName]
  | cons first rest =>
      have hfirst : first.kind.isTypeName = false := by
        refine htype first.kind ?_
        rw [State.feed, hrest]
        rfl
      simp [atVarDecl, Splice.peekKind?_zero_feed hrest, hfirst]

theorem runs_varDecl? (hname : σ.Named) {scope : Scope} {u t : State} {decl : VarDecl}
    (hu : σ.Here u) (hrun : Pass.varDecl? scope (u.feed σ.old) = .ok (some decl) t)
    (hallows : σ.Allows true t) : ∃ v, σ.Here v ∧ t = v.feed σ.old ∧
      Pass.varDecl? scope (u.feed σ.new) = .ok (some decl) (v.feed σ.new) := by
  have hdecl : Unaware σ true Always (Pass.varDecl scope) :=
    .varDecl scope fun _ => hname
  rw [varDecl?_eq] at hrun ⊢
  split at hrun
  · rename_i hat
    obtain ⟨decl, w, hdeclRun, hsome⟩ := bind_eq_ok.1 hrun
    cases hsome
    have hahead := ahead_of_varDecl σ hdeclRun
    have hle := hallows.le_ahead
    rw [Splice.ahead_feed] at hahead
    have hlength : 2 ≤ u.cursor.rest.length := by omega
    obtain ⟨first, second, rest, hrest⟩ := Splice.exists_two hlength
    obtain ⟨v, hv, ht, hdecl'⟩ := hdecl.runs u decl t hu hdeclRun hallows
    rw [if_pos ((atVarDecl_feed hrest).trans hat)]
    exact ⟨v, hv, ht, bind_eq_ok.2 ⟨decl, _, hdecl', rfl⟩⟩
  · cases hrun

/-- Declarations may end right at the old tokens, if no type comes next there. -/
theorem runs_varDecls (hname : σ.Named) {scope : Scope} {u t : State} {decls : List VarDecl}
    (hu : σ.Here u) (hrun : Pass.varDecls scope (u.feed σ.old) = .ok decls t)
    (hallows : σ.Allows true t) (htype : ∀ kind, headKind t.cursor.rest = some kind →
      kind.isTypeName = false) : ∃ v, σ.Here v ∧ t = v.feed σ.old ∧
        Pass.varDecls scope (u.feed σ.new) = .ok decls (v.feed σ.new) := by
  have hlater : ∀ s found t, Pass.varDecl? scope s = .ok found t → s.Later t := by
    intro s found t h
    rw [varDecl?_eq] at h
    split at h
    · obtain ⟨decl, w, hdecl, hsome⟩ := bind_eq_ok.1 h
      cases hsome
      have hmiss : Misses σ false Always _ _ := .varDecl scope .vacuous
      exact hmiss.later s decl t hdecl
    · cases h
      exact .refl s
  rw [varDecls_eq_many] at hrun ⊢
  refine (many_ok (P := fun s decls t => s.Later t ∧ ∀ u, s = u.feed σ.old → σ.Here u →
    σ.Allows true t → (∀ kind, headKind t.cursor.rest = some kind → kind.isTypeName = false) →
      ∃ v, σ.Here v ∧ t = v.feed σ.old ∧ Pass.many (Pass.varDecl? scope) (u.feed σ.new) =
        .ok decls (v.feed σ.new)) ?_ ?_ hrun).2 u rfl hu hallows htype
  · intro s t hnone
    refine ⟨hlater s none t hnone, ?_⟩
    rintro u rfl hu _ htype
    rw [varDecl?_eq] at hnone
    split at hnone
    · obtain ⟨_, _, _, hsome⟩ := bind_eq_ok.1 hnone
      cases hsome
    · cases hnone
      refine ⟨u, hu, rfl, ?_⟩
      rw [many_eq fun _ => .varDecl? scope]
      refine bind_eq_ok.2 ⟨none, _, ?_, rfl⟩
      rw [varDecl?_eq, atVarDecl_feed_of_named hname htype]
      rfl
  · rintro s w t decl decls hsome ⟨hrest, ih⟩
    refine ⟨(hlater s _ w hsome).trans hrest, ?_⟩
    rintro u rfl hu hallows htype
    obtain ⟨v, hv, rfl, hsome'⟩ := runs_varDecl? hname hu hsome (hallows.earlier hrest)
    obtain ⟨x, hx, ht, hmore⟩ := ih v rfl hv hallows htype
    refine ⟨x, hx, ht, ?_⟩
    rw [many_eq fun _ => .varDecl? scope]
    exact bind_eq_ok.2 ⟨some decl, _, hsome', bind_eq_ok.2 ⟨decls, _, hmore, rfl⟩⟩

end Declarations

section Program

theorem addParameter (function : String) (ty : Ty) :
    Unaware σ lax Never (Pass.addParameter function ty) := by
  cases ty with
  | void => exact .fail fun _ _ _ => nofun
  | _ => exact .blind (.addParameter function nofun)

theorem param (function : String) : Unaware σ lax Always (Pass.param function) :=
  .after .typeName fun type => .bind (.expect _) fun name =>
    .blindly (.checkRedefinition .local name) fun _ =>
      .bind (.addParameter function type.ty) fun _ => .blindly (.declare _ _) fun _ => .pure id

theorem params (function : String) : Unaware σ false Never (Pass.params function) := by
  refine .nest fun more hmore => ?_
  rw [params_fix]
  refine .nextIsTypeName nofun fun _ => .ite ?_ (.pure id)
  refine .after (.param function) fun _ => .bind (.accept nofun) fun found => ?_
  cases found with
  | none => exact .pure id
  | some comma => exact .bind hmore fun _ => .pure id

theorem valueHead : Unaware σ false Always Pass.valueHead :=
  .after .typeName fun type => .bind (.expect _) fun name =>
    .blindly (.openFunction type.ty name) fun _ => .bind (.expect _) fun _ =>
      .bind (.params name.value) fun _ => .bind (.recover nofun) fun _ => .pure id

theorem voidHead : Unaware σ false Always Pass.voidHead :=
  .after (.expect _) fun _ => .bind (.expect _) fun name =>
    .blindly (.openFunction .void name) fun _ => .bind (.expect _) fun _ =>
      .bind (.params name.value) fun _ => .bind (.recover nofun) fun _ => .pure id

theorem mainHead : Unaware σ false Always Pass.mainHead :=
  .after (.expect _) fun _ => .bind (.expect _) fun name =>
    .blindly (.openFunction .void name) fun _ => .bind (.expect _) fun _ =>
      .bind (.recover nofun) fun _ => .pure id

theorem body [σ.Tame] (returnType : Ty) : Unaware σ false Never (Pass.body returnType) := by
  refine .bind (.constDecls _ .vacuous) fun _ => .bind (.varDecls _) fun _ => ?_
  refine .bind (.statements (.statement returnType .vacuous) fun _ => .statement returnType)
    fun _ => .ite ?_ (.pure id)
  exact .current nofun fun _ => .blindly (.report _ _) fun _ => .pure id

theorem function [σ.Tame] {head : Pass FunctionHead} (hhead : Unaware σ false Always head) :
    Unaware σ false Always (Pass.function head) := by
  refine .after hhead fun head => .blindly (.announce head) fun _ => ?_
  refine .bind (.expect _) fun _ => .bind (.body head.ty) fun _ => ?_
  refine .joined (.blind (.emit _)) fun _ => .blindly (.emit _) fun _ => ?_
  exact .bind (.expect _) fun _ => .blindly (.keepTable _ _) fun _ => .pure id

theorem pass [σ.Tame] (part : Part) : Unaware σ false Never part.pass := by
  cases part with
  | done => exact .pure id
  | consts => exact .bind (.constDecls _ .vacuous) fun _ => .pure id
  | vars => exact .bind (.varDecls _) fun _ => .pure id
  | value => exact .bind (.function .valueHead) fun _ => .pure id
  | main => exact .bind (.function .mainHead) fun _ => .pure id
  | void => exact .bind (.function .voidHead) fun _ => .pure id
  | other => exact .unexpected _

theorem partAt_feed {u : State} {first second : Token} {rest : List Token}
    (hrest : u.cursor.rest = first :: second :: rest) :
    partAt (u.feed σ.new).cursor = partAt (u.feed σ.old).cursor := by
  have hsecond : ∀ more, (u.feed more).cursor.peekKind? 1 = some second.kind :=
    fun more => by rw [peekKind?_eq, State.feed, hrest]; rfl
  simp only [partAt, Splice.peekKind?_zero_feed hrest, hsecond, σ.peekKind?_two_feed hrest]

theorem topLevel? [σ.Tame] : Unaware σ false IfSome Pass.topLevel? := by
  have htakes : ∀ s found t, Pass.topLevel? s = .ok found t → IfSome found → t.ahead < s.ahead :=
    fun s found t hrun => Alike.topLevel?.ahead_lt s found t (Nat.lt_succ_self _) hrun
  have hpass : Unaware σ false Never Pass.topLevel? := by
    refine .decided partAt topLevel?_eq topLevel?_eq pass fun u found t hrun hallows =>
      congrArg _ ?_
    cases found with
    | none =>
        have hne := (pass _).rest_ne_nil nofun hrun hallows
        rcases plays_topLevel? ((topLevel?_eq _).trans hrun) with ⟨_, _, hnil⟩ | ⟨_, hsome, _⟩
        · exact absurd (List.append_eq_nil_iff.1 hnil).1 hne
        · cases hsome
    | some item =>
        have hlt := htakes _ _ t ((topLevel?_eq _).trans hrun) rfl
        obtain ⟨first, second, rest, hrest⟩ := Splice.exists_second hlt hallows
        exact partAt_feed hrest
  exact { hpass with takes := htakes }

end Program

end Misses

end Pass

end OnePass
