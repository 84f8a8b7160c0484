import OnePass.Proofs.Feed.Loops
import OnePass.Proofs.Grammar.Completeness.Expr
import OnePass.Proofs.Progress.Passes

/-!
Expressions in front of more tokens. Every expression that comes to the end of the tokens can be
ended with a numeral, behind which some token has to come that ends it.
-/

namespace OnePass

namespace Pass

section Literals

theorem Steady.unsigned : Stable Anything [.intLit] Pass.unsigned := by
  refine ⟨fun s hs => ?_, .of_take fun s token rest hrest hkind hspelled => ?_⟩
  · cases hrest : s.cursor.rest with
    | nil => exact .of_eof hrest (bind_of_error (expect_nil hrest))
    | cons token rest =>
        have hfeed := State.rest_feed_cons hrest
        by_cases hkind : token.kind = .intLit
        · cases hvalue : Text.signed? token.value.toList with
          | none =>
              have hrun : ∀ u tail, u.cursor.rest = token :: tail →
                  Pass.unsigned u = .error (.invalidInteger token) (u.take token tail) := by
                intro u tail hu
                unfold Pass.unsigned
                rw [bind_of_ok ((expect_cons hu).trans (if_pos hkind)), hvalue]
                rfl
              exact .of_stop (by simp [hrest]) (hrun s rest hrest) rfl fun more =>
                ⟨_, _, hrun _ _ (hfeed more), rfl, rfl⟩
          | some value =>
              have hrun : ∀ u tail, u.cursor.rest = token :: tail →
                  Pass.unsigned u = .ok { token, value } (u.take token tail) := by
                intro u tail hu
                unfold Pass.unsigned
                rw [bind_of_ok ((expect_cons hu).trans (if_pos hkind)), hvalue]
                rfl
              exact .of_take hs hrest (hrun s rest hrest) fun more => hrun _ _ (hfeed more)
        · have hrun : ∀ u tail, u.cursor.rest = token :: tail →
              Pass.unsigned u = .error (.unexpectedToken (.kind .intLit) token) u :=
            fun u tail hu => bind_of_error ((expect_cons hu).trans (if_neg hkind))
          exact .of_stop (by simp [hrest]) (hrun s rest hrest) rfl fun more =>
            ⟨_, _, hrun _ _ (hfeed more), rfl, rfl⟩
  · obtain ⟨value, hvalue⟩ := hspelled hkind
    refine ⟨{ token, value }, ?_⟩
    unfold Pass.unsigned
    rw [bind_of_ok ((expect_cons hrest).trans (if_pos hkind)), hvalue]
    rfl

theorem Steady.integer : Stable Anything [.intLit] Pass.integer := by
  have hdigits : ∀ sign, Stable Anything [.intLit] (do
      let digits ← Pass.unsigned
      let literal : IntLit := { sign, digits }
      Pass.noteOverflow literal.overflows
      return literal) :=
    fun _ => .bind .unsigned (fun _ => .blind (.noteOverflow _) fun _ => .pure _) rfl
      fun _ _ => trivial
  exact .acceptAs [.intLit] (fun _ _ => rfl) (hdigits none) fun _ => hdigits _

theorem Steady.checkIndex (index : Expr) : Stable Anything [] (Pass.checkIndex index) :=
  .ite (.lastLine fun _ => .of_blind (.report _ _)) (.pure _)

theorem Steady.checkCondition (operand : Expr) : Stable Anything [] (Pass.checkCondition operand) :=
  .ite (.lastLine fun _ => .of_blind (.report _ _)) (.pure _)

theorem Steady.skipUnknownCall :
    Stable Anything [.ident, .lparen, .intLit, .rparen] Pass.skipUnknownCall := by
  have hskip : Stable Anything [.intLit, .rparen] (Pass.skipClosing 0) :=
    ⟨fun s hs => .skipClosing 0 hs, .skipClosing_intLit⟩
  unfold Pass.skipUnknownCall
  rw [skipParens_eq]
  exact .advanced fun _ => .blind (.report _ _) fun _ =>
    .bind (.expected fun _ => hskip) (fun _ => .pure _) rfl fun _ _ => trivial

end Literals

section Chains

variable {α β : Type} {operator? : TokenKind → Option ArithOp} {operand operand' : Pass β}
  {value : β → Operand} {accumulator? : α → Option Reg} {valueSoFar : α → Operand}
  {longer : α → ArithOp → Token → β → Reg → α}

theorem declines_chainLink (hoperator : ∀ kind, isCloser kind = true → operator? kind = none)
    (chain : α) :
    Declines Closed (chainLink operator? operand' value accumulator? valueSoFar longer chain) := by
  intro s hs
  refine bind_of_ok (acceptAs_eq_none.2 ⟨rfl, ?_⟩)
  rw [peekKind?_zero]
  exact hs.bind_eq_none hoperator

theorem Settles.chain (hoperator : ∀ kind, isCloser kind = true → operator? kind = none)
    (hprogress : ∀ n, Alike n Never operand' operand') (chain : α) :
    Settles Closed []
      (Pass.extend (Pass.chainLink operator? operand' value accumulator? valueSoFar longer) chain) :=
  .extend (fun n => .chainLink (hprogress n)) (declines_chainLink hoperator) chain

/-- Operators and operands, which may break off behind an operator. -/
theorem Steady.chain (hoperator : ∀ kind, isCloser kind = true → operator? kind = none)
    (hprogress : ∀ n, Alike n Never operand' operand')
    (hoperand : Steady Closed [.intLit] operand operand') (chain : α) :
    Steady Closed []
      (Pass.extend (Pass.chainLink operator? operand value accumulator? valueSoFar longer) chain)
      (Pass.extend (Pass.chainLink operator? operand' value accumulator? valueSoFar longer) chain) := by
  refine .extend (fun n => .chainLink (hprogress n)) (fun chain s hs => ?_)
    (declines_chainLink hoperator) chain
  refine .acceptAs hs [.intLit] ((Steady.pure none).feeds s hs) fun found => ?_
  exact .bind hoperand (fun _ => .blind (.combine _ _ _ _) fun _ => .pure _) rfl fun _ => id

theorem additive?_of_isCloser (kind : TokenKind) (h : isCloser kind = true) :
    ArithOp.additive? kind = none := by
  cases kind <;> first | rfl | cases h

theorem multiplicative?_of_isCloser (kind : TokenKind) (h : isCloser kind = true) :
    ArithOp.multiplicative? kind = none := by
  cases kind <;> first | rfl | cases h

theorem relation?_of_isCloser (kind : TokenKind) (h : isCloser kind = true) :
    Relation.ofKind? kind = none := by
  cases kind <;> first | rfl | cases h

end Chains

section Numerals

theorem Settles.factor (expr : Pass Expr) : Settles Closed [.intLit] (Pass.factor expr) := by
  refine .current (fun _ _ => rfl) ?_
  rintro token ⟨_, _, hkind⟩
  rw [← Option.some.inj hkind]
  exact (Steady.bind .integer (fun _ => .pure _) rfl fun _ _ => trivial).settles

theorem Settles.term : Settles Closed [.intLit] (Pass.term Pass.expression) := by
  rw [term_eq]
  exact (Settles.factor _).bind
    (fun _ _ _ _ => .chain multiplicative?_of_isCloser (fun _ => (Alike.factor .expression).later) _)
    rfl fun _ => id

theorem Settles.signedTerm : Settles Closed [.intLit] (Pass.signedTerm Pass.expression) :=
  .declineAs (fun _ _ => rfl)
    (Settles.term.bind (fun _ _ _ _ => (Steady.pure _).settles) rfl fun _ => id)

theorem Settles.expression : Settles Closed [.intLit] Pass.expression := by
  rw [expression_fix]
  exact Settles.signedTerm.bind
    (fun _ _ _ _ => .chain additive?_of_isCloser (fun _ => (Alike.term .expression).later) _)
    rfl fun _ => id

end Numerals

section Nested

variable {expr : Pass Expr} (hexpr : Steady Closed [.intLit] expr Pass.expression)

include hexpr

theorem Steady.argument (function : String) (position : Nat) :
    Steady Closed [.intLit] (Pass.argument expr function position)
      (Pass.argument Pass.expression function position) := by
  refine .bind hexpr (fun value => .blind (.emit _) fun _ => ?_) rfl fun _ => id
  have hvoid : ¬ value.ty.signatureCode?.isNone = true := by
    intro hnone
    exact value.ty_ne_void (Ty.signatureCode?_eq_none_iff.1 (Option.isNone_iff_eq_none.1 hnone))
  dsimp only
  rw [if_neg hvoid]
  exact .pure _

theorem Steady.moreArguments (function : String) (args : Args) :
    Steady Closed [] (Pass.extend (argumentLink expr function) args)
      (Pass.extend (argumentLink Pass.expression function) args) := by
  refine .extend (fun n args => ?_) (fun args s hs => ?_) (fun args s hs => ?_) args
  · exact .argumentLink .expression function args
  · refine .accept hs [.intLit] ((Steady.pure none).feeds s hs) fun comma => ?_
    exact .bind (argument hexpr function args.length) (fun _ => .pure _) rfl fun _ => id
  · refine bind_of_ok (accept_eq_none.2 ⟨rfl, ?_⟩)
    rw [peekKind?_zero]
    exact hs.ne rfl

theorem Steady.arguments (function : String) :
    Steady Closed [.intLit] (Pass.arguments expr function)
      (Pass.arguments Pass.expression function) := by
  have hsome := Steady.bind (argument hexpr function 0)
    (fun first => moreArguments hexpr function (.first first)) rfl fun _ => id
  refine ⟨fun s hs => .nextIs fun first => .nextIs fun second => ?_, ?_⟩
  · by_cases hnone : (first || second) = true
    · rw [if_pos hnone, if_pos hnone]
      exact (Steady.pure _).feeds s hs
    · rw [if_neg hnone, if_neg hnone]
      exact hsome.feeds s hs
  · exact .nextIs (fun _ _ => rfl) (.nextIs (fun _ _ => rfl) hsome.settles)

theorem Steady.call (callee : Symbol) : Steady Anything [.ident, .lparen, .intLit, .rparen]
    (Pass.call expr callee) (Pass.call Pass.expression callee) :=
  .expected fun name => .expected fun _ => .blind (.emit _) fun _ =>
    .bind (arguments hexpr name.value) (fun args => .blind (.checkArguments name callee args) fun _ =>
      .recovered fun _ => .blind (.emit _) fun _ => .pure _) rfl fun _ _ => rfl

theorem Steady.callFactor (name : String) : Steady Anything [.ident, .lparen, .intLit, .rparen]
    (Pass.callFactor expr name) (Pass.callFactor Pass.expression name) := by
  refine .blind (.function? name) fun found => ?_
  cases found with
  | none => exact .bind .skipUnknownCall (fun _ => .pure _) rfl fun _ _ => trivial
  | some callee =>
      exact .bind (call hexpr callee) (fun _ => .blind .freshReg fun _ => .blind (.emit _) fun _ =>
        .pure _) rfl fun _ _ => trivial

/-- Behind a single name, a name has nothing left to read. -/
theorem Steady.nameFactor : Steady Closed [.ident] (Pass.nameFactor expr)
    (Pass.nameFactor Pass.expression) ∧ Spends .ident (Pass.nameFactor expr) := by
  refine Steady.expected_spends fun name => .blind (.resolve name) fun ref => ?_
  refine .joined (.report _ _) fun _ => .accept [.intLit, .rbracket] (fun _ h => h.ne rfl) (.pure _) ?_
  exact fun _ => .bind hexpr (fun index => .quiet (.checkIndex index) fun _ =>
    .blind .freshReg fun _ => .blind (.emit _) fun _ => .recovered fun _ => .pure _) rfl
    fun _ _ => rfl

theorem Steady.factor : Steady Closed [.intLit] (Pass.factor expr)
    (Pass.factor Pass.expression) := by
  refine ⟨fun s hs => .current fun token rest hrest => ?_, .factor _⟩
  obtain ⟨hname, hspends⟩ := nameFactor hexpr
  have hinteger : Stable Closed [.intLit] (do return Factor.int (← Pass.integer)) :=
    .bind .integer (fun _ => .pure _) rfl fun _ _ => trivial
  cases hkind : token.kind with
  | ident =>
      have hcall : Steady Closed _ _ _ := (callFactor hexpr token.value).mono fun _ _ => trivial
      refine .fork [] hs hrest ?_ (hcall.feeds s hs) (hname.feeds s hs) ?_ ?_ fun _ h => h.ne rfl
      · exact fun hint => nomatch hkind.symm.trans hint
      · rintro rfl
        exact hspends s token hs hrest hkind
      · rw [hkind]
        exact hname.settles
  | lparen =>
      have hparen : Steady Closed [.lparen, .intLit, .rparen]
          (do
            let lparen ← Pass.advance
            let inner ← expr
            return Factor.paren lparen inner (← Pass.recoverParen))
          (do
            let lparen ← Pass.advance
            let inner ← Pass.expression
            return Factor.paren lparen inner (← Pass.recoverParen)) :=
        .advanced fun _ => .bind hexpr (fun _ => .recovered fun _ => .pure _) rfl fun _ _ => rfl
      exact hparen.feeds s hs
  | charLit =>
      have hchar : Stable Closed [.charLit] (do return Factor.char (← Pass.advance)) :=
        .advanced fun _ => .pure _
      exact hchar.feeds s hs
  | intLit | plus | minus => exact hinteger.feeds s hs
  | _ => exact .unexpected

theorem Steady.term : Steady Closed [.intLit] (Pass.term expr) (Pass.term Pass.expression) := by
  rw [term_eq, term_eq]
  refine .bind (factor hexpr) (fun _ => ?_) rfl fun _ => id
  exact .chain multiplicative?_of_isCloser (fun _ => (Alike.factor .expression).later)
    (factor hexpr) _

theorem Steady.signedTerm : Steady Closed [.intLit] (Pass.signedTerm expr)
    (Pass.signedTerm Pass.expression) := by
  refine .acceptAs [.intLit] (fun _ _ => rfl)
    (.bind (term hexpr) (fun _ => .pure _) rfl fun _ => id) fun found => ?_
  refine .bind (term hexpr) (fun body => ?_) rfl fun _ => id
  exact .ite (.blind (.negate _) fun _ => .pure _) (.pure _)

theorem Steady.expressionOf : Steady Closed [.intLit] (Pass.expressionOf expr)
    (Pass.expressionOf Pass.expression) :=
  .bind (signedTerm hexpr) (fun _ => .chain additive?_of_isCloser
    (fun _ => (Alike.term .expression).later) (term hexpr) _) rfl fun _ => id

end Nested

theorem Steady.expression : Stable Closed [.intLit] Pass.expression := by
  refine ⟨fun s hs => .nest (fun expr hexpr s hs => ?_) hs, .expression⟩
  rw [expression_fix]
  exact (expressionOf ⟨hexpr, .expression⟩).feeds s hs

theorem Steady.condition (label : Label) (sense : Sense) :
    Stable Closed [.intLit] (Pass.condition label sense) := by
  refine .bind .expression (fun lhs => .quiet (.checkCondition lhs) fun _ => ?_) rfl fun _ => id
  refine .acceptAs [.intLit] (fun _ h => h.bind_eq_none relation?_of_isCloser)
    (.blind (.emit _) fun _ => .pure _) fun found => ?_
  exact .bind .expression (fun rhs => .quiet (.checkCondition rhs) fun _ =>
    .blind (.emit _) fun _ => .pure _) rfl fun _ => id

end Pass

end OnePass
