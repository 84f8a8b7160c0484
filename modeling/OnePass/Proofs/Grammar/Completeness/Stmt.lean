import OnePass.Proofs.Grammar.Completeness.Expr

/-!
Every statement of the grammar is read, whatever its names stand for. An `else` goes to the nearest
`if` before it, so a statement that such an `else` could extend is read in front of anything else
only. A statement that begins with an unknown name is skipped up to its semicolon.
-/

namespace OnePass

namespace Pass

open Grammar (NotNext Paired notNext_cons expressionStops conditionStops)

section Checks

variable {rest : List TokenKind}

theorem reads_resolveTarget (name : Token) : Reads (resolveTarget name) [] rest := by
  apply (reads_resolve name).andThen
  intro ref
  cases ref.symbol with
  | none =>
      apply (reads_report _ rfl).andThen
      intro _
      exact reads_pure ref
  | some symbol =>
      apply Reads.joined fun _ => reads_report _ rfl
      exact reads_pure ref

theorem reads_checkReturn (returnType ty : Ty) : Reads (checkReturn returnType ty) [] rest := by
  unfold checkReturn
  split
  · apply reads_lastLine.andThen
    intro line
    exact reads_report line rfl
  · split
    · apply reads_lastLine.andThen
      intro line
      exact reads_report line rfl
    · exact reads_pure ()

end Checks

section Simple

variable {ks rest : List TokenKind}

theorem reads_guarded {β : Type} {label : Label} {sense : Sense} {next : Guard → Pass β}
    {more : List TokenKind} {result : β → Prop} (h : Grammar.Condition ks)
    (hnext : ∀ guard, Yields (next guard) more rest result) :
    Yields (guarded label sense >>= next) (.lparen :: (ks ++ .rparen :: more)) rest result := by
  have hguard : Reads (guarded label sense) (.lparen :: (ks ++ [.rparen])) (more ++ rest) := by
    apply reads_expect
    intro lparen
    apply (reads_condition h (notNext_cons (by decide)) label sense).bind
    intro condition
    apply reads_recover
    intro rparen
    exact reads_pure _
  simpa only [List.cons_append, List.append_assoc, List.nil_append] using hguard.bind hnext

theorem reads_assignment (h : Grammar.Expression ks) :
    Reads assignment (.ident :: .assign :: (ks ++ [.semicolon])) rest := by
  apply reads_expect
  intro name
  apply (reads_resolveTarget name).andThen
  intro target
  apply reads_decline (by simp)
  apply reads_expect
  intro eq
  apply (reads_expression h (notNext_cons (by decide))).bind
  intro value
  apply (reads_emit _).andThen
  intro _
  apply reads_recover
  intro semicolon
  exact reads_pure _

theorem reads_elementAssignment {index value : List TokenKind} (hindex : Grammar.Expression index)
    (hvalue : Grammar.Expression value) :
    Reads assignment (.ident :: .lbracket ::
      (index ++ .rbracket :: .assign :: (value ++ [.semicolon]))) rest := by
  apply reads_expect
  intro name
  apply (reads_resolveTarget name).andThen
  intro target
  apply reads_accept
  intro lbracket
  apply (reads_expression hindex (notNext_cons (by decide))).bind
  intro index
  apply (reads_checkIndex index).andThen
  intro _
  apply reads_recover
  intro rbracket
  apply reads_expect
  intro eq
  apply (reads_expression hvalue (notNext_cons (by decide))).bind
  intro value
  apply (reads_emit _).andThen
  intro _
  apply reads_recover
  intro semicolon
  exact reads_pure _

theorem reads_callStatement (h : Grammar.Arguments ks) (name : String) :
    Reads (callStatement name) (.ident :: .lparen :: (ks ++ [.rparen]) ++ [.semicolon]) rest := by
  have hexpr : ReadsExpressions expression (ks.length + 1) := fun _ _ he _ => reads_expression he
  apply (reads_function? name).andThen
  intro found
  cases found with
  | none =>
      apply (reads_skipUnknownCall h.balanced).bind
      intro name
      apply reads_recover
      intro semicolon
      exact reads_pure _
  | some callee =>
      apply (reads_call hexpr h (Nat.lt_succ_self _) callee).bind
      intro c
      apply reads_recover
      intro semicolon
      exact reads_pure _

/-- An assignment is read, also when it is to an unknown name and skipped. -/
theorem reads_nameStatement {kind : TokenKind} {more : List TokenKind} (hkind : kind ≠ .lparen)
    (hmore : .semicolon ∉ kind :: more)
    (hassign : Reads assignment (.ident :: kind :: (more ++ [.semicolon])) rest) (name : String) :
    Reads (nameStatement name) (.ident :: kind :: (more ++ [.semicolon])) rest := by
  apply reads_peekKind
  rw [if_neg (by simpa using hkind)]
  apply (reads_nearest? name).andThen
  intro found
  split
  · apply reads_advance
    intro token
    apply (reads_report _ rfl).andThen
    intro _
    have hskip : Reads (onCursor (Cursor.skipPast .semicolon)) (kind :: more ++ [.semicolon])
        rest := by
      apply reads_onCursor
      intro consumed front back hfront
      obtain ⟨skipped, tail, rfl, hskipped, htail⟩ := List.map_eq_append_iff.1 hfront
      obtain ⟨semicolon, tail, rfl, hsemicolon, htail⟩ := List.map_eq_cons_iff.1 htail
      rw [List.map_eq_nil_iff] at htail
      rw [htail, List.append_assoc]
      rw [← hskipped] at hmore
      exact ⟨(), _, Cursor.skipPastFrom_append consumed skipped back semicolon hmore hsemicolon⟩
    apply hskip.before
    intro _
    exact reads_pure _
  · exact hassign

theorem reads_scanTarget : Reads scanTarget [.ident] rest := by
  apply reads_expect
  intro name
  apply (reads_resolve name).andThen
  intro ref
  cases ref.symbol with
  | none =>
      apply (reads_report _ rfl).andThen
      intro _
      exact reads_pure ref
  | some symbol =>
      apply (reads_emit _).andThen
      intro _
      exact reads_pure ref

theorem reads_scan (h : Grammar.Listed (· = [.ident]) ks) :
    Reads scan (.kwScanf :: .lparen :: (ks ++ [.rparen, .semicolon])) rest := by
  have htarget : ∀ item rest, item = [.ident] → NotNext [] rest → Reads scanTarget item rest := by
    rintro _ rest rfl _
    exact reads_scanTarget
  apply reads_expect
  intro keyword
  apply reads_expect
  intro lparen
  apply (reads_commaList htarget (by decide) h (notNext_cons (by decide))).bind
  intro targets
  apply reads_recover
  intro rparen
  apply reads_recover
  intro semicolon
  exact reads_pure _

theorem reads_stepSign {sign : TokenKind} (h : sign ∈ Grammar.signs) :
    Reads stepSign [sign] rest := by
  apply reads_acceptAs (ArithOp.isSome_additive? sign h)
  intro op token
  exact reads_pure _

theorem reads_printValue (h : Grammar.Expression ks) (hrest : NotNext expressionStops rest) :
    Reads printValue ks rest := by
  apply (reads_expression h hrest).before
  intro value
  have hend : Yields (do emit .printEnd; return value) [] rest fun _ => True := by
    apply (reads_emit _).andThen
    intro _
    exact reads_pure value
  cases value.ty with
  | char => exact (reads_emit _).andThen fun _ => hend
  | _ => exact (reads_emit _).andThen fun _ => hend

theorem reads_printItem (h : Grammar.Printed ks) : Reads printItem ks (.rparen :: rest) := by
  have hends : NotNext expressionStops (.rparen :: rest) := notNext_cons (by decide)
  cases h with
  | text =>
      apply reads_nextIs rfl
      apply reads_advance
      intro literal
      apply (reads_intern _).andThen
      intro index
      apply (reads_emit _).andThen
      intro _
      apply reads_decline (by simp)
      exact reads_pure _
  | textValue hvalue =>
      apply reads_nextIs rfl
      apply reads_advance
      intro literal
      apply (reads_intern _).andThen
      intro index
      apply (reads_emit _).andThen
      intro _
      apply reads_accept
      intro comma
      apply (reads_printValue hvalue hends).before
      intro value
      exact reads_pure _
  | value hvalue =>
      have hbegins : NotNext [.strLit] (ks ++ .rparen :: rest) :=
        (hvalue.begins.append _).notNext (by decide)
      refine reads_nextIsNot (hbegins.ne (by decide)) ?_
      apply (reads_printValue hvalue hends).before
      intro value
      exact reads_pure _

theorem reads_print (h : Grammar.Printed ks) :
    Reads print (.kwPrintf :: .lparen :: (ks ++ [.rparen, .semicolon])) rest := by
  apply reads_expect
  intro keyword
  apply reads_expect
  intro lparen
  apply (reads_printItem h).bind
  intro item
  apply reads_recover
  intro rparen
  apply reads_recover
  intro semicolon
  exact reads_pure _

theorem reads_ret (returnType : Ty) : Reads (ret returnType) [.kwReturn, .semicolon] rest := by
  apply reads_expect
  intro keyword
  apply reads_decline (by simp)
  apply (reads_emit _).andThen
  intro _
  apply (reads_checkReturn returnType .void).andThen
  intro _
  apply reads_recover
  intro semicolon
  exact reads_pure _

theorem reads_retValue (h : Grammar.Expression ks) (returnType : Ty) :
    Reads (ret returnType) (.kwReturn :: .lparen :: (ks ++ [.rparen, .semicolon])) rest := by
  apply reads_expect
  intro keyword
  apply reads_accept
  intro lparen
  apply (reads_expression h (notNext_cons (by decide))).bind
  intro value
  apply (reads_emit _).andThen
  intro _
  apply reads_recover
  intro rparen
  apply (reads_checkReturn returnType value.ty).andThen
  intro _
  apply reads_recover
  intro semicolon
  exact reads_pure _

end Simple

/-- A step that reads every statement shorter than a bound, in front of anything if the statement
is complete, and otherwise in front of anything but an `else`. -/
def ReadsStatements (stmt : Pass Stmt) (bound : Nat) : Prop :=
  ∀ complete ks rest, Paired complete ks → ks.length < bound →
    (complete = false → NotNext [.kwElse] rest) → Reads stmt ks rest

section Control

variable {stmt : Pass Stmt} {bound : Nat} (hstmt : ReadsStatements stmt bound)
  {complete : Bool} {condition body rest : List TokenKind}

include hstmt

theorem reads_ifThen (hcondition : Grammar.Condition condition) (hbody : Paired false body)
    (hbound : body.length < bound) (hrest : NotNext [.kwElse] rest) :
    Reads (conditional stmt) (.kwIf :: .lparen :: (condition ++ .rparen :: body)) rest := by
  apply reads_expect
  intro keyword
  apply reads_freshLabel.andThen
  intro elseLabel
  apply reads_guarded hcondition
  intro guard
  apply (hstmt false body rest hbody hbound fun _ => hrest).before
  intro body
  apply reads_freshLabel.andThen
  intro endLabel
  apply (reads_emit _).andThen
  intro _
  apply (reads_emit _).andThen
  intro _
  refine reads_decline (hrest.ne (by decide)) ?_
  apply (reads_emit _).andThen
  intro _
  exact reads_pure _

theorem reads_ifElse {other : List TokenKind} (hcondition : Grammar.Condition condition)
    (hbody : Paired true body) (hother : Paired complete other)
    (hbound : body.length < bound ∧ other.length < bound)
    (hrest : complete = false → NotNext [.kwElse] rest) :
    Reads (conditional stmt)
      (.kwIf :: .lparen :: (condition ++ .rparen :: (body ++ .kwElse :: other))) rest := by
  apply reads_expect
  intro keyword
  apply reads_freshLabel.andThen
  intro elseLabel
  apply reads_guarded hcondition
  intro guard
  apply (hstmt true body _ hbody hbound.1 Bool.noConfusion).bind
  intro body
  apply reads_freshLabel.andThen
  intro endLabel
  apply (reads_emit _).andThen
  intro _
  apply (reads_emit _).andThen
  intro _
  apply reads_accept
  intro elseKeyword
  apply (hstmt complete other rest hother hbound.2 hrest).before
  intro alternative
  apply (reads_emit _).andThen
  intro _
  exact reads_pure _

theorem reads_whileLoop (hcondition : Grammar.Condition condition) (hbody : Paired complete body)
    (hbound : body.length < bound) (hrest : complete = false → NotNext [.kwElse] rest) :
    Reads (whileLoop stmt) (.kwWhile :: .lparen :: (condition ++ .rparen :: body)) rest := by
  apply reads_expect
  intro keyword
  apply reads_freshLabel.andThen
  intro loopLabel
  apply (reads_emit _).andThen
  intro _
  apply reads_expect
  intro lparen
  apply reads_freshLabel.andThen
  intro endLabel
  apply (reads_condition hcondition (notNext_cons (by decide)) endLabel .onFalse).bind
  intro condition
  apply reads_recover
  intro rparen
  apply (hstmt complete body rest hbody hbound hrest).before
  intro body
  apply (reads_emit _).andThen
  intro _
  apply (reads_emit _).andThen
  intro _
  exact reads_pure _

theorem reads_doLoop (hbody : Grammar.Statement body) (hcondition : Grammar.Condition condition)
    (hbound : body.length < bound) :
    Reads (doLoop stmt)
      (.kwDo :: (body ++ .kwWhile :: .lparen :: (condition ++ [.rparen]))) rest := by
  apply reads_expect
  intro keyword
  apply reads_freshLabel.andThen
  intro loopLabel
  apply (reads_emit _).andThen
  intro _
  apply (hstmt false body _ hbody.paired hbound fun _ => notNext_cons (by decide)).bind
  intro body
  apply reads_recover
  intro whileKeyword
  apply reads_guarded hcondition
  intro guard
  exact reads_pure _

theorem reads_forLoop {header : List TokenKind} (hheader : Grammar.ForHeader header)
    (hbody : Paired complete body) (hbound : body.length < bound)
    (hrest : complete = false → NotNext [.kwElse] rest) :
    Reads (forLoop stmt) (.kwFor :: .lparen :: (header ++ .rparen :: body)) rest := by
  obtain ⟨hstart, hcondition, hsign⟩ := hheader
  simp only [List.cons_append, List.append_assoc, List.nil_append]
  apply reads_expect
  intro keyword
  apply reads_expect
  intro lparen
  apply reads_expect
  intro initName
  apply (reads_resolveTarget initName).andThen
  intro init
  apply reads_expect
  intro initAssign
  apply (reads_expression hstart (notNext_cons (by decide))).bind
  intro start
  apply (reads_emit _).andThen
  intro _
  apply reads_freshLabel.andThen
  intro loopLabel
  apply (reads_emit _).andThen
  intro _
  apply reads_recover
  intro initEnd
  apply reads_freshLabel.andThen
  intro endLabel
  apply (reads_condition hcondition (notNext_cons (by decide)) endLabel .onFalse).bind
  intro condition
  apply reads_recover
  intro conditionEnd
  apply reads_expect
  intro targetName
  apply (reads_resolveTarget targetName).andThen
  intro target
  apply reads_expect
  intro stepAssign
  apply reads_expect
  intro sourceName
  apply (reads_resolve sourceName).andThen
  intro source
  apply Reads.joined fun _ => reads_report _ rfl
  apply (reads_stepSign hsign).bind
  intro sign
  apply reads_unsigned.bind
  intro amount
  apply reads_recover
  intro rparen
  apply (hstmt complete body rest hbody hbound hrest).before
  intro body
  apply (reads_emit _).andThen
  intro _
  apply (reads_emit _).andThen
  intro _
  apply (reads_emit _).andThen
  intro _
  exact reads_pure _

/-- The statements of a block or a function are read, up to its closing brace. -/
theorem reads_statements (h : Grammar.Statements body) (hbound : body.length < bound) :
    Reads (statements stmt) body (.rbrace :: rest) := by
  apply reads_many
  refine rounds_of_repeated ?_ ?_ ?_ h.repeated (Nat.le_refl _)
  · intro _
    apply reads_nextIs rfl
    exact yields_pure rfl
  · intro part hpart
    exact hpart.begins.ne_nil
  · intro _ part more hpart hmore hlength
    have hbegins := hpart.begins.append (more ++ .rbrace :: rest)
    have hbrace : NotNext [.rbrace] (part ++ (more ++ .rbrace :: rest)) :=
      hbegins.notNext (by decide)
    have hfollows : NotNext [.kwElse] (more ++ .rbrace :: rest) := by
      cases hmore with
      | nil => exact notNext_cons (by decide)
      | cons hnext _ => exact ((hnext.begins.append _).append _).notNext (by decide)
    refine reads_nextIsNot (hbrace.ne (by decide)) ?_
    apply (hstmt false part _ hpart.paired (by omega) fun _ => hfollows).before
    intro st
    exact yields_pure ⟨st, rfl⟩

end Control

/-- The statement that a name begins is read, whether the name is known or not. -/
theorem reads_named {tail rest : List TokenKind} (h : Grammar.Simple (.ident :: tail))
    (name : String) : Reads (nameStatement name) (.ident :: (tail ++ [.semicolon])) rest := by
  cases h with
  | call hargs =>
      apply reads_peekKind
      exact reads_callStatement hargs name
  | assign hvalue =>
      refine reads_nameStatement (by decide) ?_ (reads_assignment hvalue) name
      exact (Grammar.Balanced.cons (by decide) hvalue.balanced).semicolon_not_mem
  | @assignElement index value hindex hvalue =>
      have hbalanced : Grammar.Balanced
          (.lbracket :: (index ++ .rbracket :: .assign :: value)) :=
        .cons (by decide) (hindex.balanced.append
          (.cons (by decide) (.cons (by decide) hvalue.balanced)))
      refine reads_nameStatement (by decide) hbalanced.semicolon_not_mem ?_ name
      simpa only [List.cons_append, List.append_assoc] using reads_elementAssignment hindex hvalue

/-- Every statement is read, in front of anything but an `else` that could belong to it. -/
theorem reads_statement {complete : Bool} {ks rest : List TokenKind} (h : Paired complete ks)
    (hrest : complete = false → NotNext [.kwElse] rest) (returnType : Ty) :
    Reads (statement returnType) ks rest := by
  refine reads_nest
    (P := fun ks rest => ∃ complete, Paired complete ks ∧
      (complete = false → NotNext [.kwElse] rest))
    ?_ ⟨complete, h, hrest⟩
  rintro stmt ks rest ⟨complete, h, hrest⟩ hagain
  have hstmt : ReadsStatements stmt ks.length := by
    intro complete front back hfront hlength hback
    exact hagain front back ⟨complete, hfront, hback⟩ hlength
  cases h with
  | simple hsimple =>
      have hnamed := hsimple
      cases hsimple with
      | empty =>
          apply reads_current rfl
          intro token htoken
          simp only [htoken]
          apply reads_expect
          intro semicolon
          exact reads_pure _
      | call _ | assign _ | assignElement _ _ =>
          apply reads_current rfl
          intro token htoken
          simp only [htoken]
          exact reads_named hnamed token.value
      | scan htargets =>
          apply reads_current rfl
          intro token htoken
          simp only [htoken, List.cons_append, List.append_assoc, List.nil_append]
          exact reads_scan htargets
      | print hitem =>
          apply reads_current rfl
          intro token htoken
          simp only [htoken, List.cons_append, List.append_assoc, List.nil_append]
          exact reads_print hitem
      | ret =>
          apply reads_current rfl
          intro token htoken
          simp only [htoken]
          exact reads_ret returnType
      | retValue hvalue =>
          apply reads_current rfl
          intro token htoken
          simp only [htoken, List.cons_append, List.append_assoc, List.nil_append]
          exact reads_retValue hvalue returnType
  | ifThen hcondition hbody =>
      apply reads_current rfl
      intro token htoken
      simp only [htoken]
      exact reads_ifThen hstmt hcondition hbody (by simp; omega) (hrest rfl)
  | ifElse hcondition hbody hother =>
      apply reads_current rfl
      intro token htoken
      simp only [htoken]
      exact reads_ifElse hstmt hcondition hbody hother (by simp; omega) hrest
  | whileLoop hcondition hbody =>
      apply reads_current rfl
      intro token htoken
      simp only [htoken]
      exact reads_whileLoop hstmt hcondition hbody (by simp; omega) hrest
  | doLoop hbody hcondition =>
      apply reads_current rfl
      intro token htoken
      simp only [htoken]
      exact reads_doLoop hstmt hbody hcondition
        (by simp only [List.length_cons, List.length_append]; omega)
  | forLoop hheader hbody =>
      apply reads_current rfl
      intro token htoken
      simp only [htoken]
      exact reads_forLoop hstmt hheader hbody (by simp; omega) hrest
  | block hbody =>
      apply reads_current rfl
      intro token htoken
      simp only [htoken]
      apply reads_expect
      intro lbrace
      apply (reads_statements hstmt hbody
        (by simp only [List.length_cons, List.length_append]; omega)).bind
      intro body
      apply reads_expect
      intro rbrace
      exact reads_pure _

end Pass

end OnePass
