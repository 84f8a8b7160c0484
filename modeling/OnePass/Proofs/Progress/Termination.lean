import OnePass.Proofs.Log.Program
import OnePass.Proofs.Progress.Passes

/-!
Every compilation comes to an end. What repeats itself, a nested phrase or a loop, is given by one
round of it, and a round begins another one only where fewer tokens are ahead. So it unfolds into
its rounds without a bound, and any bound above the number of tokens ahead makes no difference.
Between the rounds no pass goes back in the tokens, nor past their end.
-/

namespace OnePass

/-- Whether an error stands for a guard of the parser's own definitions and not for something that
is wrong with the tokens or with the sink. -/
def ParseError.isGuard : ParseError → Bool
  | voidParameter | stalled => true
  | _ => false

theorem Cursor.position_le_length (cursor : Cursor) : cursor.position ≤ cursor.tokens.length := by
  simp [position, tokens]

namespace Pass

variable {α ι : Type}

section Recursions

/-- What it takes for a recursion to end. One round of it is `phrase`, which is given the rounds
inside it, and `pass` is all of them. -/
structure Terminates (phrase : (ι → Pass α) → ι → Pass α) (pass : ι → Pass α) : Prop where
  /-- There is no bound on the number of rounds. -/
  unfolds : ∀ i, pass i = phrase pass i
  /-- A round begins another one only where fewer tokens are ahead: what the others would do
  anywhere else makes no difference. -/
  guarded : ∀ s again, (∀ i t, t.ahead < s.ahead → again i t = pass i t) →
    ∀ i, phrase again i s = pass i s
  /-- A bound makes no difference if it is larger than the number of tokens ahead. -/
  bounded : ∀ s bound, s.ahead < bound → ∀ i, nestUpTo phrase bound i s = pass i s
  /-- No bound is ever met. -/
  runs : ∀ i s t, pass i s ≠ .error .stalled t

variable {takes : α → Prop} {phrase : (ι → Pass α) → ι → Pass α}

/-- A phrase that calls itself only behind a token ends. -/
theorem Terminates.nestFrom (hphrase : ∀ k again again', (∀ i, Alike k takes (again i) (again' i)) →
      ∀ i, Alike (k + 1) takes (phrase again i) (phrase again' i)) :
    Terminates phrase (nestFrom phrase) := by
  have hself : ∀ n i, Runs n takes (Pass.nestFrom phrase i) := fun n i => .nestFrom hphrase i
  refine ⟨nestFrom_eq hphrase, ?_, ?_, fun i s t => (hself _ i).runs s t (Nat.lt_succ_self _)⟩
  · intro s again hagain i
    have halike : ∀ i, Alike s.ahead takes (Pass.nestFrom phrase i) (again i) :=
      fun i => { hself s.ahead i with same := hagain i }
    rw [nestFrom_eq hphrase i]
    exact (hphrase s.ahead _ _ halike i).same s (Nat.lt_succ_self _)
  · intro s bound hbound i
    have halike : Alike (s.ahead + 1) takes (nestUpTo phrase (s.ahead + 1) i)
        (nestUpTo phrase bound i) :=
      .nestUpTo (fun k _ hk _ again again' hagain i =>
        (hphrase k again again' hagain i).weaken hk fun _ => id) (Nat.le_refl _) (Nat.le_refl _)
        hbound i
    exact halike.same s (Nat.lt_succ_self _)

theorem Terminates.nest {phrase : Pass α → Pass α}
    (hphrase : ∀ k again again', Alike k takes again again' →
      Alike (k + 1) takes (phrase again) (phrase again')) :
    Terminates (fun again (_ : Unit) => phrase (again ())) fun _ => nest phrase :=
  .nestFrom fun k again again' hagain _ => hphrase k (again ()) (again' ()) (hagain ())

theorem Terminates.many {item : Pass (Option α)} (hitem : ∀ n, Runs n IfSome item) :
    Terminates (fun more (_ : Unit) => manyOf item (more ())) fun _ => many item :=
  .nest fun k _ _ => .manyOf (Nat.le_refl _) (hitem (k + 1))

theorem Terminates.extend {link : α → Pass (Option α)} (hlink : ∀ n a, Runs n IfSome (link a)) :
    Terminates (extendOf link) (extend link) :=
  .nestFrom fun k _ _ hmore a => .extendOf (Nat.le_refl _) (hlink (k + 1) a) hmore

theorem Terminates.commaList {item : Pass α} (hitem : ∀ n, Runs n Always item) :
    Terminates (fun more (_ : Unit) => commaListOf item (more ())) fun _ => commaList item :=
  .nest fun k _ _ => .commaListOf (Nat.le_refl _) (hitem (k + 1))

/-- What unfolds into rounds that call themselves only behind a token is the recursion. -/
theorem eq_nestFrom {pass : ι → Pass α} (hphrase : ∀ k again again',
      (∀ i, Alike k takes (again i) (again' i)) →
      ∀ i, Alike (k + 1) takes (phrase again i) (phrase again' i))
    (hunfolds : ∀ i, pass i = phrase pass i) : pass = nestFrom phrase := by
  have hsame : ∀ n i (s : State), s.ahead < n → pass i s = nestFrom phrase i s := by
    intro n
    induction n with
    | zero => exact fun _ _ => nofun
    | succ n ih =>
        intro i s hs
        have hguarded := (Terminates.nestFrom hphrase).guarded s pass
          (fun i t ht => ih i t (by omega)) i
        rw [← hguarded]
        exact congrFun (hunfolds i) s
  funext i s
  exact hsame _ i s (Nat.lt_succ_self _)

end Recursions

section Skipping

/-- Consumes the next token, which says how to go on. -/
def taking (eof : Expected) (next : Token → Pass α) : Pass α := fun s =>
  match s.cursor.rest with
  | [] => .error (.unexpectedEof eof) s
  | token :: rest => next token (s.take token rest)

theorem taking_nil {eof : Expected} {next : Token → Pass α} {s : State} (h : s.cursor.rest = []) :
    taking eof next s = .error (.unexpectedEof eof) s := by
  rw [taking, h]

theorem taking_cons {eof : Expected} {next : Token → Pass α} {s : State} {token : Token}
    {rest : List Token} (h : s.cursor.rest = token :: rest) :
    taking eof next s = next token (s.take token rest) := by
  rw [taking, h]

theorem taking_eq (eof : Expected) (next : Token → Pass α) :
    taking eof next = taking eof pure >>= next := by
  funext s
  cases hrest : s.cursor.rest with
  | nil => rw [taking_nil hrest, bind_of_error (taking_nil hrest)]
  | cons token rest =>
      have htaken : taking eof pure s = .ok token (s.take token rest) := taking_cons hrest
      rw [taking_cons hrest, bind_of_ok htaken]

/-- One round of skipping up to a token of a kind. -/
def skipPastOf (kind : TokenKind) (more : Pass Unit) : Pass Unit :=
  taking (.kind kind) fun token => if token.kind = kind then pure () else more

/-- One round of skipping up to the parenthesis that closes `depth + 1` open ones. -/
def skipClosingOf (more : Nat → Pass Unit) (depth : Nat) : Pass Unit :=
  taking (.kind .rparen) fun token =>
    match depthAfter depth token.kind with
    | none => pure ()
    | some depth => more depth

namespace Alike

variable {n : Nat} {takes : α → Prop}

theorem taking (eof : Expected) {next next' : Token → Pass α}
    (hnext : ∀ token, Alike n Never (next token) (next' token)) :
    Alike (n + 1) takes (Pass.taking eof next) (Pass.taking eof next') := by
  have hfirst : Runs (n + 1) Always (Pass.taking eof Pure.pure) := by
    refine .of_step (.of_rest (fun s emitter => ?_) (fun s hrest => ?_)
      fun s token rest hrest => ?_) (fun s t => ?_) fun s token t hrun _ => ?_
    · unfold Pass.taking
      cases s.cursor.rest <;> rfl
    · rw [taking_nil hrest]
      exact ⟨.refl _, nofun⟩
    · rw [taking_cons hrest]
      exact Cursor.Reaches.take hrest
    · unfold Pass.taking
      cases s.cursor.rest <;> nofun
    · cases hrest : s.cursor.rest with
      | nil =>
          rw [taking_nil hrest] at hrun
          cases hrun
      | cons token rest =>
          rw [taking_cons hrest] at hrun
          cases hrun
          simp [State.ahead, State.take, hrest]
  rw [taking_eq, taking_eq eof next']
  exact .after (Nat.le_refl _) hfirst hnext

theorem skipPastOf (kind : TokenKind) {more more' : Pass Unit} (hmore : Alike n Never more more') :
    Alike (n + 1) Never (Pass.skipPastOf kind more) (Pass.skipPastOf kind more') :=
  .taking _ fun _ => .ite (.pure id) hmore

theorem skipClosingOf {more more' : Nat → Pass Unit}
    (hmore : ∀ depth, Alike n Never (more depth) (more' depth)) (depth : Nat) :
    Alike (n + 1) Never (Pass.skipClosingOf more depth) (Pass.skipClosingOf more' depth) := by
  refine .taking _ fun token => ?_
  cases depthAfter depth token.kind with
  | none => exact .pure id
  | some depth => exact hmore depth

end Alike

theorem skipPast_fix (kind : TokenKind) :
    onCursor (Cursor.skipPast kind) = skipPastOf kind (onCursor (Cursor.skipPast kind)) := by
  funext s
  cases hrest : s.cursor.rest with
  | nil => rw [skipPast_nil hrest, skipPastOf, taking_nil hrest]
  | cons token rest =>
      rw [skipPast_cons hrest, skipPastOf, taking_cons hrest]
      by_cases hkind : token.kind = kind
      · rw [if_pos hkind, if_pos hkind]
        rfl
      · rw [if_neg hkind, if_neg hkind]

theorem skipClosing_fix (depth : Nat) : skipClosing depth = skipClosingOf skipClosing depth := by
  funext s
  cases hrest : s.cursor.rest with
  | nil => rw [skipClosing_nil hrest, skipClosingOf, taking_nil hrest]
  | cons token rest =>
      rw [skipClosing_cons hrest, skipClosingOf, taking_cons hrest]
      cases depthAfter depth token.kind <;> rfl

theorem Terminates.skipPast (kind : TokenKind) :
    Terminates (fun more (_ : Unit) => skipPastOf kind (more ()))
      fun _ => onCursor (Cursor.skipPast kind) := by
  have hphrase : ∀ k (again again' : Unit → Pass Unit),
      (∀ i, Alike k Never (again i) (again' i)) → ∀ _ : Unit,
      Alike (k + 1) Never (skipPastOf kind (again ())) (skipPastOf kind (again' ())) :=
    fun _ _ _ hagain _ => .skipPastOf kind (hagain ())
  rw [eq_nestFrom hphrase fun _ => skipPast_fix kind]
  exact .nestFrom hphrase

theorem Terminates.skipClosing : Terminates skipClosingOf skipClosing := by
  have hphrase : ∀ k (again again' : Nat → Pass Unit),
      (∀ depth, Alike k Never (again depth) (again' depth)) → ∀ depth,
      Alike (k + 1) Never (skipClosingOf again depth) (skipClosingOf again' depth) :=
    fun _ _ _ hagain => .skipClosingOf hagain
  rw [eq_nestFrom hphrase skipClosing_fix]
  exact .nestFrom hphrase

end Skipping

section Grammar

/-- The steps of the cursor and the passes that read the phrases of the grammar. -/
inductive Procedure : {α : Type} → Pass α → Prop where
  | current : Procedure current
  | advance : Procedure advance
  | accept (kind : TokenKind) : Procedure (accept kind)
  | expect (kind : TokenKind) : Procedure (expect kind)
  | recover (kind : TokenKind) (missing : DiagnosticKind) : Procedure (recover kind missing)
  | skipPast (kind : TokenKind) : Procedure (onCursor (Cursor.skipPast kind))
  | skipParens : Procedure (onCursor Cursor.skipParens)
  | unsigned : Procedure unsigned
  | integer : Procedure integer
  | typeName : Procedure typeName
  | expression : Procedure expression
  | signedTerm : Procedure (signedTerm expression)
  | term : Procedure (term expression)
  | factor : Procedure (factor expression)
  | nameFactor : Procedure (nameFactor expression)
  | callFactor (name : String) : Procedure (callFactor expression name)
  | call (callee : Symbol) : Procedure (call expression callee)
  | skipUnknownCall : Procedure skipUnknownCall
  | arguments (function : String) : Procedure (arguments expression function)
  | argument (function : String) (position : Nat) :
      Procedure (argument expression function position)
  | condition (label : Label) (sense : Sense) : Procedure (condition label sense)
  | guarded (label : Label) (sense : Sense) : Procedure (guarded label sense)
  | statement (returnType : Ty) : Procedure (statement returnType)
  | statements (returnType : Ty) : Procedure (statements (statement returnType))
  | conditional (returnType : Ty) : Procedure (conditional (statement returnType))
  | whileLoop (returnType : Ty) : Procedure (whileLoop (statement returnType))
  | doLoop (returnType : Ty) : Procedure (doLoop (statement returnType))
  | forLoop (returnType : Ty) : Procedure (forLoop (statement returnType))
  | nameStatement (name : String) : Procedure (nameStatement name)
  | callStatement (name : String) : Procedure (callStatement name)
  | assignment : Procedure assignment
  | scan : Procedure scan
  | print : Procedure print
  | printItem : Procedure printItem
  | printValue : Procedure printValue
  | ret (returnType : Ty) : Procedure (ret returnType)
  | constDecls (scope : Scope) : Procedure (constDecls scope)
  | constDecl (scope : Scope) : Procedure (constDecl scope)
  | constItem (scope : Scope) (ty : Ty) : Procedure (constItem scope ty)
  | constInit (ty : Ty) : Procedure (constInit ty)
  | varDecls (scope : Scope) : Procedure (varDecls scope)
  | varDecl (scope : Scope) : Procedure (varDecl scope)
  | varItem (scope : Scope) (ty : Ty) : Procedure (varItem scope ty)
  | params (function : String) : Procedure (params function)
  | param (function : String) : Procedure (param function)
  | valueFunction : Procedure (function valueHead)
  | voidFunction : Procedure (function voidHead)
  | mainFunction : Procedure (function mainHead)
  | body (returnType : Ty) : Procedure (body returnType)
  | topLevel? : Procedure topLevel?
  | program : Procedure program

variable {pass : Pass α}

/-- How a pass goes through the tokens, and how it may fail. -/
structure Proceeds (pass : Pass α) : Prop where
  /-- However it ends, the tokens are the same, and none of those consumed is ahead again. -/
  onward : ∀ s : State, s.cursor.Reaches (endState (pass s)).cursor
  /-- It has not gone past the end of the tokens. -/
  inside : ∀ s : State, (endState (pass s)).cursor.position ≤ s.cursor.tokens.length
  /-- It fails only for what is wrong with the tokens or with the sink. -/
  error : ∀ s error t, pass s = .error error t → error.isGuard = false

theorem Proceeds.of {takes : α → Prop} (hruns : ∀ n, Runs (n + 1) takes pass) :
    Proceeds pass := by
  have honward : ∀ s : State, s.cursor.Reaches (endState (pass s)).cursor := by
    intro s
    have hend := (hruns 0).orderly.onward s
    cases hrun : pass s with
    | ok a t =>
        rw [hrun] at hend
        exact hend
    | error error t =>
        rw [hrun] at hend
        exact hend.1
  refine ⟨honward, fun s => ?_, fun s error t hrun => ?_⟩
  · rw [← (honward s).tokens_eq]
    exact Cursor.position_le_length _
  · have hend := (hruns 0).orderly.onward s
    rw [hrun] at hend
    cases error with
    | voidParameter => exact absurd rfl hend.2
    | stalled => exact absurd hrun ((hruns s.ahead).runs s t (Nat.lt_succ_self _))
    | _ => rfl

theorem Procedure.proceeds (h : Procedure pass) : Proceeds pass := by
  cases h with
  | current => exact .of fun _ => .current
  | advance => exact .of fun _ => .advance
  | accept kind => exact .of fun _ => .accept kind
  | expect kind => exact .of fun _ => .expect kind
  | recover kind missing => exact .of fun _ => .recover kind missing
  | skipPast kind => exact .of fun _ => .skipPast kind
  | skipParens => exact .of fun _ => .skipParens
  | unsigned => exact .of fun _ => .unsigned
  | integer => exact .of fun _ => .integer
  | typeName => exact .of fun _ => .typeName
  | expression => exact .of fun _ => .expression
  | signedTerm => exact .of fun _ => .signedTerm .expression
  | term => exact .of fun _ => .term .expression
  | factor => exact .of fun _ => .factor .expression
  | nameFactor => exact .of fun _ => .nameFactor .expression
  | callFactor name => exact .of fun _ => .callFactor .expression name
  | call callee => exact .of fun _ => .call .expression callee
  | skipUnknownCall => exact .of fun _ => .skipUnknownCall
  | arguments function => exact .of fun _ => .arguments .expression function
  | argument function position => exact .of fun _ => .argument .expression function position
  | condition label sense => exact .of fun _ => .condition label sense
  | guarded label sense => exact .of fun _ => .guarded label sense
  | statement returnType => exact .of fun _ => .statement returnType
  | statements returnType => exact .of fun _ => .statements (.statement returnType)
  | conditional returnType => exact .of fun _ => .conditional (.statement returnType)
  | whileLoop returnType => exact .of fun _ => .whileLoop (.statement returnType)
  | doLoop returnType => exact .of fun _ => .doLoop (.statement returnType)
  | forLoop returnType => exact .of fun _ => .forLoop (.statement returnType)
  | nameStatement name => exact .of fun _ => .nameStatement name
  | callStatement name => exact .of fun _ => .callStatement name
  | assignment => exact .of fun _ => .assignment
  | scan => exact .of fun _ => .scan
  | print => exact .of fun _ => .print
  | printItem => exact .of fun _ => .printItem
  | printValue => exact .of fun _ => .printValue
  | ret returnType => exact .of fun _ => .ret returnType
  | constDecls scope => exact .of fun _ => .constDecls scope
  | constDecl scope => exact .of fun _ => .constDecl scope
  | constItem scope ty => exact .of fun _ => .constItem scope ty
  | constInit ty => exact .of fun _ => .constInit ty
  | varDecls scope => exact .of fun _ => .varDecls scope
  | varDecl scope => exact .of fun _ => .varDecl scope
  | varItem scope ty => exact .of fun _ => .varItem scope ty
  | params function => exact .of fun _ => .params function
  | param function => exact .of fun _ => .param function
  | valueFunction => exact .of fun _ => .function .valueHead
  | voidFunction => exact .of fun _ => .function .voidHead
  | mainFunction => exact .of fun _ => .function .mainHead
  | body returnType => exact .of fun _ => .body returnType
  | topLevel? => exact .of fun _ => .topLevel?
  | program => exact .of fun _ => .program

end Grammar

end Pass

/-- How a compilation ends: all tokens are consumed, or something is wrong with them or with the
sink. A build that checks for overflow ends in the same way, unless it panics; and a program that
is read is one where it does if a negation in it overflows. -/
structure ComesToEnd (sink : Sink) (tokens : List Token) : Prop where
  okay : ∀ c, (compileTo sink tokens).1 = .ok c →
    ∃ t, Pass.program (.start sink tokens) = .ok c.program t ∧ t.cursor.rest = [] ∧
      t.cursor.consumed.reverse = tokens
  error : ∀ error, (compileTo sink tokens).1 = .error error → error.isGuard = false
  checked : compileChecked sink tokens = .panicked ∨
    compileChecked sink tokens = .returned (compileTo sink tokens).1
  panicked_iff : ∀ c, (compileTo sink tokens).1 = .ok c →
    (compileChecked sink tokens = .panicked ↔ .noteOverflow true ∈ c.program.log)

section Ends

variable {sink : Sink} {tokens : List Token}

/-- Once all is read, only the sink can fail. -/
theorem State.finish_eq (s : State) (program : Program) :
    s.finish program = .error .trace ∨ ∃ c, s.finish program = .ok c ∧ program = c.program := by
  unfold State.finish
  split
  · exact .inl rfl
  · exact .inr ⟨_, rfl, rfl⟩

/-- A compilation that succeeds has read its program. -/
theorem exists_run {c : Compilation} (h : (compileTo sink tokens).1 = .ok c) :
    ∃ t, Pass.program (.start sink tokens) = .ok c.program t := by
  cases hrun : Pass.program (.start sink tokens) with
  | error error t =>
      rw [State.start] at hrun
      rw [compileTo, hrun] at h
      cases h
  | ok program t =>
      rw [State.start] at hrun
      rw [compileTo, hrun] at h
      rcases t.finish_eq program with hfinish | ⟨_, hfinish, rfl⟩
      · cases hfinish.symm.trans h
      · cases hfinish.symm.trans h
        exact ⟨t, rfl⟩

theorem isGuard_of_compileTo {error : ParseError} (h : (compileTo sink tokens).1 = .error error) :
    error.isGuard = false := by
  cases hrun : Pass.program (.start sink tokens) with
  | error error t =>
      have hguard := Pass.Procedure.program.proceeds.error _ error t hrun
      rw [State.start] at hrun
      rw [compileTo, hrun] at h
      cases h
      exact hguard
  | ok program t =>
      rw [State.start] at hrun
      rw [compileTo, hrun] at h
      rcases t.finish_eq program with hfinish | ⟨c, hfinish, _⟩
      · cases hfinish.symm.trans h
        rfl
      · cases hfinish.symm.trans h

theorem compileChecked_eq : compileChecked sink tokens =
    if (Pass.endState (Pass.program (.start sink tokens))).overflowed then .panicked
    else .returned (compileTo sink tokens).1 := by
  unfold compileChecked compileTo
  rw [← State.start]
  cases Pass.program (.start sink tokens) <;> rfl

theorem comesToEnd (sink : Sink) (tokens : List Token) : ComesToEnd sink tokens := by
  refine ⟨fun c hc => ?_, fun error => isGuard_of_compileTo, ?_, fun c hc => ?_⟩
  · obtain ⟨t, hrun⟩ := exists_run hc
    have hrest := (Pass.plays_program hrun).2
    have honward := Pass.Procedure.program.proceeds.onward (.start sink tokens)
    rw [hrun] at honward
    have htokens : t.cursor.consumed.reverse ++ t.cursor.rest = tokens := honward.tokens_eq
    rw [hrest, List.append_nil] at htokens
    exact ⟨t, hrun, hrest, htokens⟩
  · rw [compileChecked_eq]
    split
    · exact .inl rfl
    · exact .inr rfl
  · obtain ⟨t, hrun⟩ := exists_run hc
    have hnoted := (Pass.plays_program hrun).1.overflowed_iff
    rw [compileChecked_eq, hrun, Pass.endState]
    simpa [State.start] using hnoted

end Ends

end OnePass
