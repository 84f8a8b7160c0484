import OnePass.Proofs.Emission
import OnePass.Proofs.Meaning.Expr
import OnePass.Proofs.Semantics.Reading

/-!
The value of an expression is the one that its tokens have in the usual reading. So the code of
an expression computes that value, in whatever state of a compilation it is compiled.
-/

namespace OnePass

theorem Clean.kept {P : Action → Prop} {log : List Action} (h : Clean P log) :
    ∀ action ∈ log, .undefined ∉ action.records := by
  intro action haction
  rw [(h action haction).2]
  exact List.not_mem_nil

/-- After a look at the next token that is no sign, no sign is read. -/
theorem unsigned_of_noSign {P : Action → Prop} {log : List Action} {s t : State}
    (hnext : (s.cursor.peekKind? 0).bind ArithOp.additive? = none) (hlog : Plays log s t)
    (hclean : Clean P log) : Unsigned (log.flatMap Action.tokens) := by
  intro token htoken
  obtain ⟨rest, hrest⟩ := List.head?_eq_some_iff.1 htoken
  have hpeek : s.cursor.peekKind? 0 = some token.kind := by
    rw [Cursor.peekKind?, Cursor.peek?, hlog.rest hclean.kept, hrest]
    rfl
  rw [hpeek, Option.bind_some] at hnext
  cases hkind : token.kind <;> simp_all [ArithOp.additive?, TokenKind.isSign]

/-- Where the names in scope stay the same, names stand for what they stand for at first. -/
theorem Plays.fits {log : List Action} {s t : State} (h : Plays log s t)
    (hlog : log.all Action.keepsScopes = true) (hclean : Clean Action.Sound log) :
    Clean (Action.Fits s.scopes.view) log := by
  intro action haction
  obtain ⟨u, v, hscopes, hperforms⟩ := h.exists_performs hlog haction
  refine ⟨⟨(hclean action haction).1, ?_, ?_⟩, (hclean action haction).2⟩
  · rintro name symbol rfl
    exact hscopes ▸ hperforms.1
  · rintro name symbol rfl
    exact hscopes ▸ hperforms.1

section Reads

variable {view : View} {interp : Interpretation} (store : Store)

theorem IntLit.reads {lit : IntLit} {s t : State} (h : Plays lit.log s t) :
    FactorReads view interp store (lit.log.flatMap Action.tokens) lit.number := by
  rw [tokens_integer]
  unfold IntLit.log at h
  obtain ⟨u, hsign, v, ⟨hdigits, _⟩, _⟩ := plays_append.1 h
  unfold IntLit.number
  cases hcase : lit.sign with
  | none => exact .int hdigits
  | some sign =>
      rw [hcase] at hsign
      obtain ⟨_, _, _, ⟨hkind, _⟩, _⟩ := hsign
      dsimp only
      by_cases hminus : sign.kind = .minus
      · rw [if_pos hminus]
        exact .negativeInt hminus hdigits
      · rw [if_neg hminus]
        refine .positiveInt ?_ hdigits
        cases hplus : sign.kind <;> simp_all [TokenKind.isSign]

mutual

theorem Expr.reads : (e : Expr) → {s t : State} → Plays e.log s t →
    Clean (Action.Fits view) e.log →
    ExprReads view interp store (e.log.flatMap Action.tokens) (e.eval view interp store)
  | .term t, s, s', hplays, hclean => by
      simp only [Expr.log, Expr.eval] at hplays hclean ⊢
      obtain ⟨u, ⟨hnext, rfl⟩, hterm⟩ := hplays
      have hclean := (Clean.cons_iff.1 hclean).2
      have hunsigned := unsigned_of_noSign hnext hterm hclean
      exact .term (t.reads hterm hclean) hunsigned
  | .positive sign t, s, s', hplays, hclean => by
      simp only [Expr.log, Expr.eval] at hplays hclean ⊢
      obtain ⟨u, ⟨hsign, _⟩, hterm⟩ := hplays
      rw [hsign]
      exact .positive hsign (t.reads hterm (Clean.cons_iff.1 hclean).2)
  | .negative sign t value, s, s', hplays, hclean => by
      simp only [Expr.log, Expr.eval] at hplays hclean ⊢
      obtain ⟨u, ⟨hsign, _⟩, hplays⟩ := hplays
      obtain ⟨v, hterm, hnegate⟩ := plays_append.1 hplays
      have hread := t.reads hterm (Clean.append_iff.1 (Clean.cons_iff.1 hclean).2).1
      rw [List.flatMap_cons, List.flatMap_append, tokens_negateLog, List.append_nil, hsign]
      exact .negative hsign hread
  | .chain lhs op opToken rhs dst, s, s', hplays, hclean => by
      simp only [Expr.log, Expr.eval, plays_append, Clean.append_iff, Clean.cons_iff] at hplays hclean ⊢
      obtain ⟨u, hlhs, v, _, w, ⟨hop, rfl⟩, hplays⟩ := hplays
      obtain ⟨x, hrhs, _⟩ := plays_append.1 hplays
      have hkind : opToken.kind = .plus ∨ opToken.kind = .minus := by
        cases hcase : opToken.kind <;> simp_all [ArithOp.additive?]
      simp only [List.flatMap_append, List.flatMap_cons, tokens_combineLog, List.append_nil]
      exact .chain (lhs.reads hlhs hclean.1) hkind (rhs.reads hrhs hclean.2.2.2.1)

theorem Term.reads : (e : Term) → {s t : State} → Plays e.log s t →
    Clean (Action.Fits view) e.log →
    TermReads view interp store (e.log.flatMap Action.tokens) (e.eval view interp store)
  | .factor f, s, s', hplays, hclean => by
      simp only [Term.log, Term.eval] at hplays hclean ⊢
      exact .factor (f.reads hplays hclean)
  | .chain lhs op opToken rhs dst, s, s', hplays, hclean => by
      simp only [Term.log, Term.eval, plays_append, Clean.append_iff, Clean.cons_iff] at hplays hclean ⊢
      obtain ⟨u, hlhs, v, _, w, ⟨hop, rfl⟩, hplays⟩ := hplays
      obtain ⟨x, hrhs, _⟩ := plays_append.1 hplays
      have hkind : opToken.kind = .star ∨ opToken.kind = .slash := by
        cases hcase : opToken.kind <;> simp_all [ArithOp.multiplicative?]
      simp only [List.flatMap_append, List.flatMap_cons, tokens_combineLog, List.append_nil]
      exact .chain (lhs.reads hlhs hclean.1) hkind (rhs.reads hrhs hclean.2.2.2.1)

theorem Factor.reads : (f : Factor) → {s t : State} → Plays f.log s t →
    Clean (Action.Fits view) f.log →
    FactorReads view interp store (f.log.flatMap Action.tokens) (f.eval view interp store)
  | .name ref, s, s', hplays, hclean => by
      simp only [Factor.log, Factor.eval, tokens_readLog] at hplays ⊢
      exact .name (hplays.facts (.take .ident ref.token) (by simp [NameRef.readLog, NameRef.log]))
  | .element ref lbracket index dst rbracket, s, s', hplays, hclean => by
      simp only [Factor.log, Factor.eval] at hplays hclean ⊢
      obtain ⟨u, hread, v, ⟨hlbracket, _⟩, hplays⟩ := plays_append.1 hplays
      obtain ⟨w, hindex, hplays⟩ := plays_append.1 hplays
      obtain ⟨x, hcheck, y, hreg, z, hload, hrbracket⟩ := plays_append.1 hplays
      obtain ⟨_, hclean⟩ := Clean.append_iff.1 hclean
      obtain ⟨hcleanIndex, hclean⟩ := Clean.append_iff.1 (Clean.cons_iff.1 hclean).2
      obtain ⟨_, hclean⟩ := Clean.append_iff.1 hclean
      have hclosed := (Clean.cons_iff.1 (Clean.cons_iff.1 hclean).2).2
      obtain ⟨close, rfl⟩ := Option.isSome_iff_exists.1 hclosed.of_recoverLog
      obtain ⟨_, ⟨hclose, _⟩, _⟩ := hrbracket
      have hname : ref.token.kind = .ident := hread.facts (.take .ident ref.token)
        (by simp [NameRef.readLog, NameRef.log])
      simp only [List.flatMap_append, List.flatMap_cons, tokens_readLog, tokens_checkIndexLog,
        tokens_recoverLog]
      exact .element hname hlbracket (index.reads hindex hcleanIndex) hclose
  | .call c dst, s, s', hplays, hclean => by
      simp only [Factor.log, Factor.eval] at hplays hclean ⊢
      obtain ⟨u, ⟨_, rfl⟩, hplays⟩ := hplays
      obtain ⟨v, hcall, _⟩ := plays_append.1 hplays
      have hcleanCall := (Clean.append_iff.1 (Clean.cons_iff.1 hclean).2).1
      have hread := c.reads hcall hcleanCall
      simp only [List.flatMap_append, List.flatMap_cons, List.flatMap_nil, Action.tokens,
        List.nil_append, List.append_nil]
      exact hread
  | .unknownCall fn, s, s', hplays, hclean => by
      simp only [Factor.log, unknownCallLog] at hclean
      cases (hclean (.skipCall fn) (by simp)).2
  | .paren lparen inner rparen, s, s', hplays, hclean => by
      simp only [Factor.log, Factor.eval] at hplays hclean ⊢
      obtain ⟨u, ⟨hlparen, _⟩, hplays⟩ := hplays
      obtain ⟨v, hinner, hrparen⟩ := plays_append.1 hplays
      obtain ⟨hcleanInner, hclosed⟩ := Clean.append_iff.1 (Clean.cons_iff.1 hclean).2
      obtain ⟨close, rfl⟩ := Option.isSome_iff_exists.1 hclosed.of_recoverLog
      obtain ⟨_, ⟨hclose, _⟩, _⟩ := hrparen
      simp only [List.flatMap_append, List.flatMap_cons, tokens_recoverLog]
      exact .paren hlparen (inner.reads hinner hcleanInner) hclose
  | .char literal, s, s', hplays, hclean => by
      simp only [Factor.log, Factor.eval] at hplays ⊢
      obtain ⟨_, ⟨hkind, _⟩, _⟩ := hplays
      exact .char hkind
  | .int literal, s, s', hplays, hclean => by
      simp only [Factor.log, Factor.eval] at hplays ⊢
      exact literal.reads store hplays

theorem Call.reads : (c : Call) → {s t : State} → Plays c.log s t →
    Clean (Action.Fits view) c.log →
    FactorReads view interp store (c.log.flatMap Action.tokens) (c.eval view interp store)
  | .mk name lparen callee args rparen, s, s', hplays, hclean => by
      simp only [Call.log, Call.eval] at hplays hclean ⊢
      obtain ⟨u, ⟨hname, _⟩, v, ⟨hlparen, _⟩, w, hsave, hplays⟩ := hplays
      obtain ⟨x, hargs, hplays⟩ := plays_append.1 hplays
      obtain ⟨y, hcheck, hplays⟩ := plays_append.1 hplays
      obtain ⟨z, hrparen, _⟩ := plays_append.1 hplays
      have hclean := (Clean.cons_iff.1 (Clean.cons_iff.1 (Clean.cons_iff.1 hclean).2).2).2
      obtain ⟨hcleanArgs, hclean⟩ := Clean.append_iff.1 hclean
      obtain ⟨_, hclean⟩ := Clean.append_iff.1 hclean
      have hclosed := (Clean.append_iff.1 hclean).1
      obtain ⟨close, rfl⟩ := Option.isSome_iff_exists.1 hclosed.of_recoverLog
      obtain ⟨_, ⟨hclose, _⟩, _⟩ := hrparen
      have hread := args.read name.value hargs hcleanArgs
      simp only [List.flatMap_append, List.flatMap_cons, tokens_checkArgumentsLog,
        tokens_recoverLog, List.flatMap_nil]
      exact .call hname hlparen hread hclose

theorem Args.read : (args : Args) → (function : String) → {s t : State} →
    Plays (args.log function) s t → Clean (Action.Fits view) (args.log function) →
    ArgsRead view interp store ((args.log function).flatMap Action.tokens)
      (args.eval view interp store)
  | .nil, function, s, s', hplays, hclean => by
      simp only [Args.log, Args.eval]
      exact .nil
  | .first expr, function, s, s', hplays, hclean => by
      simp only [Args.log, Args.eval] at hplays hclean ⊢
      obtain ⟨u, hexpr, _⟩ := plays_append.1 hplays
      have hread := expr.reads hexpr (Clean.append_iff.1 hclean).1
      simp only [List.flatMap_append, List.flatMap_cons, List.flatMap_nil, Action.tokens,
        List.append_nil]
      exact .first hread
  | .more init comma expr, function, s, s', hplays, hclean => by
      simp only [Args.log, Args.eval] at hplays hclean ⊢
      obtain ⟨u, hinit, v, ⟨hlength, rfl⟩, w, ⟨hcomma, _⟩, hplays⟩ := plays_append.1 hplays
      obtain ⟨x, hexpr, _⟩ := plays_append.1 hplays
      obtain ⟨hcleanInit, hclean⟩ := Clean.append_iff.1 hclean
      have hcleanExpr := (Clean.append_iff.1 (Clean.cons_iff.1 (Clean.cons_iff.1 hclean).2).2).1
      have hne : init.eval view interp store ≠ [] := by
        intro hnil
        rw [← init.length_eval view interp store, hnil] at hlength
        exact Nat.lt_irrefl 0 hlength
      simp only [List.flatMap_append, List.flatMap_cons, List.flatMap_nil, Action.tokens,
        List.append_nil, List.nil_append, List.singleton_append]
      exact .more (init.read function hinit hcleanInit) hne hcomma (expr.reads hexpr hcleanExpr)

end

end Reads

/-- The states of a compilation of some tokens: all that its steps lead to, in any order. A
constant is declared by its declaration only. -/
inductive Reachable (tokens : List Token) : State → Prop where
  | start (sink : Sink) : Reachable tokens (.start sink tokens)
  | advance {s t : State} {token : Token} (hs : Reachable tokens s)
      (h : Pass.advance s = .ok token t) : Reachable tokens t
  | skipParens {s t : State} (hs : Reachable tokens s)
      (h : Pass.onCursor Cursor.skipParens s = .ok () t) : Reachable tokens t
  | skipPast {s t : State} (hs : Reachable tokens s) (kind : TokenKind)
      (h : Pass.onCursor (Cursor.skipPast kind) s = .ok () t) : Reachable tokens t
  | report {s t : State} (hs : Reachable tokens s) (line : UInt64) (kind : DiagnosticKind)
      (h : Pass.report line kind s = .ok () t) : Reachable tokens t
  | emit {s t : State} (hs : Reachable tokens s) (instr : Instr)
      (h : Pass.emit instr s = .ok () t) : Reachable tokens t
  | freshReg {s t : State} {r : Reg} (hs : Reachable tokens s) (h : Pass.freshReg s = .ok r t) :
      Reachable tokens t
  | freshLabel {s t : State} {l : Label} (hs : Reachable tokens s)
      (h : Pass.freshLabel s = .ok l t) : Reachable tokens t
  | intern {s t : State} {index : Nat} (hs : Reachable tokens s) (text : String)
      (h : Pass.intern text s = .ok index t) : Reachable tokens t
  | declare {s t : State} (hs : Reachable tokens s) (scope : Scope) (symbol : Symbol)
      (hkind : symbol.kind ≠ .const) (h : Pass.declare scope symbol s = .ok () t) :
      Reachable tokens t
  | constItem {s t : State} {item : ConstItem} (hs : Reachable tokens s) (scope : Scope) (ty : Ty)
      (h : Pass.constItem scope ty s = .ok item t) : Reachable tokens t
  | resetLocals {s t : State} (hs : Reachable tokens s) (h : Pass.resetLocals s = .ok () t) :
      Reachable tokens t
  | addParameter {s t : State} (hs : Reachable tokens s) (function : String) (ty : Ty)
      (h : Pass.addParameter function ty s = .ok () t) : Reachable tokens t
  | keepTable {s t : State} (hs : Reachable tokens s) (name : String) (scope : Scope)
      (h : Pass.keepTable name scope s = .ok () t) : Reachable tokens t
  | noteOverflow {s t : State} (hs : Reachable tokens s) (overflows : Bool)
      (h : Pass.noteOverflow overflows s = .ok () t) : Reachable tokens t

theorem State.start_sound {tokens : List Token} (sink : Sink)
    (hscanned : ∀ token ∈ tokens, token.isScanned = true) : (State.start sink tokens).Sound := by
  refine ⟨hscanned, Or.inr ?_⟩
  intro scope name symbol hfound
  cases scope <;> simp [State.start, Scopes.lookup?, Scopes.table] at hfound

/-- The invariant does not depend on anything but the tokens, the diagnostics and the scopes. -/
theorem State.Sound.of_eq {s t : State} (h : s.Sound) (htokens : t.cursor.tokens = s.cursor.tokens)
    (hdiagnostics : t.diagnostics = s.diagnostics) (hscopes : t.scopes = s.scopes) : t.Sound := by
  refine ⟨by rw [htokens]; exact h.scanned, ?_⟩
  unfold State.HasMisfit
  rw [hdiagnostics, hscopes]
  exact h.consts

/-- Every state of a compilation has the invariant. -/
theorem Reachable.sound {tokens : List Token} (hscanned : ∀ token ∈ tokens, token.isScanned = true)
    {s : State} (h : Reachable tokens s) : s.Sound := by
  induction h with
  | start sink => exact State.start_sound sink hscanned
  | @advance s t token _ h ih => exact ih.step (.take token.kind token) ⟨rfl, h⟩
  | skipParens _ h ih =>
      have htokens := (Pass.Orderly.skipParens.reaches h).tokens_eq
      obtain ⟨cursor, hstep, rfl⟩ := Pass.onCursor_eq_ok.1 h
      exact ih.of_eq htokens rfl rfl
  | skipPast _ kind h ih =>
      have htokens := ((Pass.Orderly.skipPast kind).reaches h).tokens_eq
      obtain ⟨cursor, hstep, rfl⟩ := Pass.onCursor_eq_ok.1 h
      exact ih.of_eq htokens rfl rfl
  | report _ line kind h ih => exact ih.step (.report line kind) h
  | emit _ instr h ih => exact ih.step (.emit instr) h
  | @freshReg _ _ r _ h ih => exact ih.step (.reg r) h
  | @freshLabel _ _ l _ h ih => exact ih.step (.label l) h
  | @intern _ _ index _ text h ih => exact ih.step (.intern text index) h
  | declare _ scope symbol hkind h ih => exact ih.step (.declare scope symbol) ⟨hkind, h⟩
  | @constItem s t item _ scope ty h ih =>
      exact ih.plays (Pass.follows_constItem scope ty s item t h)
  | resetLocals _ h ih => exact ih.step .resetLocals h
  | addParameter _ function ty h ih => exact ih.step (.addParameter function ty) h
  | keepTable _ name scope h ih => exact ih.step (.keepTable name scope) h
  | noteOverflow _ overflows h ih => exact ih.step (.noteOverflow overflows) h

/-- What was consumed between two states is an expression in the usual reading, and the code that
was added computes its value. It keeps the world, the registers that were given out before, and
the calls that are open. -/
def CompilesReading (m : Machine) (s t : State) (value : Operand) : Prop :=
  ∃ source code, s.cursor.rest = source ++ t.cursor.rest ∧
    t.emitter.code.toList = s.emitter.code.toList ++ code ∧
    ∀ memory : Memory, ∃ after, memory.run? m code = some after ∧
      after.toWorld = memory.toWorld ∧ after.frames = memory.frames ∧
      (∀ r : Reg, r.number < s.counters.regs → after.regs r = memory.regs r) ∧
      ExprReads s.scopes.view m.interp memory.store source (after.value value)

/-- An expression log without diagnostics in a state with the invariant. -/
theorem Plays.clean {log : List Action} {s t : State} (h : Plays log s t) (hs : s.Sound)
    (hmisfit : ¬ s.HasMisfit) (hquiet : t.diagnostics = s.diagnostics) :
    Clean Action.Sound log := by
  have hafter : ¬ t.HasMisfit := by
    unfold State.HasMisfit
    rw [hquiet]
    exact hmisfit
  obtain ⟨found, hfound, hrecords⟩ := h.diagnostics
  rw [hquiet] at hfound
  have hnone : found = [] := by simpa using hfound
  intro action haction
  refine ⟨h.sound hs hafter action haction, ?_⟩
  rw [List.eq_nil_iff_forall_not_mem]
  intro kind hkind
  obtain ⟨d, hd, _⟩ := hrecords kind (List.mem_flatMap.2 ⟨action, haction, hkind⟩)
  rw [hnone] at hd
  cases hd

/-- Expressions that are compiled without a diagnostic mean what they say, under exact arithmetic
with any division. -/
theorem expression_compilesReading {tokens : List Token}
    (hscanned : ∀ token ∈ tokens, token.isScanned = true) {s t : State} {e : Expr}
    (hreachable : Reachable tokens s)
    (hconsts : ∀ d ∈ s.diagnostics.toList, d.kind ≠ .constInitialiser)
    (h : Pass.expression s = .ok e t) (hquiet : t.diagnostics = s.diagnostics)
    (div : Int → Int → Int) (call : String → List Int → Int) (strings : StringTable) :
    CompilesReading ⟨.exact div call, strings⟩ s t e.value := by
  have hplays := Pass.follows_expression s e t h
  have hmisfit : ¬ s.HasMisfit := by
    rintro ⟨d, hd, hkind⟩
    exact hconsts d hd hkind
  have hclean := hplays.fits e.all_log (hplays.clean (hreachable.sound hscanned) hmisfit hquiet)
  have hcomputes : Computes s.scopes.view ⟨.exact div call, strings⟩ e.log e.value
      (fun store => e.eval s.scopes.view (.exact div call) store) := e.computes
  obtain ⟨_, hrun⟩ := hcomputes s t hplays hclean
  refine ⟨e.log.flatMap Action.tokens, e.log.flatMap Action.code, hplays.rest hclean.kept,
    hplays.code, ?_⟩
  intro memory
  obtain ⟨after, hafter, hkeeps, hframes, hvalue⟩ := hrun memory
  refine ⟨after, hafter, hkeeps.world, hframes, hkeeps.regs, ?_⟩
  rw [hvalue]
  exact e.reads memory.store hplays hclean

/-- `k = -5; -k * x + f(2);` -/
def readingTokens : List Token :=
  scan 1 ["k = - 5 ; - k * x + f ( 2 ) ;"]

/-- A constant is declared, and then an expression with it is compiled. -/
def readingPass : Pass (State × Expr) := do
  Pass.declare .global { name := "x", kind := .variable, ty := .int }
  Pass.declare .global { name := "f", kind := .function, ty := .int, signature := "0" }
  let _ ← Pass.constItem .global .int
  let _ ← Pass.advance
  let s ← get
  let e ← Pass.expression
  return (s, e)

theorem compilesReading_sample : ∃ s t e, Reachable readingTokens s ∧
    Pass.expression s = .ok e t ∧ t.diagnostics = s.diagnostics ∧ e.value.isReg = true ∧
    ∀ div call strings, CompilesReading ⟨.exact div call, strings⟩ s t e.value := by
  have hsucceeds : readingPass.succeeds (.start {} readingTokens) (fun found t =>
      found.1.diagnostics = #[] ∧ t.diagnostics = #[] ∧ found.2.value.isReg = true) = true := by
    decide +kernel
  obtain ⟨⟨s, e⟩, t, h, hrun⟩ := Pass.eq_ok_of_succeeds hsucceeds
  obtain ⟨hbefore, hafter, hvalue⟩ := of_decide_eq_true hrun
  obtain ⟨_, s₁, hx, h⟩ := Pass.bind_eq_ok.1 h
  obtain ⟨_, s₂, hf, h⟩ := Pass.bind_eq_ok.1 h
  obtain ⟨item, s₃, hk, h⟩ := Pass.bind_eq_ok.1 h
  obtain ⟨token, s₄, hsemicolon, h⟩ := Pass.bind_eq_ok.1 h
  obtain ⟨_, s₅, hget, h⟩ := Pass.bind_eq_ok.1 h
  cases hget
  obtain ⟨_, s₆, hexpr, h⟩ := Pass.bind_eq_ok.1 h
  obtain ⟨hfound, rfl⟩ := Pass.pure_eq_ok.1 h
  cases hfound
  have hreachable : Reachable readingTokens s :=
    .advance (.constItem (.declare (.declare (.start {}) .global _ (by decide) hx) .global _
      (by decide) hf) .global .int hk) hsemicolon
  have hbefore : s.diagnostics = #[] := hbefore
  have hquiet : s₆.diagnostics = s.diagnostics := hafter.trans hbefore.symm
  refine ⟨s, s₆, _, hreachable, hexpr, hquiet, hvalue, ?_⟩
  intro div call strings
  exact expression_compilesReading (by decide) hreachable (by simp [hbefore]) hexpr hquiet
    div call strings

end OnePass
