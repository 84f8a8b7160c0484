import OnePass.Proofs.Rename.Syntax
import OnePass.Proofs.Steps
import OnePass.Proofs.Trace.Sink

/-!
Two runs of a pass that differ by a renaming. The second run starts from a state that has a code,
texts, diagnostics and tables of its own already; what the first run adds to its state, the second
adds to its own, renamed. Such runs go hand in hand: both succeed, with a result and a renamed
result, or both fail, with an error and the renamed error.
-/

namespace OnePass

/-- What the second of two runs had already where the first had nothing. -/
structure Residue where
  code : List Instr := []
  texts : List String := []
  diagnostics : List Diagnostic := []
  tables : SymbolTables := {}

/-- How much is known to be the same in two runs: the last line, once they have moved, and the
local names, once these have been reset. -/
structure Stage where
  moved : Bool
  live : Bool

namespace Stage

/-- Between two parts of a program: nothing has been read yet, and the local names that are left
over from a function are of no use. -/
abbrev outer : Stage := ⟨false, false⟩

/-- Inside a function. -/
abbrev inner : Stage := ⟨true, true⟩

end Stage

/-- The second state is the first one, renamed, on top of a residue. -/
structure Mirrors (ρ : Renaming) (old : Residue) (stage : Stage) (s s' : State) : Prop where
  rest : s'.cursor.rest = s.cursor.rest.map (Token.rename ρ)
  lastLine : stage.moved = true → s'.cursor.lastLine = ρ.line s.cursor.lastLine
  globals : s'.scopes.globals = s.scopes.globals
  locals : stage.live = true → s'.scopes.locals = s.scopes.locals
  texts : s'.strings.toList = old.texts ++ s.strings.toList
  code : s'.emitter.code.toList = old.code ++ s.emitter.code.toList.map (Instr.rename ρ)
  free : s.emitter.sink.limit = none
  free' : s'.emitter.sink.limit = none
  regs : s'.counters.regs = ρ.regs + s.counters.regs
  labels : s'.counters.labels = ρ.labels + s.counters.labels
  diagnostics : s'.diagnostics.toList =
    old.diagnostics ++ s.diagnostics.toList.map (Diagnostic.rename ρ)
  tables : ∀ key : String, s'.tables[key]? = s.tables[key]?.or old.tables[key]?

/-- Two results that differ by a renaming, `f` for what was returned. -/
inductive Agree {α : Type} (ρ : Renaming) (old : Residue) (stage : Stage) (f : α → α) :
    EStateM.Result ParseError State α → EStateM.Result ParseError State α → Prop where
  | ok {a : α} {t t' : State} : Mirrors ρ old stage t t' →
      Agree ρ old stage f (.ok a t) (.ok (f a) t')
  | error {error : ParseError} {t t' : State} : Mirrors ρ old .outer t t' →
      Agree ρ old stage f (.error error t) (.error (error.rename ρ) t')

/-- Two passes that give renamed results in renamed states. -/
def Sim {α : Type} (ρ : Renaming) (old : Residue) (pre post : Stage) (f : α → α)
    (pass pass' : Pass α) : Prop :=
  ∀ s s', Mirrors ρ old pre s s' → Agree ρ old post f (pass s) (pass' s')

/-- A pass that gives renamed results in renamed states. -/
abbrev Respects {α : Type} (ρ : Renaming) (old : Residue) (pre post : Stage) (f : α → α)
    (pass : Pass α) : Prop :=
  Sim ρ old pre post f pass pass

variable {α β ι : Type} {ρ : Renaming} {old : Residue} {stage pre mid post : Stage}

namespace Mirrors

variable {s s' : State}

/-- What is known may be forgotten. -/
theorem mono (h : Mirrors ρ old stage s s') (hmoved : post.moved = true → stage.moved = true)
    (hlive : post.live = true → stage.live = true) : Mirrors ρ old post s s' :=
  { h with
    lastLine := fun hpost => h.lastLine (hmoved hpost)
    locals := fun hpost => h.locals (hlive hpost) }

theorem outer (h : Mirrors ρ old stage s s') : Mirrors ρ old .outer s s' :=
  h.mono (fun hmoved => absurd hmoved (by decide)) (fun hlive => absurd hlive (by decide))

theorem take (h : Mirrors ρ old stage s s') (token : Token) (rest : List Token) :
    Mirrors ρ old ⟨true, stage.live⟩ (s.take token rest)
      (s'.take (token.rename ρ) (rest.map (Token.rename ρ))) :=
  { h with
    rest := rfl
    lastLine := fun _ => rfl }

theorem peekKind? (h : Mirrors ρ old stage s s') (offset : Nat) :
    s'.cursor.peekKind? offset = s.cursor.peekKind? offset := by
  simp only [Cursor.peekKind?, Cursor.peek?, h.rest, List.getElem?_map, Option.map_map]
  rfl

/-- The same change to the names in scope. -/
theorem rescope (h : Mirrors ρ old stage s s') {scopes scopes' : Scopes}
    (hglobals : scopes'.globals = scopes.globals)
    (hlocals : post.live = true → scopes'.locals = scopes.locals)
    (hmoved : post.moved = stage.moved) :
    Mirrors ρ old post { s with scopes } { s' with scopes := scopes' } :=
  { h with
    globals := hglobals
    locals := hlocals
    lastLine := fun hpost => h.lastLine (hmoved ▸ hpost) }

theorem lookup? (h : Mirrors ρ old stage s s') {scope : Scope}
    (hscope : scope = .local → stage.live = true) (name : String) :
    s'.scopes.lookup? scope name = s.scopes.lookup? scope name := by
  cases scope with
  | global => simp only [Scopes.lookup?, Scopes.table, h.globals]
  | «local» => simp only [Scopes.lookup?, Scopes.table, h.locals (hscope rfl)]

end Mirrors

theorem Agree.mono {f : α → α} {r r' : EStateM.Result ParseError State α}
    (h : Agree ρ old stage f r r') (hmoved : post.moved = true → stage.moved = true)
    (hlive : post.live = true → stage.live = true) : Agree ρ old post f r r' := by
  cases h with
  | ok ht => exact .ok (ht.mono hmoved hlive)
  | error ht => exact .error ht

theorem Agree.exists_ok {f : α → α} {a : α} {t : State} {r' : EStateM.Result ParseError State α}
    (h : Agree ρ old stage f (.ok a t) r') :
    ∃ t', r' = .ok (f a) t' ∧ Mirrors ρ old stage t t' := by
  cases h with
  | ok ht => exact ⟨_, rfl, ht⟩

theorem Agree.exists_error {f : α → α} {error : ParseError} {t : State}
    {r' : EStateM.Result ParseError State α} (h : Agree ρ old stage f (.error error t) r') :
    ∃ t', r' = .error (error.rename ρ) t' ∧ Mirrors ρ old .outer t t' := by
  cases h with
  | error ht => exact ⟨_, rfl, ht⟩

namespace Sim

section Rules

variable {f : α → α} {g : β → β}

theorem pure {a b : α} (h : b = f a) :
    Sim ρ old stage stage f (Pure.pure a) (Pure.pure b) := by
  intro s s' hs
  rw [h]
  exact .ok hs

theorem throw {error error' : ParseError} (h : error' = error.rename ρ) :
    Sim ρ old pre post f (MonadExcept.throw error) (MonadExcept.throw error') := by
  intro s s' hs
  rw [h]
  exact .error hs.outer

theorem bind {step step' : Pass α} {next next' : α → Pass β}
    (hstep : Sim ρ old pre mid f step step')
    (hnext : ∀ a, Sim ρ old mid post g (next a) (next' (f a))) :
    Sim ρ old pre post g (step >>= next) (step' >>= next') := by
  intro s s' hs
  have hagree := hstep s s' hs
  cases hrun : step s with
  | ok a u =>
      rw [hrun] at hagree
      obtain ⟨u', hrun', hu⟩ := hagree.exists_ok
      rw [Pass.bind_of_ok hrun, Pass.bind_of_ok hrun']
      exact hnext a u u' hu
  | error error u =>
      rw [hrun] at hagree
      obtain ⟨u', hrun', hu⟩ := hagree.exists_error
      rw [Pass.bind_of_error hrun, Pass.bind_of_error hrun']
      exact .error hu

theorem mono {pass pass' : Pass α} {stronger weaker : Stage}
    (h : Sim ρ old pre post f pass pass')
    (hmoved : pre.moved = true → stronger.moved = true)
    (hlive : pre.live = true → stronger.live = true)
    (hmoved' : weaker.moved = true → post.moved = true)
    (hlive' : weaker.live = true → post.live = true) :
    Sim ρ old stronger weaker f pass pass' := by
  intro s s' hs
  exact (h s s' (hs.mono hmoved hlive)).mono hmoved' hlive'

theorem ite {condition condition' : Prop} [Decidable condition] [Decidable condition']
    {yes yes' no no' : Pass α} (hcondition : condition' ↔ condition)
    (hyes : Sim ρ old pre post f yes yes') (hno : Sim ρ old pre post f no no') :
    Sim ρ old pre post f (if condition then yes else no) (if condition' then yes' else no') := by
  by_cases h : condition
  · rw [if_pos h, if_pos (hcondition.2 h)]
    exact hyes
  · rw [if_neg h, if_neg fun h' => h (hcondition.1 h')]
    exact hno

/-- A step under a condition, and what follows it in either case. -/
theorem joined {condition condition' : Prop} [Decidable condition] [Decidable condition']
    {step step' : Pass Unit} {next next' : Unit → Pass β} (hcondition : condition' ↔ condition)
    (hstep : Sim ρ old pre pre id step step')
    (hnext : ∀ u, Sim ρ old pre post g (next u) (next' u)) :
    Sim ρ old pre post g (if condition then step >>= next else next ())
      (if condition' then step' >>= next' else next' ()) :=
  .ite hcondition (.bind hstep hnext) (hnext ())

end Rules

section Steps

theorem advance : Respects ρ old stage ⟨true, stage.live⟩ (Token.rename ρ) Pass.advance := by
  intro s s' hs
  have hrest' := hs.rest
  cases hrest : s.cursor.rest with
  | nil =>
      rw [hrest] at hrest'
      rw [Pass.advance_nil hrest, Pass.advance_nil hrest']
      exact .error hs.outer
  | cons token rest =>
      rw [hrest, List.map_cons] at hrest'
      rw [Pass.advance_cons hrest, Pass.advance_cons hrest']
      exact .ok (hs.take token rest)

theorem current : Respects ρ old stage stage (Token.rename ρ) Pass.current := by
  intro s s' hs
  have hrest' := hs.rest
  cases hrest : s.cursor.rest with
  | nil =>
      rw [hrest] at hrest'
      rw [Pass.current_nil hrest, Pass.current_nil hrest']
      exact .error hs.outer
  | cons token rest =>
      rw [hrest, List.map_cons] at hrest'
      rw [Pass.current_cons hrest, Pass.current_cons hrest']
      exact .ok hs

theorem expect (kind : TokenKind) :
    Respects ρ old stage ⟨true, stage.live⟩ (Token.rename ρ) (Pass.expect kind) := by
  intro s s' hs
  have hrest' := hs.rest
  cases hrest : s.cursor.rest with
  | nil =>
      rw [hrest] at hrest'
      rw [Pass.expect_nil hrest, Pass.expect_nil hrest']
      exact .error hs.outer
  | cons token rest =>
      rw [hrest, List.map_cons] at hrest'
      rw [Pass.expect_cons hrest, Pass.expect_cons hrest', Token.rename]
      by_cases hkind : token.kind = kind
      · rw [if_pos hkind, if_pos hkind]
        exact .ok (hs.take token rest)
      · rw [if_neg hkind, if_neg hkind]
        exact .error hs.outer

theorem unexpected (expected : Expected) (f : α → α) :
    Respects ρ old pre post f (Pass.unexpected expected) := by
  intro s s' hs
  have hrest' := hs.rest
  cases hrest : s.cursor.rest with
  | nil =>
      rw [hrest] at hrest'
      rw [Pass.unexpected_nil hrest, Pass.unexpected_nil hrest']
      exact .error hs.outer
  | cons token rest =>
      rw [hrest, List.map_cons] at hrest'
      rw [Pass.unexpected_cons hrest, Pass.unexpected_cons hrest']
      exact .error hs.outer

theorem peekKind (offset : Nat) : Respects ρ old stage stage id (Pass.peekKind offset) := by
  intro s s' hs
  unfold Pass.peekKind
  rw [hs.peekKind? offset]
  exact .ok hs

theorem nextIs (kind : TokenKind) : Respects ρ old stage stage id (Pass.nextIs kind) := by
  intro s s' hs
  unfold Pass.nextIs Cursor.nextIs
  rw [hs.peekKind? 0]
  exact .ok hs

/-- A token that may be there, and what follows in either case. -/
theorem accept {kind : TokenKind} {next next' : Option Token → Pass β} {g : β → β}
    (hnone : Sim ρ old pre post g (next none) (next' none))
    (hsome : ∀ token, Sim ρ old ⟨true, pre.live⟩ post g (next (some token))
      (next' (some (token.rename ρ)))) :
    Sim ρ old pre post g (Pass.accept kind >>= next) (Pass.accept kind >>= next') := by
  intro s s' hs
  have hrest' := hs.rest
  cases hrest : s.cursor.rest with
  | nil =>
      rw [hrest] at hrest'
      rw [Pass.bind_of_ok (Pass.accept_nil hrest), Pass.bind_of_ok (Pass.accept_nil hrest')]
      exact hnone s s' hs
  | cons token rest =>
      rw [hrest, List.map_cons] at hrest'
      have haccept : Pass.accept kind s = _ := Pass.accept_cons hrest
      have haccept' : Pass.accept kind s' = _ := Pass.accept_cons hrest'
      by_cases hkind : token.kind = kind
      · rw [if_pos hkind] at haccept
        rw [if_pos (show (token.rename ρ).kind = kind from hkind)] at haccept'
        rw [Pass.bind_of_ok haccept, Pass.bind_of_ok haccept']
        exact hsome token _ _ (hs.take token rest)
      · rw [if_neg hkind] at haccept
        rw [if_neg (show ¬ (token.rename ρ).kind = kind from hkind)] at haccept'
        rw [Pass.bind_of_ok haccept, Pass.bind_of_ok haccept']
        exact hnone s s' hs

/-- A token that may stand for something, and what follows in either case. -/
theorem acceptAs {meaning? : TokenKind → Option α} {next next' : Option (α × Token) → Pass β}
    {g : β → β} (hnone : Sim ρ old pre post g (next none) (next' none))
    (hsome : ∀ meaning token, Sim ρ old ⟨true, pre.live⟩ post g (next (some (meaning, token)))
      (next' (some (meaning, token.rename ρ)))) :
    Sim ρ old pre post g (Pass.acceptAs meaning? >>= next) (Pass.acceptAs meaning? >>= next') := by
  intro s s' hs
  have hrest' := hs.rest
  cases hrest : s.cursor.rest with
  | nil =>
      rw [hrest] at hrest'
      rw [Pass.bind_of_ok (Pass.acceptAs_nil hrest), Pass.bind_of_ok (Pass.acceptAs_nil hrest')]
      exact hnone s s' hs
  | cons token rest =>
      rw [hrest, List.map_cons] at hrest'
      cases hmeaning : meaning? token.kind with
      | none =>
          rw [Pass.bind_of_ok (Pass.acceptAs_cons_none hrest hmeaning),
            Pass.bind_of_ok (Pass.acceptAs_cons_none hrest' hmeaning)]
          exact hnone s s' hs
      | some meaning =>
          rw [Pass.bind_of_ok (Pass.acceptAs_cons_some hrest hmeaning),
            Pass.bind_of_ok (Pass.acceptAs_cons_some hrest' hmeaning)]
          exact hsome meaning token _ _ (hs.take token rest)

theorem report {line line' : UInt64} (h : line' = ρ.line line) (kind : DiagnosticKind) :
    Sim ρ old stage stage id (Pass.report line kind) (Pass.report line' kind) := by
  intro s s' hs
  refine .ok { hs with diagnostics := ?_ }
  simp only [Array.toList_push, hs.diagnostics, List.map_append, List.append_assoc, h]
  rfl

theorem lastLine (hmoved : stage.moved = true) :
    Respects ρ old stage stage ρ.line Pass.lastLine := by
  intro s s' hs
  unfold Pass.lastLine
  rw [hs.lastLine hmoved]
  exact .ok hs

theorem recover (hmoved : stage.moved = true) (kind : TokenKind) (missing : DiagnosticKind) :
    Respects ρ old stage stage (Option.map (Token.rename ρ)) (Pass.recover kind missing) := by
  rw [Pass.recover_eq]
  refine .accept ?_ fun token => ?_
  · exact .bind (.lastLine hmoved) fun _ => .bind (.report rfl _) fun _ => .pure rfl
  · exact (Sim.pure rfl).mono (fun _ => rfl) id (fun _ => rfl) id

theorem emit {instr instr' : Instr} (h : instr' = instr.rename ρ) :
    Sim ρ old stage stage id (Pass.emit instr) (Pass.emit instr') := by
  intro s s' hs
  rw [Pass.emit_of_unlimited hs.free, Pass.emit_of_unlimited hs.free', Emitter.emit, Emitter.emit,
    Sink.write_of_unlimited hs.free, Sink.write_of_unlimited hs.free', h]
  refine .ok { hs with code := ?_, free := hs.free, free' := hs.free' }
  simp only [Array.toList_push, hs.code, List.map_append, List.append_assoc]
  rfl

theorem freshReg : Respects ρ old stage stage (Reg.rename ρ) Pass.freshReg := by
  intro s s' hs
  unfold Pass.freshReg Counters.freshReg
  rw [hs.regs]
  exact .ok { hs with regs := Nat.add_assoc _ _ _ }

theorem freshLabel : Respects ρ old stage stage (Label.rename ρ) Pass.freshLabel := by
  intro s s' hs
  unfold Pass.freshLabel Counters.freshLabel
  rw [hs.labels]
  exact .ok { hs with labels := Nat.add_assoc _ _ _ }

theorem intern (htexts : ρ.texts = old.texts.length) (text : String) :
    Respects ρ old stage stage (ρ.texts + ·) (Pass.intern text) := by
  intro s s' hs
  have hsize : s'.strings.texts.size = ρ.texts + s.strings.texts.size := by
    have hlength := congrArg List.length hs.texts
    simpa [StringTable.toList, htexts] using hlength
  unfold Pass.intern StringTable.intern
  rw [hsize]
  refine .ok { hs with texts := ?_ }
  have htoList := hs.texts
  simp only [StringTable.toList, Array.toList_push] at htoList ⊢
  rw [htoList, List.append_assoc]

theorem nearest? (hlive : stage.live = true) (name : String) :
    Respects ρ old stage stage id (Pass.nearest? name) := by
  intro s s' hs
  unfold Pass.nearest? Scopes.nearest?
  rw [hs.globals, hs.locals hlive]
  exact .ok hs

theorem function? (name : String) : Respects ρ old stage stage id (Pass.function? name) := by
  intro s s' hs
  unfold Pass.function? Scopes.function?
  rw [hs.globals]
  exact .ok hs

theorem lookup? {scope : Scope} (hscope : scope = .local → stage.live = true) (name : String) :
    Respects ρ old stage stage id (Pass.lookup? scope name) := by
  intro s s' hs
  unfold Pass.lookup?
  rw [hs.lookup? hscope]
  exact .ok hs

theorem declare {scope : Scope} (hscope : scope = .local → stage.live = true) (symbol : Symbol) :
    Respects ρ old stage stage id (Pass.declare scope symbol) := by
  intro s s' hs
  refine .ok (hs.rescope ?_ ?_ rfl)
  · cases scope with
    | global => exact congrArg (SymbolTable.declare · symbol) hs.globals
    | «local» => exact hs.globals
  · intro hlive
    cases scope with
    | global => exact hs.locals hlive
    | «local» => exact congrArg (SymbolTable.declare · symbol) (hs.locals hlive)

theorem resetLocals : Respects ρ old stage ⟨stage.moved, true⟩ id Pass.resetLocals := by
  intro s s' hs
  exact .ok (hs.rescope hs.globals (fun _ => rfl) rfl)

theorem addParameter (function : String) (ty : Ty) :
    Respects ρ old stage stage id (Pass.addParameter function ty) := by
  intro s s' hs
  unfold Pass.addParameter
  by_cases hvoid : ty.signatureCode?.isNone = true
  · rw [if_pos hvoid, if_pos hvoid]
    exact .error hs.outer
  · rw [if_neg hvoid, if_neg hvoid]
    refine .ok (hs.rescope ?_ hs.locals rfl)
    simp only [Scopes.modify, Scopes.update, hs.globals]

theorem noteOverflow (overflows : Bool) :
    Respects ρ old stage stage id (Pass.noteOverflow overflows) :=
  fun _ _ hs => .ok { hs with }

theorem keepTable {scope : Scope} (hscope : scope = .local → stage.live = true) (name : String) :
    Respects ρ old stage stage id (Pass.keepTable name scope) := by
  intro s s' hs
  have htable : s'.scopes.table scope = s.scopes.table scope := by
    cases scope with
    | global => exact hs.globals
    | «local» => exact hs.locals (hscope rfl)
  unfold Pass.keepTable
  rw [htable]
  refine .ok { hs with tables := ?_ }
  intro key
  simp only [Std.TreeMap.getElem?_insert, hs.tables]
  split
  · rfl
  · rfl

theorem checkRedefinition {scope : Scope} (hscope : scope = .local → stage.live = true)
    (name : Token) : Sim ρ old stage stage id (Pass.checkRedefinition scope name)
      (Pass.checkRedefinition scope (name.rename ρ)) :=
  .bind (.lookup? hscope name.value) fun _ =>
    .ite Iff.rfl (.report rfl _) (.pure rfl)

theorem resolve (hlive : stage.live = true) (name : Token) :
    Sim ρ old stage stage (NameRef.rename ρ) (Pass.resolve name)
      (Pass.resolve (name.rename ρ)) :=
  .bind (.nearest? hlive name.value) fun _ => .pure rfl

theorem skipPast (kind : TokenKind) :
    Respects ρ old stage ⟨true, stage.live⟩ id (Pass.onCursor (Cursor.skipPast kind)) := by
  intro s s' hs
  induction hrest : s.cursor.rest generalizing s s' stage with
  | nil =>
      have hrest' := hs.rest
      rw [hrest] at hrest'
      rw [Pass.skipPast_nil hrest, Pass.skipPast_nil hrest']
      exact .error hs.outer
  | cons token rest ih =>
      have hrest' := hs.rest
      rw [hrest, List.map_cons] at hrest'
      rw [Pass.skipPast_cons hrest, Pass.skipPast_cons hrest', Token.rename]
      by_cases hkind : token.kind = kind
      · rw [if_pos hkind, if_pos hkind]
        exact .ok (hs.take token rest)
      · rw [if_neg hkind, if_neg hkind]
        have hagree := ih _ _ (hs.take token rest) rfl
        exact hagree

theorem skipClosing (depth : Nat) :
    Respects ρ old stage ⟨true, stage.live⟩ id (Pass.skipClosing depth) := by
  intro s s' hs
  induction hrest : s.cursor.rest generalizing s s' stage depth with
  | nil =>
      have hrest' := hs.rest
      rw [hrest] at hrest'
      rw [Pass.skipClosing_nil hrest, Pass.skipClosing_nil hrest']
      exact .error hs.outer
  | cons token rest ih =>
      have hrest' := hs.rest
      rw [hrest, List.map_cons] at hrest'
      rw [Pass.skipClosing_cons hrest, Pass.skipClosing_cons hrest', Token.rename]
      cases Pass.depthAfter depth token.kind with
      | none => exact .ok (hs.take token rest)
      | some depth =>
          have hagree := ih depth _ _ (hs.take token rest) rfl
          exact hagree

end Steps

section Loops

/-- Both runs have as many tokens ahead, so that they nest to the same depth. -/
theorem nestFrom {phrase : (ι → Pass α) → ι → Pass α} {f : α → α} {j : ι → ι}
    (hphrase : ∀ again, (∀ i, Sim ρ old pre post f (again i) (again (j i))) →
      ∀ i, Sim ρ old pre post f (phrase again i) (phrase again (j i))) (i : ι) :
    Sim ρ old pre post f (Pass.nestFrom phrase i) (Pass.nestFrom phrase (j i)) := by
  have hbound : ∀ bound i, Sim ρ old pre post f (Pass.nestUpTo phrase bound i)
      (Pass.nestUpTo phrase bound (j i)) := by
    intro bound
    induction bound with
    | zero => exact fun _ => .throw rfl
    | succ bound ih => exact hphrase _ ih
  intro s s' hs
  have hlength : s'.cursor.rest.length = s.cursor.rest.length := by
    rw [hs.rest, List.length_map]
  change Agree ρ old post f (Pass.nestUpTo phrase (s.cursor.rest.length + 1) i s)
    (Pass.nestUpTo phrase (s'.cursor.rest.length + 1) (j i) s')
  rw [hlength]
  exact hbound _ i s s' hs

theorem nest {phrase : Pass α → Pass α} {f : α → α}
    (hphrase : ∀ again, Respects ρ old pre post f again →
      Respects ρ old pre post f (phrase again)) : Respects ρ old pre post f (Pass.nest phrase) :=
  nestFrom (j := id) (fun again hagain _ => hphrase (again ()) (hagain ())) ()

theorem many {item : Pass (Option α)} {f : α → α}
    (hitem : Respects ρ old stage stage (Option.map f) item) :
    Respects ρ old stage stage (List.map f) (Pass.many item) := by
  refine .nest fun more hmore => .bind hitem fun found => ?_
  cases found with
  | none => exact .pure rfl
  | some a => exact .bind hmore fun rest => .pure rfl

theorem extend {link : α → Pass (Option α)} {f : α → α}
    (hlink : ∀ a, Sim ρ old stage stage (Option.map f) (link a) (link (f a))) (a : α) :
    Sim ρ old stage stage f (Pass.extend link a) (Pass.extend link (f a)) := by
  refine nestFrom (j := f) (fun more hmore a => .bind (hlink a) fun found => ?_) a
  cases found with
  | none => exact .pure rfl
  | some longer => exact hmore longer

theorem commaList {item : Pass α} {f : α → α}
    (hitem : Respects ρ old stage stage f item) :
    Respects ρ old stage stage (CommaList.rename ρ f) (Pass.commaList item) := by
  refine .nest fun more hmore => .bind hitem fun a => .accept (.pure rfl) fun comma => ?_
  have hrest : Sim ρ old stage stage (CommaList.rename ρ f)
      (more >>= fun rest => Pure.pure (.cons a comma rest))
      (more >>= fun rest => Pure.pure (.cons (f a) (comma.rename ρ) rest)) :=
    .bind hmore fun rest => .pure rfl
  exact hrest.mono (fun _ => rfl) id id id

theorem forM {items : List α} {step step' : α → Pass Unit} {f : α → α}
    (hstep : ∀ a, Sim ρ old stage stage id (step a) (step' (f a))) :
    Sim ρ old stage stage id (items.forM step) ((items.map f).forM step') := by
  induction items with
  | nil => exact .pure rfl
  | cons item items ih => exact .bind (hstep item) fun _ => ih

end Loops

end Sim

end OnePass
