import OnePass.Proofs.Lossless
import OnePass.Proofs.Names.Uses
import OnePass.Proofs.Semantics.Source

/-!
Constants that are written to. An assignment to a constant is recorded, and so is one to an element
of it and one by the step of a loop. That a value is read from the input into a constant is not
recorded: what is scanned is only looked up, and never asked for its kind.
-/

namespace OnePass

/-- Whether the innermost symbol of a name is a constant. -/
def Scopes.isConst (scopes : Scopes) (name : String) : Bool :=
  (scopes.nearest? name).any (·.kind == .const)

def Role.reads : Role → Bool
  | loaded | stepped => true
  | assigned | scanned => false

/-- Whether an instruction has the name of a constant where it writes to. -/
def Instr.writesConst (scopes : Scopes) (instr : Instr) : Bool :=
  instr.mentions.any fun mention => !mention.1.reads && scopes.isConst mention.2

section Mentions

theorem Instr.frames_of_mentions {instr : Instr} {mention : Role × String}
    (h : mention ∈ instr.mentions) : (Action.emit instr).frames = false := by
  cases instr with
  | param _ _ | var _ _ _ | funcDeclare _ _ | functionEnd | retVoid => cases h
  | _ => rfl

theorem Action.exists_emit_of_mentions {action : Action} {mention : Role × String}
    (h : mention ∈ action.mentions) : ∃ instr, action = .emit instr ∧ mention ∈ instr.mentions := by
  cases action with
  | emit instr => exact ⟨instr, rfl, h⟩
  | _ => cases h

theorem Use.nearest_mem_log (use : Use) :
    .nearest use.ref.token.value use.ref.symbol ∈ use.log := by
  obtain ⟨role, ref⟩ := use
  cases role <;>
    simp [log, NameRef.readLog, NameRef.targetLog, NameRef.scanLog, NameRef.log]

variable {tokens : List Token} {c : Compilation} {f : Function} {v : State}

/-- An occurrence was looked up among the names that its function has in scope. -/
theorem BodyAt.isConst_eq (hbody : BodyAt tokens c f v) (h : compile tokens = .ok c) {use : Use}
    (huse : use ∈ Stmt.allUses f.body.stmts) :
    v.scopes.isConst use.ref.token.value = use.ref.isConst := by
  obtain ⟨w, hplays⟩ := hbody.exists_plays h
  have hmem := Stmt.logs_subset f.head.ty f.body.stmts use huse use.nearest_mem_log
  obtain ⟨s, _, hscopes, hsymbol, _⟩ :=
    hplays.exists_performs (Stmt.all_logs f.head.ty f.body.stmts) hmem
  rw [Scopes.isConst, ← hscopes, hsymbol, NameRef.isConst]

/-- The code has the name of a constant in certain roles exactly where the program has. -/
theorem always_mentions_iff (h : compile tokens = .ok c) (p : Role → Prop) :
    c.Always tokens (fun scopes instr =>
        ∀ mention ∈ instr.mentions, p mention.1 → scopes.isConst mention.2 = false) ↔
      ∀ use ∈ c.program.uses, p use.role → use.ref.isConst = false := by
  rw [always_iff h]
  constructor
  · intro hcode use huse hrole
    obtain ⟨f, hf, huse⟩ := List.mem_flatMap.1 huse
    obtain ⟨v, hbody⟩ := exists_bodyAt h hf
    obtain ⟨w, hplays⟩ := hbody.exists_plays h
    have hmention : use.mention ∈ mentionsOf (Stmt.logs f.head.ty f.body.stmts) := by
      rw [Stmt.mentionsOf_logs]
      exact List.mem_map_of_mem huse
    obtain ⟨action, haction, hmention⟩ := List.mem_flatMap.1 hmention
    obtain ⟨instr, rfl, hmention⟩ := Action.exists_emit_of_mentions hmention
    obtain ⟨u, hemits⟩ := Emits.exists_of_mem hplays haction
    have hemitted := (emits_iff_of_frames (Instr.frames_of_mentions hmention)).2
      ⟨f, v, hbody, hemits⟩
    have hconst := hcode instr u hemitted use.mention hmention hrole
    rwa [hemits.scopes_eq (Stmt.all_logs _ _), Use.mention, hbody.isConst_eq h huse] at hconst
  · intro huses instr u hemits mention hmention hrole
    obtain ⟨f, v, hbody, hemits⟩ :=
      (emits_iff_of_frames (Instr.frames_of_mentions hmention)).1 hemits
    have hmention : mention ∈ mentionsOf (Stmt.logs f.head.ty f.body.stmts) :=
      List.mem_flatMap.2 ⟨_, hemits.mem, hmention⟩
    rw [Stmt.mentionsOf_logs] at hmention
    obtain ⟨use, huse, rfl⟩ := List.mem_map.1 hmention
    rw [hemits.scopes_eq (Stmt.all_logs _ _), Use.mention, hbody.isConst_eq h huse]
    exact huses use (List.mem_flatMap.2 ⟨f, hbody.mem, huse⟩) hrole

end Mentions

section Writes

variable {tokens : List Token} {c : Compilation}

theorem always_writesConst_iff (h : compile tokens = .ok c) :
    c.Always tokens (fun scopes instr => instr.writesConst scopes = false) ↔
      ∀ use ∈ c.program.uses, use.role.reads = false → use.ref.isConst = false := by
  have hmentions := always_mentions_iff h fun role => role.reads = false
  simpa [Instr.writesConst] using hmentions

/-- What a program assigns to without a diagnostic is no constant. -/
theorem isConst_eq_false_of_assigned (h : compile tokens = .ok c) (hquiet : c.diagnostics = [])
    {use : Use} (huse : use ∈ c.program.uses) (hrole : use.role = .assigned) :
    use.ref.isConst = false := by
  obtain ⟨f, hf, huse⟩ := List.mem_flatMap.1 huse
  obtain ⟨v, hbody⟩ := exists_bodyAt h hf
  rw [NameRef.isConst, Option.any_eq_false]
  intro symbol hsymbol
  by_cases hkind : symbol.kind = .const
  · have hreport : .report use.ref.token.line .assignToConst ∈ use.log := by
      simp [Use.log, hrole, NameRef.targetLog, hsymbol, Action.when, hkind]
    have hlogged := hbody.subset (Stmt.logs_subset f.head.ty f.body.stmts use huse hreport)
    obtain ⟨d, hd, _⟩ := reported_of_compile h hlogged List.mem_cons_self
    rw [hquiet] at hd
    cases hd
  · simpa using hkind

/-- A program without diagnostics assigns to no constant. It writes to none at all if and only if
it scans none. -/
theorem neverWritesConst_iff (h : compile tokens = .ok c) (hquiet : c.diagnostics = []) :
    c.Always tokens (fun scopes instr =>
        ∀ mention ∈ instr.mentions, mention.1 = .assigned → scopes.isConst mention.2 = false) ∧
      (c.Always tokens (fun scopes instr => instr.writesConst scopes = false) ↔
        ∀ use ∈ c.program.uses, use.role = .scanned → use.ref.isConst = false) := by
  have hassigned : ∀ use ∈ c.program.uses, use.role = .assigned → use.ref.isConst = false :=
    fun use => isConst_eq_false_of_assigned h hquiet
  refine ⟨(always_mentions_iff h (· = .assigned)).2 hassigned, ?_⟩
  rw [always_writesConst_iff h]
  constructor
  · intro hwritten use huse hrole
    exact hwritten use huse (congrArg Role.reads hrole)
  · intro hscanned use huse hwrites
    cases hrole : use.role with
    | loaded | stepped =>
        rw [hrole] at hwrites
        cases hwrites
    | assigned => exact hassigned use huse hrole
    | scanned => exact hscanned use huse hrole

end Writes

/-- `const int k = 3; int a[4]; void main() { int i; scanf(i); for (i = k; i < 4; i = i + 1)
a[i] = k; }` -/
def filledTokens : List Token :=
  scan 1 ["const int k = 3 ;", "int a [ 4 ] ;", "void main ( ) \x7b", "int i ;", "scanf ( i ) ;",
    "for ( i = k ; i < 4 ; i = i + 1 )", "a [ i ] = k ;", "\x7d"]

theorem neverWritesConst_filledTokens : ∃ c, compile filledTokens = .ok c ∧ c.diagnostics = [] ∧
    c.program.uses.map Use.mention = [(.scanned, "i"), (.assigned, "i"), (.assigned, "a"),
      (.assigned, "i"), (.stepped, "i")] ∧
    c.Always filledTokens (fun scopes instr => instr.writesConst scopes = false) := by
  have hc := eq_ok_get (compile filledTokens) (by decide +kernel)
  refine ⟨_, hc, by decide +kernel, by decide +kernel, ?_⟩
  exact (neverWritesConst_iff hc (by decide +kernel)).2.2 (by decide +kernel)

/-- `const int k = 3; void main() { scanf(k); }` -/
def constScanTokens : List Token :=
  scan 1 ["const int k = 3 ;", "void main ( ) \x7b", "scanf ( k ) ;", "\x7d"]

/-- A value is read into a constant, and nothing is recorded. -/
theorem writesConst_constScanTokens : ∃ c, compile constScanTokens = .ok c ∧
    c.diagnostics = [] ∧ .scan .int "k" ∈ c.code ∧
    ¬ c.Always constScanTokens (fun scopes instr => instr.writesConst scopes = false) := by
  have hc := eq_ok_get (compile constScanTokens) (by decide +kernel)
  refine ⟨_, hc, by decide +kernel, by decide +kernel, fun hnever => ?_⟩
  exact absurd ((always_writesConst_iff hc).1 hnever) (by decide +kernel)

end OnePass
