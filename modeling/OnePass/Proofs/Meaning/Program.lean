import OnePass.Proofs.Meaning.Reading
import OnePass.Proofs.Meaning.Simulation
import OnePass.Proofs.Names.Redefinitions

/-!
The code of a whole program is the code of its declarations and functions, one after the other.
The code of each function does what the function means: whenever the body ends, so does the code,
with the same world and the same result. Names stand there for what the declarators in front of
its statements say.
-/

namespace OnePass

def VarDecl.code (decl : VarDecl) : List Instr :=
  decl.items.toList.flatMap fun item => [.var decl.type.ty item.name.value item.length]

/-- The code of a function, from its announcement to its end. -/
def Function.code (f : Function) : List Instr :=
  (.funcDeclare f.head.ty f.head.name.value ::
      f.head.params.map fun param => .param param.type.ty param.name.value) ++
    (f.body.vars.flatMap VarDecl.code ++ (Stmt.codes f.body.stmts ++
      ((if f.head.ty = .void then [.retVoid] else []) ++ [.functionEnd])))

def TopLevel.code : TopLevel → List Instr
  | .consts _ => []
  | .vars decls => decls.flatMap VarDecl.code
  | .function f => f.code

theorem VarDecl.code_log (scope : Scope) (decl : VarDecl) :
    (decl.log scope).flatMap Action.code = decl.code := by
  have hitem : ∀ item : VarItem, (item.log scope decl.type.ty).flatMap Action.code =
      [.var decl.type.ty item.name.value item.length] := by
    intro item
    simp [VarItem.log, code_of_idle item.all_sizeLog, Action.code]
  rw [VarDecl.log, List.flatMap_append, List.flatMap_append, code_of_idle decl.type.all_log,
    CommaList.code_log hitem, code_semicolonLog, List.append_nil]
  rfl

theorem code_flatMap {α : Type} {itemLog : α → List Action} {itemCode : α → List Instr}
    (hitem : ∀ item, (itemLog item).flatMap Action.code = itemCode item) (items : List α) :
    (items.flatMap itemLog).flatMap Action.code = items.flatMap itemCode := by
  rw [List.flatMap_assoc]
  exact congrArg (items.flatMap ·) (funext hitem)

theorem Function.code_log (f : Function) : f.log.flatMap Action.code = f.code := by
  have hconsts : (f.body.consts.flatMap (ConstDecl.log .local)).flatMap Action.code = [] := by
    rw [code_flatMap fun decl => code_of_idle (ConstDecl.all_log .local decl)]
    simp
  have hvars := code_flatMap (VarDecl.code_log .local) f.body.vars
  have hannounce : f.head.announceLog.flatMap Action.code =
      .funcDeclare f.head.ty f.head.name.value ::
        f.head.params.map fun param => .param param.type.ty param.name.value := by
    rw [FunctionHead.announceLog, List.flatMap_cons, List.flatMap_map, List.map_eq_flatMap]
    rfl
  have hreport := code_of_idle (all_when (p := Action.idle)
    (f.head.ty ≠ .void ∧ Stmt.anyAlwaysReturns f.body.stmts = false)
    (.report f.rbrace.line .missingReturn) rfl)
  have hret : (Action.when (f.head.ty = .void) (.emit .retVoid)).flatMap Action.code =
      if f.head.ty = .void then [.retVoid] else [] := by
    unfold Action.when
    split <;> rfl
  simp only [Function.log, Body.log, Function.code, List.flatMap_append, List.flatMap_cons,
    List.flatMap_nil, code_of_idle f.head.all_log, hannounce, hconsts, hvars, hreport, hret,
    Stmt.codes_logs, Action.code, List.nil_append, List.append_nil, List.append_assoc]

theorem TopLevel.code_log (item : TopLevel) : item.log.flatMap Action.code = item.code := by
  cases item with
  | consts decls =>
      rw [TopLevel.log, code_flatMap fun decl => code_of_idle (ConstDecl.all_log .global decl)]
      simp [TopLevel.code]
  | vars decls => exact code_flatMap (VarDecl.code_log .global) decls
  | function f => exact f.code_log

/-- The code of a compilation is laid out as the program is. -/
theorem code_of_compile {tokens : List Token} {c : Compilation} (h : compile tokens = .ok c) :
    c.code = c.program.items.flatMap TopLevel.code := by
  obtain ⟨t, hplays, _, hc⟩ := plays_of_compile h
  rw [hc]
  have hcode := hplays.code
  rw [Program.log, List.flatMap_append, code_flatMap TopLevel.code_log] at hcode
  simpa [State.start, Action.code] using hcode

/-- No label is set twice in the code of a compilation. -/
theorem nodup_labels_of_compile {tokens : List Token} {c : Compilation}
    (h : compile tokens = .ok c) : (c.code.filterMap Instr.label?).Nodup := by
  obtain ⟨t, hplays, _, hc⟩ := plays_of_compile h
  have hcode : c.code = c.program.log.flatMap Action.code := by
    rw [hc, hplays.code]
    rfl
  rw [hcode]
  exact c.program.setsLabels.nodup_iff.2 hplays.nodup_givenLabels.1

/-- Nothing is recorded in a compilation without diagnostics, and all that is read has the right
shape. -/
theorem clean_of_compile {tokens : List Token} {c : Compilation}
    (hscanned : ∀ token ∈ tokens, token.isScanned = true) (h : compile tokens = .ok c)
    (hquiet : c.diagnostics = []) : Clean Action.Sound c.program.log := by
  obtain ⟨t, hplays, _, hc⟩ := plays_of_compile h
  have hnone : t.diagnostics = (State.start {} tokens).diagnostics := by
    rw [hc] at hquiet
    exact Array.toList_eq_nil_iff.1 hquiet
  have hmisfit : ¬ (State.start {} tokens).HasMisfit := by
    rintro ⟨d, hd, _⟩
    simp [State.start] at hd
  exact hplays.clean (State.start_sound {} hscanned) hmisfit hnone

section Views

open Occurrence

/-- What names stand for in the statements of a function, given the parts in front of it. Its own
declarators hide the global ones, and functions are global. -/
def View.inside (before : List TopLevel) (f : Function) : View where
  name? name := ((last? (some before.length) name (occurrencesFrom 0 (before ++ [.function f]))).or
    (last? none name (occurrencesFrom 0 (before ++ [.function f])))).map Declarator.symbol
  function? name := ((last? none name (occurrencesFrom 0 (before ++ [.function f]))).map
    Declarator.symbol).filter (·.kind == .function)

/-- The names in scope behind a function are those that its declarators say. -/
theorem Function.view_of_plays {tokens : List Token} {before : List TopLevel} {f : Function}
    {s t : State} (hbefore : Plays (before.flatMap TopLevel.log) (.start {} tokens) s)
    (h : Plays f.log s t) : t.scopes.view = View.inside before f := by
  obtain ⟨hglobals, hlocals⟩ := Function.holdsLast_of_plays hbefore h
  have hplays : Plays ((before ++ [TopLevel.function f]).flatMap TopLevel.log) (.start {} tokens) t := by
    rw [List.flatMap_append, List.flatMap_singleton]
    exact plays_append.2 ⟨s, hbefore, h⟩
  have hglobal := hglobals.saysLast (symbol_eq_of_plays hplays)
  have hlocal := hlocals.saysLast (symbol_eq_of_plays hplays)
  unfold Scopes.view View.inside
  congr 1
  · funext name
    rw [Scopes.nearest?, hlocal name, hglobal name, Option.map_or, Option.orElse_eq_orElse,
      Option.orElse_eq_or]
  · funext name
    rw [Scopes.function?, hglobal name]
    rfl

/-- The statements of a function are compiled with the names that are in scope behind it. -/
theorem Function.exists_stmts {f : Function} {s t : State} (h : Plays f.log s t) :
    ∃ v w, Plays (Stmt.logs f.head.ty f.body.stmts) v w ∧ v.scopes = t.scopes := by
  rw [f.log_eq] at h
  obtain ⟨u, _, hinside⟩ := plays_append.1 h
  obtain ⟨v, _, hrest⟩ := plays_append.1 hinside
  obtain ⟨w, hstmts, hclosing⟩ := plays_append.1 hrest
  refine ⟨v, w, hstmts, ?_⟩
  rw [hclosing.scopes_of_keepsScopes (f.all_closing rfl (fun _ _ => rfl) fun _ => rfl),
    hstmts.scopes_of_keepsScopes (Stmt.all_logs _ _)]

end Views

section Function

variable {view : View} {m : Machine} {code : List Instr} {pc : Nat}

/-- Declarations are passed. -/
theorem goes_of_declarations {part : List Instr} (hcode : CodeAt code pc part)
    (h : ∀ instr ∈ part, ∀ memory : Memory, instr.effect? m memory = some memory) :
    Goes m code pc (pc + part.length) := by
  intro memory
  apply Memory.steps_of_run? hcode
  clear hcode
  induction part with
  | nil => rfl
  | cons instr part ih =>
      rw [Memory.run?, h instr List.mem_cons_self memory, Option.bind_some]
      exact ih fun other hother => h other (List.mem_cons_of_mem instr hother)

/-- The code of a function halts as its body ends, when it is run from its start. -/
def Function.RunsAt (view : View) (m : Machine) (code : List Instr) (pc : Nat)
    (f : Function) : Prop :=
  ∀ (memory : Memory) (world : World) (outcome : Outcome),
    Exec view m.interp (.all f.body.stmts) memory.toWorld world outcome → ∃ final : Memory,
      final.toWorld = world ∧
      Steps m code (.running pc memory) (.halted outcome.result final)

/-- A function is entered through its declarations, and left through its end or a return. -/
theorem Function.runsAt {f : Function} (hnodup : (code.filterMap Instr.label?).Nodup)
    (hready : Stmt.AllReady view m f.body.stmts) (hcode : CodeAt code pc f.code) :
    f.RunsAt view m code pc := by
  intro memory world outcome hexec
  have hhead : Goes m code _ _ := goes_of_declarations hcode.left (by
    intro instr hinstr memory
    rcases List.mem_cons.1 hinstr with rfl | hinstr
    · rfl
    · obtain ⟨param, _, rfl⟩ := List.mem_map.1 hinstr
      rfl)
  have hvars : Goes m code _ _ := goes_of_declarations hcode.right.left (by
    intro instr hinstr memory
    obtain ⟨decl, _, hinstr⟩ := List.mem_flatMap.1 hinstr
    obtain ⟨item, _, hinstr⟩ := List.mem_flatMap.1 hinstr
    obtain rfl := List.mem_singleton.1 hinstr
    rfl)
  have hbody := hcode.right.right
  obtain ⟨final, hworld, hsteps⟩ :=
    hexec.reaches hnodup ⟨hready, hbody.left, rfl⟩ (rfl : memory.toWorld = memory.toWorld)
  refine ⟨final, hworld, ((hhead.trans hvars) memory).trans (hsteps.trans ?_)⟩
  cases outcome with
  | returned value => exact .refl _
  | next =>
      -- the body has come to its end, where the function returns nothing
      apply Steps.single
      change (Config.running _ final).step? m code = _
      have hend := hbody.right
      by_cases hvoid : f.head.ty = .void
      · rw [if_pos hvoid] at hend
        rw [Config.step?, hend.head]
        rfl
      · rw [if_neg hvoid] at hend
        rw [Config.step?, hend.head]
        rfl

end Function

/-- Compilation keeps the meaning of every function. If no diagnostic is recorded, the code of a
function stands where the function stands in the program, and halts whenever the body ends, in the
same world and with the same result. A constant may not be the source of a step: the step reads
the variable of that name. -/
theorem compile_keepsMeaning {tokens : List Token} {c : Compilation}
    (hscanned : ∀ token ∈ tokens, token.isScanned = true) (hcompile : compile tokens = .ok c)
    (hquiet : c.diagnostics = []) {before after : List TopLevel} {f : Function}
    (hitems : c.program.items = before ++ .function f :: after)
    (hsources : ∀ ref ∈ Stmt.allStepSources f.body.stmts,
      (View.inside before f).isConst ref.token.value = false)
    (interp : Interpretation) :
    c.code = before.flatMap TopLevel.code ++ (f.code ++ after.flatMap TopLevel.code) ∧
      f.RunsAt (.inside before f) ⟨interp, c.strings⟩ c.code
        (before.flatMap TopLevel.code).length := by
  have hcode : c.code = before.flatMap TopLevel.code ++ (f.code ++ after.flatMap TopLevel.code) := by
    rw [code_of_compile hcompile, hitems, List.flatMap_append, List.flatMap_cons]
    rfl
  obtain ⟨t, hplays, _, hc⟩ := plays_of_compile hcompile
  have hstrings : c.strings = t.strings := by rw [hc]
  have hresolves := hplays.resolves.2
  rw [Program.log, hitems, List.flatMap_append, List.append_assoc, List.flatMap_cons,
    List.append_assoc] at hplays
  obtain ⟨u, hbefore, hrest⟩ := plays_append.1 hplays
  obtain ⟨v, hfunction, _⟩ := plays_append.1 hrest
  have hsubset : Stmt.logs f.head.ty f.body.stmts ⊆ c.program.log := fun action haction => by
    rw [BodyAt.log_eq hitems]
    simp [haction]
  obtain ⟨s, w, hstmts, hscopes⟩ := Function.exists_stmts hfunction
  have hclean := hstmts.fits (Stmt.all_logs _ _) fun action haction =>
    clean_of_compile hscanned hcompile hquiet action (hsubset haction)
  rw [hscopes, Function.view_of_plays hbefore hfunction] at hclean
  have hready : Stmt.AllReady (.inside before f) ⟨interp, c.strings⟩ f.body.stmts :=
    Stmt.allReady f.head.ty f.body.stmts
      ⟨hclean, fun action haction => hstrings ▸ hresolves action (hsubset haction), s, w, hstmts⟩
      hsources
  exact ⟨hcode, f.runsAt (nodup_labels_of_compile hcompile) hready ⟨_, _, hcode, rfl⟩⟩

/-- `const int k = 3; int n; void main() { for (n = 0; n < 2; n = n + 1) if (n == 1)
printf(n * k - 7); else printf(-n); }` -/
def steppingTokens : List Token :=
  scan 1 ["const int k = 3 ;", "int n ;", "void main ( ) \x7b",
    "for ( n = 0 ; n < 2 ; n = n + 1 ) if ( n == 1 ) printf ( n * k - 7 ) ;",
    "else printf ( - n ) ;", "\x7d"]

/-- What is there before a program is run: all variables are zero, and there is no input. -/
def World.blank : World :=
  ⟨⟨fun _ => 0, fun _ _ => 0⟩, [], []⟩

/-- The events of the last function of a program, if it comes to its end within a bound and no step
in it reads a constant. -/
def Program.events? (program : Program) (interp : Interpretation) (bound : Nat) :
    Option (List Event) :=
  match program.items.reverse with
  | .function f :: rest =>
    if ∀ ref ∈ Stmt.allStepSources f.body.stmts,
        (View.inside rest.reverse f).isConst ref.token.value = false then
      match (Task.all f.body.stmts).run? (.inside rest.reverse f) interp bound .blank with
      | some (world, .next) => some world.events
      | _ => none
    else none
  | _ => none

theorem Program.exists_exec {program : Program} {interp : Interpretation} {bound : Nat}
    {events : List Event} (h : program.events? interp bound = some events) :
    ∃ before f world, program.items = before ++ .function f :: [] ∧
      (∀ ref ∈ Stmt.allStepSources f.body.stmts,
        (View.inside before f).isConst ref.token.value = false) ∧
      Exec (.inside before f) interp (.all f.body.stmts) .blank world .next ∧
      world.events = events := by
  unfold Program.events? at h
  split at h
  · next f rest hlast =>
      split at h
      · next hsources =>
          split at h
          · next world hrun =>
              exact ⟨rest.reverse, f, world, List.reverse_eq_cons_iff.1 hlast, hsources,
                .of_run? hrun, Option.some.inj h⟩
          · cases h
      · cases h
  · cases h

/-- The loop prints `-0` and `1 * 3 - 7`. -/
theorem keepsMeaning_steppingTokens : ∃ c before f after, compile steppingTokens = .ok c ∧
    c.diagnostics = [] ∧ c.program.items = before ++ .function f :: after ∧
    ∀ memory : Memory, memory.toWorld = .blank → ∃ final : Memory,
      final.events = [.number 0, .lineEnd, .number (-4), .lineEnd] ∧
      Steps ⟨.exact Int.tdiv fun _ _ => 0, c.strings⟩ c.code
        (.running (before.flatMap TopLevel.code).length memory) (.halted none final) := by
  have hc := eq_ok_get (compile steppingTokens) (by decide +kernel)
  have hevents : ((compile steppingTokens).toOption.get (by decide +kernel)).program.events?
      (.exact Int.tdiv fun _ _ => 0) 12 = some [.number 0, .lineEnd, .number (-4), .lineEnd] := by
    decide +kernel
  obtain ⟨before, f, world, hitems, hsources, hexec, hworld⟩ := Program.exists_exec hevents
  refine ⟨_, before, f, [], hc, by decide +kernel, hitems, fun memory hmemory => ?_⟩
  rw [← hmemory] at hexec
  obtain ⟨final, rfl, hsteps⟩ := (compile_keepsMeaning (by decide) hc (by decide +kernel) hitems
    hsources (.exact Int.tdiv fun _ _ => 0)).2 memory world .next hexec
  exact ⟨final, hworld, hsteps⟩

end OnePass
