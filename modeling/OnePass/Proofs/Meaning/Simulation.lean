import OnePass.Proofs.Meaning.Stmt

/-!
Every run of a statement is a run of its code. Control goes from the entry of the code to its
exit, unless the function returns on the way, and the world changes as it does in the source.

For each form of statement it is said first how control goes between the parts of its code. The
labels are only used there.
-/

namespace OnePass

section Control

variable (view : View) (m : Machine) (code : List Instr)

/-- Control goes from one place to another and changes nothing. -/
def Goes (source target : Nat) : Prop :=
  ∀ memory, Steps m code (.running source memory) (.running target memory)

/-- Control goes from one place to one of two others, as a condition holds or not, and the world
stays as it is. -/
def Branches (c : Condition) (source yes no : Nat) : Prop :=
  ∀ memory : Memory, ∃ after : Memory, after.toWorld = memory.toWorld ∧
    Steps m code (.running source memory)
      (.running (if c.holds view m.interp memory.store then yes else no) after)

end Control

section

variable {view : View} {m : Machine} {code part : List Instr}
  {c : Condition} {source target mid yes no : Nat}

theorem Goes.trans (h : Goes m code source mid)
    (hlater : Goes m code mid target) : Goes m code source target :=
  fun memory => (h memory).trans (hlater memory)

theorem CodeAt.goes_label {l : Label} (h : CodeAt code source (.label l :: part)) :
    Goes m code source (source + 1) :=
  fun _ => steps_label h

theorem CodeAt.goes_jump {l : Label} {rest : List Instr}
    (hnodup : (code.filterMap Instr.label?).Nodup) (h : CodeAt code source (.jump l :: rest))
    (htarget : CodeAt code target (.label l :: part)) : Goes m code source target :=
  fun _ => steps_jump hnodup h htarget

theorem Goes.branches (h : Goes m code source mid)
    (hbranches : Branches view m code c mid yes no) :
    Branches view m code c source yes no := by
  intro memory
  obtain ⟨after, hworld, hsteps⟩ := hbranches memory
  exact ⟨after, hworld, (h memory).trans hsteps⟩

/-- Control goes on from where a condition does not hold. -/
theorem Branches.no_goes (h : Branches view m code c source yes mid)
    (hgoes : Goes m code mid no) : Branches view m code c source yes no := by
  intro memory
  obtain ⟨after, hworld, hsteps⟩ := h memory
  refine ⟨after, hworld, hsteps.trans ?_⟩
  cases c.holds view m.interp memory.store with
  | true => exact .refl _
  | false => exact hgoes after

namespace Condition.Decides

variable {label : Label} {sense : Sense} {pc place : Nat}

/-- The code of a condition comes to its jump, and takes it or not. -/
theorem steps (h : c.Decides view m) (hcode : CodeAt code pc (c.code label sense))
    (hnodup : (code.filterMap Instr.label?).Nodup)
    (hplace : CodeAt code place (.label label :: part)) (memory : Memory) :
    ∃ after : Memory, after.toWorld = memory.toWorld ∧
      Steps m code (.running pc memory)
        (.running (if c.holds view m.interp memory.store = sense.taken then place
          else pc + (c.code label sense).length) after) := by
  obtain ⟨front, jump, after, hparts, hrun, hworld, hjump⟩ := h memory label sense
  rw [hparts] at hcode ⊢
  refine ⟨after, hworld, (Memory.steps_of_run? hcode.left hrun).trans (.single ?_)⟩
  rw [Config.step?, hcode.right.head, Option.bind_some, hjump code, Config.goto?,
    hplace.findIdx? hnodup, List.length_append]
  split <;> rfl

/-- A jump that is taken when the condition fails. -/
theorem branches_onFalse (h : c.Decides view m) (hcode : CodeAt code pc (c.code label .onFalse))
    (hnodup : (code.filterMap Instr.label?).Nodup)
    (hplace : CodeAt code place (.label label :: part)) :
    Branches view m code c pc (pc + (c.code label .onFalse).length) place := by
  intro memory
  obtain ⟨after, hworld, hsteps⟩ := h.steps hcode hnodup hplace memory
  refine ⟨after, hworld, ?_⟩
  cases hholds : c.holds view m.interp memory.store <;> simpa [hholds, Sense.taken] using hsteps

/-- A jump that is taken when the condition holds. -/
theorem branches_onTrue (h : c.Decides view m) (hcode : CodeAt code pc (c.code label .onTrue))
    (hnodup : (code.filterMap Instr.label?).Nodup)
    (hplace : CodeAt code place (.label label :: part)) :
    Branches view m code c pc place (pc + (c.code label .onTrue).length) := by
  intro memory
  obtain ⟨after, hworld, hsteps⟩ := h.steps hcode hnodup hplace memory
  refine ⟨after, hworld, ?_⟩
  cases hholds : c.holds view m.interp memory.store <;> simpa [hholds, Sense.taken] using hsteps

end Condition.Decides

end

/-- The code of the rounds of a counting loop, which starts at the label that they come back to. -/
def ForHeader.roundsCode (header : ForHeader) (body : Stmt) (loopLabel endLabel : Label) :
    List Instr :=
  .label loopLabel :: (header.condition.code endLabel .onFalse ++
    (body.code ++ [header.stepInstr, .jump loopLabel, .label endLabel]))

section Layout

variable {view : View} {m : Machine} {code : List Instr} {entry exit : Nat}
  (hnodup : (code.filterMap Instr.label?).Nodup)

include hnodup

theorem Stmt.layout_ifThen {keyword : Token} {guard : Guard} {body : Stmt} {l₁ l₂ : Label}
    (hguard : guard.condition.Decides view m)
    (hcode : CodeAt code entry (Stmt.ifThen keyword guard body l₁ l₂).code)
    (hexit : entry + (Stmt.ifThen keyword guard body l₁ l₂).code.length = exit) :
    ∃ yes, CodeAt code yes body.code ∧
      Branches view m code guard.condition entry yes exit ∧
      Goes m code (yes + body.code.length) exit := by
  simp only [Stmt.code] at hcode hexit
  have hjump := hcode.right.right
  have hskip : Goes m code _ _ := hjump.tail.goes_label
  have hleave : Goes m code _ _ := hjump.tail.tail.goes_label
  have hend : entry + (guard.condition.code l₁ .onFalse).length + body.code.length + 1 + 1 + 1 =
      exit := by
    simp only [List.length_append, List.length_cons, List.length_nil] at hexit
    omega
  rw [hend] at hleave
  refine ⟨_, hcode.right.left, ?_, (hjump.goes_jump hnodup hjump.tail.tail).trans hleave⟩
  exact (hguard.branches_onFalse hcode.left hnodup hjump.tail).no_goes (hskip.trans hleave)

theorem Stmt.layout_ifElse {k₁ k₂ : Token} {guard : Guard} {body other : Stmt} {l₁ l₂ : Label}
    (hguard : guard.condition.Decides view m)
    (hcode : CodeAt code entry (Stmt.ifElse k₁ guard body k₂ other l₁ l₂).code)
    (hexit : entry + (Stmt.ifElse k₁ guard body k₂ other l₁ l₂).code.length = exit) :
    ∃ yes no, CodeAt code yes body.code ∧ CodeAt code no other.code ∧
      Branches view m code guard.condition entry yes no ∧
      Goes m code (yes + body.code.length) exit ∧
      Goes m code (no + other.code.length) exit := by
  simp only [Stmt.code] at hcode hexit
  have hjump := hcode.right.right
  have hother := hjump.tail.tail
  have hskip : Goes m code _ _ := hjump.tail.goes_label
  have hleave : Goes m code _ _ := hother.right.goes_label
  have hend : entry + (guard.condition.code l₁ .onFalse).length + body.code.length + 1 + 1 +
      other.code.length + 1 = exit := by
    simp only [List.length_append, List.length_cons, List.length_nil] at hexit
    omega
  rw [hend] at hleave
  refine ⟨_, _, hcode.right.left, hother.left, ?_, ?_, hleave⟩
  · exact (hguard.branches_onFalse hcode.left hnodup hjump.tail).no_goes hskip
  · exact (hjump.goes_jump hnodup hother.right).trans hleave

theorem Stmt.layout_whileLoop {keyword : Token} {guard : Guard} {body : Stmt} {l₁ l₂ : Label}
    (hguard : guard.condition.Decides view m)
    (hcode : CodeAt code entry (Stmt.whileLoop keyword guard body l₁ l₂).code)
    (hexit : entry + (Stmt.whileLoop keyword guard body l₁ l₂).code.length = exit) :
    ∃ yes, CodeAt code yes body.code ∧
      Branches view m code guard.condition entry yes exit ∧
      Goes m code (yes + body.code.length) entry := by
  simp only [Stmt.code] at hcode hexit
  have hjump := hcode.tail.right.right
  have henter : Goes m code _ _ := hcode.goes_label
  have hleave : Goes m code _ _ := hjump.tail.goes_label
  have hend : entry + 1 + (guard.condition.code l₂ .onFalse).length + body.code.length + 1 + 1 =
      exit := by
    simp only [List.length_append, List.length_cons, List.length_nil] at hexit
    omega
  rw [hend] at hleave
  refine ⟨_, hcode.tail.right.left, henter.branches ?_, hjump.goes_jump hnodup hcode⟩
  exact (hguard.branches_onFalse hcode.tail.left hnodup hjump.tail).no_goes hleave

theorem Stmt.layout_doLoop {k₁ : Token} {k₂ : Option Token} {guard : Guard} {body : Stmt}
    {l : Label} (hguard : guard.condition.Decides view m)
    (hcode : CodeAt code entry (Stmt.doLoop k₁ body k₂ guard l).code)
    (hexit : entry + (Stmt.doLoop k₁ body k₂ guard l).code.length = exit) :
    ∃ start, CodeAt code start body.code ∧ Goes m code entry start ∧
      Branches view m code guard.condition (start + body.code.length) entry exit := by
  simp only [Stmt.code] at hcode hexit
  have hend : entry + 1 + body.code.length + (guard.condition.code l .onTrue).length = exit := by
    simp only [List.length_append, List.length_cons] at hexit
    omega
  have hback := hguard.branches_onTrue hcode.tail.right hnodup hcode
  rw [hend] at hback
  exact ⟨_, hcode.tail.left, hcode.goes_label, hback⟩

theorem ForHeader.layout_rounds {header : ForHeader} {body : Stmt} {l₁ l₂ : Label}
    (hguard : header.condition.Decides view m)
    (hcode : CodeAt code entry (header.roundsCode body l₁ l₂))
    (hexit : entry + (header.roundsCode body l₁ l₂).length = exit) :
    ∃ yes, CodeAt code yes body.code ∧
      Branches view m code header.condition entry yes exit ∧
      CodeAt code (yes + body.code.length) [header.stepInstr] ∧
      Goes m code (yes + body.code.length + 1) entry := by
  unfold ForHeader.roundsCode at hcode hexit
  have hstep : CodeAt code _ ([header.stepInstr] ++ [.jump l₁, .label l₂]) := hcode.tail.right.right
  have hjump := hstep.right
  have henter : Goes m code _ _ := hcode.goes_label
  have hleave : Goes m code _ _ := hjump.tail.goes_label
  have hend : entry + 1 + (header.condition.code l₂ .onFalse).length + body.code.length + 1 + 1 + 1 =
      exit := by
    simp only [List.length_append, List.length_cons, List.length_nil] at hexit
    omega
  rw [List.length_singleton, hend] at hleave
  refine ⟨_, hcode.tail.right.left, henter.branches ?_, hstep.left, hjump.goes_jump hnodup hcode⟩
  exact (hguard.branches_onFalse hcode.tail.left hnodup hjump.tail).no_goes hleave

end Layout

/-- A task is compiled to the code between two places. -/
def Task.Between (view : View) (m : Machine) (code : List Instr)
    (entry exit : Nat) : Task → Prop
  | .one stmt => stmt.Ready view m ∧ CodeAt code entry stmt.code ∧
      entry + stmt.code.length = exit
  | .all stmts => Stmt.AllReady view m stmts ∧ CodeAt code entry (Stmt.codes stmts) ∧
      entry + (Stmt.codes stmts).length = exit
  | .rounds header body => header.Ready view m ∧ body.Ready view m ∧
      ∃ loopLabel endLabel, CodeAt code entry (header.roundsCode body loopLabel endLabel) ∧
        entry + (header.roundsCode body loopLabel endLabel).length = exit

/-- Where a machine is when a task has ended. -/
def Outcome.config (exit : Nat) (memory : Memory) : Outcome → Config
  | next => .running exit memory
  | returned value => .halted value memory

/-- A machine at a place comes to where a task has ended, in the world that the task leads to. -/
def Reaches (m : Machine) (code : List Instr) (entry : Nat)
    (memory : Memory) (exit : Nat) (world : World) (outcome : Outcome) : Prop :=
  ∃ after : Memory, after.toWorld = world ∧
    Steps m code (.running entry memory) (outcome.config exit after)

section

variable {view : View} {m : Machine} {code : List Instr} {entry exit : Nat}
  {memory : Memory} {world : World} {outcome : Outcome}

namespace Reaches

theorem of_steps {start : Nat} {before : Memory}
    (hsteps : Steps m code (.running start before) (.running entry memory))
    (h : Reaches m code entry memory exit world outcome) :
    Reaches m code start before exit world outcome := by
  obtain ⟨after, hworld, hlater⟩ := h
  exact ⟨after, hworld, hsteps.trans hlater⟩

/-- Control goes on behind a task, unless the function has returned. -/
theorem goes {later : Nat} (h : Reaches m code entry memory exit world outcome)
    (hgoes : Goes m code exit later) :
    Reaches m code entry memory later world outcome := by
  obtain ⟨after, hworld, hfirst⟩ := h
  cases outcome with
  | next => exact ⟨after, hworld, hfirst.trans (hgoes after)⟩
  | returned value => exact ⟨after, hworld, hfirst⟩

/-- A function that has returned does not come to an exit, so that any may be named. -/
theorem anyExit {other : Nat} {value : Option Int}
    (h : Reaches m code entry memory exit world (.returned value)) :
    Reaches m code entry memory other world (.returned value) :=
  h

/-- The next task starts where the first one has ended. -/
theorem bind {mid : Nat} {between : World}
    (h : Reaches m code entry memory mid between .next)
    (hnext : ∀ after : Memory, after.toWorld = between →
      Reaches m code mid after exit world outcome) :
    Reaches m code entry memory exit world outcome := by
  obtain ⟨after, hworld, hsteps⟩ := h
  exact of_steps hsteps (hnext after hworld)

end Reaches

theorem Branches.reaches_yes {c : Condition} {yes no : Nat}
    (h : Branches view m code c entry yes no) (hholds : c.holds view m.interp memory.store = true)
    (hyes : ∀ after : Memory, after.toWorld = memory.toWorld →
      Reaches m code yes after exit world outcome) :
    Reaches m code entry memory exit world outcome := by
  obtain ⟨after, hworld, hsteps⟩ := h memory
  rw [if_pos hholds] at hsteps
  exact .of_steps hsteps (hyes after hworld)

theorem Branches.reaches_no {c : Condition} {yes no : Nat}
    (h : Branches view m code c entry yes no) (hholds : c.holds view m.interp memory.store = false)
    (hno : ∀ after : Memory, after.toWorld = memory.toWorld →
      Reaches m code no after exit world outcome) :
    Reaches m code entry memory exit world outcome := by
  obtain ⟨after, hworld, hsteps⟩ := h memory
  rw [if_neg (by rw [hholds]; exact Bool.false_ne_true)] at hsteps
  exact .of_steps hsteps (hno after hworld)

/-- Straight code is run from its entry to its exit. -/
theorem Transforms.reaches {part : List Instr} {change : World → Option World}
    (h : Transforms m part change) (hcode : CodeAt code entry part)
    (hexit : entry + part.length = exit) (hworld : change memory.toWorld = some world) :
    Reaches m code entry memory exit world .next := by
  obtain ⟨after, hrun, hafter⟩ := h memory world hworld
  exact ⟨after, hafter, hexit ▸ Memory.steps_of_run? hcode hrun⟩

theorem Reaches.stay (hworld : memory.toWorld = world) :
    Reaches m code entry memory entry world .next :=
  ⟨memory, hworld, .refl _⟩

/-- A value is computed and returned. -/
theorem Evaluates.reaches {part : List Instr} {value : Operand} {meaning : Store → Int}
    (h : Evaluates m part value meaning)
    (hcode : CodeAt code entry (part ++ [.ret value])) :
    Reaches m code entry memory exit memory.toWorld
      (.returned (some (meaning memory.store))) := by
  obtain ⟨after, hrun, hworld, hvalue⟩ := h memory
  refine ⟨after, hworld, (Memory.steps_of_run? hcode.left hrun).trans (.single ?_)⟩
  rw [Config.step?, hcode.right.head, Option.bind_some, Instr.step?, hvalue]
  rfl

end

/-- A task that ends is followed by the code between its places. -/
theorem Exec.reaches {view : View} {m : Machine} {code : List Instr}
    (hnodup : (code.filterMap Instr.label?).Nodup) {task : Task} {w w' : World} {o : Outcome}
    (h : Exec view m.interp task w w' o) {entry exit : Nat} {memory : Memory}
    (hbetween : task.Between view m code entry exit) (hworld : memory.toWorld = w) :
    Reaches m code entry memory exit w' o := by
  -- a loop that goes round once more is entered again at the same place, with another memory
  induction h generalizing entry exit memory with
  | nil =>
      obtain ⟨_, _, rfl⟩ := hbetween
      exact .stay hworld
  | cons hstmt hstmts ih ihs =>
      obtain ⟨⟨hready, hrest⟩, hcode, hexit⟩ := hbetween
      simp only [Stmt.codes, List.length_append, ← Nat.add_assoc] at hcode hexit
      exact (ih ⟨hready, hcode.left, rfl⟩ hworld).bind fun after hafter =>
        ihs ⟨hrest, hcode.right, hexit⟩ hafter
  | consReturned hstmt ih =>
      obtain ⟨⟨hready, _⟩, hcode, _⟩ := hbetween
      simp only [Stmt.codes] at hcode
      exact (ih ⟨hready, hcode.left, rfl⟩ hworld).anyExit
  | ifThen hguard hbody ih =>
      subst hworld
      obtain ⟨⟨hdecides, hready⟩, hcode, hexit⟩ := hbetween
      obtain ⟨yes, hyes, hbranches, hleave⟩ := Stmt.layout_ifThen hnodup hdecides hcode hexit
      exact hbranches.reaches_yes hguard fun after hafter =>
        (ih ⟨hready, hyes, rfl⟩ hafter).goes hleave
  | ifSkip hguard =>
      subst hworld
      obtain ⟨⟨hdecides, _⟩, hcode, hexit⟩ := hbetween
      obtain ⟨yes, _, hbranches, _⟩ := Stmt.layout_ifThen hnodup hdecides hcode hexit
      exact hbranches.reaches_no hguard fun after hafter => .stay hafter
  | ifElseThen hguard hbody ih =>
      subst hworld
      obtain ⟨⟨hdecides, hready, _⟩, hcode, hexit⟩ := hbetween
      obtain ⟨yes, no, hyes, _, hbranches, hleave, _⟩ :=
        Stmt.layout_ifElse hnodup hdecides hcode hexit
      exact hbranches.reaches_yes hguard fun after hafter =>
        (ih ⟨hready, hyes, rfl⟩ hafter).goes hleave
  | ifElseOther hguard hother ih =>
      subst hworld
      obtain ⟨⟨hdecides, _, hready⟩, hcode, hexit⟩ := hbetween
      obtain ⟨yes, no, _, hno, hbranches, _, hleave⟩ :=
        Stmt.layout_ifElse hnodup hdecides hcode hexit
      exact hbranches.reaches_no hguard fun after hafter =>
        (ih ⟨hready, hno, rfl⟩ hafter).goes hleave
  | whileDone hguard =>
      subst hworld
      obtain ⟨⟨hdecides, _⟩, hcode, hexit⟩ := hbetween
      obtain ⟨yes, _, hbranches, _⟩ := Stmt.layout_whileLoop hnodup hdecides hcode hexit
      exact hbranches.reaches_no hguard fun after hafter => .stay hafter
  | whileRound hguard hbody hagain ih ihAgain =>
      subst hworld
      have hloop := hbetween
      obtain ⟨⟨hdecides, hready⟩, hcode, hexit⟩ := hbetween
      obtain ⟨yes, hyes, hbranches, hback⟩ := Stmt.layout_whileLoop hnodup hdecides hcode hexit
      refine hbranches.reaches_yes hguard fun after hafter => ?_
      exact ((ih ⟨hready, hyes, rfl⟩ hafter).goes hback).bind fun last hlast =>
        ihAgain hloop hlast
  | whileReturned hguard hbody ih =>
      subst hworld
      obtain ⟨⟨hdecides, hready⟩, hcode, hexit⟩ := hbetween
      obtain ⟨yes, hyes, hbranches, _⟩ := Stmt.layout_whileLoop hnodup hdecides hcode hexit
      exact hbranches.reaches_yes hguard fun after hafter =>
        (ih ⟨hready, hyes, rfl⟩ hafter).anyExit
  | doDone hbody hguard ih =>
      obtain ⟨⟨hdecides, hready⟩, hcode, hexit⟩ := hbetween
      obtain ⟨start, hstart, henter, hbranches⟩ := Stmt.layout_doLoop hnodup hdecides hcode hexit
      refine .of_steps (henter memory) ((ih ⟨hready, hstart, rfl⟩ hworld).bind ?_)
      rintro after rfl
      exact hbranches.reaches_no hguard fun last hlast => .stay hlast
  | doRound hbody hguard hagain ih ihAgain =>
      have hloop := hbetween
      obtain ⟨⟨hdecides, hready⟩, hcode, hexit⟩ := hbetween
      obtain ⟨start, hstart, henter, hbranches⟩ := Stmt.layout_doLoop hnodup hdecides hcode hexit
      refine .of_steps (henter memory) ((ih ⟨hready, hstart, rfl⟩ hworld).bind ?_)
      rintro after rfl
      exact hbranches.reaches_yes hguard fun last hlast => ihAgain hloop hlast
  | doReturned hbody ih =>
      obtain ⟨⟨hdecides, hready⟩, hcode, hexit⟩ := hbetween
      obtain ⟨start, hstart, henter, _⟩ := Stmt.layout_doLoop hnodup hdecides hcode hexit
      exact .of_steps (henter memory) (ih ⟨hready, hstart, rfl⟩ hworld).anyExit
  | @forLoop keyword header body l₁ l₂ w₁ w₂ o hrounds ih =>
      subst hworld
      obtain ⟨⟨hheader, hready⟩, hcode, hexit⟩ := hbetween
      have hparts : (Stmt.forLoop keyword header body l₁ l₂).code =
          (header.start.code ++ [.assign header.init.token.value header.start.value]) ++
            header.roundsCode body l₁ l₂ := by
        rw [Stmt.code, ForHeader.roundsCode, List.append_assoc]
        rfl
      rw [hparts] at hcode hexit
      rw [List.length_append, ← Nat.add_assoc] at hexit
      exact (hheader.start.reaches hcode.left rfl rfl).bind fun after hafter =>
        ih ⟨hheader, hready, l₁, l₂, hcode.right, hexit⟩ hafter
  | roundsDone hguard =>
      subst hworld
      obtain ⟨hheader, _, l₁, l₂, hcode, hexit⟩ := hbetween
      obtain ⟨yes, _, hbranches, _⟩ := ForHeader.layout_rounds hnodup hheader.condition hcode hexit
      exact hbranches.reaches_no hguard fun after hafter => .stay hafter
  | round hguard hbody hagain ih ihAgain =>
      subst hworld
      have hloop := hbetween
      obtain ⟨hheader, hready, l₁, l₂, hcode, hexit⟩ := hbetween
      obtain ⟨yes, hyes, hbranches, hstep, hback⟩ :=
        ForHeader.layout_rounds hnodup hheader.condition hcode hexit
      refine hbranches.reaches_yes hguard fun after hafter => ?_
      refine (ih ⟨hready, hyes, rfl⟩ hafter).bind ?_
      rintro between rfl
      exact ((hheader.step.reaches hstep rfl rfl).goes hback).bind fun last hlast =>
        ihAgain hloop hlast
  | roundReturned hguard hbody ih =>
      subst hworld
      obtain ⟨hheader, hready, l₁, l₂, hcode, hexit⟩ := hbetween
      obtain ⟨yes, hyes, hbranches, _⟩ :=
        ForHeader.layout_rounds hnodup hheader.condition hcode hexit
      exact hbranches.reaches_yes hguard fun after hafter =>
        (ih ⟨hready, hyes, rfl⟩ hafter).anyExit
  | block hbody ih =>
      obtain ⟨hready, hcode, hexit⟩ := hbetween
      simp only [Stmt.code] at hcode hexit
      exact ih ⟨hready, hcode, hexit⟩ hworld
  | call | assign | assignElement | print =>
      subst hworld
      obtain ⟨hready, hcode, hexit⟩ := hbetween
      simp only [Stmt.code] at hcode hexit
      exact Transforms.reaches hready hcode hexit rfl
  | scan hscan =>
      subst hworld
      obtain ⟨hready, hcode, hexit⟩ := hbetween
      simp only [Stmt.code] at hcode hexit
      exact Transforms.reaches hready hcode hexit hscan
  | ret =>
      obtain ⟨_, hcode, _⟩ := hbetween
      simp only [Stmt.code] at hcode
      refine ⟨memory, hworld, .single ?_⟩
      rw [Config.step?, hcode.head]
      rfl
  | retValue =>
      subst hworld
      obtain ⟨hready, hcode, _⟩ := hbetween
      simp only [Stmt.code] at hcode
      exact Evaluates.reaches hready hcode
  | empty =>
      obtain ⟨_, _, hexit⟩ := hbetween
      simp only [Stmt.code, List.length_nil, Nat.add_zero] at hexit
      exact hexit ▸ .stay hworld

end OnePass
