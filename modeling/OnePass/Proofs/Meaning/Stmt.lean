import OnePass.Proofs.Meaning.Expr
import OnePass.Proofs.Meaning.Layout

/-!
The code of statements does what they mean. What is needed of the parts without control flow is
said first, free of the states of a compilation: straight code transforms the world, and a
condition goes on or jumps. A run of a statement is then followed step by step in its code.
-/

namespace OnePass

/-- A text that is interned can be found in a table. -/
def Action.Resolves (strings : StringTable) : Action → Prop
  | intern text index => strings.resolve? index = some text
  | _ => True

/-- All texts of one table are in the same places of another. -/
def StringTable.Extends (table later : StringTable) : Prop :=
  ∀ index text, table.resolve? index = some text → later.resolve? index = some text

theorem StringTable.extends_intern (table : StringTable) (text : String) :
    table.Extends (table.intern text).2 := by
  intro index found hfound
  obtain ⟨hlt, _⟩ := Array.getElem?_eq_some_iff.1 hfound
  unfold resolve? intern
  rw [Array.getElem?_push_lt hlt, ← Array.getElem?_eq_getElem hlt]
  exact hfound

/-- Texts are only added, so that all that are interned can be found in the end. -/
theorem Plays.resolves {log : List Action} {s t : State} (h : Plays log s t) :
    s.strings.Extends t.strings ∧ ∀ action ∈ log, action.Resolves t.strings := by
  induction h using Plays.induction with
  | nil => exact ⟨fun _ _ hfound => hfound, by simp⟩
  | @cons s u action log haction _ ih =>
      obtain ⟨hlater, hresolves⟩ := ih
      have hextends : s.strings.Extends u.strings := by
        rw [haction.effect.strings]
        cases action with
        | intern text index => exact s.strings.extends_intern text
        | _ => exact fun _ _ hfound => hfound
      refine ⟨fun index text hfound => hlater index text (hextends index text hfound), ?_⟩
      intro other hother
      rcases List.mem_cons.1 hother with rfl | hother
      · cases other with
        | intern text index =>
            cases haction
            exact hlater _ text (s.strings.resolve?_intern text)
        | _ => trivial
      · exact hresolves other hother

/-- A log that was played without a fault, in whatever state, and whose texts a machine has. -/
def Flawless (view : View) (m : Machine) (log : List Action) : Prop :=
  Clean (Action.Fits view) log ∧ (∀ action ∈ log, action.Resolves m.strings) ∧
    ∃ s t, Plays log s t

namespace Flawless

variable {view : View} {m : Machine} {front back log : List Action} {action : Action}

theorem left (h : Flawless view m (front ++ back)) : Flawless view m front := by
  obtain ⟨hclean, hresolves, s, t, hplays⟩ := h
  obtain ⟨u, hfront, _⟩ := plays_append.1 hplays
  refine ⟨(Clean.append_iff.1 hclean).1, ?_, s, u, hfront⟩
  intro action haction
  exact hresolves action (List.mem_append_left back haction)

theorem right (h : Flawless view m (front ++ back)) : Flawless view m back := by
  obtain ⟨hclean, hresolves, s, t, hplays⟩ := h
  obtain ⟨u, _, hback⟩ := plays_append.1 hplays
  refine ⟨(Clean.append_iff.1 hclean).2, ?_, u, t, hback⟩
  intro action haction
  exact hresolves action (List.mem_append_right front haction)

theorem tail (h : Flawless view m (action :: log)) : Flawless view m log := by
  have hone : Flawless view m ([action] ++ log) := h
  exact hone.right

theorem facts (h : Flawless view m log) : ∀ action ∈ log, action.Fact := by
  obtain ⟨_, _, s, t, hplays⟩ := h
  exact hplays.facts

end Flawless

section Specs

variable (view : View) (m : Machine)

/-- Code without jumps computes a value, and leaves the world as it is. -/
def Evaluates (code : List Instr) (value : Operand) (meaning : Store → Int) : Prop :=
  ∀ memory : Memory, ∃ after, memory.run? m code = some after ∧
    after.toWorld = memory.toWorld ∧ after.value value = meaning memory.store

/-- Code without jumps takes the world to another one, if there is one to take it to. -/
def Transforms (code : List Instr) (change : World → Option World) : Prop :=
  ∀ (memory : Memory) (world : World), change memory.toWorld = some world →
    ∃ after, memory.run? m code = some after ∧ after.toWorld = world

/-- The truth value for which a jump is taken. -/
def Sense.taken : Sense → Bool
  | .onTrue => true
  | .onFalse => false

/-- The code of a condition leaves the world as it is, and ends with a jump that is taken or not
as the condition holds or not. -/
def Condition.Decides (c : Condition) : Prop :=
  ∀ (memory : Memory) (target : Label) (sense : Sense), ∃ front jump after,
    c.code target sense = front ++ [jump] ∧ memory.run? m front = some after ∧
    after.toWorld = memory.toWorld ∧ ∀ code pc, jump.step? m code pc after =
      if c.holds view m.interp memory.store = sense.taken then Config.goto? code after target
      else some (.running (pc + 1) after)

end Specs
variable {view : View} {m : Machine}

/-- What a flawless log computes, free of the states that it was played in. -/
theorem Computes.evaluates {log : List Action} {value : Operand} {meaning : Store → Int}
    (h : Computes view m log value meaning) (hlog : Flawless view m log) :
    Evaluates m (log.flatMap Action.code) value meaning := by
  obtain ⟨hclean, _, s, t, hplays⟩ := hlog
  intro memory
  obtain ⟨after, hrun, hkeeps, _, hvalue⟩ := (h s t hplays hclean).2 memory
  exact ⟨after, hrun, hkeeps.world, hvalue⟩

theorem Expr.evaluates (e : Expr) (h : Flawless view m e.log) :
    Evaluates m e.code e.value (fun store => e.eval view m.interp store) :=
  e.computes.evaluates h

/-- Two values that are computed one after the other are both there in the end. -/
theorem ComputesTwo.run {log : List Action} {lhs rhs : Operand} {left right : Store → Int}
    (h : ComputesTwo view m log lhs rhs left right) (hlog : Flawless view m log)
    (memory : Memory) : ∃ after,
      memory.run? m (log.flatMap Action.code) = some after ∧
      after.toWorld = memory.toWorld ∧
      after.value lhs = left memory.store ∧ after.value rhs = right memory.store := by
  obtain ⟨hclean, _, s, t, hplays⟩ := hlog
  obtain ⟨after, hrun, hkeeps, _, hleft, hright⟩ := (h s t hplays hclean).2.2 memory
  exact ⟨after, hrun, hkeeps.world, hleft, hright⟩

namespace Transforms

variable {code : List Instr} {value : Operand} {meaning : Store → Int}

theorem nil : Transforms m [] some := by
  intro memory world hworld
  obtain rfl := Option.some.inj hworld
  exact ⟨memory, rfl, rfl⟩

/-- One transformation after the other. -/
theorem append {front back : List Instr} {first second : World → Option World}
    (hfront : Transforms m front first)
    (hback : Transforms m back second) :
    Transforms m (front ++ back) (fun world => (first world).bind second) := by
  intro memory world hworld
  obtain ⟨mid, hfirst, hsecond⟩ := Option.bind_eq_some_iff.1 hworld
  obtain ⟨between, hrunFirst, rfl⟩ := hfront memory mid hfirst
  obtain ⟨after, hrunSecond, hafter⟩ := hback between world hsecond
  refine ⟨after, ?_, hafter⟩
  rw [Memory.run?_append, hrunFirst]
  exact hrunSecond

/-- A value is computed and then used by one instruction. -/
theorem of_evaluates {instr : Instr} {change : World → World}
    (h : Evaluates m code value meaning)
    (hinstr : ∀ memory : Memory, memory.value value = meaning memory.store →
      ∃ after, instr.effect? m memory = some after ∧
        after.toWorld = change memory.toWorld) :
    Transforms m (code ++ [instr]) (fun world => some (change world)) := by
  intro memory world hworld
  obtain rfl := Option.some.inj hworld
  obtain ⟨mid, hrun, hmid, hvalue⟩ := h memory
  have hstore : mid.store = memory.store := congrArg World.store hmid
  obtain ⟨after, heffect, hafter⟩ := hinstr mid (by rw [hvalue, hstore])
  refine ⟨after, ?_, by rw [hafter, hmid]⟩
  rw [Memory.run?_append, hrun]
  exact congrArg (Option.bind · _) heffect

end Transforms

/-- The value of an expression is assigned to a variable. -/
theorem Expr.transforms_assign (e : Expr) (h : Flawless view m e.log) (name : String) :
    Transforms m (e.code ++ [.assign name e.value])
      (fun world => some (world.assign name (e.eval view m.interp world.store))) := by
  refine Transforms.of_evaluates (e.evaluates h) ?_
  intro memory hvalue
  refine ⟨_, rfl, ?_⟩
  rw [hvalue]
  rfl

theorem Call.transforms (c : Call) (h : Flawless view m c.log) :
    Transforms m c.code some := by
  obtain ⟨hclean, _, s, t, hplays⟩ := h
  intro memory world hworld
  obtain rfl := Option.some.inj hworld
  have hcalls : Calls view m c.log (fun store => c.eval view m.interp store) := c.calls
  obtain ⟨after, hrun, hkeeps, _⟩ := hcalls s t hplays hclean memory
  exact ⟨after, hrun, hkeeps.world⟩

/-- The values of two expressions with nothing but checks between them. -/
theorem Expr.run_two {lhs rhs : Expr} {check : List Action}
    (hcheck : check.all Action.idle = true)
    (h : Flawless view m (lhs.log ++ (check ++ rhs.log))) (memory : Memory) : ∃ after,
      memory.run? m (lhs.code ++ rhs.code) = some after ∧
      after.toWorld = memory.toWorld ∧
      after.value lhs.value = lhs.eval view m.interp memory.store ∧
      after.value rhs.value = rhs.eval view m.interp memory.store := by
  have hlhs : Computes view m lhs.log lhs.value (fun store => lhs.eval view m.interp store) :=
    lhs.computes
  have hrhs : Computes view m (check ++ rhs.log) rhs.value
      (fun store => rhs.eval view m.interp store) := .idle_append hcheck rhs.computes
  obtain ⟨after, hrun, hrest⟩ := (hlhs.two hrhs).run h memory
  rw [List.flatMap_append, List.flatMap_append, code_of_idle hcheck, List.nil_append] at hrun
  exact ⟨after, hrun, hrest⟩

/-- The index and the value of an assignment to an element are both there when it is made. -/
theorem transforms_assignElement (name : String) {index value : Expr} {check : List Action}
    (hcheck : check.all Action.idle = true)
    (h : Flawless view m (index.log ++ (check ++ value.log))) :
    Transforms m
      (index.code ++ (value.code ++ [.assignElement name index.value value.value]))
      (fun world => some (world.assignElement name (index.eval view m.interp world.store)
        (value.eval view m.interp world.store))) := by
  intro memory world hworld
  obtain rfl := Option.some.inj hworld
  obtain ⟨mid, hrun, hmid, hindex, hvalue⟩ := Expr.run_two hcheck h memory
  let after : Memory := { mid with
    store := mid.store.assignElement name (mid.value index.value) (mid.value value.value) }
  refine ⟨after, ?_, ?_⟩
  · rw [← List.append_assoc, Memory.run?_append, hrun]
    rfl
  · change World.assignElement mid.toWorld name (mid.value index.value) (mid.value value.value) = _
    rw [hmid, hindex, hvalue]

/-- The type of a name that is looked up is the one that it is declared with. -/
theorem NameRef.ty_eq {ref : NameRef} (h : (Action.nearest ref.token.value ref.symbol).Fits view) :
    ref.ty = if view.isChar ref.token.value then .char else .int := by
  rw [View.isChar, h.name _ _ rfl, NameRef.ty]
  cases ref.symbol with
  | none => rfl
  | some symbol => cases hty : symbol.ty <;> simp [hty, Ty.asValue]

theorem NameRef.transforms_scan (ref : NameRef) (h : Flawless view m ref.scanLog) :
    Transforms m ref.scanCode (fun world => world.scan?
      (if view.isChar ref.token.value then .char else .int) ref.token.value) := by
  have hclean := h.1
  unfold NameRef.scanLog NameRef.log at hclean
  have hty := NameRef.ty_eq (hclean (.nearest ref.token.value ref.symbol) (by simp)).1
  rw [← hty]
  unfold NameRef.scanCode NameRef.ty
  cases hsymbol : ref.symbol with
  | none =>
      -- an unknown name has been recorded
      rw [hsymbol] at hclean
      cases (Clean.cons_iff.1 (Clean.append_iff.1 hclean).2).1.2
  | some symbol =>
      intro memory world hworld
      refine ⟨{ memory with toWorld := world }, ?_, rfl⟩
      have hscan : memory.toWorld.scan? symbol.ty.asValue ref.token.value = some world := hworld
      simp [Memory.run?, Instr.effect?, hscan]

/-- The targets of an input are set one after the other. -/
theorem transforms_scanAll (targets : CommaList NameRef)
    (h : Flawless view m (targets.log NameRef.scanLog)) :
    Transforms m (targets.toList.flatMap NameRef.scanCode)
      (World.scanAll? view targets.toList) := by
  induction targets with
  | one ref => exact (ref.transforms_scan h).append .nil
  | cons ref comma rest ih => exact (ref.transforms_scan h.left).append (ih h.right.tail)

theorem Expr.ty_eq {e : Expr} (h : Clean (Action.Fits view) e.log) :
    e.ty = if e.isChar view then .char else .int := by
  cases e with
  | term t =>
      cases t with
      | factor f =>
          simp only [Expr.log, Term.log, Clean.cons_iff] at h
          cases f with
          | name ref | element ref lbracket index dst rbracket =>
              exact NameRef.ty_eq
                (h.2 (.nearest _ _) (by simp [Factor.log, NameRef.readLog, NameRef.log])).1
          | call c dst =>
              have hfits := (h.2 (.callee c.name.value (some c.callee)) (by simp [Factor.log])).1
              rw [Expr.isChar, View.returnsChar, hfits.function _ _ rfl, Expr.ty, Term.ty, Factor.ty]
              cases hty : c.callee.ty <;> simp [hty, Ty.asValue]
          | char literal | int literal | paren lparen inner rparen | unknownCall fn => rfl
      | chain lhs op opToken rhs dst => rfl
  | positive sign t | negative sign t value | chain lhs op opToken rhs dst => rfl

/-- A value is printed with the end of its line. -/
theorem transforms_print (value : Expr) (h : Flawless view m value.log) :
    Transforms m (printCode value) (fun world => some (world.print view m.interp value)) := by
  have hvalue : Transforms m (value.code ++ [value.printInstr]) (fun world =>
      some (world.record (if value.isChar view then .char (value.eval view m.interp world.store)
        else .number (value.eval view m.interp world.store)))) := by
    refine Transforms.of_evaluates (value.evaluates h) ?_
    intro memory hmemory
    rw [Expr.printInstr, Expr.ty_eq h.1, ← hmemory]
    cases value.isChar view <;> exact ⟨_, rfl, rfl⟩
  have hend : Transforms m [.printEnd] (fun world => some (world.record .lineEnd)) := by
    intro memory world hworld
    obtain rfl := Option.some.inj hworld
    exact ⟨_, rfl, rfl⟩
  have h := hvalue.append hend
  rw [List.append_assoc] at h
  exact h

theorem PrintItem.transforms (item : PrintItem) (h : Flawless view m item.log) :
    Transforms m item.code (fun world => some (item.perform view m.interp world)) := by
  have htext : ∀ (literal : Token) (index : Nat), m.strings.resolve? index = some literal.value →
      Transforms m [.printString index]
        (fun world => some (world.record (.text literal.value))) := by
    intro literal index hresolve memory world hworld
    obtain rfl := Option.some.inj hworld
    refine ⟨{ memory with toWorld := memory.toWorld.record (.text literal.value) }, ?_, rfl⟩
    simp [Memory.run?, Instr.effect?, hresolve]
  cases item with
  | text literal index =>
      have hresolve := h.2.1 (.intern literal.value index) (by simp [PrintItem.log])
      exact htext literal index hresolve
  | textValue literal index comma value =>
      have hresolve := h.2.1 (.intern literal.value index) (by simp [PrintItem.log])
      have hvalue : Flawless view m value.log := h.tail.tail.tail.tail.left
      exact (htext literal index hresolve).append (transforms_print value hvalue)
  | value value => exact transforms_print value h.left

/-- A relation that is tested in a sense holds when the jump is to be taken. -/
theorem Relation.holds_tested (relation : Relation) (sense : Sense) (a b : Int) :
    (relation.tested sense).holds a b = true ↔ relation.holds a b = sense.taken := by
  cases sense with
  | onTrue => rfl
  | onFalse =>
      rw [Relation.tested, holds_negate, Sense.taken]
      cases relation.holds a b <;> simp

theorem Condition.decides (target : Label) (sense : Sense) (c : Condition)
    (h : Flawless view m (c.log target sense)) : c.Decides view m := by
  intro memory target' sense'
  cases c with
  | test value =>
      have hevaluates : Evaluates m value.code value.value
          (fun store => value.eval view m.interp store) := value.evaluates h.left
      obtain ⟨after, hrun, hworld, hvalue⟩ := hevaluates memory
      refine ⟨value.code, .test value.value target' sense', after, rfl, hrun, hworld, ?_⟩
      intro code pc
      cases sense' with
      | onTrue => simp [Instr.test, Instr.step?, Condition.holds, Sense.taken, hvalue]
      | onFalse => simp [Instr.test, Instr.step?, Condition.holds, Sense.taken, hvalue]
  | compare lhs relation opToken rhs =>
      let link : List Action := checkConditionLog lhs ++ [.take opToken.kind opToken,
        .check (Relation.ofKind? opToken.kind = some relation)]
      have hcheck : link.all Action.idle = true := by
        rw [List.all_append, all_checkConditionLog]
        rfl
      have hlog : Condition.log target sense (.compare lhs relation opToken rhs) =
          (lhs.log ++ (link ++ rhs.log)) ++ (checkConditionLog rhs ++
            [.emit (.compare relation lhs.value rhs.value target sense)]) := by
        simp [Condition.log, link]
      rw [hlog] at h
      have hoperands := h.left
      obtain ⟨after, hrun, hworld, hleft, hright⟩ := Expr.run_two hcheck hoperands memory
      refine ⟨lhs.code ++ rhs.code, .compare relation lhs.value rhs.value target' sense', after, ?_,
        hrun, hworld, ?_⟩
      · rw [Condition.code, List.append_assoc]
      · intro code pc
        have hfact : Relation.ofKind? opToken.kind = some relation := h.facts (.check _) (by simp [link])
        rw [Instr.compare, Instr.step?, hleft, hright, Condition.holds,
          TokenKind.compare_of_ofKind? hfact]
        exact if_congr (relation.holds_tested sense' _ _) rfl rfl

/-- The parts of a counting loop that are not its body. -/
structure ForHeader.Ready (view : View) (m : Machine) (header : ForHeader) : Prop where
  start : Transforms m
    (header.start.code ++ [.assign header.init.token.value header.start.value])
    (fun world => some (header.begin view m.interp world))
  condition : header.condition.Decides view m
  step : Transforms m [header.stepInstr]
    (fun world => some (header.advance view m.interp world))

/-- The step reads a variable, so that a constant must not stand there. -/
theorem ForHeader.transforms_step {header : ForHeader} (hamount : Flawless view m header.amount.log)
    (hop : ArithOp.additive? header.opToken.kind = some header.op)
    (hsource : view.isConst header.source.token.value = false) :
    Transforms m [header.stepInstr] (fun world => some (header.advance view m.interp world)) := by
  have hconst : (view.name? header.source.token.value).bind Symbol.constant? = none := by
    unfold View.isConst at hsource
    cases hsymbol : view.name? header.source.token.value with
    | none => rfl
    | some symbol =>
        rw [hsymbol] at hsource
        have hkind : symbol.kind ≠ .const := by simpa using hsource
        simp [Symbol.constant?, hkind]
  have hnumber : header.amount.value.toInt = header.amount.token.number := by
    have hkind : header.amount.token.kind = .intLit := hamount.facts _ List.mem_cons_self
    have hvalue : Text.signed? _ = _ := hamount.facts _ (List.mem_cons_of_mem _ List.mem_cons_self)
    have hscanned := (Clean.cons_iff.1 hamount.1).1.1.sound
    have hdigits : header.amount.token.value.toList.all Char.isDigit = true := by
      simpa only [Action.Sound, Token.isScanned, hkind] using hscanned
    exact (Text.toInt_of_signed? hdigits hvalue).1
  intro memory world hworld
  obtain rfl := Option.some.inj hworld
  refine ⟨_, rfl, ?_⟩
  unfold ForHeader.advance View.value
  rw [hconst, m.interp.binary_of_additive? hop, ← hnumber]
  rfl

mutual

/-- The names that the steps of counting loops read. -/
def Stmt.stepSources : Stmt → List NameRef
  | .ifThen _ _ body _ _ => body.stepSources
  | .ifElse _ _ body _ alternative _ _ => body.stepSources ++ alternative.stepSources
  | .whileLoop _ _ body _ _ => body.stepSources
  | .doLoop _ body _ _ _ => body.stepSources
  | .forLoop _ header body _ _ => header.source :: body.stepSources
  | .block _ body _ => Stmt.allStepSources body
  | _ => []

def Stmt.allStepSources : List Stmt → List NameRef
  | [] => []
  | stmt :: stmts => stmt.stepSources ++ Stmt.allStepSources stmts

end

section Ready

variable (view : View) (m : Machine)

mutual

/-- The parts of a statement without control flow do what they mean. What could not be read has no
meaning, so that nothing is asked of it. -/
def Stmt.Ready : Stmt → Prop
  | .ifThen _ guard body _ _ => guard.condition.Decides view m ∧ body.Ready
  | .ifElse _ guard body _ alternative _ _ =>
    guard.condition.Decides view m ∧ body.Ready ∧ alternative.Ready
  | .whileLoop _ guard body _ _ => guard.condition.Decides view m ∧ body.Ready
  | .doLoop _ body _ guard _ => guard.condition.Decides view m ∧ body.Ready
  | .forLoop _ header body _ _ => header.Ready view m ∧ body.Ready
  | .block _ body _ => Stmt.AllReady body
  | .call c _ => Transforms m c.code some
  | .assign target _ value _ => Transforms m
      (value.code ++ [.assign target.token.value value.value])
      (fun world => some (world.assign target.token.value (value.eval view m.interp world.store)))
  | .assignElement target _ index _ _ value _ => Transforms m
      (index.code ++ (value.code ++ [.assignElement target.token.value index.value value.value]))
      (fun world => some (world.assignElement target.token.value (index.eval view m.interp world.store)
        (value.eval view m.interp world.store)))
  | .scan _ _ targets _ _ => Transforms m
      (targets.toList.flatMap NameRef.scanCode) (World.scanAll? view targets.toList)
  | .print _ _ item _ _ => Transforms m item.code
      (fun world => some (item.perform view m.interp world))
  | .retValue _ _ value _ _ => Evaluates m value.code value.value
      (fun store => value.eval view m.interp store)
  | .unknownCall _ _ | .skipped | .ret _ _ | .empty _ => True

def Stmt.AllReady : List Stmt → Prop
  | [] => True
  | stmt :: stmts => stmt.Ready ∧ Stmt.AllReady stmts

end

end Ready

mutual

/-- A statement that was compiled without a fault is ready. -/
theorem Stmt.ready (returnType : Ty) : (stmt : Stmt) →
    Flawless view m (stmt.log returnType) →
    (∀ ref ∈ stmt.stepSources, view.isConst ref.token.value = false) → stmt.Ready view m
  | .ifThen keyword guard body elseLabel endLabel, h, hsources => by
      simp only [Stmt.log, Guard.log, Stmt.stepSources] at h hsources
      have hguard := h.tail.tail.left.tail.left
      have hbody := h.tail.tail.right.left
      exact ⟨guard.condition.decides _ _ hguard, body.ready returnType hbody hsources⟩
  | .ifElse keyword guard body elseKeyword alternative elseLabel endLabel, h, hsources => by
      simp only [Stmt.log, Guard.log, Stmt.stepSources, List.forall_mem_append] at h hsources
      have hguard := h.tail.tail.left.tail.left
      have hrest := h.tail.tail.right
      have hother := hrest.right.tail.tail.tail.tail.left
      exact ⟨guard.condition.decides _ _ hguard, body.ready returnType hrest.left hsources.1,
        alternative.ready returnType hother hsources.2⟩
  | .whileLoop keyword guard body loopLabel endLabel, h, hsources => by
      simp only [Stmt.log, Stmt.stepSources] at h hsources
      have hrest := h.tail.tail.tail.tail.tail
      have hbody := hrest.right.right.left
      exact ⟨guard.condition.decides _ _ hrest.left, body.ready returnType hbody hsources⟩
  | .doLoop keyword body whileKeyword guard loopLabel, h, hsources => by
      simp only [Stmt.log, Guard.log, Stmt.stepSources] at h hsources
      have hrest := h.tail.tail.tail
      have hguard := hrest.right.right.tail.left
      exact ⟨guard.condition.decides _ _ hguard, body.ready returnType hrest.left hsources⟩
  | .forLoop keyword header body loopLabel endLabel, h, hsources => by
      simp only [Stmt.log, ForHeader.log, Stmt.stepSources, List.forall_mem_cons] at h hsources
      have hheader := h.tail.left.tail.right.tail
      have hrest := hheader.right.tail.tail.tail.right.tail
      have hamount := hrest.right.right.right.tail.right.tail.tail.left
      have hbody := h.tail.right.left
      have hop := h.facts (.check (ArithOp.additive? header.opToken.kind = some header.op)) (by simp)
      exact ⟨⟨header.start.transforms_assign hheader.left _, header.condition.decides _ _ hrest.left,
        ForHeader.transforms_step hamount hop hsources.1⟩, body.ready returnType hbody hsources.2⟩
  | .block lbrace body rbrace, h, hsources => by
      simp only [Stmt.log, Stmt.stepSources] at h hsources
      exact Stmt.allReady returnType body h.tail.left hsources
  | .call c semicolon, h, _ => by
      simp only [Stmt.log] at h
      exact c.transforms h.tail.left
  | .assign target eq value semicolon, h, _ => by
      simp only [Stmt.log] at h
      exact value.transforms_assign h.right.tail.left target.token.value
  | .assignElement target lbracket index rbracket eq value semicolon, h, _ => by
      let link : List Action := checkIndexLog index ++
        (recoverLog .rbracket .missingBracket rbracket ++ [.take .assign eq])
      have hcheck : link.all Action.idle = true := by
        rw [List.all_append, List.all_append, all_checkIndexLog, all_recoverLog]
        rfl
      have hlog : Stmt.log returnType
          (.assignElement target lbracket index rbracket eq value semicolon) =
            target.targetLog ++ (.take .lbracket lbracket :: ((index.log ++ (link ++ value.log)) ++
              (.emit (.assignElement target.token.value index.value value.value) ::
                semicolonLog semicolon))) := by
        simp [Stmt.log, link]
      rw [hlog] at h
      exact transforms_assignElement target.token.value hcheck h.right.tail.left
  | .scan keyword lparen targets rparen semicolon, h, _ => by
      simp only [Stmt.log] at h
      exact transforms_scanAll targets h.tail.tail.left
  | .print keyword lparen item rparen semicolon, h, _ => by
      simp only [Stmt.log] at h
      exact item.transforms h.tail.tail.left
  | .retValue keyword lparen value rparen semicolon, h, _ => by
      simp only [Stmt.log] at h
      exact value.evaluates h.tail.tail.left
  | .unknownCall _ _, _, _ => trivial
  | .skipped, _, _ => trivial
  | .ret _ _, _, _ => trivial
  | .empty _, _, _ => trivial

theorem Stmt.allReady (returnType : Ty) : (stmts : List Stmt) →
    Flawless view m (Stmt.logs returnType stmts) →
    (∀ ref ∈ Stmt.allStepSources stmts, view.isConst ref.token.value = false) →
    Stmt.AllReady view m stmts
  | [], _, _ => trivial
  | stmt :: stmts, h, hsources => by
      simp only [Stmt.logs, Stmt.allStepSources, List.forall_mem_append] at h hsources
      exact ⟨stmt.ready returnType h.left hsources.1,
        Stmt.allReady returnType stmts h.right hsources.2⟩

end

end OnePass
