import OnePass.Proofs.Log.Expr
import OnePass.Proofs.Semantics.Source
import OnePass.Proofs.Sound

/-!
The code of an expression computes its value. It may use any register that was not given out
before, and leaves everything else as it was. So the value of a left operand is still there when
the right one has been computed, and arguments that were pushed stay pushed.
-/

namespace OnePass

/-- A log of actions with a property that records nothing. -/
def Clean (P : Action → Prop) (log : List Action) : Prop :=
  ∀ action ∈ log, P action ∧ action.records = []

namespace Clean

variable {P : Action → Prop}

@[simp]
theorem cons_iff {action : Action} {log : List Action} :
    Clean P (action :: log) ↔ (P action ∧ action.records = []) ∧ Clean P log :=
  List.forall_mem_cons

@[simp]
theorem append_iff {front back : List Action} :
    Clean P (front ++ back) ↔ Clean P front ∧ Clean P back :=
  List.forall_mem_append

theorem of_recoverLog {kind : TokenKind} {missing : DiagnosticKind} {found : Option Token}
    (h : Clean P (recoverLog kind missing found)) : found.isSome = true := by
  cases found with
  | none => cases (h _ List.mem_cons_self).2
  | some token => rfl

end Clean

/-- What an action reads has the right shape, and names stand for what a view says. -/
structure Action.Fits (view : View) (action : Action) : Prop where
  sound : action.Sound
  name : ∀ name symbol, action = .nearest name symbol → view.name? name = symbol
  function : ∀ name symbol, action = .callee name symbol → view.function? name = symbol

/-- An operand that was made while the registers from `first` to `last` were given out. -/
structure Operand.Made (value : Operand) (first last : Nat) : Prop where
  reg : ∀ r, value = .reg r → first ≤ r.number ∧ r.number < last
  /-- The numeral of the least word does not occur, since it cannot be negated. -/
  literal : ∀ n, value.literal? = some n → n ≠ Int64.minValue

theorem Operand.Made.of_reg {r : Reg} {first last : Nat} (hfirst : first ≤ r.number)
    (hlast : r.number < last) : (Operand.reg r).Made first last := by
  refine ⟨?_, ?_⟩
  · intro r' h
    cases h
    exact ⟨hfirst, hlast⟩
  · intro n h
    cases h

theorem Operand.Made.of_named {text : String} {first last : Nat}
    (h : ∀ n, Text.signed? text.toList = some n → n ≠ Int64.minValue) :
    (Operand.named text).Made first last := by
  refine ⟨?_, h⟩
  intro r hr
  cases hr

theorem Operand.Made.mono {value : Operand} {first last first' last' : Nat}
    (h : value.Made first last) (hfirst : first' ≤ first) (hlast : last ≤ last') :
    value.Made first' last' := by
  refine ⟨?_, h.literal⟩
  intro r hr
  have := h.reg r hr
  omega

/-- The world and the registers below a number are as they were. -/
structure Memory.Keeps (bound : Nat) (before after : Memory) : Prop where
  world : after.toWorld = before.toWorld
  regs : ∀ r : Reg, r.number < bound → after.regs r = before.regs r

namespace Memory.Keeps

theorem refl (bound : Nat) (memory : Memory) : memory.Keeps bound memory :=
  ⟨rfl, fun _ _ => rfl⟩

theorem trans {bound later : Nat} {first second third : Memory} (h : first.Keeps bound second)
    (hlater : second.Keeps later third) (hle : bound ≤ later) : first.Keeps bound third := by
  refine ⟨hlater.world.trans h.world, ?_⟩
  intro r hr
  rw [hlater.regs r (Nat.lt_of_lt_of_le hr hle), h.regs r hr]

theorem setReg {bound : Nat} {first second : Memory} (h : first.Keeps bound second) {dst : Reg}
    (hdst : bound ≤ dst.number) (value : Int) : first.Keeps bound (second.setReg dst value) := by
  refine ⟨h.world, ?_⟩
  intro r hr
  have hne : r ≠ dst := by
    rintro rfl
    omega
  rw [← h.regs r hr]
  exact Function.update_of_ne hne value second.regs

theorem value {bound first : Nat} {before after : Memory} (h : before.Keeps bound after)
    {value : Operand} (hvalue : value.Made first bound) : after.value value = before.value value := by
  cases value with
  | reg r => exact h.regs r (hvalue.reg r rfl).2
  | named text =>
      unfold Memory.value
      rw [h.world]

theorem store {bound : Nat} {before after : Memory} (h : before.Keeps bound after) :
    after.store = before.store := by
  rw [h.world]

end Memory.Keeps

section Code

variable (view : View) (m : Machine)

/-- The code of a log computes a value, and keeps all that there was. -/
def Computes (log : List Action) (value : Operand) (meaning : Store → Int) : Prop :=
  ∀ s t, Plays log s t → Clean (Action.Fits view) log →
    value.Made s.counters.regs t.counters.regs ∧
    ∀ memory : Memory, ∃ after,
      memory.run? m (log.flatMap Action.code) = some after ∧
      memory.Keeps s.counters.regs after ∧ after.frames = memory.frames ∧
      after.value value = meaning memory.store

/-- The code of a log computes two values that are both there in the end. -/
def ComputesTwo (log : List Action) (lhs rhs : Operand) (left right : Store → Int) : Prop :=
  ∀ s t, Plays log s t → Clean (Action.Fits view) log →
    lhs.Made s.counters.regs t.counters.regs ∧ rhs.Made s.counters.regs t.counters.regs ∧
    ∀ memory : Memory, ∃ after,
      memory.run? m (log.flatMap Action.code) = some after ∧
      memory.Keeps s.counters.regs after ∧ after.frames = memory.frames ∧
      after.value lhs = left memory.store ∧ after.value rhs = right memory.store

end Code

variable {view : View} {m : Machine}

namespace Computes

variable {log front back : List Action} {value lhs rhs : Operand} {meaning left right : Store → Int}

/-- A phrase that needs no code. -/
theorem of_idle (hidle : log.all Action.idle = true)
    (h : ∀ s t, Plays log s t → Clean (Action.Fits view) log → (∃ text, value = .named text) ∧
      (∀ n, value.literal? = some n → n ≠ Int64.minValue) ∧
      ∀ memory : Memory, memory.value value = meaning memory.store) :
    Computes view m log value meaning := by
  intro s t hplays hclean
  obtain ⟨⟨text, rfl⟩, hliteral, hvalue⟩ := h s t hplays hclean
  refine ⟨.of_named hliteral, ?_⟩
  intro memory
  rw [(hplays.of_idle hidle).1]
  exact ⟨memory, rfl, .refl _ _, rfl, hvalue memory⟩

/-- The meaning may be given as what the log has checked allows. -/
theorem of_facts {other : Store → Int} (h : Computes view m log value other)
    (hmeaning : (∀ action ∈ log, action.Fact) → other = meaning) :
    Computes view m log value meaning := by
  intro s t hplays hclean
  obtain rfl := hmeaning hplays.facts
  exact h s t hplays hclean

theorem idle_append (hidle : front.all Action.idle = true)
    (h : Computes view m back value meaning) :
    Computes view m (front ++ back) value meaning := by
  intro s t hplays hclean
  obtain ⟨u, hfront, hback⟩ := plays_append.1 hplays
  obtain ⟨hcode, hregs⟩ := hfront.of_idle hidle
  have hback := h u t hback (Clean.append_iff.1 hclean).2
  rw [List.flatMap_append, hcode, List.nil_append, ← hregs]
  exact hback

theorem append_idle (h : Computes view m front value meaning)
    (hidle : back.all Action.idle = true) :
    Computes view m (front ++ back) value meaning := by
  intro s t hplays hclean
  obtain ⟨u, hfront, hback⟩ := plays_append.1 hplays
  obtain ⟨hcode, hregs⟩ := hback.of_idle hidle
  have hfront := h s u hfront (Clean.append_iff.1 hclean).1
  rw [List.flatMap_append, hcode, List.append_nil, hregs]
  exact hfront

theorem cons_idle {action : Action} (hidle : action.idle = true)
    (h : Computes view m log value meaning) :
    Computes view m (action :: log) value meaning := by
  have hone : [action].all Action.idle = true := by
    rw [List.all_cons, hidle]
    rfl
  exact idle_append hone h

/-- The first value is still there when the second has been computed. -/
theorem two (hfront : Computes view m front lhs left)
    (hback : Computes view m back rhs right) :
    ComputesTwo view m (front ++ back) lhs rhs left right := by
  intro s t hplays hclean
  obtain ⟨u, hleft, hright⟩ := plays_append.1 hplays
  obtain ⟨hcleanLeft, hcleanRight⟩ := Clean.append_iff.1 hclean
  have hfirst := hleft.regs_le
  have hlast := hright.regs_le
  obtain ⟨hlhs, hrunLeft⟩ := hfront s u hleft hcleanLeft
  obtain ⟨hrhs, hrunRight⟩ := hback u t hright hcleanRight
  refine ⟨hlhs.mono (Nat.le_refl _) hlast, hrhs.mono hfirst (Nat.le_refl _), ?_⟩
  intro memory
  obtain ⟨mid, hrunMid, hkeepsMid, hframesMid, hvalueMid⟩ := hrunLeft memory
  obtain ⟨after, hrun, hkeeps, hframes, hvalue⟩ := hrunRight mid
  refine ⟨after, ?_, hkeepsMid.trans hkeeps hfirst, hframes.trans hframesMid, ?_, ?_⟩
  · rw [List.flatMap_append, Memory.run?_append, hrunMid]
    exact hrun
  · rw [hkeeps.value hlhs, hvalueMid]
  · rw [hvalue, hkeepsMid.store]

end Computes

/-- A text that was written for a literal is read as one. -/
theorem Text.IsLiteral.literal?_isSome {text : String} (h : Text.IsLiteral text) :
    (Text.literal? text).isSome = true := by
  cases h with
  | number n hn => rw [Text.literal?_numberText]; rfl
  | char value c hvalue => rw [Text.literal?_ofChar hvalue]; rfl

theorem Text.IsLiteral.ne_minValue {text : String} (h : Text.IsLiteral text) {n : Int64}
    (hn : Text.signed? text.toList = some n) : n ≠ Int64.minValue := by
  cases h with
  | number m hm =>
      rw [Text.signed?_numberText] at hn
      exact Option.some.inj hn ▸ hm
  | char value c hvalue =>
      rw [Text.signed?_ofChar] at hn
      cases hn

/-- A name that is read stands for its constant or its variable. -/
theorem NameRef.computes (ref : NameRef) : Computes view m ref.readLog ref.value
    (fun store => view.value store ref.token.value) := by
  refine .of_idle (all_readLog ref) ?_
  intro s t hplays hclean
  have htake : ref.token.kind = .ident := hplays.facts (.take .ident ref.token)
    (by simp [readLog, log])
  have hname : Text.isName ref.token.value = true := by
    have hscanned := (hclean (.take .ident ref.token) (by simp [readLog, log])).1.sound
    simpa [Action.Sound, Token.isScanned, htake] using hscanned
  obtain ⟨hfits, _⟩ := hclean (.nearest ref.token.value ref.symbol) (by simp [readLog, log])
  refine ⟨⟨_, rfl⟩, ?_⟩
  unfold NameRef.value View.value
  rw [hfits.name _ _ rfl]
  by_cases hconst : ∃ symbol, ref.symbol = some symbol ∧ symbol.kind = .const
  · obtain ⟨symbol, hsymbol, hkind⟩ := hconst
    obtain ⟨text, htext, hliteral⟩ := hfits.sound symbol hsymbol hkind
    obtain ⟨v, hv⟩ := Option.isSome_iff_exists.1 hliteral.literal?_isSome
    simp only [hsymbol, Option.bind_some, Symbol.substitute?, Symbol.constant?, hkind, htext, hv]
    exact ⟨fun n hn => hliteral.ne_minValue hn, fun memory => by simp [Memory.value, hv]⟩
  · have hother : ref.symbol.bind Symbol.substitute? = none ∧
        ref.symbol.bind Symbol.constant? = none := by
      cases hsymbol : ref.symbol with
      | none => exact ⟨rfl, rfl⟩
      | some symbol =>
          have hkind : symbol.kind ≠ .const := fun hkind => hconst ⟨symbol, hsymbol, hkind⟩
          simp [Symbol.substitute?, Symbol.constant?, hkind]
    rw [hother.1, hother.2]
    refine ⟨fun n hn => ?_, fun memory => ?_⟩
    · rw [Operand.literal?, Option.getD_none, Text.signed?_of_isName hname] at hn
      cases hn
    · simp [Memory.value, Text.literal?_of_isName hname]

theorem IntLit.computes (lit : IntLit) :
    Computes view m lit.log (.ofNumber lit.value) (fun _ => lit.number) := by
  refine .of_idle (all_integer lit) ?_
  intro s t hplays hclean
  unfold IntLit.log at hplays hclean
  obtain ⟨u, _, v, ⟨hkind, _⟩, w, ⟨hvalue, _⟩, _⟩ := plays_append.1 hplays
  obtain ⟨_, hdigits⟩ := Clean.append_iff.1 hclean
  obtain ⟨hdigits, _⟩ := Clean.append_iff.1 hdigits
  obtain ⟨⟨hscanned, _⟩, _⟩ := by simpa only [UnsignedLit.log, Clean.cons_iff] using hdigits
  have hscanned : lit.digits.token.value.toList.all Char.isDigit = true := by
    simpa only [Action.Sound, Token.isScanned, hkind] using hscanned.sound
  obtain ⟨hnumber, hne⟩ := Text.toInt_of_signed? hscanned hvalue
  have hboth : lit.value.toInt = lit.number ∧ lit.value ≠ Int64.minValue := by
    unfold IntLit.value IntLit.number
    cases lit.sign with
    | none => exact ⟨hnumber, hne⟩
    | some sign =>
        dsimp only
        split
        · exact ⟨by rw [Text.toInt_neg hne, hnumber]; rfl, Text.neg_ne_minValue hne⟩
        · exact ⟨hnumber, hne⟩
  refine ⟨⟨_, rfl⟩, ?_, ?_⟩
  · intro n hn
    have hvalue : (Operand.ofNumber lit.value).literal? = some lit.value :=
      Text.signed?_numberText lit.value
    exact Option.some.inj (hvalue.symm.trans hn) ▸ hboth.2
  · intro memory
    rw [← hboth.1]
    simp [Memory.value, Operand.ofNumber, Text.literal?_numberText]

theorem computes_char (literal : Token) :
    Computes view m [.take .charLit literal] (.ofChar literal.value)
      (fun _ => literal.charCode) := by
  refine .of_idle rfl ?_
  intro s t hplays hclean
  obtain ⟨_, ⟨hkind, _⟩, _⟩ := hplays
  have hscanned : literal.value.toList.length = 1 := by
    simpa [Action.Sound, Token.isScanned, hkind] using (hclean _ List.mem_cons_self).1.sound
  obtain ⟨c, hc⟩ := List.length_eq_one_iff.1 hscanned
  refine ⟨⟨_, rfl⟩, ?_, ?_⟩
  · intro n hn
    have hnone : (Operand.ofChar literal.value).literal? = none := Text.signed?_ofChar _
    rw [hnone] at hn
    cases hn
  · intro memory
    have hvalue : Text.literal? (Operand.ofChar literal.value).text = some (c.toNat : Int) :=
      Text.literal?_ofChar hc
    change (Text.literal? (Operand.ofChar literal.value).text).getD _ = literal.charCode
    rw [hvalue, Token.charCode, hc]
    rfl

/-- An instruction may put what it makes of a value into a fresh register. -/
theorem Computes.fresh {log : List Action} {value : Operand} {meaning : Store → Int}
    (h : Computes view m log value meaning) {instr : Instr} {dst : Reg}
    {f : Store → Int → Int} (heffect : ∀ memory : Memory, instr.effect? m memory =
      some (memory.setReg dst (f memory.store (memory.value value)))) :
    Computes view m (log ++ [.reg dst, .emit instr]) (.reg dst)
      (fun store => f store (meaning store)) := by
  intro s t hplays hclean
  obtain ⟨u, hlog, v, hreg, w, hemit, rfl⟩ := plays_append.1 hplays
  obtain ⟨_, hrun⟩ := h s u hlog (Clean.append_iff.1 hclean).1
  have hfirst := hlog.regs_le
  cases hreg
  rw [hemit.effect.counters]
  refine ⟨.of_reg hfirst (Nat.lt_succ_self _), ?_⟩
  intro memory
  obtain ⟨mid, hmid, hkeeps, hframes, hvalue⟩ := hrun memory
  refine ⟨mid.setReg ⟨u.counters.regs⟩ (f mid.store (mid.value value)), ?_,
    hkeeps.setReg hfirst _, hframes, ?_⟩
  · rw [List.flatMap_append, Memory.run?_append, hmid]
    exact congrArg (Option.bind · _) (heffect mid)
  · rw [Memory.value_setReg, hvalue, hkeeps.store]

/-- What a value is negated to. -/
theorem Computes.negate {log : List Action} {value : Operand} {meaning : Store → Int}
    (h : Computes view m log value meaning) (result : Operand) :
    Computes view m (log ++ negateLog value result) result
      (fun store => m.interp.neg (meaning store)) := by
  cases result with
  | reg dst => exact h.fresh (f := fun _ => m.interp.neg) fun _ => rfl
  | named text =>
      intro s t hplays hclean
      obtain ⟨u, hlog, v, ⟨⟨n, hn, rfl⟩, rfl⟩, _, hnote, rfl⟩ := plays_append.1 hplays
      cases hnote
      obtain ⟨hmade, hrun⟩ := h s u hlog (Clean.append_iff.1 hclean).1
      have hne := hmade.literal n hn
      refine ⟨.of_named ?_, ?_⟩
      · intro m hm
        rw [Text.signed?_numberText] at hm
        exact Option.some.inj hm ▸ Text.neg_ne_minValue hne
      · intro memory
        obtain ⟨mid, hmid, hkeeps, hframes, hvalue⟩ := hrun memory
        refine ⟨mid, ?_, hkeeps, hframes, ?_⟩
        · rw [List.flatMap_append, Memory.run?_append, hmid]
          rfl
        · -- the value was a numeral, so its meaning is the number that is negated here
          have hmeaning : meaning memory.store = n.toInt := by
            rw [← hvalue]
            cases value with
            | reg r => cases hn
            | named old =>
                have hold : Text.signed? old.toList = some n := hn
                simp [Memory.value, Text.literal?, hold]
          simp only [hmeaning, m.interp.neg_word n hne, ← Text.toInt_neg hne]
          simp [Memory.value, Text.literal?_numberText]

/-- What two values are combined to. -/
theorem ComputesTwo.combine {log : List Action} {lhs rhs : Operand} {left right : Store → Int}
    (h : ComputesTwo view m log lhs rhs left right) (accumulator : Option Reg) (op : ArithOp)
    (dst : Reg) (hlhs : ∀ r, accumulator = some r → lhs = .reg r) :
    Computes view m (log ++ combineLog accumulator op dst lhs rhs) (.reg dst)
      (fun store => m.interp.op op (left store) (right store)) := by
  intro s t hplays hclean
  obtain ⟨u, hlog, hcombine⟩ := plays_append.1 hplays
  obtain ⟨hmade, _, hrun⟩ := h s u hlog (Clean.append_iff.1 hclean).1
  have hfirst := hlog.regs_le
  -- the result goes into a register that was made meanwhile, an old one or a fresh one
  have hdst : s.counters.regs ≤ dst.number ∧ dst.number < t.counters.regs ∧
      (combineLog accumulator op dst lhs rhs).flatMap Action.code = [.arith op dst lhs rhs] := by
    cases accumulator with
    | none =>
        obtain ⟨v, hreg, w, hemit, rfl⟩ := hcombine
        cases hreg
        rw [hemit.effect.counters]
        exact ⟨hfirst, Nat.lt_succ_self _, rfl⟩
    | some r =>
        obtain ⟨v, ⟨rfl, rfl⟩, w, hemit, rfl⟩ := hcombine
        rw [hemit.effect.counters]
        obtain ⟨hlower, hupper⟩ := hmade.reg dst (hlhs dst rfl)
        exact ⟨hlower, hupper, rfl⟩
  obtain ⟨hlower, hupper, hcode⟩ := hdst
  refine ⟨.of_reg hlower hupper, ?_⟩
  intro memory
  obtain ⟨mid, hmid, hkeeps, hframes, hleft, hright⟩ := hrun memory
  refine ⟨mid.setReg dst (m.interp.op op (mid.value lhs) (mid.value rhs)), ?_,
    hkeeps.setReg hlower _, hframes, ?_⟩
  · rw [List.flatMap_append, hcode, Memory.run?_append, hmid]
    rfl
  · rw [Memory.value_setReg, hleft, hright]

section Calls

variable (view : View) (m : Machine)

/-- The code of a log pushes values for a call that has just been opened. -/
def Pushes (function : String) (log : List Action) (values : Store → List Int) : Prop :=
  ∀ s t, Plays log s t → Clean (Action.Fits view) log → ∀ (memory : Memory) (rest : List Frame),
    memory.frames = ⟨function, []⟩ :: rest → ∃ after,
      memory.run? m (log.flatMap Action.code) = some after ∧
      memory.Keeps s.counters.regs after ∧
      after.frames = ⟨function, values memory.store⟩ :: rest

/-- The code of a log leaves a value as the result of a call. -/
def Calls (log : List Action) (meaning : Store → Int) : Prop :=
  ∀ s t, Plays log s t → Clean (Action.Fits view) log → ∀ memory : Memory, ∃ after,
    memory.run? m (log.flatMap Action.code) = some after ∧
    memory.Keeps s.counters.regs after ∧ after.frames = memory.frames ∧
    after.result = meaning memory.store

end Calls

theorem Pushes.nil {function : String} : Pushes view m function [] fun _ => [] := by
  intro s t _ _ memory rest hframes
  exact ⟨memory, rfl, .refl _ _, hframes⟩

/-- One more argument. -/
theorem Pushes.push {function : String} {front back : List Action} {values : Store → List Int}
    {value : Operand} {meaning : Store → Int} {position : Nat}
    (h : Pushes view m function front values)
    (hvalue : Computes view m back value meaning)
    (hlength : ∀ store, (values store).length = position) :
    Pushes view m function (front ++ (back ++ [.emit (.push function value position)]))
      (fun store => values store ++ [meaning store]) := by
  intro s t hplays hclean memory rest hframes
  obtain ⟨u, hfront, hplays⟩ := plays_append.1 hplays
  obtain ⟨v, hback, w, hemit, rfl⟩ := plays_append.1 hplays
  obtain ⟨hcleanFront, hclean⟩ := Clean.append_iff.1 hclean
  obtain ⟨hcleanBack, _⟩ := Clean.append_iff.1 hclean
  obtain ⟨mid, hmid, hkeepsMid, hframesMid⟩ := h s u hfront hcleanFront memory rest hframes
  obtain ⟨after, hafter, hkeeps, hframesAfter, hresult⟩ := (hvalue u v hback hcleanBack).2 mid
  have hstack : after.frames = ⟨function, values memory.store⟩ :: rest :=
    hframesAfter.trans hframesMid
  let pushed : Memory :=
    { after with frames := ⟨function, values memory.store ++ [meaning memory.store]⟩ :: rest }
  have hpush : (Instr.push function value position).effect? m after = some pushed := by
    simp [Instr.effect?, Memory.push?, hstack, hlength, hresult, hkeepsMid.store, pushed]
  refine ⟨pushed, ?_, hkeepsMid.trans ⟨hkeeps.world, hkeeps.regs⟩ hfront.regs_le, rfl⟩
  rw [List.flatMap_append, List.flatMap_append, Memory.run?_append, hmid, Option.bind_some,
    Memory.run?_append, hafter]
  exact congrArg (Option.bind · _) hpush

/-- The result of a call is taken into a fresh register. -/
theorem Calls.takeResult {log : List Action} {meaning : Store → Int}
    (h : Calls view m log meaning) (dst : Reg) :
    Computes view m (log ++ [.reg dst, .emit (.takeResult dst)]) (.reg dst) meaning := by
  intro s t hplays hclean
  obtain ⟨u, hlog, v, hreg, w, hemit, rfl⟩ := plays_append.1 hplays
  have hrun := h s u hlog (Clean.append_iff.1 hclean).1
  have hfirst := hlog.regs_le
  cases hreg
  rw [hemit.effect.counters]
  refine ⟨.of_reg hfirst (Nat.lt_succ_self _), ?_⟩
  intro memory
  obtain ⟨mid, hmid, hkeeps, hframes, hresult⟩ := hrun memory
  refine ⟨mid.setReg ⟨u.counters.regs⟩ mid.result, ?_, hkeeps.setReg hfirst _, hframes, ?_⟩
  · rw [List.flatMap_append, Memory.run?_append, hmid]
    rfl
  · rw [Memory.value_setReg, hresult]

theorem Calls.cons_idle {action : Action} {log : List Action} {meaning : Store → Int}
    (hidle : action.idle = true) (h : Calls view m log meaning) :
    Calls view m (action :: log) meaning := by
  intro s t hplays hclean
  obtain ⟨u, haction, hlog⟩ := hplays
  obtain ⟨hcode, hregs⟩ := haction.of_idle hidle
  have hrun := h u t hlog (Clean.cons_iff.1 hclean).2
  rw [List.flatMap_cons, hcode, List.nil_append, ← hregs]
  exact hrun

/-- A call is opened, gets its arguments and is made. -/
theorem Pushes.call {function : String} {log check : List Action} {values : Store → List Int}
    (h : Pushes view m function log values) (hidle : check.all Action.idle = true) :
    Calls view m (.emit (.save function) :: (log ++ (check ++ [.emit (.call function)])))
      (fun store => m.interp.call function (values store)) := by
  intro s t hplays hclean memory
  obtain ⟨u, hsave, hplays⟩ := hplays
  obtain ⟨v, hlog, hplays⟩ := plays_append.1 hplays
  obtain ⟨w, hcheck, x, hcall, rfl⟩ := plays_append.1 hplays
  have hregs : u.counters.regs = s.counters.regs := by rw [hsave.effect.counters]; rfl
  have hcleanLog := (Clean.append_iff.1 (Clean.cons_iff.1 hclean).2).1
  let opened : Memory := { memory with frames := ⟨function, []⟩ :: memory.frames }
  obtain ⟨after, hafter, hkeeps, hframes⟩ := h u v hlog hcleanLog opened memory.frames rfl
  let called : Memory :=
    { after with frames := memory.frames, result := m.interp.call function (values memory.store) }
  have heffect : (Instr.call function).effect? m after = some called := by
    simp [Instr.effect?, Memory.call?, hframes, called, opened]
  refine ⟨called, ?_, ⟨hkeeps.world, fun r hr => hkeeps.regs r (hregs ▸ hr)⟩, rfl, rfl⟩
  have hcode : ((Action.emit (.save function) :: (log ++ (check ++ [.emit (.call function)]))).flatMap
      Action.code) = .save function :: (log.flatMap Action.code ++ [.call function]) := by
    simp [List.flatMap_cons, (hcheck.of_idle hidle).1, Action.code]
  rw [hcode]
  change opened.run? m (log.flatMap Action.code ++ [.call function]) = some called
  rw [Memory.run?_append, hafter]
  exact congrArg (Option.bind · _) heffect

theorem Args.length_eval (view : View) (interp : Interpretation) (store : Store) :
    (args : Args) → (args.eval view interp store).length = args.length
  | .nil => rfl
  | .first expr => rfl
  | .more init comma expr => by
      simp only [Args.eval, List.length_append, Args.length_eval view interp store init, Args.length,
        List.length_singleton]

/-- A link of a chain, of terms or of factors. -/
theorem Computes.chain {front back : List Action} {lhs rhs : Operand} {left right : Store → Int}
    (hfront : Computes view m front lhs left)
    (hback : Computes view m back rhs right) (opToken : Token) {fact : Prop}
    (accumulator : Option Reg) {op : ArithOp} (dst : Reg)
    (hop : fact → m.interp.binary opToken.kind = m.interp.op op)
    (hlhs : ∀ r, accumulator = some r → lhs = .reg r) :
    Computes view m (front ++ (.take opToken.kind opToken :: .check fact ::
      (back ++ combineLog accumulator op dst lhs rhs))) (.reg dst)
      (fun store => m.interp.binary opToken.kind (left store) (right store)) := by
  have hlink : Computes view m (.take opToken.kind opToken :: .check fact :: back) rhs right :=
    .cons_idle rfl (.cons_idle rfl hback)
  have h := (hfront.two hlink).combine accumulator op dst hlhs
  rw [List.append_assoc] at h
  refine h.of_facts fun hfacts => ?_
  have hfact : fact := hfacts (.check fact) (by simp)
  rw [hop hfact]

mutual

theorem Expr.computes : (e : Expr) →
    Computes view m e.log e.value (fun store => e.eval view m.interp store)
  | .term t => by
      unfold Expr.log Expr.value Expr.eval
      exact .cons_idle rfl t.computes
  | .positive sign t => by
      unfold Expr.log Expr.value Expr.eval
      refine .of_facts (.cons_idle rfl t.computes) fun hfacts => ?_
      have hkind : sign.kind = .plus := hfacts _ List.mem_cons_self
      rw [hkind]
      rfl
  | .negative sign t value => by
      unfold Expr.log Expr.value Expr.eval
      refine .of_facts (.cons_idle rfl (t.computes.negate value)) fun hfacts => ?_
      have hkind : sign.kind = .minus := hfacts _ List.mem_cons_self
      rw [hkind]
      rfl
  | .chain lhs op opToken rhs dst => by
      unfold Expr.log Expr.eval
      exact lhs.computes.chain rhs.computes opToken _ dst m.interp.binary_of_additive?
        fun _ => Expr.value_of_accumulator?

theorem Term.computes : (e : Term) →
    Computes view m e.log e.value (fun store => e.eval view m.interp store)
  | .factor f => by
      unfold Term.log Term.value Term.eval
      exact f.computes
  | .chain lhs op opToken rhs dst => by
      unfold Term.log Term.eval
      exact lhs.computes.chain rhs.computes opToken _ dst m.interp.binary_of_multiplicative?
        fun _ => Term.value_of_accumulator?

theorem Factor.computes : (f : Factor) →
    Computes view m f.log f.value (fun store => f.eval view m.interp store)
  | .name ref => by
      unfold Factor.log Factor.value Factor.eval
      exact ref.computes
  | .element ref lbracket index dst rbracket => by
      unfold Factor.log Factor.value Factor.eval
      have heffect : ∀ memory : Memory,
          (Instr.loadElement dst ref.token.value index.value).effect? m memory =
            some (memory.setReg dst (memory.store.element ref.token.value
              (memory.value index.value))) := fun _ => rfl
      have hload := (index.computes.append_idle (all_checkIndexLog index)).fresh
        (f := fun store value => store.element ref.token.value value) heffect
      have h := hload.append_idle (all_recoverLog .rbracket .missingBracket rbracket)
      rw [List.append_assoc, List.append_assoc] at h
      exact .idle_append (all_readLog ref) (.cons_idle rfl h)
  | .call c dst => by
      unfold Factor.log Factor.value Factor.eval
      exact .cons_idle rfl (c.calls.takeResult dst)
  | .unknownCall fn => by
      -- what is unknown has been recorded
      intro s t hplays hclean
      unfold Factor.log unknownCallLog at hclean
      cases (hclean (.skipCall fn) (by simp)).2
  | .paren lparen inner rparen => by
      unfold Factor.log Factor.value Factor.eval
      exact .cons_idle rfl (inner.computes.append_idle (all_recoverLog _ _ _))
  | .char literal => by
      unfold Factor.log Factor.value Factor.eval
      exact computes_char literal
  | .int literal => by
      unfold Factor.log Factor.value Factor.eval
      exact literal.computes

theorem Call.calls : (c : Call) →
    Calls view m c.log (fun store => c.eval view m.interp store)
  | .mk name lparen callee args rparen => by
      unfold Call.log Call.eval
      have hidle : (checkArgumentsLog name callee args ++
          recoverLog .rparen .missingParen rparen).all Action.idle = true := by
        simp
      have h := (args.pushes name.value).call hidle
      rw [List.append_assoc] at h
      exact .cons_idle rfl (.cons_idle rfl h)

theorem Args.pushes : (args : Args) → (function : String) →
    Pushes view m function (args.log function) (fun store => args.eval view m.interp store)
  | .nil, function => by
      unfold Args.log Args.eval
      exact .nil
  | .first expr, function => by
      unfold Args.log Args.eval
      exact Pushes.nil.push expr.computes fun _ => rfl
  | .more init comma expr, function => by
      unfold Args.log Args.eval
      have hexpr : Computes view m
          (.check (0 < init.length) :: .take .comma comma :: expr.log) expr.value
          (fun store => expr.eval view m.interp store) := .cons_idle rfl (.cons_idle rfl expr.computes)
      exact (init.pushes function).push hexpr fun store => init.length_eval view m.interp store

end

end OnePass
