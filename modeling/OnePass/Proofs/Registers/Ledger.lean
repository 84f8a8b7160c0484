import OnePass.Proofs.Log.Program

/-!
Registers as a ledger. A register is held from where it is written to where it is read, and
registers are given back in the opposite order: an instruction reads the registers held last,
and only then may hold one of its own. Every phrase of the language keeps such a ledger, and
an expression adds to it the register of its value, if it has one.
-/

namespace OnePass

/-- The register of an operand that is one. -/
def Operand.regs : Operand → List Reg
  | reg r => [r]
  | named _ => []

namespace Instr

/-- The registers that an instruction reads, in the order of its operands. -/
def reads : Instr → List Reg
  | branch _ lhs rhs _ => lhs.regs ++ rhs.regs
  | branchZero value _ => value.regs
  | branchNonzero value _ => value.regs
  | arith _ _ lhs rhs => lhs.regs ++ rhs.regs
  | neg _ value => value.regs
  | loadElement _ _ index => index.regs
  | assign _ value => value.regs
  | assignElement _ index value => index.regs ++ value.regs
  | push _ value _ => value.regs
  | printInt value => value.regs
  | printChar value => value.regs
  | ret value => value.regs
  | _ => []

end Instr

/-- The next register that was never written, and the registers that are held, last first. -/
structure Ledger where
  next : Nat
  held : List Reg

namespace Ledger

/-- An instruction gives back the registers that it reads. At a boundary nothing else is held.
The register it writes is the next one or one that is free again. -/
def Uses (instr : Instr) (before after : Ledger) : Prop :=
  ∃ rest, before.held = instr.reads.reverse ++ rest ∧ (instr.isBoundary = true → rest = []) ∧
    match instr.dst? with
    | none => after = ⟨before.next, rest⟩
    | some dst => dst ∉ rest ∧
        (dst.number = before.next ∧ after = ⟨before.next + 1, dst :: rest⟩ ∨
          dst.number < before.next ∧ after = ⟨before.next, dst :: rest⟩)

/-- A piece of code leads from one ledger to another. -/
def UsesAll : List Instr → Ledger → Ledger → Prop
  | [], before, after => before = after
  | instr :: code, before, after => ∃ mid, Uses instr before mid ∧ UsesAll code mid after

@[simp]
theorem usesAll_nil {before after : Ledger} : UsesAll [] before after ↔ before = after :=
  Iff.rfl

theorem usesAll_append {front back : List Instr} {before after : Ledger} :
    UsesAll (front ++ back) before after ↔
      ∃ mid, UsesAll front before mid ∧ UsesAll back mid after := by
  induction front generalizing before with
  | nil => simp
  | cons instr front ih =>
      simp only [List.cons_append, UsesAll, ih]
      constructor
      · rintro ⟨mid, hinstr, later, hfront, hback⟩
        exact ⟨later, ⟨mid, hinstr, hfront⟩, hback⟩
      · rintro ⟨later, ⟨mid, hinstr, hfront⟩, hback⟩
        exact ⟨mid, hinstr, later, hfront, hback⟩

/-- No register is held twice, and all that are held have been given out. -/
structure Valid (ledger : Ledger) : Prop where
  nodup : ledger.held.Nodup
  lt : ∀ reg ∈ ledger.held, reg.number < ledger.next

theorem Uses.valid {instr : Instr} {before after : Ledger} (h : Uses instr before after)
    (hvalid : before.Valid) : after.Valid := by
  obtain ⟨rest, hheld, -, hdst⟩ := h
  obtain ⟨hnodup, hlt⟩ := hvalid
  rw [hheld] at hnodup hlt
  have hrest : rest.Nodup := (List.nodup_append.1 hnodup).2.1
  have hold : ∀ reg ∈ rest, reg.number < before.next := by
    intro reg hreg
    exact hlt reg (List.mem_append_right _ hreg)
  cases hcase : instr.dst? with
  | none =>
      rw [hcase] at hdst
      subst hdst
      exact ⟨hrest, hold⟩
  | some dst =>
      rw [hcase] at hdst
      obtain ⟨hfree, ⟨hnew, rfl⟩ | ⟨hagain, rfl⟩⟩ := hdst
      · refine ⟨List.nodup_cons.2 ⟨hfree, hrest⟩, ?_⟩
        intro reg hreg
        rcases List.mem_cons.1 hreg with rfl | hreg
        · exact hnew ▸ Nat.lt_succ_self _
        · exact Nat.lt_succ_of_lt (hold reg hreg)
      · refine ⟨List.nodup_cons.2 ⟨hfree, hrest⟩, ?_⟩
        intro reg hreg
        rcases List.mem_cons.1 hreg with rfl | hreg
        · exact hagain
        · exact hold reg hreg

theorem UsesAll.valid {code : List Instr} {before after : Ledger} (h : UsesAll code before after)
    (hvalid : before.Valid) : after.Valid := by
  induction code generalizing before with
  | nil => exact h ▸ hvalid
  | cons instr code ih =>
      obtain ⟨mid, hinstr, hcode⟩ := h
      exact ih hcode (hinstr.valid hvalid)

end Ledger

open Ledger

/-- The code of a log turns the registers `taken` that are held last into `given`, whatever
else is held. -/
def Balanced (log : List Action) (taken given : List Reg) : Prop :=
  ∀ s t held, Plays log s t → Valid ⟨s.counters.regs, taken ++ held⟩ →
    UsesAll (log.flatMap Action.code) ⟨s.counters.regs, taken ++ held⟩
      ⟨t.counters.regs, given ++ held⟩

/-- The code of a log starts and ends with no register held. -/
def Settled (log : List Action) : Prop :=
  ∀ s t, Plays log s t →
    UsesAll (log.flatMap Action.code) ⟨s.counters.regs, []⟩ ⟨t.counters.regs, []⟩

namespace Balanced

variable {log front back : List Action} {taken mid given : List Reg} {instr : Instr}

theorem nil : Balanced [] taken taken := by
  intro s t held h _
  obtain rfl := plays_nil.1 h
  rfl

theorem frame (h : Balanced log taken given) (more : List Reg) :
    Balanced log (taken ++ more) (given ++ more) := by
  intro s t held hplays hvalid
  rw [List.append_assoc] at hvalid ⊢
  rw [List.append_assoc]
  exact h s t (more ++ held) hplays hvalid

theorem append (hfront : Balanced front taken mid) (hback : Balanced back mid given) :
    Balanced (front ++ back) taken given := by
  intro s t held hplays hvalid
  obtain ⟨u, hleft, hright⟩ := plays_append.1 hplays
  have hleft := hfront s u held hleft hvalid
  rw [List.flatMap_append, usesAll_append]
  exact ⟨_, hleft, hback u t held hright (hleft.valid hvalid)⟩

theorem cons_idle {action : Action} (hidle : action.idle = true) (h : Balanced log taken given) :
    Balanced (action :: log) taken given := by
  intro s t held hplays hvalid
  obtain ⟨u, haction, hlog⟩ := hplays
  obtain ⟨hcode, hregs⟩ := haction.of_idle hidle
  rw [List.flatMap_cons, hcode, List.nil_append, ← hregs]
  rw [← hregs] at hvalid
  exact h u t held hlog hvalid

theorem of_idle (hidle : log.all Action.idle = true) : Balanced log taken taken := by
  induction log with
  | nil => exact nil
  | cons action log ih =>
      rw [List.all_cons, Bool.and_eq_true] at hidle
      exact cons_idle hidle.1 (ih hidle.2)

/-- An instruction without a result gives back what it reads. -/
theorem emit (hreads : instr.reads.reverse = taken) (hdst : instr.dst? = none)
    (hstays : instr.isBoundary = false) : Balanced [.emit instr] taken [] := by
  intro s t held hplays _
  obtain ⟨u, hemit, rfl⟩ := hplays
  subst hreads
  rw [hemit.effect.counters]
  refine ⟨_, ⟨held, rfl, by simp [hstays], ?_⟩, rfl⟩
  rw [hdst]
  rfl

/-- An instruction that writes a fresh register holds it. -/
theorem fresh {dst : Reg} (hreads : instr.reads.reverse = taken) (hdst : instr.dst? = some dst)
    (hstays : instr.isBoundary = false) : Balanced [.reg dst, .emit instr] taken [dst] := by
  intro s t held hplays hvalid
  subst hreads
  obtain ⟨u, hreg, v, hemit, rfl⟩ := hplays
  cases hreg
  rw [hemit.effect.counters]
  refine ⟨_, ⟨held, rfl, by simp [hstays], ?_⟩, rfl⟩
  rw [hdst]
  refine ⟨?_, Or.inl ⟨rfl, rfl⟩⟩
  intro hmem
  have hlt := hvalid.lt _ (List.mem_append_right _ hmem)
  exact Nat.lt_irrefl _ hlt

/-- An instruction may write a register that it has read. -/
theorem again {dst : Reg} (hreads : instr.reads.reverse = taken) (hdst : instr.dst? = some dst)
    (hstays : instr.isBoundary = false) (hread : dst ∈ instr.reads) :
    Balanced [.emit instr] taken [dst] := by
  intro s t held hplays hvalid
  subst hreads
  obtain ⟨u, hemit, rfl⟩ := hplays
  rw [hemit.effect.counters]
  have hread : dst ∈ instr.reads.reverse := List.mem_reverse.2 hread
  refine ⟨_, ⟨held, rfl, by simp [hstays], ?_⟩, rfl⟩
  rw [hdst]
  refine ⟨?_, Or.inr ⟨?_, rfl⟩⟩
  · intro hmem
    exact (List.nodup_append.1 hvalid.nodup).2.2 dst hread dst hmem rfl
  · exact hvalid.lt dst (List.mem_append_left held hread)

end Balanced

namespace Settled

variable {log front back : List Action} {instr : Instr}

theorem nil : Settled [] := by
  intro s t h
  obtain rfl := plays_nil.1 h
  rfl

theorem append (hfront : Settled front) (hback : Settled back) : Settled (front ++ back) := by
  intro s t hplays
  obtain ⟨u, hleft, hright⟩ := plays_append.1 hplays
  rw [List.flatMap_append, usesAll_append]
  exact ⟨_, hfront s u hleft, hback u t hright⟩

theorem of_balanced (h : Balanced log [] []) : Settled log := by
  intro s t hplays
  exact h s t [] hplays ⟨List.nodup_nil, by simp⟩

theorem of_idle (hidle : log.all Action.idle = true) : Settled log :=
  of_balanced (Balanced.of_idle hidle)

theorem cons_idle {action : Action} (hidle : action.idle = true) (h : Settled log) :
    Settled (action :: log) := by
  have hone : [action].all Action.idle = true := by
    rw [List.all_cons, hidle]
    rfl
  exact append (of_idle hone) h

/-- Any instruction without a result may read all that a phrase has left. -/
theorem read {given : List Reg} (hfront : Balanced front [] given)
    (hreads : instr.reads.reverse = given) (hdst : instr.dst? = none) (hback : Settled back) :
    Settled (front ++ (.emit instr :: back)) := by
  intro s t hplays
  subst hreads
  obtain ⟨u, hleft, v, hemit, hright⟩ := plays_append.1 hplays
  have hleft := hfront s u [] hleft ⟨List.nodup_nil, by simp⟩
  rw [List.flatMap_append, usesAll_append]
  have hregs : v.counters = u.counters := hemit.effect.counters
  refine ⟨_, hleft, ⟨_, ⟨[], rfl, by simp, ?_⟩, hback v t hright⟩⟩
  rw [hdst, hregs]

theorem cons_emit (hreads : instr.reads = []) (hdst : instr.dst? = none) (h : Settled log) :
    Settled (.emit instr :: log) :=
  read Balanced.nil (by rw [hreads]; rfl) hdst h

end Settled

end OnePass
