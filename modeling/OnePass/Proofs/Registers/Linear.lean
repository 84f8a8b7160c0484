import OnePass.Proofs.Registers.Phrases

/-!
Registers are used linearly. Every value that is put into a register is read exactly once, with
no way into or out of the code in between, and the registers come into use in the order of
their numbers.
-/

namespace OnePass

/-- What an instruction does with a register. -/
inductive Access where
  | write
  | read
deriving DecidableEq, Repr

namespace Instr

/-- The uses of a register by an instruction, which reads before it writes. -/
def accesses (reg : Reg) (instr : Instr) : List Access :=
  List.replicate (instr.reads.count reg) .read ++
    if instr.dst? = some reg then [.write] else []

end Instr

/-- Writes and reads in turn: every write is followed by one read, and a read by a write. -/
inductive Alternates : List Access → Prop where
  | nil : Alternates []
  | cons {rest : List Access} (tail : Alternates rest) : Alternates (.write :: .read :: rest)

/-- A piece of code uses the registers below a number linearly. -/
structure LinearRegisters (code : List Instr) (count : Nat) : Prop where
  /-- Each register is written, read, written, read and so on, at least once each. -/
  alternates : ∀ reg : Reg, reg.number < count →
    code.flatMap (Instr.accesses reg) ≠ [] ∧ Alternates (code.flatMap (Instr.accesses reg))
  /-- No other register occurs. -/
  bounded : ∀ instr ∈ code, ∀ reg : Reg,
    reg ∈ instr.reads ∨ instr.dst? = some reg → reg.number < count
  /-- The registers in the order in which they are written first. -/
  ordered : (code.filterMap Instr.dst?).eraseDups = (List.range count).map Reg.mk
  /-- Control neither enters nor leaves between a write and the read of what was written. -/
  uninterrupted : ∀ (front mid back : List Instr) (writer reader : Instr) (reg : Reg),
    code = front ++ writer :: (mid ++ reader :: back) → writer.dst? = some reg →
      reg ∈ reader.reads → (∀ instr ∈ mid, reg ∉ instr.reads) →
        ∀ instr ∈ mid, instr.isBoundary = false

namespace Ledger

variable {instr : Instr} {code : List Instr} {before after : Ledger} {reg : Reg}

theorem Uses.next_le (h : Uses instr before after) : before.next ≤ after.next := by
  obtain ⟨rest, -, -, hdst⟩ := h
  cases hcase : instr.dst? with
  | none =>
      rw [hcase] at hdst
      subst hdst
      exact Nat.le_refl _
  | some dst =>
      rw [hcase] at hdst
      rcases hdst.2 with ⟨-, rfl⟩ | ⟨-, rfl⟩
      · exact Nat.le_succ _
      · exact Nat.le_refl _

/-- What is held after an instruction: what it writes, and what was held and it does not read. -/
theorem Uses.mem_held_iff (h : Uses instr before after) (hvalid : before.Valid) :
    reg ∈ after.held ↔ instr.dst? = some reg ∨ reg ∈ before.held ∧ reg ∉ instr.reads := by
  obtain ⟨rest, hheld, -, hdst⟩ := h
  have hnodup := hvalid.nodup
  rw [hheld] at hnodup
  have hapart := (List.nodup_append.1 hnodup).2.2
  have hrest : reg ∈ rest ↔ reg ∈ before.held ∧ reg ∉ instr.reads := by
    rw [hheld, List.mem_append, List.mem_reverse]
    constructor
    · intro hmem
      refine ⟨Or.inr hmem, ?_⟩
      intro hread
      exact hapart reg (List.mem_reverse.2 hread) reg hmem rfl
    · rintro ⟨hread | hmem, hunread⟩
      · exact absurd hread hunread
      · exact hmem
  rw [← hrest]
  cases hcase : instr.dst? with
  | none =>
      rw [hcase] at hdst
      subst hdst
      simp
  | some dst =>
      rw [hcase] at hdst
      obtain ⟨-, ⟨-, rfl⟩ | ⟨-, rfl⟩⟩ := hdst
      · simp [eq_comm]
      · simp [eq_comm]

/-- An instruction reads only what is held. -/
theorem Uses.mem_held_of_mem_reads (h : Uses instr before after) (hreg : reg ∈ instr.reads) :
    reg ∈ before.held := by
  obtain ⟨rest, hheld, -, -⟩ := h
  rw [hheld]
  exact List.mem_append_left rest (List.mem_reverse.2 hreg)

/-- A register is written only when it is not held, or read by the same instruction. -/
theorem Uses.mem_reads_of_dst? (h : Uses instr before after) (hdst : instr.dst? = some reg)
    (hheld : reg ∈ before.held) : reg ∈ instr.reads := by
  obtain ⟨rest, hbefore, -, hcase⟩ := h
  rw [hdst] at hcase
  rw [hbefore] at hheld
  rcases List.mem_append.1 hheld with hread | hrest
  · exact List.mem_reverse.1 hread
  · exact absurd hrest hcase.1

/-- No register is read twice by one instruction. -/
theorem Uses.nodup_reads (h : Uses instr before after) (hvalid : before.Valid) :
    instr.reads.Nodup := by
  obtain ⟨rest, hheld, -, -⟩ := h
  have hnodup := hvalid.nodup
  rw [hheld] at hnodup
  exact (List.reverse_perm _).nodup_iff.1 (List.nodup_append.1 hnodup).1

theorem Uses.dst_lt (h : Uses instr before after) (hvalid : before.Valid)
    (hdst : instr.dst? = some reg) : reg.number < after.next := by
  have hmem : reg ∈ after.held := (h.mem_held_iff hvalid).2 (Or.inl hdst)
  exact (h.valid hvalid).lt reg hmem

theorem UsesAll.next_le (h : UsesAll code before after) : before.next ≤ after.next := by
  induction code generalizing before with
  | nil => exact h ▸ Nat.le_refl _
  | cons instr code ih =>
      obtain ⟨mid, hinstr, hcode⟩ := h
      exact Nat.le_trans hinstr.next_le (ih hcode)

/-- Only registers that have been given out occur in a piece of code. -/
theorem UsesAll.bounded (h : UsesAll code before after) (hvalid : before.Valid)
    (hinstr : instr ∈ code) (hreg : reg ∈ instr.reads ∨ instr.dst? = some reg) :
    reg.number < after.next := by
  induction code generalizing before with
  | nil => cases hinstr
  | cons first code ih =>
      obtain ⟨mid, hfirst, hcode⟩ := h
      rcases List.mem_cons.1 hinstr with rfl | hinstr
      · have hlater : mid.next ≤ after.next := hcode.next_le
        rcases hreg with hread | hdst
        · have hlt := hvalid.lt reg (hfirst.mem_held_of_mem_reads hread)
          have hstep := hfirst.next_le
          omega
        · have hlt := hfirst.dst_lt hvalid hdst
          omega
      · exact ih hcode (hfirst.valid hvalid) hinstr

/-- An instruction reads a register once or not at all. -/
theorem Uses.accesses_eq (h : Uses instr before after) (hvalid : before.Valid) :
    instr.accesses reg =
      (if reg ∈ instr.reads then [.read] else []) ++
        if instr.dst? = some reg then [.write] else [] := by
  rw [Instr.accesses, (h.nodup_reads hvalid).count]
  split <;> rfl

/-- From a ledger on, a held register is read next and a free one is written next. -/
theorem UsesAll.alternates (h : UsesAll code before after) (hvalid : before.Valid)
    (hempty : after.held = []) :
    Alternates ((if reg ∈ before.held then [.write] else []) ++
      code.flatMap (Instr.accesses reg)) := by
  induction code generalizing before with
  | nil =>
      obtain rfl := h
      rw [hempty]
      exact .nil
  | cons instr code ih =>
      obtain ⟨mid, hinstr, hcode⟩ := h
      have htail := ih hcode (hinstr.valid hvalid)
      have hmem : reg ∈ mid.held ↔ instr.dst? = some reg ∨ reg ∈ before.held ∧ reg ∉ instr.reads :=
        hinstr.mem_held_iff hvalid
      rw [List.flatMap_cons, hinstr.accesses_eq hvalid]
      by_cases hread : reg ∈ instr.reads
      · have hheld := hinstr.mem_held_of_mem_reads hread
        have hafter : reg ∈ mid.held ↔ instr.dst? = some reg := by
          rw [hmem]
          simp [hread]
        simp only [hafter] at htail
        rw [if_pos hheld, if_pos hread, List.append_assoc]
        exact .cons htail
      · by_cases hdst : instr.dst? = some reg
        · have hfree : reg ∉ before.held := fun hheld =>
            hread (hinstr.mem_reads_of_dst? hdst hheld)
          rw [if_pos (hmem.2 (Or.inl hdst))] at htail
          rw [if_neg hfree, if_neg hread, if_pos hdst]
          exact htail
        · have hafter : reg ∈ mid.held ↔ reg ∈ before.held := by
            rw [hmem]
            simp [hread, hdst]
          simp only [hafter] at htail
          rw [if_neg hread, if_neg hdst]
          exact htail

/-- The registers that were written so far, each once, are the ones that were given out. -/
theorem UsesAll.ordered (h : UsesAll code before after) {written : List Reg}
    (hwritten : written.eraseDups = (List.range before.next).map Reg.mk) :
    (written ++ code.filterMap Instr.dst?).eraseDups = (List.range after.next).map Reg.mk := by
  induction code generalizing before written with
  | nil =>
      obtain rfl := h
      simpa using hwritten
  | cons instr code ih =>
      obtain ⟨mid, ⟨rest, -, -, hdst⟩, hcode⟩ := h
      have hmem : ∀ reg : Reg, reg ∈ written ↔ reg.number < before.next := by
        intro reg
        rw [← List.mem_eraseDups, hwritten]
        constructor
        · intro hreg
          obtain ⟨n, hn, rfl⟩ := List.mem_map.1 hreg
          exact List.mem_range.1 hn
        · intro hlt
          exact List.mem_map.2 ⟨reg.number, List.mem_range.2 hlt, rfl⟩
      cases hcase : instr.dst? with
      | none =>
          rw [hcase] at hdst
          subst hdst
          rw [List.filterMap_cons_none hcase]
          exact ih hcode hwritten
      | some dst =>
          rw [hcase] at hdst
          have hlonger : (written ++ [dst]).eraseDups = (List.range mid.next).map Reg.mk := by
            rw [List.eraseDups_append, hwritten]
            obtain ⟨-, ⟨hnew, rfl⟩ | ⟨hagain, rfl⟩⟩ := hdst
            · have hfree : dst ∉ written := by
                rw [hmem, hnew]
                exact Nat.lt_irrefl _
              simp [List.removeAll, hfree, List.range_succ, List.eraseDups_cons, ← hnew]
            · have hold : dst ∈ written := (hmem dst).2 hagain
              simp [List.removeAll, hold]
          rw [List.filterMap_cons_some hcase, ← List.singleton_append, ← List.append_assoc]
          exact ih hcode hlonger

/-- A register that is held and not read stays held, and there is no boundary meanwhile. -/
theorem UsesAll.uninterrupted (h : UsesAll code before after) (hvalid : before.Valid)
    (hheld : reg ∈ before.held) (hunread : ∀ instr ∈ code, reg ∉ instr.reads) :
    ∀ instr ∈ code, instr.isBoundary = false := by
  induction code generalizing before with
  | nil => simp
  | cons first code ih =>
      obtain ⟨mid, hfirst, hcode⟩ := h
      have hfirstUnread : reg ∉ first.reads := hunread first List.mem_cons_self
      have hmid : reg ∈ mid.held := (hfirst.mem_held_iff hvalid).2 (Or.inr ⟨hheld, hfirstUnread⟩)
      intro instr hinstr
      rcases List.mem_cons.1 hinstr with rfl | hinstr
      · obtain ⟨rest, hbefore, hboundary, -⟩ := hfirst
        cases hcase : instr.isBoundary with
        | false => rfl
        | true =>
            -- at a boundary everything that is held is read
            rw [hbefore, hboundary hcase, List.append_nil, List.mem_reverse] at hheld
            exact absurd hheld hfirstUnread
      · apply ih hcode (hfirst.valid hvalid) hmid _ instr hinstr
        intro later hlater
        exact hunread later (List.mem_cons_of_mem first hlater)

/-- Code that starts and ends with nothing held uses its registers linearly. -/
theorem UsesAll.linear {count : Nat} (h : UsesAll code ⟨0, []⟩ ⟨count, []⟩) :
    LinearRegisters code count := by
  have hvalid : Valid ⟨0, []⟩ := ⟨List.nodup_nil, by simp⟩
  have hstart : ([] : List Reg).eraseDups = (List.range 0).map Reg.mk := rfl
  have hordered : (code.filterMap Instr.dst?).eraseDups = (List.range count).map Reg.mk :=
    h.ordered hstart
  refine ⟨?_, fun instr hinstr reg => h.bounded hvalid hinstr, hordered, ?_⟩
  · intro reg hreg
    refine ⟨?_, h.alternates hvalid rfl⟩
    have hwritten : reg ∈ code.filterMap Instr.dst? := by
      rw [← List.mem_eraseDups, hordered]
      exact List.mem_map.2 ⟨reg.number, List.mem_range.2 hreg, rfl⟩
    obtain ⟨instr, hinstr, hdst⟩ := List.mem_filterMap.1 hwritten
    have haccess : Access.write ∈ code.flatMap (Instr.accesses reg) := by
      refine List.mem_flatMap.2 ⟨instr, hinstr, ?_⟩
      simp [Instr.accesses, hdst]
    exact List.ne_nil_of_mem haccess
  · intro front mid back writer reader reg hcode hwriter _ hunread
    subst hcode
    obtain ⟨first, hfront, second, huses, hrest⟩ := usesAll_append.1 h
    obtain ⟨third, hmid, -⟩ := usesAll_append.1 hrest
    have hfirst : first.Valid := hfront.valid hvalid
    have hheld : reg ∈ second.held := (huses.mem_held_iff hfirst).2 (Or.inl hwriter)
    exact hmid.uninterrupted (huses.valid hfirst) hheld hunread

end Ledger

/-- The code of every program that is accepted, with diagnostics or without, uses its registers
linearly. -/
theorem compile_linearRegisters {tokens : List Token} {c : Compilation}
    (h : compile tokens = .ok c) : LinearRegisters c.code c.regCount := by
  obtain ⟨t, hplays, -, hc⟩ := plays_of_compile h
  have hcode : c.code = c.program.log.flatMap Action.code := by
    rw [hc]
    exact hplays.code
  have hcount : c.regCount = t.counters.regs := by
    rw [hc]
  rw [hcode, hcount]
  exact (c.program.settled _ t hplays).linear

/-- A loop that prints `i * (i + 2 + 3) - 1`. -/
def countingTokens : List Token :=
  scan 1 ["void main ( ) \x7b int i ;"] ++
    scan 1 ["for ( i = 0 ; i < 10 ; i = i + 1 ) printf ( i * ( i + 2 + 3 ) - 1 ) ; \x7d"]

theorem linearRegisters_counting : ∃ c, compile countingTokens = .ok c ∧ c.regCount = 3 ∧
    LinearRegisters c.code c.regCount := by
  have hc := eq_ok_get (compile countingTokens) (by decide +kernel)
  exact ⟨_, hc, by decide +kernel, compile_linearRegisters hc⟩

end OnePass
