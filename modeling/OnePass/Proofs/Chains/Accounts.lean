import Mathlib.Data.List.Nodup
import OnePass.Proofs.Calls.Globals
import OnePass.Proofs.Chains.Basic

/-!
Which register belongs to what. Registers are given out once each, so that two pieces of a log never
write the same one, and what has been said of the one piece stays true when the other is added. The
registers that a piece takes are those of the chains in its trees, and one for each instruction that
has a register of its own.
-/

namespace OnePass

namespace Action

/-- The register that an action takes. -/
def reg? : Action → Option Reg
  | reg r => some r
  | _ => none

/-- The registers that a log takes, in order. -/
def regs (log : List Action) : List Reg :=
  log.filterMap reg?

/-- Whether an action neither takes nor writes a register. -/
def writesNothing : Action → Bool
  | reg _ => false
  | emit instr => instr.dst?.isNone
  | _ => true

instance : Passive writesNothing := {}

instance : Declarative writesNothing := {}

variable {log : List Action} {action : Action}

@[simp]
theorem regs_append (front back : List Action) : regs (front ++ back) = regs front ++ regs back :=
  List.filterMap_append

theorem reg?_of_writesNothing (h : action.writesNothing = true) : action.reg? = none := by
  cases action with
  | reg r => cases h
  | _ => rfl

theorem dst?_of_writesNothing (h : action.writesNothing = true) {instr : Instr}
    (hinstr : instr ∈ action.code) : instr.dst? = none := by
  cases action with
  | emit other =>
      obtain rfl := List.mem_singleton.1 hinstr
      simpa [writesNothing] using h
  | _ => cases hinstr

end Action

section Plays

variable {log : List Action} {s t : State}

/-- Registers are given out in the order of their numbers. -/
theorem Plays.regs (h : Plays log s t) :
    Action.regs log = (List.range' s.counters.regs (Action.regs log).length).map Reg.mk ∧
      t.counters.regs = s.counters.regs + (Action.regs log).length := by
  induction h using Plays.induction with
  | nil => exact ⟨rfl, rfl⟩
  | @cons s u action log haction _ ih =>
      obtain ⟨hregs, hcount⟩ := ih
      have hcounters : u.counters = action.counters s.counters := haction.effect.counters
      cases action with
      | reg r =>
          have hnext : u.counters.regs = s.counters.regs + 1 := by
            rw [hcounters]
            rfl
          have hfirst : r = ⟨s.counters.regs⟩ := by
            cases haction
            rfl
          rw [hnext] at hregs hcount
          constructor
          · change r :: Action.regs log = (List.range' _ ((Action.regs log).length + 1)).map Reg.mk
            rw [List.range'_succ, List.map_cons, ← hregs, hfirst]
          · change t.counters.regs = s.counters.regs + ((Action.regs log).length + 1)
            omega
      | _ =>
          have hsame : u.counters.regs = s.counters.regs := by
            rw [hcounters]
            rfl
          rw [hsame] at hregs hcount
          exact ⟨hregs, hcount⟩

/-- No register is given out twice. -/
theorem Plays.nodup_regs (h : Plays log s t) : (Action.regs log).Nodup := by
  rw [h.regs.1]
  refine List.Nodup.map (fun a b hab => ?_) List.nodup_range'
  exact congrArg Reg.number hab

/-- A register that is taken has not been taken before. -/
theorem Plays.notMem_regs {front back : List Action} {r : Reg}
    (h : Plays (front ++ .reg r :: back) s t) : r ∉ Action.regs front := by
  intro hmem
  have hnodup := h.nodup_regs
  rw [Action.regs_append, List.nodup_append] at hnodup
  exact hnodup.2.2 r hmem r List.mem_cons_self rfl

end Plays

/-- The registers of a log are accounted for by the nodes of its trees and by its code, and each
node says what the code computes for it. -/
structure Accounts (log : List Action) (nodes : List Tree) : Prop where
  writes : ∀ instr ∈ log.flatMap Action.code, ∀ r, instr.dst? = some r → r ∈ Action.regs log
  regs : (Action.regs log).Perm (nodes.filterMap Tree.accumulator? ++
    (log.flatMap Action.code).filterMap Instr.ownRegister?)
  annotated : ∀ node ∈ nodes, node.operand?.isSome = node.rule?.any Rule.hasValue
  chained : ∀ node ∈ nodes, node.Chained (log.flatMap Action.code)

namespace Accounts

variable {log front back : List Action} {nodes more : List Tree} {node : Tree} {r : Reg}

/-- Only registers that have been taken are written. -/
theorem filter_eq_nil (h : Accounts log nodes) (hr : r ∉ Action.regs log) :
    (log.flatMap Action.code).filter (Instr.writes r) = [] := by
  refine List.filter_eq_nil_iff.2 fun instr hinstr hwrites => ?_
  exact hr (h.writes instr hinstr r (by simpa [Instr.writes] using hwrites))

theorem mem_regs (h : Accounts log nodes) (hnode : node ∈ nodes)
    (hr : node.accumulator? = some r ∨
      r ∈ (log.flatMap Action.code).filterMap Instr.ownRegister?) : r ∈ Action.regs log := by
  refine h.regs.mem_iff.2 (List.mem_append.2 ?_)
  exact hr.imp (fun haccumulator => List.mem_filterMap.2 ⟨node, hnode, haccumulator⟩) id

theorem append (hfront : Accounts front nodes) (hback : Accounts back more)
    (hnodup : (Action.regs (front ++ back)).Nodup) : Accounts (front ++ back) (nodes ++ more) := by
  rw [Action.regs_append, List.nodup_append] at hnodup
  refine ⟨?_, ?_, ?_, ?_⟩
  · intro instr hinstr r hr
    rw [List.flatMap_append] at hinstr
    rw [Action.regs_append]
    exact List.mem_append.2 ((List.mem_append.1 hinstr).imp
      (fun hinstr => hfront.writes instr hinstr r hr) fun hinstr => hback.writes instr hinstr r hr)
  · rw [Action.regs_append, List.flatMap_append, List.filterMap_append, List.filterMap_append,
      List.append_assoc]
    refine (hfront.regs.append hback.regs).trans ?_
    rw [List.append_assoc]
    exact (List.perm_append_comm_assoc _ _ _).append_left _
  · intro node hnode
    exact (List.mem_append.1 hnode).elim (hfront.annotated node) (hback.annotated node)
  · intro node hnode
    rw [List.flatMap_append]
    rcases List.mem_append.1 hnode with hnode | hnode
    · refine (hfront.chained node hnode).of_filter fun r hr => ?_
      have hmem := hfront.mem_regs hnode hr
      rw [List.filter_append, hback.filter_eq_nil fun hr => hnodup.2.2 r hmem r hr rfl,
        List.append_nil]
    · refine (hback.chained node hnode).of_filter fun r hr => ?_
      have hmem := hback.mem_regs hnode hr
      rw [List.filter_append, hfront.filter_eq_nil fun hr => hnodup.2.2 r hr r hmem rfl,
        List.nil_append]

/-- A node without a register of its own can be added. -/
theorem cons (h : Accounts log nodes) (hnone : node.accumulator? = none)
    (hannotated : node.operand?.isSome = node.rule?.any Rule.hasValue)
    (hchained : node.Chained (log.flatMap Action.code)) : Accounts log (node :: nodes) where
  writes := h.writes
  regs := by
    rw [List.filterMap_cons_none hnone]
    exact h.regs
  annotated := List.forall_mem_cons.2 ⟨hannotated, h.annotated⟩
  chained := List.forall_mem_cons.2 ⟨hchained, h.chained⟩

section Links

variable {op : ArithOp} {value operand : Operand}

/-- A link puts its result in a register that is accounted for by nothing else, and its node takes
the register over. -/
theorem link {log' : List Action} {earlier : List Tree} (h : Accounts log earlier)
    (hearlier : ∀ node ∈ nodes, node ∈ earlier)
    (hcode : log'.flatMap Action.code = log.flatMap Action.code ++ [.arith op r value operand])
    (htaken : ∀ dst ∈ Action.regs log, dst ∈ Action.regs log')
    (hregs : (Action.regs log').Perm (r :: (nodes.filterMap Tree.accumulator? ++
      (log.flatMap Action.code).filterMap Instr.ownRegister?)))
    (hnodup : (Action.regs log').Nodup) (haccumulator : node.accumulator? = some r)
    (hannotated : node.operand?.isSome = node.rule?.any Rule.hasValue)
    (hchained : node.Chained (log'.flatMap Action.code)) : Accounts log' (node :: nodes) := by
  refine ⟨?_, ?_, ?_, List.forall_mem_cons.2 ⟨hchained, fun other hother => ?_⟩⟩
  · rw [hcode]
    intro instr hinstr dst hdst
    rcases List.mem_append.1 hinstr with hinstr | hinstr
    · exact htaken dst (h.writes instr hinstr dst hdst)
    · obtain rfl := List.mem_singleton.1 hinstr
      obtain rfl := Option.some.inj hdst
      exact hregs.mem_iff.2 List.mem_cons_self
  · rw [hcode, List.filterMap_cons_some haccumulator, List.filterMap_append]
    have hnone : [Instr.arith op r value operand].filterMap Instr.ownRegister? = [] := rfl
    rwa [hnone, List.append_nil]
  · exact List.forall_mem_cons.2 ⟨hannotated, fun other hother =>
      h.annotated other (hearlier other hother)⟩
  · rw [hcode]
    refine (h.chained other (hearlier other hother)).of_filter fun dst hdst => ?_
    have hothers := (List.nodup_cons.1 (hregs.nodup_iff.1 hnodup)).1
    have hne : dst ≠ r := by
      rintro rfl
      refine hothers (List.mem_append.2 ?_)
      exact hdst.imp (fun haccumulator => List.mem_filterMap.2 ⟨other, hother, haccumulator⟩) id
    exact Instr.filter_writes_concat hne

end Links

end Accounts

/-- Whatever a log is played on, its registers are accounted for by the nodes of a list of trees. -/
def Covers (log : List Action) (forest : List Tree) : Prop :=
  ∀ s t, Plays log s t → Accounts log (forest.flatMap Tree.preorder)

namespace Covers

variable {log front back : List Action} {forest left right : List Tree} {action : Action}

theorem append (hfront : Covers front left) (hback : Covers back right) :
    Covers (front ++ back) (left ++ right) := by
  intro s t h
  obtain ⟨u, hleft, hright⟩ := plays_append.1 h
  rw [List.flatMap_append]
  exact (hfront s u hleft).append (hback u t hright) h.nodup_regs

theorem aside (h : log.all Action.writesNothing = true) : Covers log [] := by
  intro s t _
  rw [List.all_eq_true] at h
  have hregs : Action.regs log = [] := by
    refine List.filterMap_eq_nil_iff.2 fun action haction => ?_
    exact Action.reg?_of_writesNothing (h action haction)
  have hdst : ∀ instr ∈ log.flatMap Action.code, instr.dst? = none := by
    intro instr hinstr
    obtain ⟨action, haction, hmem⟩ := List.mem_flatMap.1 hinstr
    exact Action.dst?_of_writesNothing (h action haction) hmem
  have hown : (log.flatMap Action.code).filterMap Instr.ownRegister? = [] := by
    refine List.filterMap_eq_nil_iff.2 fun instr hinstr => ?_
    cases hcase : instr.ownRegister? with
    | none => rfl
    | some r =>
        have hnone := hdst instr hinstr
        rw [Instr.dst?_of_ownRegister? hcase] at hnone
        cases hnone
  refine ⟨fun instr hinstr r hr => ?_, ?_, by simp, by simp⟩
  · rw [hdst instr hinstr] at hr
    cases hr
  · rw [hregs, hown]
    exact .nil

/-- An instruction takes a register of its own. -/
theorem own {instr : Instr} {r : Reg} (h : instr.ownRegister? = some r) :
    Covers [.reg r, .emit instr] [] := by
  intro s t _
  refine ⟨fun other hother dst hdst => ?_, ?_, by simp, by simp⟩
  · obtain rfl : other = instr := by simpa [Action.code] using hother
    rw [Instr.dst?_of_ownRegister? h] at hdst
    obtain rfl := Option.some.inj hdst
    exact List.mem_singleton_self _
  · simp [Action.regs, Action.reg?, Action.code, h]

/-- A tree of one node on top of others. -/
theorem node {rule : Rule} {operand : Option Operand} (h : Covers log forest)
    (hoperator : rule.operator? = none) (hannotated : operand.isSome = rule.hasValue) :
    Covers log [.node rule operand forest] := by
  intro s t hplays
  rw [List.flatMap_singleton, Tree.preorder_node]
  refine (h s t hplays).cons ?_ (by simpa [Tree.operand?, Tree.rule?] using hannotated) ?_
  · simp [Tree.accumulator?, Tree.isChain, Tree.chain?, hoperator]
  · intro hrule
    have hsome : rule.operator?.isSome = true :=
      Rule.isSome_operator?.2 (by simpa [Tree.rule?] using hrule)
    simp [hoperator] at hsome

theorem leaf (t : Token) : Covers [] [.token t] := by
  intro s u hplays
  have hnone : Accounts [] [] := aside rfl s u hplays
  refine hnone.cons rfl rfl ?_
  simp [Tree.Chained, Tree.rule?]

theorem inner {rule : Rule} (h : Covers log forest) (hrule : rule.hasValue = false) :
    Covers log [.inner rule forest] := by
  refine h.node ?_ (by simp [hrule])
  cases rule <;> first | rfl | cases hrule

theorem aside_append (hfront : front.all Action.writesNothing = true) (h : Covers log forest) :
    Covers (front ++ log) forest :=
  (aside hfront).append h

theorem append_aside (h : Covers log forest) (hback : back.all Action.writesNothing = true) :
    Covers (log ++ back) forest := by
  have happend := h.append (aside hback)
  rwa [List.append_nil] at happend

theorem cons_aside (haction : action.writesNothing = true) (h : Covers log forest) :
    Covers (action :: log) forest := by
  have hone : [action].all Action.writesNothing = true := by simp [haction]
  exact aside_append hone h

theorem leaf_cons (t : Token) (h : Covers log forest) : Covers log (.token t :: forest) :=
  (leaf t).append h

/-- A token that may have been left out. -/
theorem optional (t : Option Token) : Covers [] (Tree.optional t) := by
  cases t with
  | none => exact aside rfl
  | some t => exact leaf t

theorem optional_append (t : Option Token) (h : Covers log forest) :
    Covers log (Tree.optional t ++ forest) :=
  (optional t).append h

theorem append_optional (h : Covers log forest) (t : Option Token) :
    Covers log (forest ++ Tree.optional t) := by
  have happend := h.append (optional t)
  rwa [List.append_nil] at happend

theorem cons_optional {tree : Tree} (h : Covers log [tree]) (t : Option Token) :
    Covers log (tree :: Tree.optional t) :=
  h.append_optional t

theorem flatMap {α : Type} {itemLog : α → List Action} {itemForest : α → List Tree}
    (h : ∀ item, Covers (itemLog item) (itemForest item)) (items : List α) :
    Covers (items.flatMap itemLog) (items.flatMap itemForest) := by
  induction items with
  | nil => exact aside rfl
  | cons item items ih =>
      rw [List.flatMap_cons, List.flatMap_cons]
      exact (h item).append ih

end Covers

end OnePass
