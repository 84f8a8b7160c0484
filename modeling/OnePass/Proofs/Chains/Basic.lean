import OnePass.Proofs.Log.Program
import OnePass.Proofs.Trees

/-!
Operator chains. The node of an expression or of a term has its operands as children, with the
operators between them, so that the chain which the node computes can be read off its children. A
chain with operators is computed link by link in one register, and a node says in which.
-/

namespace OnePass

section Trees

/-- Whether the nodes of a rule stand for values. -/
def Rule.hasValue : Rule → Bool
  | expression | term | factor => true
  | _ => false

/-- The operators between the children of a node, if it is one of an expression or of a term: `+` and
`-` or `*` and `/`. -/
def Rule.operator? : Rule → Option (TokenKind → Option ArithOp)
  | expression => some fun
    | .plus => some .add
    | .minus => some .sub
    | _ => none
  | term => some fun
    | .star => some .mul
    | .slash => some .div
    | _ => none
  | _ => none

theorem Rule.isSome_operator? {rule : Rule} :
    rule.operator?.isSome = true ↔ rule = .expression ∨ rule = .term := by
  cases rule <;> decide

end Trees

/-- A first operand, negated or not, and the operators behind it with their operands. -/
structure Chain where
  negated : Bool
  first : Operand
  links : List (ArithOp × Operand)
deriving DecidableEq, Repr

/-- The operators and operands that trees stand for, given what tokens are operators. -/
def Tree.links? (op? : TokenKind → Option ArithOp) :
    List Tree → Option (List (ArithOp × Operand))
  | [] => some []
  | token sign :: operand :: rest => do
    return (← op? sign.kind, ← operand.operand?) :: (← links? op? rest)
  | _ => none

/-- The chain that the children of a node stand for. -/
def Chain.ofChildren? (op? : TokenKind → Option ArithOp) : List Tree → Option Chain
  | .token sign :: first :: rest => do
    return ⟨sign.kind == .minus, ← first.operand?, ← Tree.links? op? rest⟩
  | .node _ first _ :: rest => do
    return ⟨false, ← first, ← Tree.links? op? rest⟩
  | _ => none

namespace Tree

/-- The chain that a node computes, if it is the node of an expression or of a term. -/
def chain? : Tree → Option Chain
  | token _ => none
  | node rule _ children => rule.operator?.bind fun op? => Chain.ofChildren? op? children

/-- Whether a node computes something with operators. -/
def isChain (tree : Tree) : Bool :=
  tree.chain?.any fun chain => !chain.links.isEmpty

/-- The register of a node that computes something with operators. -/
def accumulator? (tree : Tree) : Option Reg :=
  if tree.isChain then tree.operand?.bind Operand.reg? else none

end Tree

namespace Instr

/-- Whether an instruction writes a register. -/
def writes (r : Reg) (instr : Instr) : Bool :=
  instr.dst? = some r

/-- The register of an instruction that no other instruction shares it with. -/
def ownRegister? : Instr → Option Reg
  | neg dst _ => some dst
  | loadElement dst _ _ => some dst
  | takeResult dst => some dst
  | _ => none

theorem dst?_of_ownRegister? {instr : Instr} {r : Reg} (h : instr.ownRegister? = some r) :
    instr.dst? = some r := by
  cases instr with
  | neg dst value | loadElement dst name index | takeResult dst => exact h
  | _ => cases h

/-- An instruction is not among those that write another register. -/
theorem filter_writes_concat {code : List Instr} {op : ArithOp} {lhs rhs : Operand} {r dst : Reg}
    (h : r ≠ dst) :
    (code ++ [arith op dst lhs rhs]).filter (writes r) = code.filter (writes r) := by
  have hdst : (arith op dst lhs rhs).writes r = false := by
    simpa [writes, dst?] using Ne.symm h
  rw [List.filter_append, List.filter_cons_of_neg (by simp [hdst]), List.filter_nil,
    List.append_nil]

end Instr

namespace Chain

/-- The code that computes the links in a register, the first of them from `start`. -/
def linkCode (r : Reg) (start : Operand) : List (ArithOp × Operand) → List Instr
  | [] => []
  | (op, operand) :: links => .arith op r start operand :: linkCode r (.reg r) links

/-- What a chain starts from: its first operand, or the negation of that. A numeral may be negated
on the spot, and anything else is negated in a register that nothing else is written to. -/
inductive Starts (code : List Instr) (negated : Bool) (first : Operand) : Operand → Prop where
  | operand (hsign : negated = false) : Starts code negated first first
  | numeral (hsign : negated = true) {n : Int64} (hfirst : first.literal? = some n) :
      Starts code negated first (.ofNumber (-n))
  | negation (hsign : negated = true) {r : Reg}
      (hcode : code.filter (Instr.writes r) = [.neg r first]) : Starts code negated first (.reg r)

/-- The value of a chain in a piece of code. Without operators it is what the chain starts from, and
otherwise the register that is written by the links and by nothing else. -/
inductive Computes (code : List Instr) (chain : Chain) : Operand → Prop where
  | start {start : Operand} (hlinks : chain.links = [])
      (hstart : Starts code chain.negated chain.first start) : Computes code chain start
  | links {start : Operand} {r : Reg} (hlinks : chain.links ≠ [])
      (hstart : Starts code chain.negated chain.first start)
      (hcode : code.filter (Instr.writes r) = linkCode r start chain.links) :
      Computes code chain (.reg r)

/-- Behind the first link all others start from the register. -/
theorem linkCode_reg_concat (r : Reg) (links : List (ArithOp × Operand)) (op : ArithOp)
    (operand : Operand) :
    linkCode r (.reg r) (links ++ [(op, operand)]) =
      linkCode r (.reg r) links ++ [.arith op r (.reg r) operand] := by
  induction links with
  | nil => rfl
  | cons link links ih => rw [List.cons_append, linkCode, linkCode, ih, List.cons_append]

theorem linkCode_concat {r : Reg} {start : Operand} {links : List (ArithOp × Operand)}
    (hlinks : links ≠ []) (op : ArithOp) (operand : Operand) :
    linkCode r start (links ++ [(op, operand)]) =
      linkCode r start links ++ [.arith op r (.reg r) operand] := by
  cases links with
  | nil => exact absurd rfl hlinks
  | cons link links =>
      rw [List.cons_append, linkCode, linkCode, linkCode_reg_concat, List.cons_append]

section Reading

variable {op? : TokenKind → Option ArithOp} {op : ArithOp} {sign : Token} {tree : Tree}
  {value : Operand} {children : List Tree}

theorem links?_concat {links : List (ArithOp × Operand)}
    (h : Tree.links? op? children = some links) (hop : op? sign.kind = some op)
    (hvalue : tree.operand? = some value) :
    Tree.links? op? (children ++ [.token sign, tree]) = some (links ++ [(op, value)]) := by
  fun_induction Tree.links? op? children generalizing links with
  | case1 =>
      cases h
      simp [Tree.links?, hop, hvalue]
  | case2 token operand rest ih =>
      simp only [Option.pure_def, Option.bind_eq_bind, Option.bind_eq_some_iff] at h
      obtain ⟨other, hother, first, hfirst, more, hmore, heq⟩ := h
      cases heq
      simp [Tree.links?, hother, hfirst, ih hmore]
  | case3 => cases h

/-- One link more is read behind the others. -/
theorem ofChildren?_concat {chain : Chain} (h : ofChildren? op? children = some chain)
    (hop : op? sign.kind = some op) (hvalue : tree.operand? = some value) :
    ofChildren? op? (children ++ [.token sign, tree]) =
      some { chain with links := chain.links ++ [(op, value)] } := by
  fun_cases ofChildren? op? children with
  | case1 token first rest =>
      simp only [ofChildren?, Option.pure_def, Option.bind_eq_bind, Option.bind_eq_some_iff] at h
      obtain ⟨operand, hoperand, links, hlinks, heq⟩ := h
      cases heq
      simp [ofChildren?, hoperand, links?_concat hlinks hop hvalue]
  | case2 rule first inner rest =>
      simp only [ofChildren?, Option.pure_def, Option.bind_eq_bind, Option.bind_eq_some_iff] at h
      obtain ⟨operand, hoperand, links, hlinks, heq⟩ := h
      cases heq
      simp [ofChildren?, hoperand, links?_concat hlinks hop hvalue]
  | case3 children hsigned hplain =>
      rw [ofChildren?.eq_3 op? children hsigned hplain] at h
      cases h

end Reading

section Frames

variable {code other : List Instr} {negated : Bool} {first start : Operand}

/-- Only what is written to the register of a negated operand matters. -/
theorem Starts.of_filter (h : Starts code negated first start)
    (hsame : ∀ r ∈ code.filterMap Instr.ownRegister?,
      other.filter (Instr.writes r) = code.filter (Instr.writes r)) :
    Starts other negated first start := by
  cases h with
  | operand hsign => exact .operand hsign
  | numeral hsign hfirst => exact .numeral hsign hfirst
  | @negation hsign r hcode =>
      have hneg : .neg r first ∈ code.filter (Instr.writes r) := by simp [hcode]
      have hown : r ∈ code.filterMap Instr.ownRegister? :=
        List.mem_filterMap.2 ⟨_, (List.mem_filter.1 hneg).1, rfl⟩
      exact .negation hsign ((hsame r hown).trans hcode)

end Frames

end Chain

namespace Tree

/-- What a piece of code computes for a node is what the operand of the node says. -/
def Chained (code : List Instr) (tree : Tree) : Prop :=
  tree.rule? = some .expression ∨ tree.rule? = some .term →
    ∃ chain value, tree.chain? = some chain ∧ tree.operand? = some value ∧
      chain.Computes code value

variable {code other : List Instr} {tree : Tree}

theorem accumulator?_of_links {chain : Chain} {r : Reg} (hchain : tree.chain? = some chain)
    (hlinks : chain.links ≠ []) (hvalue : tree.operand? = some (.reg r)) :
    tree.accumulator? = some r := by
  have hsome : chain.links.isEmpty = false := by simpa using hlinks
  simp [accumulator?, isChain, hchain, hsome, hvalue, Operand.reg?]

theorem accumulator?_of_no_links {chain : Chain} (hchain : tree.chain? = some chain)
    (hlinks : chain.links = []) : tree.accumulator? = none := by
  simp [accumulator?, isChain, hchain, hlinks]

/-- Only what is written to the registers of a node matters. -/
theorem Chained.of_filter (h : tree.Chained code)
    (hsame : ∀ r, tree.accumulator? = some r ∨ r ∈ code.filterMap Instr.ownRegister? →
      other.filter (Instr.writes r) = code.filter (Instr.writes r)) :
    tree.Chained other := by
  intro hrule
  obtain ⟨chain, value, hchain, hvalue, hcomputes⟩ := h hrule
  refine ⟨chain, value, hchain, hvalue, ?_⟩
  cases hcomputes with
  | start hlinks hstart => exact .start hlinks (hstart.of_filter fun r hr => hsame r (.inr hr))
  | @links start r hlinks hstart hcode =>
      refine .links hlinks (hstart.of_filter fun r hr => hsame r (.inr hr)) ?_
      rw [hsame r (.inl (accumulator?_of_links hchain hlinks hvalue)), hcode]

theorem rule_of_chain? {chain : Chain} (h : tree.chain? = some chain) :
    tree.rule? = some .expression ∨ tree.rule? = some .term := by
  cases tree with
  | token t => cases h
  | node rule operand children =>
      obtain ⟨op?, hrule, _⟩ := Option.bind_eq_some_iff.1 h
      have hsome : rule.operator?.isSome = true := by simp [hrule]
      simpa [rule?] using Rule.isSome_operator?.1 hsome

/-- A node that computes something with operators has a register. -/
theorem Chained.exists_reg (h : tree.Chained code) (hchain : tree.isChain = true) :
    ∃ r, tree.operand? = some (.reg r) ∧ tree.accumulator? = some r := by
  obtain ⟨chain, hread, hsome⟩ := (Option.any_eq_true _ _).1 hchain
  obtain ⟨other, value, hother, hvalue, hcomputes⟩ := h (rule_of_chain? hread)
  obtain rfl : chain = other := Option.some.inj (hread.symm.trans hother)
  cases hcomputes with
  | start hlinks hstart => simp [hlinks] at hsome
  | @links start r hlinks hstart hcode =>
      exact ⟨r, hvalue, accumulator?_of_links hread hlinks hvalue⟩

section Links

variable {rule : Rule} {op? : TokenKind → Option ArithOp} {value operand : Operand}
  {children : List Tree} {accumulator : Option Reg} {op : ArithOp} {sign : Token} {rhs : Tree}
  {dst : Reg}

/-- A node with one link more is computed in the register of the node without it, or else in one
that has not been written. -/
theorem Chained.link (hrule : rule.operator? = some op?)
    (h : (node rule (some value) children).Chained code)
    (haccumulator : (node rule (some value) children).accumulator? = accumulator)
    (hop : op? sign.kind = some op) (hoperand : rhs.operand? = some operand)
    (hagain : ∀ r, accumulator = some r → dst = r)
    (hfresh : accumulator = none → code.filter (Instr.writes dst) = [])
    (hown : dst ∉ code.filterMap Instr.ownRegister?) :
    (node rule (some (.reg dst)) (children ++ [token sign, rhs])).accumulator? = some dst ∧
      (node rule (some (.reg dst)) (children ++ [token sign, rhs])).Chained
        (code ++ [.arith op dst value operand]) := by
  have hsome : rule.operator?.isSome = true := by simp [hrule]
  obtain ⟨chain, known, hchain, hknown, hcomputes⟩ :=
    h (by simpa [rule?] using Rule.isSome_operator?.1 hsome)
  obtain rfl : value = known := Option.some.inj hknown
  have hread : Chain.ofChildren? op? children = some chain := by
    simpa [chain?, hrule] using hchain
  have hlonger : (node rule (some (.reg dst)) (children ++ [token sign, rhs])).chain? =
      some { chain with links := chain.links ++ [(op, operand)] } := by
    simp [chain?, hrule, Chain.ofChildren?_concat hread hop hoperand]
  have hstays : ∀ r ∈ code.filterMap Instr.ownRegister?,
      (code ++ [Instr.arith op dst value operand]).filter (Instr.writes r) =
        code.filter (Instr.writes r) := by
    intro r hr
    exact Instr.filter_writes_concat (by rintro rfl; exact hown hr)
  have hlast : [Instr.arith op dst value operand].filter (Instr.writes dst) =
      [.arith op dst value operand] := by
    simp [Instr.writes, Instr.dst?]
  refine ⟨accumulator?_of_links hlonger (by simp) rfl, fun _ => ⟨_, _, hlonger, rfl, ?_⟩⟩
  cases hcomputes with
  | start hlinks hstart =>
      have hnone := haccumulator.symm.trans (accumulator?_of_no_links hchain hlinks)
      refine .links (by simp) (hstart.of_filter hstays) ?_
      rw [List.filter_append, hfresh hnone, hlast, hlinks]
      rfl
  | @links start r hlinks hstart hcode =>
      have hsame := haccumulator.symm.trans (accumulator?_of_links hchain hlinks rfl)
      obtain rfl := hagain r hsame
      refine .links (by simp) (hstart.of_filter hstays) ?_
      rw [List.filter_append, hcode, hlast, Chain.linkCode_concat hlinks]

end Links

end Tree

end OnePass
