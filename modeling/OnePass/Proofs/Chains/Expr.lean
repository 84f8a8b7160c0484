import OnePass.Proofs.Chains.Accounts

/-!
The registers of an expression are accounted for by its tree. An expression or a term grows link by
link: the part of it that has been read would be a node of its own if the text ended there, and with
the next operator the longer node takes the register over.
-/

namespace OnePass

def Term.tree (t : Term) : Tree :=
  .node .term (some t.value) t.children

def Factor.tree (f : Factor) : Tree :=
  .node .factor (some f.value) f.children

theorem Rule.hasValue_of_operator? {rule : Rule} {op? : TokenKind → Option ArithOp}
    (h : rule.operator? = some op?) : rule.hasValue = true := by
  cases rule <;> first | rfl | cases h

section Combining

variable {accumulator : Option Reg} {op : ArithOp} {dst : Reg} {value operand : Operand}
  {log : List Action} {node : Tree} {nodes : List Tree} {s t : State}

theorem code_combineLog :
    (combineLog accumulator op dst value operand).flatMap Action.code =
      [.arith op dst value operand] := by
  cases accumulator <;> rfl

/-- The register of a link is the one that the node before it has, and else a new one. -/
theorem Accounts.regs_combineLog (h : Accounts log (node :: nodes))
    (haccumulator : node.accumulator? = accumulator)
    (hplays : Plays (log ++ combineLog accumulator op dst value operand) s t) :
    (∀ r, accumulator = some r → dst = r) ∧ (accumulator = none → dst ∉ Action.regs log) ∧
      (Action.regs (log ++ combineLog accumulator op dst value operand)).Perm
        (dst :: (nodes.filterMap Tree.accumulator? ++
          (log.flatMap Action.code).filterMap Instr.ownRegister?)) := by
  have hregs := h.regs
  cases accumulator with
  | none =>
      have hsplit : Action.regs (log ++ combineLog none op dst value operand) =
          Action.regs log ++ [dst] := Action.regs_append _ _
      rw [List.filterMap_cons_none haccumulator] at hregs
      refine ⟨by simp, fun _ => Plays.notMem_regs hplays, ?_⟩
      rw [hsplit]
      exact (List.perm_append_singleton dst _).trans (hregs.cons dst)
  | some r =>
      obtain ⟨u, _, v, ⟨rfl, _⟩, _⟩ := plays_append.1 hplays
      have hsplit : Action.regs (log ++ combineLog (some dst) op dst value operand) =
          Action.regs log ++ [] := Action.regs_append _ _
      rw [List.filterMap_cons_some haccumulator] at hregs
      refine ⟨fun r hr => Option.some.inj hr, by simp, ?_⟩
      rw [hsplit, List.append_nil]
      exact hregs

/-- With an operator and another operand a longer node takes the place of a node. -/
theorem Accounts.combined {rule : Rule} {op? : TokenKind → Option ArithOp} {children : List Tree}
    {sign : Token} {rhs : Tree} (h : Accounts log (.node rule (some value) children :: nodes))
    (hrule : rule.operator? = some op?)
    (haccumulator : (Tree.node rule (some value) children).accumulator? = accumulator)
    (hop : op? sign.kind = some op) (hoperand : rhs.operand? = some operand)
    (hplays : Plays (log ++ combineLog accumulator op dst value operand) s t) :
    (Tree.node rule (some (.reg dst)) (children ++ [.token sign, rhs])).accumulator? = some dst ∧
      Accounts (log ++ combineLog accumulator op dst value operand)
        (.node rule (some (.reg dst)) (children ++ [.token sign, rhs]) :: nodes) := by
  obtain ⟨hagain, hfresh, hregs⟩ := h.regs_combineLog haccumulator hplays
  have hcode : (log ++ combineLog accumulator op dst value operand).flatMap Action.code =
      log.flatMap Action.code ++ [.arith op dst value operand] := by
    rw [List.flatMap_append, code_combineLog]
  have hown : dst ∉ (log.flatMap Action.code).filterMap Instr.ownRegister? := by
    have hothers := (List.nodup_cons.1 (hregs.nodup_iff.1 hplays.nodup_regs)).1
    exact fun hmem => hothers (List.mem_append_right _ hmem)
  have hlinked := (h.chained _ List.mem_cons_self).link hrule haccumulator hop hoperand hagain
    (fun hnone => h.filter_eq_nil (hfresh hnone)) hown
  refine ⟨hlinked.1, h.link (fun _ => List.mem_cons_of_mem _) hcode ?_ hregs hplays.nodup_regs
    hlinked.1 ?_ (hcode ▸ hlinked.2)⟩
  · intro r hr
    rw [Action.regs_append]
    exact List.mem_append_left _ hr
  · simp [Tree.operand?, Tree.rule?, Rule.hasValue_of_operator? hrule]

end Combining

/-- A log covers a tree, and this is the register in which the root of the tree is computed. -/
def Accumulates (log : List Action) (tree : Tree) (accumulator : Option Reg) : Prop :=
  ∀ s t, Plays log s t → tree.accumulator? = accumulator ∧ Accounts log tree.preorder

namespace Accumulates

variable {rule : Rule} {op? : TokenKind → Option ArithOp} {log rhsLog : List Action}
  {tree rhs : Tree} {children : List Tree} {value operand : Operand} {accumulator : Option Reg}

theorem covers (h : Accumulates log tree accumulator) : Covers log [tree] := by
  intro s t hplays
  rw [List.flatMap_singleton]
  exact (h s t hplays).2

/-- A node without operators has the value that it starts from. -/
theorem start (hrule : rule.operator? = some op?) (h : Covers log children)
    (hchain : ∀ s t, Plays log s t → ∃ chain, Chain.ofChildren? op? children = some chain ∧
      chain.links = [] ∧
        Chain.Starts (log.flatMap Action.code) chain.negated chain.first value) :
    Accumulates log (.node rule (some value) children) none := by
  intro s t hplays
  obtain ⟨chain, hread, hlinks, hstart⟩ := hchain s t hplays
  have hchain : (Tree.node rule (some value) children).chain? = some chain := by
    simp [Tree.chain?, hrule, hread]
  have hnone := Tree.accumulator?_of_no_links hchain hlinks
  refine ⟨hnone, ?_⟩
  rw [Tree.preorder_node]
  refine (h s t hplays).cons hnone ?_ fun _ => ⟨chain, value, hchain, rfl, .start hlinks hstart⟩
  simp [Tree.operand?, Tree.rule?, Rule.hasValue_of_operator? hrule]

/-- An operator and another operand make a longer node. -/
theorem link (hrule : rule.operator? = some op?) {op : ArithOp} {sign : Token} {dst : Reg}
    (hlhs : Accumulates log (.node rule (some value) children) accumulator)
    (hrhs : Covers rhsLog [rhs]) (hoperand : rhs.operand? = some operand) :
    Accumulates (log ++ (.take sign.kind sign :: .check (op? sign.kind = some op) ::
      (rhsLog ++ combineLog accumulator op dst value operand)))
      (.node rule (some (.reg dst)) (children ++ [.token sign, rhs])) (some dst) := by
  have hread : Covers (log ++ (.take sign.kind sign :: .check (op? sign.kind = some op) :: rhsLog))
      ([.node rule (some value) children] ++ [.token sign, rhs]) :=
    hlhs.covers.append (.cons_aside rfl (.cons_aside rfl (.leaf_cons sign hrhs)))
  have hsplit : log ++ (.take sign.kind sign :: .check (op? sign.kind = some op) ::
      (rhsLog ++ combineLog accumulator op dst value operand)) =
        (log ++ (.take sign.kind sign :: .check (op? sign.kind = some op) :: rhsLog)) ++
          combineLog accumulator op dst value operand := by
    simp
  rw [hsplit]
  intro s t hplays
  obtain ⟨u, hfront, _⟩ := plays_append.1 hplays
  obtain ⟨v, hlog, _⟩ := plays_append.1 hfront
  have haccounts := hread s u hfront
  rw [List.flatMap_append, List.flatMap_singleton, Tree.preorder_node, List.cons_append,
    ← List.flatMap_append] at haccounts
  rw [Tree.preorder_node]
  exact haccounts.combined hrule (hlhs s v hlog).1 (hfront.facts (.check _) (by simp)) hoperand hplays

end Accumulates

section Negating

variable {log : List Action} {nodes : List Tree} {first value : Operand} {s t : State}

theorem covers_negateLog (first value : Operand) : Covers (negateLog first value) [] := by
  cases value with
  | reg dst => exact .own rfl
  | named text => exact .aside rfl

theorem Accounts.starts_negateLog (h : Accounts log nodes)
    (hplays : Plays (log ++ negateLog first value) s t) :
    Chain.Starts ((log ++ negateLog first value).flatMap Action.code) true first value := by
  cases value with
  | reg dst =>
      have hfresh : dst ∉ Action.regs log := Plays.notMem_regs hplays
      refine .negation rfl ?_
      rw [List.flatMap_append, List.filter_append, h.filter_eq_nil hfresh]
      simp [negateLog, Action.code, Instr.writes, Instr.dst?]
  | named text =>
      obtain ⟨n, hfirst, rfl⟩ := hplays.facts (.check _) (List.mem_append_right _ List.mem_cons_self)
      exact .numeral rfl hfirst

end Negating

theorem UnsignedLit.covers_tree (lit : UnsignedLit) : Covers [] [lit.tree] :=
  .inner (.leaf lit.token) rfl

theorem IntLit.covers_tree (lit : IntLit) : Covers [] [lit.tree] := by
  refine .inner ?_ rfl
  cases lit.sign with
  | none => exact lit.digits.covers_tree
  | some sign => exact .leaf_cons sign lit.digits.covers_tree

mutual

theorem Expr.accumulates : (e : Expr) → Accumulates e.log e.tree e.accumulator?
  | .term t => by
      unfold Expr.log Expr.tree Expr.value Expr.children
      refine .start rfl (.cons_aside rfl t.accumulates.covers) fun _ _ _ => ?_
      exact ⟨⟨false, t.value, []⟩, rfl, rfl, .operand rfl⟩
  | .positive sign t => by
      unfold Expr.log Expr.tree Expr.value Expr.children
      refine .start rfl (.cons_aside rfl (.leaf_cons sign t.accumulates.covers)) ?_
      intro s u hplays
      obtain ⟨v, ⟨hkind, _⟩, _⟩ := hplays
      exact ⟨⟨sign.kind == .minus, t.value, []⟩, rfl, rfl, .operand (by simp [hkind])⟩
  | .negative sign t value => by
      unfold Expr.log Expr.tree Expr.value Expr.children
      have hnegated := t.accumulates.covers.append (covers_negateLog t.value value)
      rw [List.append_nil] at hnegated
      refine .start rfl (.cons_aside rfl (.leaf_cons sign hnegated)) fun s u hplays => ?_
      obtain ⟨v, ⟨hkind, _⟩, hplays⟩ := hplays
      obtain ⟨w, hterm, _⟩ := plays_append.1 hplays
      refine ⟨⟨sign.kind == .minus, t.value, []⟩, rfl, rfl, ?_⟩
      rw [hkind]
      exact (t.accumulates v w hterm).2.starts_negateLog hplays
  | .chain lhs op opToken rhs dst => by
      rw [Expr.log, Expr.tree, Expr.children]
      exact lhs.accumulates.link rfl rhs.accumulates.covers rfl

theorem Term.accumulates : (t : Term) → Accumulates t.log t.tree t.accumulator?
  | .factor f => by
      unfold Term.log Term.tree Term.value Term.children
      exact .start rfl f.covers fun _ _ _ => ⟨⟨false, f.value, []⟩, rfl, rfl, .operand rfl⟩
  | .chain lhs op opToken rhs dst => by
      rw [Term.log, Term.tree, Term.children]
      exact lhs.accumulates.link rfl rhs.covers rfl

theorem Factor.covers : (f : Factor) → Covers f.log [f.tree]
  | .name ref => by
      unfold Factor.log Factor.tree Factor.children
      exact .node (.leaf_cons ref.token (.aside (all_readLog ref))) rfl rfl
  | .element ref lbracket index dst rbracket => by
      unfold Factor.log Factor.tree Factor.children
      have hload : Covers (.reg dst :: .emit (.loadElement dst ref.token.value index.value) ::
          recoverLog .rbracket .missingBracket rbracket) [] :=
        (Covers.own rfl).append_aside (all_recoverLog _ _ _)
      have hindex := index.accumulates.covers.append (.aside_append (all_checkIndexLog index) hload)
      refine .node (.append_optional (.leaf_cons ref.token (.leaf_cons lbracket ?_)) rbracket) rfl rfl
      exact .aside_append (all_readLog ref) (.cons_aside rfl hindex)
  | .call c dst => by
      unfold Factor.log Factor.tree Factor.children
      have htake : Covers [.reg dst, .emit (.takeResult dst)] [] := .own rfl
      have hresult := c.covers.append htake
      rw [List.append_nil] at hresult
      exact .node (.inner (.cons_aside rfl hresult) rfl) rfl rfl
  | .unknownCall fn => by
      unfold Factor.log Factor.tree Factor.children
      exact .node (.leaf_cons fn (.aside rfl)) rfl rfl
  | .paren lparen inner rparen => by
      unfold Factor.log Factor.tree Factor.children
      refine .node (.append_optional (.leaf_cons lparen ?_) rparen) rfl rfl
      exact .cons_aside rfl (inner.accumulates.covers.append_aside (all_recoverLog _ _ _))
  | .char literal => by
      unfold Factor.log Factor.tree Factor.children
      exact .node (.leaf_cons literal (.aside rfl)) rfl rfl
  | .int literal => by
      unfold Factor.log Factor.tree Factor.children
      exact .node (literal.covers_tree.append_aside (all_integer literal)) rfl rfl

theorem Call.covers : (c : Call) → Covers c.log c.children
  | .mk name lparen callee args rparen => by
      unfold Call.log Call.children
      refine .append_optional (.leaf_cons name (.leaf_cons lparen (.inner ?_ rfl))) rparen
      refine .cons_aside rfl (.cons_aside rfl (.cons_aside rfl ?_))
      refine (args.covers name.value).append_aside ?_
      simp [Action.writesNothing, Instr.dst?]

theorem Args.covers : (args : Args) → (function : String) → Covers (args.log function) args.children
  | .nil, function => by
      unfold Args.log Args.children
      exact .aside rfl
  | .first expr, function => by
      unfold Args.log Args.children
      exact expr.accumulates.covers.append_aside rfl
  | .more init comma expr, function => by
      unfold Args.log Args.children
      refine (init.covers function).append (.cons_aside rfl (.cons_aside rfl (.leaf_cons comma ?_)))
      exact expr.accumulates.covers.append_aside rfl

end

end OnePass
