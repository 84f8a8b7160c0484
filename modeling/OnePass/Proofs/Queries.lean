import OnePass.Proofs.Trees

/-!
Each query of a tree is answered by its pre-order. The tokens are the leaves along it, the count of a
rule is how many of its nodes have that rule, and a search gives the first of these. What holds for
a tree is shown along with what holds for a list of trees, since a node hands a query on to the list
of its children.
-/

namespace OnePass

namespace Tree

section Leaves

/-- The tokens that come off a stack are the leaves in the pre-orders of its trees, from the top
down. When a node is taken off, its children stand in its place, and since they are what its
pre-order has behind it, the leaves to come stay the same. -/
theorem tokensOf_eq_gather (stack : List Tree) : tokensOf stack = gather token? stack := by
  fun_induction tokensOf stack with
  | case1 => rfl
  | case2 t stack ih =>
      have hleaf : token? (token t) = some t := rfl
      rw [ih, gather, gather, List.flatMap_cons, preorder_token, List.singleton_append,
        List.filterMap_cons_some hleaf]
  | case3 rule operand children stack ih =>
      rw [ih, gather_append, gather_node_cons]
      rfl

theorem tokens_eq_filterMap (tree : Tree) : tree.tokens = tree.preorder.filterMap token? := by
  rw [tokens, tokensOf_eq_gather, gather, List.flatMap_singleton]

end Leaves

section Rules

variable (rule : Rule)

/-- Whether a tree is a node of the rule. -/
def isNodeOf (tree : Tree) : Bool :=
  tree.rule? = some rule

@[simp]
theorem isNodeOf_token (t : Token) : (token t).isNodeOf rule = false := rfl

@[simp]
theorem isNodeOf_node (own : Rule) (operand : Option Operand) (children : List Tree) :
    (node own operand children).isNodeOf rule = decide (own = rule) := by
  simp [isNodeOf, rule?]

mutual

theorem count_eq_countP : (tree : Tree) → tree.count rule = tree.preorder.countP (isNodeOf rule)
  | token t => by simp [count]
  | node own operand children => by
      rw [count, countIn_eq_countP children, preorder_node, List.countP_cons, isNodeOf_node,
        Nat.add_comm]
      simp only [decide_eq_true_eq]

theorem countIn_eq_countP : (forest : List Tree) →
    countIn rule forest = (forest.flatMap preorder).countP (isNodeOf rule)
  | [] => by simp [countIn]
  | tree :: forest => by
      rw [countIn, count_eq_countP tree, countIn_eq_countP forest, List.flatMap_cons,
        List.countP_append]

end

mutual

theorem find?_eq_preorder : (tree : Tree) →
    tree.find? rule = tree.preorder.find? (isNodeOf rule)
  | token t => by simp [find?]
  | node own operand children => by
      rw [find?, findIn?_eq_preorder children, preorder_node]
      by_cases hown : own = rule
      · rw [if_pos hown, List.find?_cons_of_pos (by simpa using hown)]
      · rw [if_neg hown, List.find?_cons_of_neg (by simpa using hown)]

/-- The search of a list leaves off at the first tree that has a node of the rule, as the search of
the pre-orders one behind the other does. -/
theorem findIn?_eq_preorder : (forest : List Tree) →
    findIn? rule forest = (forest.flatMap preorder).find? (isNodeOf rule)
  | [] => by simp [findIn?]
  | tree :: forest => by
      rw [findIn?, findIn?_eq_preorder forest, find?_eq_preorder tree, List.flatMap_cons,
        List.find?_append]
      cases tree.preorder.find? (isNodeOf rule) <;> rfl

end

theorem find?_eq_none_iff_count (tree : Tree) : tree.find? rule = none ↔ tree.count rule = 0 := by
  rw [find?_eq_preorder, count_eq_countP, List.find?_eq_none, List.countP_eq_zero]

end Rules

theorem queries_along_preorder (tree : Tree) (rule : Rule) :
    tree.tokens = tree.preorder.filterMap token? ∧
      tree.count rule = tree.preorder.countP (isNodeOf rule) ∧
      tree.find? rule = tree.preorder.find? (isNodeOf rule) ∧
      (tree.find? rule = none ↔ tree.count rule = 0) :=
  ⟨tree.tokens_eq_filterMap, tree.count_eq_countP rule, tree.find?_eq_preorder rule,
    tree.find?_eq_none_iff_count rule⟩

end Tree

end OnePass
