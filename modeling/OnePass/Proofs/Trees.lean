import OnePass.Ast.Tree

/-!
The pre-order of trees, and what is gathered from the nodes of a forest along it: the operands that
they carry, and the nodes of parameters.
-/

namespace OnePass

namespace Tree

mutual

/-- The pre-order does not depend on where the root lies. -/
theorem map_snd_outlineFrom (depth other : Nat) : (tree : Tree) →
    (tree.outlineFrom depth).map Prod.snd = (tree.outlineFrom other).map Prod.snd
  | token t => by simp [outlineFrom]
  | node rule operand children => by
      simp [outlineFrom, map_snd_outlineForest (depth + 1) (other + 1) children]

theorem map_snd_outlineForest (depth other : Nat) : (forest : List Tree) →
    (outlineForest depth forest).map Prod.snd = (outlineForest other forest).map Prod.snd
  | [] => by simp [outlineForest]
  | tree :: forest => by
      simp [outlineForest, map_snd_outlineFrom depth other tree,
        map_snd_outlineForest depth other forest]

end

theorem map_snd_outlineForest_eq (depth : Nat) (forest : List Tree) :
    (outlineForest depth forest).map Prod.snd = forest.flatMap preorder := by
  induction forest with
  | nil => simp [outlineForest]
  | cons tree forest ih =>
      rw [outlineForest, List.map_append, ih, map_snd_outlineFrom depth 0 tree, List.flatMap_cons]
      rfl

@[simp]
theorem preorder_token (t : Token) : (token t).preorder = [token t] := by
  simp [preorder, outline, outlineFrom]

@[simp]
theorem preorder_node (rule : Rule) (operand : Option Operand) (children : List Tree) :
    (node rule operand children).preorder =
      node rule operand children :: children.flatMap preorder := by
  simp [preorder, outline, outlineFrom, map_snd_outlineForest_eq]

theorem self_mem_preorder (tree : Tree) : tree ∈ tree.preorder := by
  cases tree <;> simp

section Nested

variable {inner : Tree}

mutual

/-- The pre-order of a tree has that of each of its nodes in it. -/
theorem preorder_subset : (tree : Tree) → inner ∈ tree.preorder → inner.preorder ⊆ tree.preorder
  | token t, h => by
      rw [preorder_token, List.mem_singleton] at h
      rw [h]
      exact List.Subset.refl _
  | node rule operand children, h => by
      rw [preorder_node, List.mem_cons] at h
      rcases h with rfl | h
      · exact List.Subset.refl _
      · rw [preorder_node]
        exact List.subset_cons_of_subset _ (flatMap_preorder_subset children h)

theorem flatMap_preorder_subset : (forest : List Tree) → inner ∈ forest.flatMap preorder →
    inner.preorder ⊆ forest.flatMap preorder
  | [], h => by cases h
  | tree :: forest, h => by
      rw [List.flatMap_cons, List.mem_append] at h
      rw [List.flatMap_cons]
      rcases h with h | h
      · exact List.subset_append_of_subset_left _ (preorder_subset tree h)
      · exact List.subset_append_of_subset_right _ (flatMap_preorder_subset forest h)

end

end Nested

/-- The children of a node are among the nodes of the tree that it is in. -/
theorem mem_preorder_of_children {tree inner child : Tree} (h : inner ∈ tree.preorder)
    (hchild : child ∈ inner.children) : child ∈ tree.preorder := by
  refine preorder_subset tree h ?_
  cases inner with
  | token t => cases hchild
  | node rule operand children =>
      rw [preorder_node]
      exact List.mem_cons_of_mem _ (List.mem_flatMap.2 ⟨child, hchild, child.self_mem_preorder⟩)

section Gather

variable {α : Type} (f : Tree → Option α)

/-- What is found at the nodes of some trees, in pre-order. -/
def gather (forest : List Tree) : List α :=
  (forest.flatMap preorder).filterMap f

variable {f}

theorem mem_gather {forest : List Tree} {a : α} :
    a ∈ gather f forest ↔ ∃ tree ∈ forest.flatMap preorder, f tree = some a :=
  List.mem_filterMap

@[simp]
theorem gather_nil : gather f [] = [] := rfl

@[simp]
theorem gather_append (front back : List Tree) :
    gather f (front ++ back) = gather f front ++ gather f back := by
  simp [gather]

theorem gather_token_cons {t : Token} (hnone : f (token t) = none) (forest : List Tree) :
    gather f (token t :: forest) = gather f forest := by
  rw [gather, List.flatMap_cons, preorder_token, List.singleton_append,
    List.filterMap_cons_none hnone]
  rfl

theorem gather_node_cons (rule : Rule) (operand : Option Operand) (children forest : List Tree) :
    gather f (node rule operand children :: forest) =
      (f (node rule operand children)).toList ++ (gather f children ++ gather f forest) := by
  cases hf : f (node rule operand children) <;> simp [gather, hf]

theorem gather_flatMap {β : Type} (trees : β → List Tree) (items : List β) :
    gather f (items.flatMap trees) = items.flatMap fun item => gather f (trees item) := by
  induction items with
  | nil => rfl
  | cons item items ih => rw [List.flatMap_cons, List.flatMap_cons, gather_append, ih]

theorem gather_flatMap_eq_nil {β : Type} {trees : β → List Tree}
    (h : ∀ item, gather f (trees item) = []) (items : List β) :
    gather f (items.flatMap trees) = [] := by
  rw [gather_flatMap]
  exact List.flatMap_eq_nil_iff.2 fun item _ => h item

/-- What is found at no leaf, and of the nodes that compute nothing only at those of parameters. -/
structure Sparse (f : Tree → Option α) : Prop where
  token : ∀ t, f (token t) = none
  inner : ∀ {rule}, rule ≠ .parameters → ∀ children, f (inner rule children) = none

namespace Sparse

theorem token_cons (hf : Sparse f) (t : Token) (forest : List Tree) :
    gather f (Tree.token t :: forest) = gather f forest :=
  gather_token_cons (hf.token t) forest

theorem inner_cons (hf : Sparse f) {rule : Rule} (hrule : rule ≠ .parameters)
    (children forest : List Tree) :
    gather f (Tree.inner rule children :: forest) = gather f children ++ gather f forest := by
  have hnone := hf.inner hrule children
  rw [Tree.inner, gather_node_cons]
  rw [Tree.inner] at hnone
  rw [hnone]
  rfl

theorem optional (hf : Sparse f) (found : Option Token) :
    gather f (Tree.optional found) = [] := by
  cases found with
  | none => rfl
  | some t => exact hf.token_cons t []

end Sparse

end Gather

/-- The token of a leaf. -/
def token? : Tree → Option Token
  | token t => some t
  | node _ _ _ => none

section Annotations

theorem sparse_operand? : Sparse operand? where
  token _ := rfl
  inner _ _ := rfl

/-- The operands that the nodes of some trees carry, in pre-order. -/
def annotations (forest : List Tree) : List Operand :=
  gather operand? forest

@[simp]
theorem annotations_nil : annotations [] = [] := rfl

@[simp]
theorem annotations_token_cons (t : Token) (forest : List Tree) :
    annotations (token t :: forest) = annotations forest :=
  gather_token_cons rfl forest

@[simp]
theorem annotations_node_cons (rule : Rule) (operand : Operand) (children forest : List Tree) :
    annotations (node rule (some operand) children :: forest) =
      operand :: (annotations children ++ annotations forest) :=
  gather_node_cons rule (some operand) children forest

@[simp]
theorem annotations_inner_cons (rule : Rule) (children forest : List Tree) :
    annotations (inner rule children :: forest) = annotations children ++ annotations forest :=
  gather_node_cons rule none children forest

@[simp]
theorem annotations_append (front back : List Tree) :
    annotations (front ++ back) = annotations front ++ annotations back :=
  gather_append front back

@[simp]
theorem annotations_optional (found : Option Token) : annotations (optional found) = [] :=
  sparse_operand?.optional found

theorem mem_annotations {tree : Tree} {operand : Operand} :
    operand ∈ annotations [tree] ↔ ∃ node ∈ tree.preorder, node.operand? = some operand := by
  rw [annotations, mem_gather, List.flatMap_singleton]

end Annotations

section Parameters

/-- A node of parameters. -/
def parameters? (tree : Tree) : Option Tree :=
  if tree.rule? = some .parameters then some tree else none

theorem sparse_parameters? : Sparse parameters? where
  token _ := rfl
  inner hrule _ := if_neg fun h => hrule (Option.some.inj h)

theorem mem_gather_parameters? {tree inner : Tree} (h : inner ∈ tree.preorder)
    (hrule : inner.rule? = some .parameters) : inner ∈ gather parameters? [tree] := by
  refine mem_gather.2 ⟨inner, ?_, if_pos hrule⟩
  rwa [List.flatMap_singleton]

end Parameters

end Tree

end OnePass
