import OnePass.Code.Operand
import OnePass.Token

/-!
Syntax trees in their general form: tokens at the leaves and the grammar's rules at the
inner nodes. A node that computes a value carries the operand that holds it.

The queries are all about the pre-order of a tree, in which a node comes before its
children and those come from left to right.
-/

namespace OnePass

/-- The rules of the grammar. -/
inductive Rule where
  | program
  | constDecls
  | constDef
  | varDecls
  | varDef
  | valueFunction
  | voidFunction
  | mainFunction
  | functionHead
  | parameters
  | body
  | statements
  | statement
  | conditional
  | loop
  | condition
  | step
  | assignment
  | valueCall
  | voidCall
  | arguments
  | scan
  | print
  | ret
  | expression
  | term
  | factor
  | integer
  | unsigned
  | stringLit
deriving DecidableEq, Repr, Inhabited

inductive Tree where
  | token (token : Token)
  | node (rule : Rule) (operand : Option Operand) (children : List Tree)

namespace Tree

/-- An inner node that computes nothing. -/
def inner (rule : Rule) (children : List Tree) : Tree :=
  node rule none children

/-- The leaf of a token that may have been left out. -/
def optional : Option Token → List Tree
  | none => []
  | some t => [token t]

def rule? : Tree → Option Rule
  | token _ => none
  | node rule _ _ => some rule

def operand? : Tree → Option Operand
  | token _ => none
  | node _ operand _ => operand

def children : Tree → List Tree
  | token _ => []
  | node _ _ children => children

mutual

/-- The pre-order of a tree, each node with its depth below a root at `depth`. -/
def outlineFrom (depth : Nat) : Tree → List (Nat × Tree)
  | token t => [(depth, token t)]
  | node rule operand children =>
    (depth, node rule operand children) :: outlineForest (depth + 1) children

/-- The pre-order of a list of trees with their roots at `depth`. -/
def outlineForest (depth : Nat) : List Tree → List (Nat × Tree)
  | [] => []
  | tree :: forest => outlineFrom depth tree ++ outlineForest depth forest

end

/-- The pre-order of a tree with the depth of each node. -/
def outline (tree : Tree) : List (Nat × Tree) :=
  tree.outlineFrom 0

/-- The pre-order of a tree. -/
def preorder (tree : Tree) : List Tree :=
  tree.outline.map Prod.snd

mutual

/-- The first node of a rule in pre-order. -/
def find? (rule : Rule) : Tree → Option Tree
  | token _ => none
  | node own operand children =>
    if own = rule then some (node own operand children) else findIn? rule children

/-- The first node of a rule in a list of trees. -/
def findIn? (rule : Rule) : List Tree → Option Tree
  | [] => none
  | tree :: forest =>
    match find? rule tree with
    | some found => some found
    | none => findIn? rule forest

end

mutual

/-- How many nodes of a rule there are. -/
def count (rule : Rule) : Tree → Nat
  | token _ => 0
  | node own _ children => (if own = rule then 1 else 0) + countIn rule children

/-- How many nodes of a rule there are in a list of trees. -/
def countIn (rule : Rule) : List Tree → Nat
  | [] => 0
  | tree :: forest => count rule tree + countIn rule forest

end

mutual

/-- The number of nodes and leaves. -/
def weight : Tree → Nat
  | token _ => 1
  | node _ _ children => forestWeight children + 1

def forestWeight : List Tree → Nat
  | [] => 0
  | tree :: forest => weight tree + forestWeight forest

end

theorem forestWeight_append (left right : List Tree) :
    forestWeight (left ++ right) = forestWeight left + forestWeight right := by
  induction left with
  | nil => simp [forestWeight]
  | cons tree forest ih => simp [forestWeight, ih, Nat.add_assoc]

/-- The tokens of the trees on a stack. The top tree is taken off, and a node's children
take its place. -/
def tokensOf : List Tree → List Token
  | [] => []
  | token t :: stack => t :: tokensOf stack
  | node _ _ children :: stack => tokensOf (children ++ stack)
termination_by stack => forestWeight stack
decreasing_by
  · simp [forestWeight, weight]
  · simp only [forestWeight, weight, forestWeight_append]
    omega

/-- The tokens at the leaves, from left to right. -/
def tokens (tree : Tree) : List Token :=
  tokensOf [tree]

end Tree

end OnePass
