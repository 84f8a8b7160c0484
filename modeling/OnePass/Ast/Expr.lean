import OnePass.Ast.Tree
import OnePass.Code.Operator
import OnePass.Names.Symbol

/-!
Expressions, with every token they were read from and with what compiling them chose: the
declaration each name refers to, the register of each result. Type and operand of an
expression are read off that.

An operator chain leans to the left, so that an inner chain is the part already computed.
All links of a chain put their result into the same register.
-/

namespace OnePass

/-- A numeral with its value. -/
structure UnsignedLit where
  token : Token
  value : Int64
deriving DecidableEq, Repr

/-- A numeral after an optional sign. -/
structure IntLit where
  sign : Option Token
  digits : UnsignedLit
deriving DecidableEq, Repr

/-- An occurrence of a name, with the innermost declaration of it at that place. -/
structure NameRef where
  token : Token
  symbol : Option Symbol
deriving DecidableEq, Repr

namespace UnsignedLit

def tree (lit : UnsignedLit) : Tree :=
  .inner .unsigned [.token lit.token]

end UnsignedLit

namespace IntLit

/-- The number under its sign. The least one is its own opposite, as in a build without overflow
checks. -/
def value (lit : IntLit) : Int64 :=
  match lit.sign with
  | none => lit.digits.value
  | some sign => if sign.kind = .minus then -lit.digits.value else lit.digits.value

/-- Whether the number under its sign is out of range. -/
def overflows (lit : IntLit) : Bool :=
  lit.sign.any (·.kind == .minus) && lit.digits.value == Int64.minValue

def tree (lit : IntLit) : Tree :=
  .inner .integer (Tree.optional lit.sign ++ [lit.digits.tree])

end IntLit

namespace NameRef

/-- The type of the named value; an unknown name counts as an int. -/
def ty (ref : NameRef) : Ty :=
  match ref.symbol with
  | none => .int
  | some symbol => symbol.ty.asValue

theorem ty_ne_void (ref : NameRef) : ref.ty ≠ .void := by
  unfold ty
  split
  · decide
  · exact Ty.asValue_ne_void _

/-- What the name stands for: a constant's value, otherwise the name itself. -/
def value (ref : NameRef) : Operand :=
  .named ((ref.symbol.bind Symbol.substitute?).getD ref.token.value)

end NameRef

mutual

/-- Terms under an optional sign, added and subtracted. -/
inductive Expr where
  | term (term : Term)
  | positive (sign : Token) (term : Term)
  /-- `value` is the negated numeral, or the register that holds the negated term. -/
  | negative (sign : Token) (term : Term) (value : Operand)
  | chain (lhs : Expr) (op : ArithOp) (opToken : Token) (rhs : Term) (dst : Reg)

/-- Factors, multiplied and divided. -/
inductive Term where
  | factor (factor : Factor)
  | chain (lhs : Term) (op : ArithOp) (opToken : Token) (rhs : Factor) (dst : Reg)

inductive Factor where
  | name (ref : NameRef)
  | element (ref : NameRef) (lbracket : Token) (index : Expr) (dst : Reg)
      (rbracket : Option Token)
  | call (call : Call) (dst : Reg)
  /-- A call of an unknown function. What stood in its parentheses is not kept. -/
  | unknownCall (name : Token)
  | paren (lparen : Token) (inner : Expr) (rparen : Option Token)
  | char (literal : Token)
  | int (literal : IntLit)

/-- A call of a known function. -/
inductive Call where
  | mk (name lparen : Token) (callee : Symbol) (args : Args) (rparen : Option Token)

/-- The arguments of a call. -/
inductive Args where
  | nil
  | first (expr : Expr)
  | more (init : Args) (comma : Token) (expr : Expr)

end

namespace Call

def name : Call → Token
  | mk name _ _ _ _ => name

def callee : Call → Symbol
  | mk _ _ callee _ _ => callee

def args : Call → Args
  | mk _ _ _ args _ => args

end Call

namespace Factor

def ty : Factor → Ty
  | name ref => ref.ty
  | element ref _ _ _ _ => ref.ty
  | call c _ => c.callee.ty.asValue
  | unknownCall _ => .int
  | paren _ _ _ => .int
  | char _ => .char
  | int _ => .int

theorem ty_ne_void (f : Factor) : f.ty ≠ .void := by
  cases f with
  | name ref => exact ref.ty_ne_void
  | element ref _ _ _ _ => exact ref.ty_ne_void
  | call c _ => exact Ty.asValue_ne_void _
  | _ => exact Ty.noConfusion

end Factor

namespace Term

/-- Operators make ints. -/
def ty : Term → Ty
  | factor f => f.ty
  | chain _ _ _ _ _ => .int

/-- The register in which a chain accumulates. -/
def accumulator? : Term → Option Reg
  | factor _ => none
  | chain _ _ _ _ dst => some dst

end Term

namespace Expr

/-- Signs and operators make ints. -/
def ty : Expr → Ty
  | term t => t.ty
  | positive _ _ => .int
  | negative _ _ _ => .int
  | chain _ _ _ _ _ => .int

/-- No value is void, so that every value can be passed. -/
theorem ty_ne_void (e : Expr) : e.ty ≠ .void := by
  cases e with
  | term t =>
      cases t with
      | factor f => exact f.ty_ne_void
      | chain _ _ _ _ _ => exact Ty.noConfusion
  | _ => exact Ty.noConfusion

/-- The register in which a chain accumulates. -/
def accumulator? : Expr → Option Reg
  | chain _ _ _ _ dst => some dst
  | _ => none

end Expr

namespace Args

def length : Args → Nat
  | nil => 0
  | first _ => 1
  | more init _ _ => init.length + 1

/-- The types of the arguments, in order. -/
def types : Args → List Ty
  | nil => []
  | first expr => [expr.ty]
  | more init _ expr => init.types ++ [expr.ty]

/-- The types of the arguments as a signature. -/
def signature (args : Args) : String :=
  String.ofList (args.types.filterMap Ty.signatureCode?)

end Args

mutual

/-- The operand that holds the value of an expression. -/
def Expr.value : Expr → Operand
  | .term t => t.value
  | .positive _ t => t.value
  | .negative _ _ v => v
  | .chain _ _ _ _ dst => .reg dst

def Term.value : Term → Operand
  | .factor f => f.value
  | .chain _ _ _ _ dst => .reg dst

def Factor.value : Factor → Operand
  | .name ref => ref.value
  | .element _ _ _ dst _ => .reg dst
  | .call _ dst => .reg dst
  | .unknownCall fn => .named fn.value
  | .paren _ inner _ => inner.value
  | .char literal => .ofChar literal.value
  | .int literal => .ofNumber literal.value

end

mutual

/-- The children of an expression's node. -/
def Expr.children : Expr → List Tree
  | .term t => [.node .term (some t.value) t.children]
  | .positive sign t => [.token sign, .node .term (some t.value) t.children]
  | .negative sign t _ => [.token sign, .node .term (some t.value) t.children]
  | .chain lhs _ opToken rhs _ =>
    lhs.children ++ [.token opToken, .node .term (some rhs.value) rhs.children]

def Term.children : Term → List Tree
  | .factor f => [.node .factor (some f.value) f.children]
  | .chain lhs _ opToken rhs _ =>
    lhs.children ++ [.token opToken, .node .factor (some rhs.value) rhs.children]

def Factor.children : Factor → List Tree
  | .name ref => [.token ref.token]
  | .element ref lbracket index _ rbracket =>
    [.token ref.token, .token lbracket, .node .expression (some index.value) index.children] ++
      Tree.optional rbracket
  | .call c _ => [.inner .valueCall c.children]
  | .unknownCall fn => [.token fn]
  | .paren lparen inner rparen =>
    [.token lparen, .node .expression (some inner.value) inner.children] ++ Tree.optional rparen
  | .char literal => [.token literal]
  | .int literal => [literal.tree]

def Call.children : Call → List Tree
  | .mk name lparen _ args rparen =>
    [.token name, .token lparen, .inner .arguments args.children] ++ Tree.optional rparen

def Args.children : Args → List Tree
  | .nil => []
  | .first expr => [.node .expression (some expr.value) expr.children]
  | .more init comma expr =>
    init.children ++ [.token comma, .node .expression (some expr.value) expr.children]

end

/-- The tree of an expression. -/
def Expr.tree (expr : Expr) : Tree :=
  .node .expression (some expr.value) expr.children

/-- An expression, or two expressions compared. -/
inductive Condition where
  | test (value : Expr)
  | compare (lhs : Expr) (relation : Relation) (opToken : Token) (rhs : Expr)

/-- The tree of a condition. -/
def Condition.tree : Condition → Tree
  | .test value => .inner .condition [value.tree]
  | .compare lhs _ opToken rhs => .inner .condition [lhs.tree, .token opToken, rhs.tree]

end OnePass
