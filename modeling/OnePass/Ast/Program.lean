import OnePass.Ast.Stmt

/-!
Declarations, functions and whole programs, with every token they were read from.
-/

namespace OnePass

/-- A keyword that names a type of values. -/
structure TypeName where
  token : Token
  ty : Ty
deriving DecidableEq, Repr

/-- What a constant is set to. Any token is taken, and one that is no literal stands for its
own text. -/
inductive ConstInit where
  | char (literal : Token)
  | int (literal : IntLit)
  | other (token : Token)

namespace ConstInit

/-- The text that stands for the constant in the code. -/
def text : ConstInit → String
  | char literal => (Operand.ofChar literal.value).text
  | int literal => (Operand.ofNumber literal.value).text
  | other token => token.value

def tree : ConstInit → Tree
  | char literal => .token literal
  | int literal => literal.tree
  | other token => .token token

end ConstInit

/-- `name = init` -/
structure ConstItem where
  name : Token
  assign : Token
  init : ConstInit

/-- `const type item, …, item;` -/
structure ConstDecl where
  keyword : Token
  type : TypeName
  items : CommaList ConstItem
  semicolon : Option Token

/-- The length of an array in brackets. -/
structure ArraySize where
  lbracket : Token
  length : UnsignedLit
  rbracket : Option Token

/-- `name` or `name[length]` -/
structure VarItem where
  name : Token
  size : Option ArraySize

/-- `type item, …, item;` -/
structure VarDecl where
  type : TypeName
  items : CommaList VarItem
  semicolon : Option Token

structure Param where
  type : TypeName
  name : Token
deriving DecidableEq, Repr

/-- Parameters with commas after them; the last may go without. -/
inductive Params where
  | nil
  | last (param : Param)
  | cons (param : Param) (comma : Token) (rest : Params)

def Params.toList : Params → List Param
  | nil => []
  | last param => [param]
  | cons param _ rest => param :: rest.toList

/-- The declarations and statements of a function. -/
structure Body where
  consts : List ConstDecl
  vars : List VarDecl
  stmts : List Stmt

/-- A function up to its opening brace. -/
inductive FunctionHead where
  | value (type : TypeName) (name lparen : Token) (params : Params) (rparen : Option Token)
  | void (keyword name lparen : Token) (params : Params) (rparen : Option Token)
  | main (keyword name lparen : Token) (rparen : Option Token)

namespace FunctionHead

def ty : FunctionHead → Ty
  | value type _ _ _ _ => type.ty
  | void _ _ _ _ _ => .void
  | main _ _ _ _ => .void

def name : FunctionHead → Token
  | value _ name _ _ _ => name
  | void _ name _ _ _ => name
  | main _ name _ _ => name

def params : FunctionHead → List Param
  | value _ _ _ params _ => params.toList
  | void _ _ _ params _ => params.toList
  | main _ _ _ _ => []

end FunctionHead

structure Function where
  head : FunctionHead
  lbrace : Token
  body : Body
  rbrace : Token

/-- A run of constant declarations, a run of variable declarations, or a function. -/
inductive TopLevel where
  | consts (decls : List ConstDecl)
  | vars (decls : List VarDecl)
  | function (function : Function)

structure Program where
  items : List TopLevel

namespace ConstItem

def children (item : ConstItem) : List Tree :=
  [.token item.name, .token item.assign, item.init.tree]

/-- The symbol that the item declares. -/
def symbol (item : ConstItem) (ty : Ty) : Symbol :=
  { name := item.name.value, kind := .const, ty, constValue := some item.init.text }

end ConstItem

namespace ConstDecl

def children (decl : ConstDecl) : List Tree :=
  [.token decl.keyword,
    .inner .constDef (.token decl.type.token :: decl.items.children ConstItem.children)] ++
    Tree.optional decl.semicolon

end ConstDecl

namespace ArraySize

/-- The length as a word without sign. -/
def word (size : ArraySize) : UInt64 :=
  size.length.value.toUInt64

def children (size : ArraySize) : List Tree :=
  [.token size.lbracket, size.length.tree] ++ Tree.optional size.rbracket

end ArraySize

namespace VarItem

def length (item : VarItem) : Option UInt64 :=
  item.size.map ArraySize.word

def children (item : VarItem) : List Tree :=
  .token item.name :: (item.size.map ArraySize.children).getD []

/-- The symbol that the item declares. -/
def symbol (item : VarItem) (ty : Ty) : Symbol :=
  { name := item.name.value
    kind := if item.size.isSome then .array else .variable
    ty
    arrayLength := item.length }

end VarItem

namespace VarDecl

def children (decl : VarDecl) : List Tree :=
  .inner .varDef (.token decl.type.token :: decl.items.children VarItem.children) ::
    Tree.optional decl.semicolon

end VarDecl

namespace Param

def children (param : Param) : List Tree :=
  [.token param.type.token, .token param.name]

end Param

namespace Params

def children : Params → List Tree
  | nil => []
  | last param => param.children
  | cons param comma rest => param.children ++ .token comma :: rest.children

end Params

namespace Body

/-- A node for a run of declarations, unless there are none. -/
def run (rule : Rule) (children : List Tree) : List Tree :=
  if children.isEmpty then [] else [.inner rule children]

def tree (body : Body) : Tree :=
  .inner .body
    (run .constDecls (body.consts.flatMap ConstDecl.children) ++
      run .varDecls (body.vars.flatMap VarDecl.children) ++
      [.inner .statements (Stmt.forest body.stmts)])

end Body

namespace FunctionHead

def rule : FunctionHead → Rule
  | value _ _ _ _ _ => .valueFunction
  | void _ _ _ _ _ => .voidFunction
  | main _ _ _ _ => .mainFunction

def children : FunctionHead → List Tree
  | value type name lparen params rparen =>
    [.inner .functionHead [.token type.token, .token name], .token lparen,
      .inner .parameters params.children] ++ Tree.optional rparen
  | void keyword name lparen params rparen =>
    [.token keyword, .token name, .token lparen, .inner .parameters params.children] ++
      Tree.optional rparen
  | main keyword name lparen rparen =>
    [.token keyword, .token name, .token lparen] ++ Tree.optional rparen

end FunctionHead

namespace Function

def tree (function : Function) : Tree :=
  .inner function.head.rule
    (function.head.children ++
      [.token function.lbrace, function.body.tree, .token function.rbrace])

end Function

namespace TopLevel

def tree : TopLevel → Tree
  | consts decls => .inner .constDecls (decls.flatMap ConstDecl.children)
  | vars decls => .inner .varDecls (decls.flatMap VarDecl.children)
  | function f => f.tree

end TopLevel

/-- The tree of a program. -/
def Program.tree (program : Program) : Tree :=
  .inner .program (program.items.map TopLevel.tree)

end OnePass
