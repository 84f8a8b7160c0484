import OnePass.Ast.Expr

/-!
Statements, with every token they were read from and with the labels chosen for them.
-/

namespace OnePass

/-- One item, or several with commas between them. -/
inductive CommaList (α : Type) where
  | one (item : α)
  | cons (item : α) (comma : Token) (rest : CommaList α)

namespace CommaList

variable {α : Type}

def toList : CommaList α → List α
  | one item => [item]
  | cons item _ rest => item :: rest.toList

/-- The trees of the items with the commas between them. -/
def children (itemChildren : α → List Tree) : CommaList α → List Tree
  | one item => itemChildren item
  | cons item comma rest => itemChildren item ++ .token comma :: rest.children itemChildren

end CommaList

/-- A condition in parentheses. -/
structure Guard where
  lparen : Token
  condition : Condition
  rparen : Option Token

/-- The header of a counting loop: `init = start; condition; target = source op amount`. -/
structure ForHeader where
  lparen : Token
  init : NameRef
  initAssign : Token
  start : Expr
  initEnd : Option Token
  condition : Condition
  conditionEnd : Option Token
  target : NameRef
  stepAssign : Token
  source : NameRef
  op : ArithOp
  opToken : Token
  amount : UnsignedLit
  rparen : Option Token

/-- What is printed: a text from the string table, a value, or the one and then the other. -/
inductive PrintItem where
  | text (literal : Token) (index : Nat)
  | textValue (literal : Token) (index : Nat) (comma : Token) (value : Expr)
  | value (value : Expr)

inductive Stmt where
  | ifThen (keyword : Token) (guard : Guard) (body : Stmt) (elseLabel endLabel : Label)
  | ifElse (keyword : Token) (guard : Guard) (body : Stmt) (elseKeyword : Token)
      (alternative : Stmt) (elseLabel endLabel : Label)
  | whileLoop (keyword : Token) (guard : Guard) (body : Stmt) (loopLabel endLabel : Label)
  | doLoop (keyword : Token) (body : Stmt) (whileKeyword : Option Token) (guard : Guard)
      (loopLabel : Label)
  | forLoop (keyword : Token) (header : ForHeader) (body : Stmt) (loopLabel endLabel : Label)
  | block (lbrace : Token) (body : List Stmt) (rbrace : Token)
  | call (call : Call) (semicolon : Option Token)
  /-- A call of an unknown function. What stood in its parentheses is not kept. -/
  | unknownCall (name : Token) (semicolon : Option Token)
  /-- A statement that starts with an unknown name. Nothing of it is kept. -/
  | skipped
  | assign (target : NameRef) (eq : Token) (value : Expr) (semicolon : Option Token)
  | assignElement (target : NameRef) (lbracket : Token) (index : Expr) (rbracket : Option Token)
      (eq : Token) (value : Expr) (semicolon : Option Token)
  | scan (keyword lparen : Token) (targets : CommaList NameRef) (rparen semicolon : Option Token)
  | print (keyword lparen : Token) (item : PrintItem) (rparen semicolon : Option Token)
  | ret (keyword : Token) (semicolon : Option Token)
  | retValue (keyword lparen : Token) (value : Expr) (rparen semicolon : Option Token)
  | empty (semicolon : Token)

mutual

/-- Whether every way through a statement returns a value. A loop with its test in front may
run no round at all. -/
def Stmt.alwaysReturns : Stmt → Bool
  | .ifElse _ _ body _ alternative _ _ => body.alwaysReturns && alternative.alwaysReturns
  | .doLoop _ body _ _ _ => body.alwaysReturns
  | .block _ body _ => Stmt.anyAlwaysReturns body
  | .retValue _ _ value _ _ => value.ty != .void
  | _ => false

/-- Whether some statement of a list returns a value on every way through it. -/
def Stmt.anyAlwaysReturns : List Stmt → Bool
  | [] => false
  | stmt :: stmts => stmt.alwaysReturns || Stmt.anyAlwaysReturns stmts

end

namespace Guard

def children (guard : Guard) : List Tree :=
  [.token guard.lparen, guard.condition.tree] ++ Tree.optional guard.rparen

end Guard

namespace ForHeader

def children (header : ForHeader) : List Tree :=
  [.token header.lparen, .token header.init.token, .token header.initAssign, header.start.tree] ++
    Tree.optional header.initEnd ++ [header.condition.tree] ++
    Tree.optional header.conditionEnd ++
    [.token header.target.token, .token header.stepAssign, .token header.source.token,
      .token header.opToken, .inner .step [header.amount.tree]] ++
    Tree.optional header.rparen

end ForHeader

namespace PrintItem

def children : PrintItem → List Tree
  | text literal _ => [.inner .stringLit [.token literal]]
  | textValue literal _ comma v => [.inner .stringLit [.token literal], .token comma, v.tree]
  | value v => [v.tree]

end PrintItem

/-- The rule of a call that stands as a statement. -/
def Call.statementRule (call : Call) : Rule :=
  if call.callee.ty = .void then .voidCall else .valueCall

mutual

/-- The children of a statement's node. -/
def Stmt.children : Stmt → List Tree
  | .ifThen keyword guard body _ _ =>
    [.inner .conditional
      (.token keyword :: guard.children ++ [.inner .statement body.children])]
  | .ifElse keyword guard body elseKeyword alternative _ _ =>
    [.inner .conditional
      (.token keyword :: guard.children ++
        [.inner .statement body.children, .token elseKeyword,
          .inner .statement alternative.children])]
  | .whileLoop keyword guard body _ _ =>
    [.inner .loop (.token keyword :: guard.children ++ [.inner .statement body.children])]
  | .doLoop keyword body whileKeyword guard _ =>
    [.inner .loop
      ([.token keyword, .inner .statement body.children] ++ Tree.optional whileKeyword ++
        guard.children)]
  | .forLoop keyword header body _ _ =>
    [.inner .loop (.token keyword :: header.children ++ [.inner .statement body.children])]
  | .block lbrace body rbrace =>
    [.token lbrace, .inner .statements (Stmt.forest body), .token rbrace]
  | .call c semicolon =>
    .inner c.statementRule c.children :: Tree.optional semicolon
  | .unknownCall name semicolon => .token name :: Tree.optional semicolon
  | .skipped => []
  | .assign target eq value semicolon =>
    .inner .assignment [.token target.token, .token eq, value.tree] ::
      Tree.optional semicolon
  | .assignElement target lbracket index rbracket eq value semicolon =>
    .inner .assignment
        ([.token target.token, .token lbracket, index.tree] ++ Tree.optional rbracket ++
          [.token eq, value.tree]) ::
      Tree.optional semicolon
  | .scan keyword lparen targets rparen semicolon =>
    .inner .scan
        ([.token keyword, .token lparen] ++ targets.children (fun ref => [.token ref.token]) ++
          Tree.optional rparen) ::
      Tree.optional semicolon
  | .print keyword lparen item rparen semicolon =>
    .inner .print ([.token keyword, .token lparen] ++ item.children ++ Tree.optional rparen) ::
      Tree.optional semicolon
  | .ret keyword semicolon => .inner .ret [.token keyword] :: Tree.optional semicolon
  | .retValue keyword lparen value rparen semicolon =>
    .inner .ret ([.token keyword, .token lparen, value.tree] ++ Tree.optional rparen) ::
      Tree.optional semicolon
  | .empty semicolon => [.token semicolon]

/-- The trees of a list of statements. -/
def Stmt.forest : List Stmt → List Tree
  | [] => []
  | stmt :: stmts => .inner .statement stmt.children :: Stmt.forest stmts

end

end OnePass
