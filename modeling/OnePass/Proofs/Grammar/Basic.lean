import OnePass.Token

/-!
The grammar of the language, on the kinds of tokens. It is said here without the parser: which
lists of kinds are expressions, statements, declarations and programs. The grammar is ambiguous.
A sign in front of a numeral may belong to the numeral or to the expression, and an `else` may
belong to any `if` before it that has none.
-/

namespace OnePass

namespace Grammar

/-- A phrase any number of times. -/
inductive Repeated (phrase : List TokenKind → Prop) : List TokenKind → Prop where
  | nil : Repeated phrase []
  | cons {first rest : List TokenKind} (hfirst : phrase first) (hrest : Repeated phrase rest) :
      Repeated phrase (first ++ rest)

/-- A phrase once or more, with commas between. -/
inductive Listed (phrase : List TokenKind → Prop) : List TokenKind → Prop where
  | one {item : List TokenKind} (hitem : phrase item) : Listed phrase item
  | cons {item rest : List TokenKind} (hitem : phrase item) (hrest : Listed phrase rest) :
      Listed phrase (item ++ .comma :: rest)

def signs : List TokenKind :=
  [.plus, .minus]

def factorOps : List TokenKind :=
  [.star, .slash]

def relations : List TokenKind :=
  [.less, .lessEq, .greater, .greaterEq, .equal, .notEqual]

def types : List TokenKind :=
  [.kwInt, .kwChar]

/-- A numeral after an optional sign. -/
inductive Integer : List TokenKind → Prop where
  | plain : Integer [.intLit]
  | signed {sign : TokenKind} (hsign : sign ∈ signs) : Integer [sign, .intLit]

mutual

/-- Items added and subtracted, the first under an optional sign. -/
inductive Expression : List TokenKind → Prop where
  | plain {first more : List TokenKind} (hfirst : Item first) (hmore : Additions more) :
      Expression (first ++ more)
  | signed {sign : TokenKind} {first more : List TokenKind} (hsign : sign ∈ signs)
      (hfirst : Item first) (hmore : Additions more) : Expression (sign :: (first ++ more))

inductive Additions : List TokenKind → Prop where
  | nil : Additions []
  | cons {op : TokenKind} {item more : List TokenKind} (hop : op ∈ signs) (hitem : Item item)
      (hmore : Additions more) : Additions (op :: (item ++ more))

/-- Factors multiplied and divided. -/
inductive Item : List TokenKind → Prop where
  | mk {first more : List TokenKind} (hfirst : Factor first) (hmore : Multiplications more) :
      Item (first ++ more)

inductive Multiplications : List TokenKind → Prop where
  | nil : Multiplications []
  | cons {op : TokenKind} {factor more : List TokenKind} (hop : op ∈ factorOps)
      (hfactor : Factor factor) (hmore : Multiplications more) :
      Multiplications (op :: (factor ++ more))

inductive Factor : List TokenKind → Prop where
  | name : Factor [.ident]
  | element {index : List TokenKind} (hindex : Expression index) :
      Factor (.ident :: .lbracket :: (index ++ [.rbracket]))
  | call {args : List TokenKind} (hargs : Arguments args) :
      Factor (.ident :: .lparen :: (args ++ [.rparen]))
  | paren {inner : List TokenKind} (hinner : Expression inner) :
      Factor (.lparen :: (inner ++ [.rparen]))
  | integer {literal : List TokenKind} (hliteral : Integer literal) : Factor literal
  | char : Factor [.charLit]

/-- Any number of expressions with commas between. -/
inductive Arguments : List TokenKind → Prop where
  | none : Arguments []
  | some {first more : List TokenKind} (hfirst : Expression first) (hmore : MoreArguments more) :
      Arguments (first ++ more)

inductive MoreArguments : List TokenKind → Prop where
  | nil : MoreArguments []
  | cons {arg more : List TokenKind} (harg : Expression arg) (hmore : MoreArguments more) :
      MoreArguments (.comma :: (arg ++ more))

end

/-- An expression, or two with a relation between them. -/
inductive Condition : List TokenKind → Prop where
  | test {value : List TokenKind} (hvalue : Expression value) : Condition value
  | compare {lhs rhs : List TokenKind} {relation : TokenKind} (hlhs : Expression lhs)
      (hrelation : relation ∈ relations) (hrhs : Expression rhs) :
      Condition (lhs ++ relation :: rhs)

/-- What is printed. -/
inductive Printed : List TokenKind → Prop where
  | text : Printed [.strLit]
  | textValue {value : List TokenKind} (hvalue : Expression value) :
      Printed (.strLit :: .comma :: value)
  | value {value : List TokenKind} (hvalue : Expression value) : Printed value

/-- The statements that end with a semicolon, without it. -/
inductive Simple : List TokenKind → Prop where
  | empty : Simple []
  | call {args : List TokenKind} (hargs : Arguments args) :
      Simple (.ident :: .lparen :: (args ++ [.rparen]))
  | assign {value : List TokenKind} (hvalue : Expression value) :
      Simple (.ident :: .assign :: value)
  | assignElement {index value : List TokenKind} (hindex : Expression index)
      (hvalue : Expression value) :
      Simple (.ident :: .lbracket :: (index ++ .rbracket :: .assign :: value))
  | scan {targets : List TokenKind} (htargets : Listed (· = [.ident]) targets) :
      Simple (.kwScanf :: .lparen :: (targets ++ [.rparen]))
  | print {item : List TokenKind} (hitem : Printed item) :
      Simple (.kwPrintf :: .lparen :: (item ++ [.rparen]))
  | ret : Simple [.kwReturn]
  | retValue {value : List TokenKind} (hvalue : Expression value) :
      Simple (.kwReturn :: .lparen :: (value ++ [.rparen]))

/-- What stands in the parentheses of a counting loop. -/
inductive ForHeader : List TokenKind → Prop where
  | mk {start condition : List TokenKind} {sign : TokenKind} (hstart : Expression start)
      (hcondition : Condition condition) (hsign : sign ∈ signs) :
      ForHeader (.ident :: .assign :: (start ++ .semicolon :: (condition ++
        [.semicolon, .ident, .assign, .ident, sign, .intLit])))

mutual

inductive Statement : List TokenKind → Prop where
  | simple {stmt : List TokenKind} (hstmt : Simple stmt) : Statement (stmt ++ [.semicolon])
  | ifThen {condition body : List TokenKind} (hcondition : Condition condition)
      (hbody : Statement body) :
      Statement (.kwIf :: .lparen :: (condition ++ .rparen :: body))
  | ifElse {condition body other : List TokenKind} (hcondition : Condition condition)
      (hbody : Statement body) (hother : Statement other) :
      Statement (.kwIf :: .lparen :: (condition ++ .rparen :: (body ++ .kwElse :: other)))
  | whileLoop {condition body : List TokenKind} (hcondition : Condition condition)
      (hbody : Statement body) :
      Statement (.kwWhile :: .lparen :: (condition ++ .rparen :: body))
  | doLoop {condition body : List TokenKind} (hbody : Statement body)
      (hcondition : Condition condition) :
      Statement (.kwDo :: (body ++ .kwWhile :: .lparen :: (condition ++ [.rparen])))
  | forLoop {header body : List TokenKind} (hheader : ForHeader header) (hbody : Statement body) :
      Statement (.kwFor :: .lparen :: (header ++ .rparen :: body))
  | block {body : List TokenKind} (hbody : Statements body) :
      Statement (.lbrace :: (body ++ [.rbrace]))

inductive Statements : List TokenKind → Prop where
  | nil : Statements []
  | cons {first rest : List TokenKind} (hfirst : Statement first) (hrest : Statements rest) :
      Statements (first ++ rest)

end

/-- An int is set to an integer, and a char to a character. -/
inductive ConstDeclaration : List TokenKind → Prop where
  | int {items : List TokenKind}
      (hitems : Listed (fun item => ∃ value, Integer value ∧ item = .ident :: .assign :: value)
        items) :
      ConstDeclaration (.kwConst :: .kwInt :: (items ++ [.semicolon]))
  | char {items : List TokenKind} (hitems : Listed (· = [.ident, .assign, .charLit]) items) :
      ConstDeclaration (.kwConst :: .kwChar :: (items ++ [.semicolon]))

inductive Variable : List TokenKind → Prop where
  | scalar : Variable [.ident]
  | array : Variable [.ident, .lbracket, .intLit, .rbracket]

inductive VarDeclaration : List TokenKind → Prop where
  | mk {type : TokenKind} {items : List TokenKind} (htype : type ∈ types)
      (hitems : Listed Variable items) : VarDeclaration (type :: (items ++ [.semicolon]))

/-- One parameter. -/
def Parameter (param : List TokenKind) : Prop :=
  ∃ type ∈ types, param = [type, .ident]

/-- Parameters with commas between, and perhaps one more comma behind them. -/
inductive Parameters : List TokenKind → Prop where
  | none : Parameters []
  | some {params : List TokenKind} (hparams : Listed Parameter params) : Parameters params
  | trailing {params : List TokenKind} (hparams : Listed Parameter params) :
      Parameters (params ++ [.comma])

/-- The declarations and statements of a function. -/
inductive Body : List TokenKind → Prop where
  | mk {consts vars stmts : List TokenKind} (hconsts : Repeated ConstDeclaration consts)
      (hvars : Repeated VarDeclaration vars) (hstmts : Statements stmts) :
      Body (consts ++ (vars ++ stmts))

/-- A function up to its opening brace. -/
inductive FunctionHead : List TokenKind → Prop where
  | value {type : TokenKind} {params : List TokenKind} (htype : type ∈ types)
      (hparams : Parameters params) :
      FunctionHead (type :: .ident :: .lparen :: (params ++ [.rparen]))
  | void {params : List TokenKind} (hparams : Parameters params) :
      FunctionHead (.kwVoid :: .ident :: .lparen :: (params ++ [.rparen]))
  | main : FunctionHead [.kwVoid, .kwMain, .lparen, .rparen]

inductive TopLevel : List TokenKind → Prop where
  | const {decl : List TokenKind} (hdecl : ConstDeclaration decl) : TopLevel decl
  | var {decl : List TokenKind} (hdecl : VarDeclaration decl) : TopLevel decl
  | function {head body : List TokenKind} (hhead : FunctionHead head) (hbody : Body body) :
      TopLevel (head ++ .lbrace :: (body ++ [.rbrace]))

/-- Declarations and functions in any order. -/
def Program : List TokenKind → Prop :=
  Repeated TopLevel

end Grammar

end OnePass
