import OnePass.Proofs.Semantics.Source

/-!
The usual reading of an expression, on its tokens alone: operators of one rank are applied from
left to right, `*` and `/` before `+` and `-`, a sign in front belongs to the whole first term,
and a constant stands for its declared value.
-/

namespace OnePass

/-- A list of tokens that does not start with a sign. -/
def Unsigned (tokens : List Token) : Prop :=
  ∀ token ∈ tokens.head?, token.kind.isSign = false

section

variable (view : View) (interp : Interpretation) (store : Store)

mutual

/-- Tokens that read as an expression with a value. -/
inductive ExprReads : List Token → Int → Prop where
  | term {tokens : List Token} {v : Int} (hterm : TermReads tokens v)
      (hunsigned : Unsigned tokens) : ExprReads tokens v
  | positive {sign : Token} {tokens : List Token} {v : Int} (hsign : sign.kind = .plus)
      (hterm : TermReads tokens v) : ExprReads (sign :: tokens) v
  | negative {sign : Token} {tokens : List Token} {v : Int} (hsign : sign.kind = .minus)
      (hterm : TermReads tokens v) : ExprReads (sign :: tokens) (interp.neg v)
  | chain {left right : List Token} {opToken : Token} {v w : Int} (hleft : ExprReads left v)
      (hop : opToken.kind = .plus ∨ opToken.kind = .minus) (hright : TermReads right w) :
      ExprReads (left ++ opToken :: right) (interp.binary opToken.kind v w)

/-- Tokens that read as a term with a value. -/
inductive TermReads : List Token → Int → Prop where
  | factor {tokens : List Token} {v : Int} (hfactor : FactorReads tokens v) : TermReads tokens v
  | chain {left right : List Token} {opToken : Token} {v w : Int} (hleft : TermReads left v)
      (hop : opToken.kind = .star ∨ opToken.kind = .slash) (hright : FactorReads right w) :
      TermReads (left ++ opToken :: right) (interp.binary opToken.kind v w)

/-- Tokens that read as a factor with a value. -/
inductive FactorReads : List Token → Int → Prop where
  | name {name : Token} (hname : name.kind = .ident) :
      FactorReads [name] (view.value store name.value)
  | element {name lbracket rbracket : Token} {tokens : List Token} {v : Int}
      (hname : name.kind = .ident) (hlbracket : lbracket.kind = .lbracket)
      (hindex : ExprReads tokens v) (hrbracket : rbracket.kind = .rbracket) :
      FactorReads (name :: lbracket :: (tokens ++ [rbracket])) (store.element name.value v)
  | call {name lparen rparen : Token} {tokens : List Token} {values : List Int}
      (hname : name.kind = .ident) (hlparen : lparen.kind = .lparen)
      (hargs : ArgsRead tokens values) (hrparen : rparen.kind = .rparen) :
      FactorReads (name :: lparen :: (tokens ++ [rparen])) (interp.call name.value values)
  | paren {lparen rparen : Token} {tokens : List Token} {v : Int}
      (hlparen : lparen.kind = .lparen) (hinner : ExprReads tokens v)
      (hrparen : rparen.kind = .rparen) : FactorReads (lparen :: (tokens ++ [rparen])) v
  | char {literal : Token} (hliteral : literal.kind = .charLit) :
      FactorReads [literal] literal.charCode
  | int {digits : Token} (hdigits : digits.kind = .intLit) : FactorReads [digits] digits.number
  | positiveInt {sign digits : Token} (hsign : sign.kind = .plus) (hdigits : digits.kind = .intLit) :
      FactorReads [sign, digits] digits.number
  | negativeInt {sign digits : Token} (hsign : sign.kind = .minus)
      (hdigits : digits.kind = .intLit) : FactorReads [sign, digits] (-digits.number)

/-- Tokens that read as arguments with values. -/
inductive ArgsRead : List Token → List Int → Prop where
  | nil : ArgsRead [] []
  | first {tokens : List Token} {v : Int} (hexpr : ExprReads tokens v) : ArgsRead tokens [v]
  | more {left right : List Token} {comma : Token} {values : List Int} {v : Int}
      (hleft : ArgsRead left values) (hne : values ≠ []) (hcomma : comma.kind = .comma)
      (hright : ExprReads right v) : ArgsRead (left ++ comma :: right) (values ++ [v])

end

end

end OnePass
