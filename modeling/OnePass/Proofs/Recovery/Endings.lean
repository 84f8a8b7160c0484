import OnePass.Proofs.Lossless

/-!
The semicolons that end a declaration or a statement. Such a semicolon is told from others by the
tokens that stand behind it. The semicolons in the header of a counting loop end nothing, and
neither do those of empty statements.
-/

namespace OnePass

/-- What stands behind the semicolon, if there is one. -/
def ended (semicolon : Option Token) (behind : List Token) : List (List Token) :=
  (semicolon.map fun _ => behind).toList

/-- What stands behind each ending in a list of phrases: the rest of the phrase, the phrases that
come after it, and what stands behind these. -/
def endingsOf {α : Type} (tokens : α → List Token) (endings : α → List Token → List (List Token)) :
    List α → List Token → List (List Token)
  | [], _ => []
  | item :: items, behind =>
    endings item (items.flatMap tokens ++ behind) ++ endingsOf tokens endings items behind

def Guard.tokens (guard : Guard) : List Token :=
  Tree.tokensOf guard.children

namespace Stmt

def tokens (stmt : Stmt) : List Token :=
  Tree.tokensOf stmt.children

mutual

/-- What stands behind each ending in a statement. -/
def endings : Stmt → List Token → List (List Token)
  | .ifThen _ _ body _ _, behind => body.endings behind
  | .ifElse _ _ body elseKeyword alternative _ _, behind =>
    body.endings (elseKeyword :: (alternative.tokens ++ behind)) ++ alternative.endings behind
  | .whileLoop _ _ body _ _, behind => body.endings behind
  | .doLoop _ body whileKeyword guard _, behind =>
    body.endings (whileKeyword.toList ++ (guard.tokens ++ behind))
  | .forLoop _ _ body _ _, behind => body.endings behind
  | .block _ body rbrace, behind => endingsAll body (rbrace :: behind)
  | .call _ semicolon, behind => ended semicolon behind
  | .unknownCall _ semicolon, behind => ended semicolon behind
  | .skipped, _ => []
  | .assign _ _ _ semicolon, behind => ended semicolon behind
  | .assignElement _ _ _ _ _ _ semicolon, behind => ended semicolon behind
  | .scan _ _ _ _ semicolon, behind => ended semicolon behind
  | .print _ _ _ _ semicolon, behind => ended semicolon behind
  | .ret _ semicolon, behind => ended semicolon behind
  | .retValue _ _ _ _ semicolon, behind => ended semicolon behind
  | .empty _, _ => []

def endingsAll : List Stmt → List Token → List (List Token)
  | [], _ => []
  | stmt :: stmts, behind =>
    stmt.endings (stmts.flatMap tokens ++ behind) ++ endingsAll stmts behind

end

theorem endingsAll_eq (stmts : List Stmt) (behind : List Token) :
    endingsAll stmts behind = endingsOf tokens endings stmts behind := by
  induction stmts with
  | nil => simp only [endingsAll, endingsOf]
  | cons stmt stmts ih => simp only [endingsAll, endingsOf, ih]

theorem endings_block (lbrace rbrace : Token) (body : List Stmt) (behind : List Token) :
    (block lbrace body rbrace).endings behind =
      endingsOf tokens endings body (rbrace :: behind) := by
  simp only [endings, endingsAll_eq]

end Stmt

namespace ConstDecl

def tokens (decl : ConstDecl) : List Token :=
  Tree.tokensOf decl.children

def endings (decl : ConstDecl) (behind : List Token) : List (List Token) :=
  ended decl.semicolon behind

end ConstDecl

namespace VarDecl

def tokens (decl : VarDecl) : List Token :=
  Tree.tokensOf decl.children

def endings (decl : VarDecl) (behind : List Token) : List (List Token) :=
  ended decl.semicolon behind

end VarDecl

/-- What stands behind each ending in the declarations and statements of a function. -/
def Body.endings (body : Body) (behind : List Token) : List (List Token) :=
  endingsOf ConstDecl.tokens ConstDecl.endings body.consts
      (body.vars.flatMap VarDecl.tokens ++ (body.stmts.flatMap Stmt.tokens ++ behind)) ++
    endingsOf VarDecl.tokens VarDecl.endings body.vars (body.stmts.flatMap Stmt.tokens ++ behind) ++
    endingsOf Stmt.tokens Stmt.endings body.stmts behind

def Function.endings (function : Function) (behind : List Token) : List (List Token) :=
  function.body.endings (function.rbrace :: behind)

namespace TopLevel

def tokens (item : TopLevel) : List Token :=
  item.tree.tokens

def endings : TopLevel → List Token → List (List Token)
  | consts decls, behind => endingsOf ConstDecl.tokens ConstDecl.endings decls behind
  | vars decls, behind => endingsOf VarDecl.tokens VarDecl.endings decls behind
  | function f, behind => f.endings behind

end TopLevel

/-- What stands behind each semicolon that ends a declaration or a statement of the program. -/
def Program.endings (program : Program) : List (List Token) :=
  endingsOf TopLevel.tokens TopLevel.endings program.items []

end OnePass
