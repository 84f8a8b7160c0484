import OnePass.Proofs.Semantics.Machine

/-!
What programs mean. An expression has a value in a store. A statement takes one world to another
and either goes on or returns. Loops may not end, so that statements are given by a relation.

Operators, signs and comparisons are read off their tokens, and what a name stands for is looked up
in what is declared where it stands. Nothing that compiling chose is used.
-/

namespace OnePass

/-- The declared value of a constant. -/
def Symbol.constant? (symbol : Symbol) : Option Int :=
  if symbol.kind = .const then symbol.constValue.bind Text.literal? else none

def NameRef.isConst (ref : NameRef) : Bool :=
  ref.symbol.any (·.kind == .const)

/-- What names stand for at some place: their innermost declarations, and the functions. -/
structure View where
  name? : String → Option Symbol
  function? : String → Option Symbol

/-- What names stand for while these scopes are open. -/
def Scopes.view (scopes : Scopes) : View :=
  ⟨scopes.nearest?, scopes.function?⟩

namespace View

variable (view : View)

/-- The value of a name: what its constant is declared as, or what its variable holds. -/
def value (store : Store) (name : String) : Int :=
  ((view.name? name).bind Symbol.constant?).getD (store.scalar name)

def isConst (name : String) : Bool :=
  (view.name? name).any (·.kind == .const)

/-- Whether the values of a name are characters. -/
def isChar (name : String) : Bool :=
  (view.name? name).any (·.ty == .char)

/-- Whether a function returns characters. -/
def returnsChar (name : String) : Bool :=
  (view.function? name).any (·.ty == .char)

end View

/-- The number of a literal with its sign. -/
def IntLit.number (lit : IntLit) : Int :=
  match lit.sign with
  | none => lit.digits.token.number
  | some sign =>
    if sign.kind = .minus then -lit.digits.token.number else lit.digits.token.number

namespace Interpretation

variable (interp : Interpretation)

/-- What the operators `+`, `-`, `*` and `/` make of two values. -/
def binary : TokenKind → Int → Int → Int
  | .plus => interp.op .add
  | .minus => interp.op .sub
  | .star => interp.op .mul
  | .slash => interp.op .div
  | _ => fun _ _ => 0

/-- What a sign makes of a value. -/
def unary : TokenKind → Int → Int
  | .plus => id
  | .minus => interp.neg
  | _ => fun _ => 0

end Interpretation

/-- Whether the comparison `==`, `!=`, `<`, `>=`, `<=` or `>` holds of two values. -/
def TokenKind.compare : TokenKind → Int → Int → Bool
  | .equal, a, b => a = b
  | .notEqual, a, b => a ≠ b
  | .less, a, b => a < b
  | .greaterEq, a, b => b ≤ a
  | .lessEq, a, b => a ≤ b
  | .greater, a, b => b < a
  | _, _, _ => false

section Operators

variable {kind : TokenKind}

/-- An operator between terms is the one that its token stands for. -/
theorem Interpretation.binary_of_additive? (interp : Interpretation) {op : ArithOp}
    (h : ArithOp.additive? kind = some op) : interp.binary kind = interp.op op := by
  cases kind <;> cases h <;> rfl

theorem Interpretation.binary_of_multiplicative? (interp : Interpretation) {op : ArithOp}
    (h : ArithOp.multiplicative? kind = some op) : interp.binary kind = interp.op op := by
  cases kind <;> cases h <;> rfl

theorem TokenKind.compare_of_ofKind? {relation : Relation} (h : Relation.ofKind? kind = some relation) :
    kind.compare = relation.holds := by
  cases kind <;> cases h <;> rfl

end Operators

section Values

variable (view : View) (interp : Interpretation) (store : Store)

mutual

/-- The value of an expression. -/
def Expr.eval : Expr → Int
  | .term t => t.eval
  | .positive sign t => interp.unary sign.kind t.eval
  | .negative sign t _ => interp.unary sign.kind t.eval
  | .chain lhs _ opToken rhs _ => interp.binary opToken.kind lhs.eval rhs.eval

def Term.eval : Term → Int
  | .factor f => f.eval
  | .chain lhs _ opToken rhs _ => interp.binary opToken.kind lhs.eval rhs.eval

/-- The value of a factor. A call of an unknown function has none, and zero stands in. -/
def Factor.eval : Factor → Int
  | .name ref => view.value store ref.token.value
  | .element ref _ index _ _ => store.element ref.token.value index.eval
  | .call c _ => c.eval
  | .unknownCall _ => 0
  | .paren _ inner _ => inner.eval
  | .char literal => literal.charCode
  | .int literal => literal.number

def Call.eval : Call → Int
  | .mk name _ _ args _ => interp.call name.value args.eval

/-- The values of arguments, in order. -/
def Args.eval : Args → List Int
  | .nil => []
  | .first expr => [expr.eval]
  | .more init _ expr => init.eval ++ [expr.eval]

end

/-- Whether a condition holds. A value on its own holds unless it is zero. -/
def Condition.holds : Condition → Bool
  | .test value => value.eval view interp store ≠ 0
  | .compare lhs _ opToken rhs =>
    opToken.kind.compare (lhs.eval view interp store) (rhs.eval view interp store)

end Values

/-- Whether a value is a character: a single factor that is one, with no sign in front. -/
def Expr.isChar (view : View) : Expr → Bool
  | .term (.factor (.char _)) => true
  | .term (.factor (.name ref)) => view.isChar ref.token.value
  | .term (.factor (.element ref _ _ _ _)) => view.isChar ref.token.value
  | .term (.factor (.call c _)) => view.returnsChar c.name.value
  | _ => false

section Worlds

variable (view : View) (interp : Interpretation)

namespace World

/-- A variable is assigned. -/
def assign (world : World) (name : String) (value : Int) : World :=
  { world with store := world.store.assign name value }

/-- An element of an array is assigned. -/
def assignElement (world : World) (name : String) (index value : Int) : World :=
  { world with store := world.store.assignElement name index value }

/-- Values are taken from the input into variables, one after the other. -/
def scanAll? : List NameRef → World → Option World
  | [], world => some world
  | ref :: refs, world =>
    (world.scan? (if view.isChar ref.token.value then .char else .int) ref.token.value).bind
      (scanAll? refs)

/-- A value is printed as its type has it, which ends the line. -/
def print (world : World) (value : Expr) : World :=
  let result := value.eval view interp world.store
  (world.record (if value.isChar view then .char result else .number result)).record .lineEnd

end World

/-- What is printed. -/
def PrintItem.perform (world : World) : PrintItem → World
  | .text literal _ => world.record (.text literal.value)
  | .textValue literal _ _ v => (world.record (.text literal.value)).print view interp v
  | .value v => world.print view interp v

namespace ForHeader

/-- The counter is set. -/
def begin (header : ForHeader) (world : World) : World :=
  world.assign header.init.token.value (header.start.eval view interp world.store)

/-- The counter is moved on. -/
def advance (header : ForHeader) (world : World) : World :=
  world.assign header.target.token.value (interp.binary header.opToken.kind
    (view.value world.store header.source.token.value) header.amount.token.number)

end ForHeader

end Worlds

/-- How a statement ends: control goes on behind it, or the function returns. -/
inductive Outcome where
  | next
  | returned (value : Option Int)

/-- What a function returns. It returns nothing when it comes to its end. -/
def Outcome.result : Outcome → Option Int
  | next => none
  | returned value => value

/-- What is there to do: a statement, several, or the rounds of a counting loop. -/
inductive Task where
  | one (stmt : Stmt)
  | all (stmts : List Stmt)
  | rounds (header : ForHeader) (body : Stmt)

section

variable (view : View) (interp : Interpretation)

/-- A task takes one world to another, and ends in some way. Statements that could not be read
have no meaning. -/
inductive Exec : Task → World → World → Outcome → Prop where
  | nil {w : World} : Exec (.all []) w w .next
  | cons {stmt : Stmt} {stmts : List Stmt} {w₁ w₂ w₃ : World} {o : Outcome}
      (hstmt : Exec (.one stmt) w₁ w₂ .next) (hstmts : Exec (.all stmts) w₂ w₃ o) :
      Exec (.all (stmt :: stmts)) w₁ w₃ o
  | consReturned {stmt : Stmt} {stmts : List Stmt} {w₁ w₂ : World} {v : Option Int}
      (hstmt : Exec (.one stmt) w₁ w₂ (.returned v)) :
      Exec (.all (stmt :: stmts)) w₁ w₂ (.returned v)
  | ifThen {keyword : Token} {guard : Guard} {body : Stmt} {l₁ l₂ : Label} {w₁ w₂ : World}
      {o : Outcome} (hguard : guard.condition.holds view interp w₁.store = true)
      (hbody : Exec (.one body) w₁ w₂ o) : Exec (.one (.ifThen keyword guard body l₁ l₂)) w₁ w₂ o
  | ifSkip {keyword : Token} {guard : Guard} {body : Stmt} {l₁ l₂ : Label} {w : World}
      (hguard : guard.condition.holds view interp w.store = false) :
      Exec (.one (.ifThen keyword guard body l₁ l₂)) w w .next
  | ifElseThen {k₁ k₂ : Token} {guard : Guard} {body other : Stmt} {l₁ l₂ : Label}
      {w₁ w₂ : World} {o : Outcome} (hguard : guard.condition.holds view interp w₁.store = true)
      (hbody : Exec (.one body) w₁ w₂ o) :
      Exec (.one (.ifElse k₁ guard body k₂ other l₁ l₂)) w₁ w₂ o
  | ifElseOther {k₁ k₂ : Token} {guard : Guard} {body other : Stmt} {l₁ l₂ : Label}
      {w₁ w₂ : World} {o : Outcome} (hguard : guard.condition.holds view interp w₁.store = false)
      (hother : Exec (.one other) w₁ w₂ o) :
      Exec (.one (.ifElse k₁ guard body k₂ other l₁ l₂)) w₁ w₂ o
  | whileDone {keyword : Token} {guard : Guard} {body : Stmt} {l₁ l₂ : Label} {w : World}
      (hguard : guard.condition.holds view interp w.store = false) :
      Exec (.one (.whileLoop keyword guard body l₁ l₂)) w w .next
  | whileRound {keyword : Token} {guard : Guard} {body : Stmt} {l₁ l₂ : Label}
      {w₁ w₂ w₃ : World} {o : Outcome} (hguard : guard.condition.holds view interp w₁.store = true)
      (hbody : Exec (.one body) w₁ w₂ .next)
      (hagain : Exec (.one (.whileLoop keyword guard body l₁ l₂)) w₂ w₃ o) :
      Exec (.one (.whileLoop keyword guard body l₁ l₂)) w₁ w₃ o
  | whileReturned {keyword : Token} {guard : Guard} {body : Stmt} {l₁ l₂ : Label}
      {w₁ w₂ : World} {v : Option Int} (hguard : guard.condition.holds view interp w₁.store = true)
      (hbody : Exec (.one body) w₁ w₂ (.returned v)) :
      Exec (.one (.whileLoop keyword guard body l₁ l₂)) w₁ w₂ (.returned v)
  | doDone {k₁ : Token} {k₂ : Option Token} {guard : Guard} {body : Stmt} {l : Label}
      {w₁ w₂ : World} (hbody : Exec (.one body) w₁ w₂ .next)
      (hguard : guard.condition.holds view interp w₂.store = false) :
      Exec (.one (.doLoop k₁ body k₂ guard l)) w₁ w₂ .next
  | doRound {k₁ : Token} {k₂ : Option Token} {guard : Guard} {body : Stmt} {l : Label}
      {w₁ w₂ w₃ : World} {o : Outcome} (hbody : Exec (.one body) w₁ w₂ .next)
      (hguard : guard.condition.holds view interp w₂.store = true)
      (hagain : Exec (.one (.doLoop k₁ body k₂ guard l)) w₂ w₃ o) :
      Exec (.one (.doLoop k₁ body k₂ guard l)) w₁ w₃ o
  | doReturned {k₁ : Token} {k₂ : Option Token} {guard : Guard} {body : Stmt} {l : Label}
      {w₁ w₂ : World} {v : Option Int} (hbody : Exec (.one body) w₁ w₂ (.returned v)) :
      Exec (.one (.doLoop k₁ body k₂ guard l)) w₁ w₂ (.returned v)
  | forLoop {keyword : Token} {header : ForHeader} {body : Stmt} {l₁ l₂ : Label}
      {w₁ w₂ : World} {o : Outcome}
      (hrounds : Exec (.rounds header body) (header.begin view interp w₁) w₂ o) :
      Exec (.one (.forLoop keyword header body l₁ l₂)) w₁ w₂ o
  | roundsDone {header : ForHeader} {body : Stmt} {w : World}
      (hguard : header.condition.holds view interp w.store = false) :
      Exec (.rounds header body) w w .next
  | round {header : ForHeader} {body : Stmt} {w₁ w₂ w₃ : World} {o : Outcome}
      (hguard : header.condition.holds view interp w₁.store = true)
      (hbody : Exec (.one body) w₁ w₂ .next)
      (hagain : Exec (.rounds header body) (header.advance view interp w₂) w₃ o) :
      Exec (.rounds header body) w₁ w₃ o
  | roundReturned {header : ForHeader} {body : Stmt} {w₁ w₂ : World} {v : Option Int}
      (hguard : header.condition.holds view interp w₁.store = true)
      (hbody : Exec (.one body) w₁ w₂ (.returned v)) :
      Exec (.rounds header body) w₁ w₂ (.returned v)
  | block {lbrace rbrace : Token} {body : List Stmt} {w₁ w₂ : World} {o : Outcome}
      (hbody : Exec (.all body) w₁ w₂ o) : Exec (.one (.block lbrace body rbrace)) w₁ w₂ o
  | call {c : Call} {semicolon : Option Token} {w : World} :
      Exec (.one (.call c semicolon)) w w .next
  | assign {target : NameRef} {eq : Token} {value : Expr} {semicolon : Option Token} {w : World} :
      Exec (.one (.assign target eq value semicolon)) w
        (w.assign target.token.value (value.eval view interp w.store)) .next
  | assignElement {target : NameRef} {lbracket eq : Token} {index value : Expr}
      {rbracket semicolon : Option Token} {w : World} :
      Exec (.one (.assignElement target lbracket index rbracket eq value semicolon)) w
        (w.assignElement target.token.value (index.eval view interp w.store)
          (value.eval view interp w.store)) .next
  | scan {keyword lparen : Token} {targets : CommaList NameRef} {rparen semicolon : Option Token}
      {w₁ w₂ : World} (hscan : w₁.scanAll? view targets.toList = some w₂) :
      Exec (.one (.scan keyword lparen targets rparen semicolon)) w₁ w₂ .next
  | print {keyword lparen : Token} {item : PrintItem} {rparen semicolon : Option Token}
      {w : World} :
      Exec (.one (.print keyword lparen item rparen semicolon)) w (item.perform view interp w) .next
  | ret {keyword : Token} {semicolon : Option Token} {w : World} :
      Exec (.one (.ret keyword semicolon)) w w (.returned none)
  | retValue {keyword lparen : Token} {value : Expr} {rparen semicolon : Option Token}
      {w : World} :
      Exec (.one (.retValue keyword lparen value rparen semicolon)) w w
        (.returned (some (value.eval view interp w.store)))
  | empty {semicolon : Token} {w : World} : Exec (.one (.empty semicolon)) w w .next

/-- What comes behind a task, unless the function has returned. -/
def andThen (first : Option (World × Outcome)) (next : World → Option (World × Outcome)) :
    Option (World × Outcome) :=
  first.bind fun
    | (world, .next) => next world
    | (world, .returned value) => some (world, .returned value)

/-- Runs a task, as long as a bound allows. -/
def Task.run? : Nat → Task → World → Option (World × Outcome)
  | 0, _, _ => none
  | _ + 1, .all [], w => some (w, .next)
  | n + 1, .all (stmt :: stmts), w => andThen (run? n (.one stmt) w) (run? n (.all stmts))
  | n + 1, .rounds header body, w =>
    if header.condition.holds view interp w.store then
      andThen (run? n (.one body) w) fun w' =>
        run? n (.rounds header body) (header.advance view interp w')
    else some (w, .next)
  | n + 1, .one (.ifThen _ guard body _ _), w =>
    if guard.condition.holds view interp w.store then run? n (.one body) w else some (w, .next)
  | n + 1, .one (.ifElse _ guard body _ other _ _), w =>
    if guard.condition.holds view interp w.store then run? n (.one body) w
    else run? n (.one other) w
  | n + 1, .one (.whileLoop keyword guard body l₁ l₂), w =>
    if guard.condition.holds view interp w.store then
      andThen (run? n (.one body) w) (run? n (.one (.whileLoop keyword guard body l₁ l₂)))
    else some (w, .next)
  | n + 1, .one (.doLoop k₁ body k₂ guard l), w =>
    andThen (run? n (.one body) w) fun w' =>
      if guard.condition.holds view interp w'.store then
        run? n (.one (.doLoop k₁ body k₂ guard l)) w'
      else some (w', .next)
  | n + 1, .one (.forLoop _ header body _ _), w =>
    run? n (.rounds header body) (header.begin view interp w)
  | n + 1, .one (.block _ body _), w => run? n (.all body) w
  | _ + 1, .one (.call _ _), w | _ + 1, .one (.empty _), w => some (w, .next)
  | _ + 1, .one (.assign target _ value _), w =>
    some (w.assign target.token.value (value.eval view interp w.store), .next)
  | _ + 1, .one (.assignElement target _ index _ _ value _), w =>
    some (w.assignElement target.token.value (index.eval view interp w.store)
      (value.eval view interp w.store), .next)
  | _ + 1, .one (.scan _ _ targets _ _), w => (w.scanAll? view targets.toList).map (·, .next)
  | _ + 1, .one (.print _ _ item _ _), w => some (item.perform view interp w, .next)
  | _ + 1, .one (.ret _ _), w => some (w, .returned none)
  | _ + 1, .one (.retValue _ _ value _ _), w =>
    some (w, .returned (some (value.eval view interp w.store)))
  | _ + 1, .one (.unknownCall _ _), _ | _ + 1, .one .skipped, _ => none

end

theorem andThen_eq_some {first : Option (World × Outcome)}
    {next : World → Option (World × Outcome)} {w : World} {o : Outcome}
    (h : andThen first next = some (w, o)) :
    (∃ mid, first = some (mid, .next) ∧ next mid = some (w, o)) ∨
      ∃ value, o = .returned value ∧ first = some (w, .returned value) := by
  obtain ⟨⟨mid, outcome⟩, hfirst, hnext⟩ := Option.bind_eq_some_iff.1 h
  cases outcome with
  | next => exact .inl ⟨mid, hfirst, hnext⟩
  | returned value =>
      cases hnext
      exact .inr ⟨value, rfl, hfirst⟩

/-- A task that is run to its end ends so. -/
theorem Exec.of_run? {view : View} {interp : Interpretation} {bound : Nat} {task : Task}
    {w w' : World} {o : Outcome} (h : task.run? view interp bound w = some (w', o)) :
    Exec view interp task w w' o := by
  induction bound generalizing task w w' o with
  | zero => cases h
  | succ bound ih =>
      cases task with
      | all stmts =>
          cases stmts with
          | nil =>
              cases h
              exact .nil
          | cons stmt stmts =>
              rcases andThen_eq_some h with ⟨mid, hfirst, hnext⟩ | ⟨value, rfl, hfirst⟩
              · exact .cons (ih hfirst) (ih hnext)
              · exact .consReturned (ih hfirst)
      | rounds header body =>
          rw [Task.run?] at h
          split at h
          · next hguard =>
              rcases andThen_eq_some h with ⟨mid, hfirst, hnext⟩ | ⟨value, rfl, hfirst⟩
              · exact .round hguard (ih hfirst) (ih hnext)
              · exact .roundReturned hguard (ih hfirst)
          · next hguard =>
              cases h
              exact .roundsDone (Bool.eq_false_iff.2 hguard)
      | one stmt =>
          cases stmt with
          | ifThen keyword guard body l₁ l₂ =>
              rw [Task.run?] at h
              split at h
              · next hguard => exact .ifThen hguard (ih h)
              · next hguard =>
                  cases h
                  exact .ifSkip (Bool.eq_false_iff.2 hguard)
          | ifElse k₁ guard body k₂ other l₁ l₂ =>
              rw [Task.run?] at h
              split at h
              · next hguard => exact .ifElseThen hguard (ih h)
              · next hguard => exact .ifElseOther (Bool.eq_false_iff.2 hguard) (ih h)
          | whileLoop keyword guard body l₁ l₂ =>
              rw [Task.run?] at h
              split at h
              · next hguard =>
                  rcases andThen_eq_some h with ⟨mid, hfirst, hnext⟩ | ⟨value, rfl, hfirst⟩
                  · exact .whileRound hguard (ih hfirst) (ih hnext)
                  · exact .whileReturned hguard (ih hfirst)
              · next hguard =>
                  cases h
                  exact .whileDone (Bool.eq_false_iff.2 hguard)
          | doLoop k₁ body k₂ guard l =>
              rcases andThen_eq_some h with ⟨mid, hfirst, hnext⟩ | ⟨value, rfl, hfirst⟩
              · split at hnext
                · next hguard => exact .doRound (ih hfirst) hguard (ih hnext)
                · next hguard =>
                    cases hnext
                    exact .doDone (ih hfirst) (Bool.eq_false_iff.2 hguard)
              · exact .doReturned (ih hfirst)
          | forLoop keyword header body l₁ l₂ => exact .forLoop (ih h)
          | block lbrace body rbrace => exact .block (ih h)
          | scan keyword lparen targets rparen semicolon =>
              obtain ⟨world, hscan, hend⟩ := Option.map_eq_some_iff.1 h
              cases hend
              exact .scan hscan
          | unknownCall fn semicolon | skipped => cases h
          | _ =>
              cases h
              constructor

end OnePass
