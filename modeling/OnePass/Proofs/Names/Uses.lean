import OnePass.Proofs.Emission

/-!
The names that the code of a program has in it, apart from operands: what is loaded from, what the
step of a loop reads, what is assigned to and what is read into. Each comes from an occurrence of a
name in the program, and that occurrence was looked up when it was read.
-/

namespace OnePass

/-- How an instruction uses a name that is not an operand. -/
inductive Role where
  /-- It is loaded, or one of its elements is. -/
  | loaded
  /-- The step of a counting loop starts from it. -/
  | stepped
  /-- It is assigned to, or one of its elements is, or the step of a counting loop is. -/
  | assigned
  /-- A value is read into it from the input. -/
  | scanned
deriving DecidableEq, Repr

/-- The names of an instruction that are not operands. -/
def Instr.mentions : Instr → List (Role × String)
  | load _ name | loadElement _ name _ => [(.loaded, name)]
  | assign name _ | assignElement name _ _ => [(.assigned, name)]
  | step target source _ _ => [(.assigned, target), (.stepped, source)]
  | scan _ name => [(.scanned, name)]
  | _ => []

/-- The names that an action puts into the code. -/
def Action.mentions : Action → List (Role × String)
  | emit instr => instr.mentions
  | _ => []

/-- An occurrence of a name that gets into the code. -/
structure Use where
  role : Role
  ref : NameRef

namespace Use

def mention (use : Use) : Role × String :=
  (use.role, use.ref.token.value)

/-- The actions behind the occurrence. -/
def log (use : Use) : List Action :=
  match use.role with
  | .loaded | .stepped => use.ref.readLog
  | .assigned => use.ref.targetLog
  | .scanned => use.ref.scanLog

end Use

section Uses

mutual

/-- The occurrences in an expression, in the order of its code. -/
def Expr.uses : Expr → List Use
  | .term t => t.uses
  | .positive _ t => t.uses
  | .negative _ t _ => t.uses
  | .chain lhs _ _ rhs _ => lhs.uses ++ rhs.uses

def Term.uses : Term → List Use
  | .factor f => f.uses
  | .chain lhs _ _ rhs _ => lhs.uses ++ rhs.uses

def Factor.uses : Factor → List Use
  | .element ref _ index _ _ => index.uses ++ [⟨.loaded, ref⟩]
  | .call c _ => c.uses
  | .paren _ inner _ => inner.uses
  | .name _ | .unknownCall _ | .char _ | .int _ => []

def Call.uses : Call → List Use
  | .mk _ _ _ args _ => args.uses

def Args.uses : Args → List Use
  | .nil => []
  | .first expr => expr.uses
  | .more init _ expr => init.uses ++ expr.uses

end

def Condition.uses : Condition → List Use
  | test value => value.uses
  | compare lhs _ _ rhs => lhs.uses ++ rhs.uses

/-- The occurrences in the header of a counting loop, but for those in its step. -/
def ForHeader.uses (header : ForHeader) : List Use :=
  header.start.uses ++ ⟨.assigned, header.init⟩ :: header.condition.uses

def PrintItem.uses : PrintItem → List Use
  | text _ _ => []
  | textValue _ _ _ v => v.uses
  | value v => v.uses

mutual

/-- The occurrences in a statement, in the order of its code. Into an unknown name nothing is
read. -/
def Stmt.uses : Stmt → List Use
  | .ifThen _ guard body _ _ => guard.condition.uses ++ body.uses
  | .ifElse _ guard body _ alternative _ _ =>
    guard.condition.uses ++ (body.uses ++ alternative.uses)
  | .whileLoop _ guard body _ _ => guard.condition.uses ++ body.uses
  | .doLoop _ body _ guard _ => body.uses ++ guard.condition.uses
  | .forLoop _ header body _ _ =>
    header.uses ++ (body.uses ++ [⟨.assigned, header.target⟩, ⟨.stepped, header.source⟩])
  | .block _ body _ => Stmt.allUses body
  | .call c _ => c.uses
  | .assign target _ value _ => value.uses ++ [⟨.assigned, target⟩]
  | .assignElement target _ index _ _ value _ =>
    index.uses ++ (value.uses ++ [⟨.assigned, target⟩])
  | .scan _ _ targets _ _ =>
    (targets.toList.filter fun ref => ref.symbol.isSome).map fun ref => ⟨.scanned, ref⟩
  | .print _ _ item _ _ => item.uses
  | .retValue _ _ value _ _ => value.uses
  | .unknownCall _ _ | .skipped | .ret _ _ | .empty _ => []

def Stmt.allUses : List Stmt → List Use
  | [] => []
  | stmt :: stmts => stmt.uses ++ Stmt.allUses stmts

end

/-- The occurrences of names in a program that get into its code. -/
def Program.uses (program : Program) : List Use :=
  program.functions.flatMap fun f => Stmt.allUses f.body.stmts

end Uses

section Mentions

/-- The names that a log puts into the code. -/
def mentionsOf (log : List Action) : List (Role × String) :=
  log.flatMap Action.mentions

@[simp]
theorem mentionsOf_nil : mentionsOf [] = [] := rfl

@[simp]
theorem mentionsOf_cons (action : Action) (log : List Action) :
    mentionsOf (action :: log) = action.mentions ++ mentionsOf log :=
  List.flatMap_cons

@[simp]
theorem mentionsOf_append (front back : List Action) :
    mentionsOf (front ++ back) = mentionsOf front ++ mentionsOf back :=
  List.flatMap_append

/-- What neither emits nor gives out a register puts no name into the code. -/
@[simp]
theorem mentionsOf_of_idle {log : List Action} (h : log.all Action.idle = true) :
    mentionsOf log = [] := by
  rw [mentionsOf, List.flatMap_eq_nil_iff]
  intro action haction
  have hidle := List.all_eq_true.1 h action haction
  cases action with
  | emit instr => cases hidle
  | _ => rfl

@[simp]
theorem mentionsOf_negateLog (value result : Operand) : mentionsOf (negateLog value result) = [] := by
  cases result <;> rfl

@[simp]
theorem mentionsOf_combineLog (accumulator : Option Reg) (op : ArithOp) (dst : Reg)
    (lhs rhs : Operand) : mentionsOf (combineLog accumulator op dst lhs rhs) = [] := by
  cases accumulator <;> rfl

mutual

theorem Expr.mentionsOf_log : (e : Expr) → mentionsOf e.log = e.uses.map Use.mention
  | .term t | .positive _ t | .negative _ t _ => by
      simp [Expr.log, Expr.uses, Action.mentions, t.mentionsOf_log]
  | .chain lhs _ _ rhs _ => by
      simp [Expr.log, Expr.uses, Action.mentions, lhs.mentionsOf_log, rhs.mentionsOf_log]

theorem Term.mentionsOf_log : (t : Term) → mentionsOf t.log = t.uses.map Use.mention
  | .factor f => by
      simp [Term.log, Term.uses, f.mentionsOf_log]
  | .chain lhs _ _ rhs _ => by
      simp [Term.log, Term.uses, Action.mentions, lhs.mentionsOf_log, rhs.mentionsOf_log]

theorem Factor.mentionsOf_log : (f : Factor) → mentionsOf f.log = f.uses.map Use.mention
  | .element _ _ inner _ _ | .paren _ inner _ => by
      simp [Factor.log, Factor.uses, Action.mentions, Instr.mentions, Use.mention,
        inner.mentionsOf_log]
  | .call c _ => by
      simp [Factor.log, Factor.uses, Action.mentions, Instr.mentions, c.mentionsOf_log]
  | .name _ | .int _ | .unknownCall _ | .char _ => by
      simp [Factor.log, Factor.uses, unknownCallLog, Action.mentions]

theorem Call.mentionsOf_log : (c : Call) → mentionsOf c.log = c.uses.map Use.mention
  | .mk name _ _ args _ => by
      simp [Call.log, Call.uses, Action.mentions, Instr.mentions, args.mentionsOf_log name.value]

theorem Args.mentionsOf_log : (args : Args) → (function : String) →
    mentionsOf (args.log function) = args.uses.map Use.mention
  | .nil, _ => by
      simp [Args.log, Args.uses]
  | .first expr, _ => by
      simp [Args.log, Args.uses, Action.mentions, Instr.mentions, expr.mentionsOf_log]
  | .more init _ expr, function => by
      simp [Args.log, Args.uses, Action.mentions, Instr.mentions, init.mentionsOf_log function,
        expr.mentionsOf_log]

end

theorem Condition.mentionsOf_log (label : Label) (sense : Sense) (condition : Condition) :
    mentionsOf (condition.log label sense) = condition.uses.map Use.mention := by
  cases condition with
  | test value =>
      cases sense <;>
        simp [log, uses, Action.mentions, Instr.test, Instr.mentions, value.mentionsOf_log]
  | compare lhs relation opToken rhs =>
      simp [log, uses, Action.mentions, Instr.compare, Instr.mentions, lhs.mentionsOf_log,
        rhs.mentionsOf_log]

theorem PrintItem.mentionsOf_log (item : PrintItem) :
    mentionsOf item.log = item.uses.map Use.mention := by
  have hvalue : ∀ v : Expr, mentionsOf (printValueLog v) = v.uses.map Use.mention := by
    intro v
    cases hty : v.ty <;>
      simp [printValueLog, Expr.printInstr, hty, Action.mentions, Instr.mentions, v.mentionsOf_log]
  cases item <;> simp [log, uses, Action.mentions, Instr.mentions, hvalue]

theorem ForHeader.mentionsOf_log (header : ForHeader) (loopLabel endLabel : Label) :
    mentionsOf (header.log loopLabel endLabel) = header.uses.map Use.mention := by
  simp [log, uses, Action.mentions, Instr.mentions, Use.mention, header.start.mentionsOf_log,
    header.condition.mentionsOf_log]

theorem CommaList.mentionsOf_scanLog (targets : CommaList NameRef) :
    mentionsOf (targets.log NameRef.scanLog) =
      ((targets.toList.filter fun ref => ref.symbol.isSome).map fun ref => (⟨.scanned, ref⟩ : Use)).map
        Use.mention := by
  induction targets with
  | one ref =>
      cases hsymbol : ref.symbol <;>
        simp [log, toList, NameRef.scanLog, NameRef.log, hsymbol, Action.mentions, Instr.mentions,
          Use.mention]
  | cons ref comma rest ih =>
      cases hsymbol : ref.symbol <;>
        simp [log, toList, NameRef.scanLog, NameRef.log, hsymbol, Action.mentions, Instr.mentions,
          Use.mention, ih]

mutual

/-- The names that a statement puts into the code are its occurrences of names, in order. -/
theorem Stmt.mentionsOf_log (returnType : Ty) :
    (stmt : Stmt) → mentionsOf (stmt.log returnType) = stmt.uses.map Use.mention
  | .ifThen _ _ body _ _ | .whileLoop _ _ body _ _ | .doLoop _ body _ _ _ => by
      simp [Stmt.log, Stmt.uses, Guard.log, Action.mentions, Instr.mentions,
        Condition.mentionsOf_log, body.mentionsOf_log]
  | .ifElse _ _ body _ alternative _ _ => by
      simp [Stmt.log, Stmt.uses, Guard.log, Action.mentions, Instr.mentions,
        Condition.mentionsOf_log, body.mentionsOf_log, alternative.mentionsOf_log]
  | .forLoop _ _ body _ _ => by
      simp [Stmt.log, Stmt.uses, Action.mentions, Instr.mentions, Use.mention,
        ForHeader.stepInstr, ForHeader.mentionsOf_log, body.mentionsOf_log]
  | .block _ body _ => by
      simp [Stmt.log, Stmt.uses, Action.mentions, Stmt.mentionsOf_logs returnType body]
  | .assign _ _ _ _ | .assignElement _ _ _ _ _ _ _ | .retValue _ _ _ _ _ => by
      simp [Stmt.log, Stmt.uses, Action.mentions, Instr.mentions, Use.mention,
        Expr.mentionsOf_log]
  | .call _ _ | .scan _ _ _ _ _ | .print _ _ _ _ _ => by
      simp [Stmt.log, Stmt.uses, Action.mentions, Call.mentionsOf_log,
        CommaList.mentionsOf_scanLog, PrintItem.mentionsOf_log]
  | .unknownCall _ _ | .skipped | .ret _ _ | .empty _ => by
      simp [Stmt.log, Stmt.uses, unknownCallLog, Action.mentions, Instr.mentions]

theorem Stmt.mentionsOf_logs (returnType : Ty) :
    (stmts : List Stmt) → mentionsOf (Stmt.logs returnType stmts) =
      (Stmt.allUses stmts).map Use.mention
  | [] => by
      simp [Stmt.logs, Stmt.allUses]
  | stmt :: stmts => by
      simp [Stmt.logs, Stmt.allUses, stmt.mentionsOf_log, Stmt.mentionsOf_logs returnType stmts]

end

end Mentions

section Lookups

/-- The actions behind some occurrences. -/
def Use.logs (uses : List Use) : List Action :=
  uses.flatMap Use.log

@[simp]
theorem Use.logs_nil : Use.logs [] = [] := rfl

@[simp]
theorem Use.logs_cons (use : Use) (uses : List Use) :
    Use.logs (use :: uses) = use.log ++ Use.logs uses :=
  List.flatMap_cons

@[simp]
theorem Use.logs_append (front back : List Use) :
    Use.logs (front ++ back) = Use.logs front ++ Use.logs back :=
  List.flatMap_append

mutual

/-- What occurs in an expression was looked up there. -/
theorem Expr.mem_log : (e : Expr) → ∀ action ∈ Use.logs e.uses, action ∈ e.log
  | .term t | .positive _ t | .negative _ t _ => by
      simp +contextual [Expr.uses, Expr.log, t.mem_log]
  | .chain lhs _ _ rhs _ => by
      simp +contextual [Expr.uses, Expr.log, or_imp, lhs.mem_log, rhs.mem_log]

theorem Term.mem_log : (t : Term) → ∀ action ∈ Use.logs t.uses, action ∈ t.log
  | .factor f => by
      simp +contextual [Term.uses, Term.log, f.mem_log]
  | .chain lhs _ _ rhs _ => by
      simp +contextual [Term.uses, Term.log, or_imp, lhs.mem_log, rhs.mem_log]

theorem Factor.mem_log : (f : Factor) → ∀ action ∈ Use.logs f.uses, action ∈ f.log
  | .element _ _ inner _ _ | .paren _ inner _ => by
      simp +contextual [Factor.uses, Factor.log, Use.log, or_imp, inner.mem_log]
  | .call c _ => by
      simp +contextual [Factor.uses, Factor.log, c.mem_log]
  | .name _ | .unknownCall _ | .char _ | .int _ => by
      simp [Factor.uses]

theorem Call.mem_log : (c : Call) → ∀ action ∈ Use.logs c.uses, action ∈ c.log
  | .mk name _ _ args _ => by
      simp +contextual [Call.uses, Call.log, args.mem_log name.value]

theorem Args.mem_log : (args : Args) → (function : String) →
    ∀ action ∈ Use.logs args.uses, action ∈ args.log function
  | .nil, _ => by
      simp [Args.uses]
  | .first expr, _ => by
      simp +contextual [Args.uses, Args.log, expr.mem_log]
  | .more init _ expr, function => by
      simp +contextual [Args.uses, Args.log, or_imp, init.mem_log function, expr.mem_log]

end

theorem Condition.mem_log (label : Label) (sense : Sense) (condition : Condition) :
    ∀ action ∈ Use.logs condition.uses, action ∈ condition.log label sense := by
  cases condition <;> simp +contextual [uses, log, or_imp, Expr.mem_log]

theorem PrintItem.mem_log (item : PrintItem) :
    ∀ action ∈ Use.logs item.uses, action ∈ item.log := by
  cases item <;> simp +contextual [uses, log, printValueLog, Expr.mem_log]

theorem CommaList.mem_scanLog (targets : CommaList NameRef) :
    ∀ action ∈ Use.logs ((targets.toList.filter fun ref => ref.symbol.isSome).map fun ref =>
      ⟨.scanned, ref⟩), action ∈ targets.log NameRef.scanLog := by
  induction targets with
  | one ref => cases hsymbol : ref.symbol <;> simp [toList, log, hsymbol, Use.log]
  | cons ref comma rest ih =>
      cases hsymbol : ref.symbol <;> simp +contextual [toList, log, hsymbol, Use.log, or_imp, ih]

mutual

/-- What occurs in a statement was looked up there. -/
theorem Stmt.mem_log (returnType : Ty) :
    (stmt : Stmt) → ∀ action ∈ Use.logs stmt.uses, action ∈ stmt.log returnType
  | .ifThen _ guard body _ _ | .whileLoop _ guard body _ _ | .doLoop _ body _ guard _ => by
      simp +contextual [Stmt.uses, Stmt.log, Guard.log, or_imp, Condition.mem_log,
        body.mem_log returnType]
  | .ifElse _ guard body _ alternative _ _ => by
      simp +contextual [Stmt.uses, Stmt.log, Guard.log, or_imp, Condition.mem_log,
        body.mem_log returnType, alternative.mem_log returnType]
  | .forLoop _ _ body _ _ => by
      simp +contextual [Stmt.uses, Stmt.log, ForHeader.uses, ForHeader.log, Use.log, or_imp,
        Expr.mem_log, Condition.mem_log, body.mem_log returnType]
  | .block _ body _ => by
      simp +contextual [Stmt.uses, Stmt.log, Stmt.mem_logs returnType body]
  | .call _ _ | .assign _ _ _ _ | .assignElement _ _ _ _ _ _ _ | .print _ _ _ _ _
  | .retValue _ _ _ _ _ => by
      simp +contextual [Stmt.uses, Stmt.log, Use.log, or_imp, Call.mem_log, Expr.mem_log,
        PrintItem.mem_log]
  | .scan _ _ targets _ _ => by
      simp +contextual [Stmt.uses, Stmt.log, targets.mem_scanLog]
  | .unknownCall _ _ | .skipped | .ret _ _ | .empty _ => by
      simp [Stmt.uses]

theorem Stmt.mem_logs (returnType : Ty) : (stmts : List Stmt) →
    ∀ action ∈ Use.logs (Stmt.allUses stmts), action ∈ Stmt.logs returnType stmts
  | [] => by
      simp [Stmt.allUses]
  | stmt :: stmts => by
      simp +contextual [Stmt.allUses, Stmt.logs, or_imp, stmt.mem_log returnType,
        Stmt.mem_logs returnType stmts]

end

theorem Stmt.logs_subset (returnType : Ty) (stmts : List Stmt) :
    ∀ use ∈ Stmt.allUses stmts, use.log ⊆ Stmt.logs returnType stmts :=
  fun use huse action haction =>
    Stmt.mem_logs returnType stmts action (List.mem_flatMap.2 ⟨use, huse, haction⟩)

end Lookups

end OnePass
