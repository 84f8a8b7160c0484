import OnePass.Proofs.Run

/-!
What a pass does, as a list of actions. A pass that succeeds has performed one action after
the other, and which ones can be read off the syntax it returns. All that is said here of
actions therefore holds of every phrase of the language at once: what they add to the code,
to the tokens behind the cursor, to the diagnostics and to the counters.
-/

namespace OnePass

/-- Whether a constant of a type is set to a literal of that type. -/
def ConstInit.fits (ty : Ty) : ConstInit → Bool
  | char _ => ty == .char
  | int _ => ty == .int
  | other _ => false

/-- The instructions at which control may come from or go to somewhere else. -/
def Instr.isBoundary : Instr → Bool
  | label _ | jump _ | branch _ _ _ _ | branchZero _ _ | branchNonzero _ _ => true
  | ret _ | retVoid | funcDeclare _ _ | functionEnd => true
  | _ => false

/-- The instructions that an expression is compiled to. -/
def Instr.computes : Instr → Bool
  | arith _ _ _ _ | neg _ _ | loadElement _ _ _ | takeResult _ => true
  | save _ | push _ _ _ | call _ => true
  | _ => false

/-- The instructions that no statement is compiled to: they frame the code of functions. -/
def Instr.isFraming : Instr → Bool
  | param _ _ | var _ _ _ | funcDeclare _ _ | functionEnd => true
  | _ => false

/-- The instructions that a statement is compiled to. A variable is never loaded into a register of
its own. -/
def Instr.executes : Instr → Bool
  | load _ _ => false
  | instr => !instr.isFraming

/-- What a literal was read from lies behind the cursor. -/
def ConstInit.Behind (cursor : Cursor) : ConstInit → Prop
  | char literal => literal.kind = .charLit ∧ literal ∈ cursor.consumed
  | int literal => literal.digits.token.kind = .intLit ∧ literal.digits.token ∈ cursor.consumed ∧
      Text.signed? literal.digits.token.value.toList = some literal.digits.value
  | other _ => True

/-- The smallest things that a pass does. Some change the state and some only observe it. -/
inductive Action where
  /-- A token of a kind is consumed and kept. -/
  | take (kind : TokenKind) (token : Token)
  /-- A name and the group in parentheses behind it are dropped, and the name is recorded as
  unknown. -/
  | skipCall (name : Token)
  /-- A statement is dropped with its semicolon, and its first name is recorded as unknown. -/
  | skipStatement
  /-- The next token is no sign. -/
  | noSign
  | emit (instr : Instr)
  | reg (reg : Reg)
  | label (label : Label)
  | intern (text : String) (index : Nat)
  | report (line : UInt64) (kind : DiagnosticKind)
  /-- A diagnostic is recorded on the line of the last consumed token. -/
  | reportHere (kind : DiagnosticKind)
  | nearest (name : String) (symbol : Option Symbol)
  | callee (name : String) (symbol : Option Symbol)
  /-- Anything but a constant is declared. -/
  | declare (scope : Scope) (symbol : Symbol)
  /-- A constant is declared, with a literal of its type unless that has been recorded. -/
  | declareConst (scope : Scope) (ty : Ty) (item : ConstItem)
  /-- A name that its scope holds already is recorded. -/
  | checkRedefinition (scope : Scope) (name : Token)
  | resetLocals
  | addParameter (function : String) (ty : Ty)
  | keepTable (name : String) (scope : Scope)
  | noteOverflow (overflows : Bool)
  /-- Something that holds of the phrase whatever the state is. -/
  | check (fact : Prop)

namespace Action

/-- An action leads from one state to another. -/
def Performs : Action → State → State → Prop
  | take kind token, s, t => token.kind = kind ∧ Pass.advance s = .ok token t
  | skipCall name, s, t => name.kind = .ident ∧ ∃ u v,
      Pass.advance s = .ok name u ∧ Pass.report name.line .undefined u = .ok () v ∧
        Pass.onCursor Cursor.skipParens v = .ok () t
  | skipStatement, s, t => ∃ token u v,
      Pass.advance s = .ok token u ∧ Pass.report token.line .undefined u = .ok () v ∧
        Pass.onCursor (Cursor.skipPast .semicolon) v = .ok () t
  | noSign, s, t => (s.cursor.peekKind? 0).bind ArithOp.additive? = none ∧ s = t
  | emit instr, s, t => Pass.emit instr s = .ok () t
  | reg r, s, t => Pass.freshReg s = .ok r t
  | label l, s, t => Pass.freshLabel s = .ok l t
  | intern text index, s, t => Pass.intern text s = .ok index t
  | report line kind, s, t => Pass.report line kind s = .ok () t
  | reportHere kind, s, t => Pass.report s.cursor.lastLine kind s = .ok () t
  | nearest name symbol, s, t => s.scopes.nearest? name = symbol ∧ s = t
  | callee name symbol, s, t => s.scopes.function? name = symbol ∧ s = t
  | declare scope symbol, s, t => symbol.kind ≠ .const ∧ Pass.declare scope symbol s = .ok () t
  | declareConst scope ty item, s, t =>
      (item.init.fits ty = false → ∃ d ∈ s.diagnostics.toList, d.kind = .constInitialiser) ∧
        item.init.Behind s.cursor ∧ Pass.declare scope (item.symbol ty) s = .ok () t
  | checkRedefinition scope name, s, t => Pass.checkRedefinition scope name s = .ok () t
  | resetLocals, s, t => Pass.resetLocals s = .ok () t
  | addParameter function ty, s, t => Pass.addParameter function ty s = .ok () t
  | keepTable name scope, s, t => Pass.keepTable name scope s = .ok () t
  | noteOverflow overflows, s, t => Pass.noteOverflow overflows s = .ok () t
  | check fact, s, t => fact ∧ s = t

/-- The code that an action adds. -/
def code : Action → List Instr
  | emit instr => [instr]
  | _ => []

/-- The counters after an action. -/
def counters (before : Counters) : Action → Counters
  | reg _ => before.freshReg.2
  | label _ => before.freshLabel.2
  | _ => before

/-- The scopes after an action. -/
def scopes (before : Scopes) : Action → Scopes
  | declare scope symbol => before.declare scope symbol
  | declareConst scope ty item => before.declare scope (item.symbol ty)
  | resetLocals => before.reset .local
  | addParameter name ty =>
      before.modify .global name fun symbol => (symbol.addParameter? ty).getD symbol
  | _ => before

/-- The texts to print after an action. -/
def strings (before : StringTable) : Action → StringTable
  | intern text _ => (before.intern text).2
  | _ => before

/-- The tables that are kept after an action. -/
def tables (s : State) : Action → SymbolTables
  | keepTable name scope => s.tables.insert name (s.scopes.table scope)
  | _ => s.tables

/-- Whether a number has overflowed after an action. -/
def overflowed (before : Bool) : Action → Bool
  | noteOverflow overflows => before || overflows
  | _ => before

/-- The diagnostics that an action records whatever the state is. -/
def records : Action → List DiagnosticKind
  | skipCall _ | skipStatement => [.undefined]
  | report _ kind => [kind]
  | reportHere kind => [kind]
  | _ => []

/-- Whether an action consumes tokens. -/
def moves : Action → Bool
  | take _ _ | skipCall _ | skipStatement => true
  | _ => false

/-- Every field but the sink after an action, as a function of what it was before. Whether a name is
recorded as known already depends on the state. -/
structure Effect (action : Action) (s t : State) : Prop where
  code : t.emitter.code.toList = s.emitter.code.toList ++ action.code := by simp [Action.code]
  counters : t.counters = action.counters s.counters := by rfl
  scopes : t.scopes = action.scopes s.scopes := by rfl
  strings : t.strings = action.strings s.strings := by rfl
  tables : t.tables = action.tables s := by rfl
  overflowed : t.overflowed = action.overflowed s.overflowed := by rfl
  cursor : action.moves = false → t.cursor = s.cursor := by exact fun _ => rfl
  diagnostics : ∃ found, t.diagnostics.toList = s.diagnostics.toList ++ found ∧
    (found.map Diagnostic.kind = action.records ∨ ∃ scope name,
      action = .checkRedefinition scope name) := by exact ⟨[], by simp, .inl rfl⟩

theorem Performs.effect {action : Action} {s t : State} (h : action.Performs s t) :
    action.Effect s t := by
  cases action with
  | take kind token =>
      obtain ⟨_, _, rfl⟩ := Pass.advance_eq_ok.1 h.2
      exact { cursor := nofun }
  | skipCall name =>
      obtain ⟨_, u, v, hadvance, hreport, hskip⟩ := h
      obtain ⟨_, _, rfl⟩ := Pass.advance_eq_ok.1 hadvance
      cases hreport
      obtain ⟨_, _, rfl⟩ := Pass.onCursor_eq_ok.1 hskip
      exact { cursor := nofun, diagnostics := ⟨[⟨name.line, .undefined⟩], by simp, .inl rfl⟩ }
  | skipStatement =>
      obtain ⟨token, u, v, hadvance, hreport, hskip⟩ := h
      obtain ⟨_, _, rfl⟩ := Pass.advance_eq_ok.1 hadvance
      cases hreport
      obtain ⟨_, _, rfl⟩ := Pass.onCursor_eq_ok.1 hskip
      exact { cursor := nofun, diagnostics := ⟨[⟨token.line, .undefined⟩], by simp, .inl rfl⟩ }
  | emit instr =>
      obtain ⟨sink, rfl⟩ := Pass.emit_eq_ok h
      exact {}
  | report line kind =>
      cases h
      exact { diagnostics := ⟨[⟨line, kind⟩], by simp, .inl rfl⟩ }
  | reportHere kind =>
      cases h
      exact { diagnostics := ⟨[⟨s.cursor.lastLine, kind⟩], by simp, .inl rfl⟩ }
  | checkRedefinition scope name =>
      rcases Pass.checkRedefinition_eq_ok h with rfl | hreport
      · exact {}
      · cases hreport
        exact { diagnostics := ⟨[⟨name.line, .redefinition⟩], by simp, .inr ⟨_, _, rfl⟩⟩ }
  | addParameter name ty =>
      obtain rfl := Pass.addParameter_eq_ok h
      exact {}
  | reg r | label l | intern text index | resetLocals | keepTable name scope
  | noteOverflow overflows =>
      cases h
      exact {}
  | noSign | nearest name symbol | callee name symbol | check fact =>
      obtain ⟨_, rfl⟩ := h
      exact {}
  | declare scope symbol =>
      obtain ⟨_, h⟩ := h
      cases h
      exact {}
  | declareConst scope ty item =>
      obtain ⟨_, _, h⟩ := h
      cases h
      exact {}

/-- The tokens that an action consumes and keeps. -/
def tokens : Action → List Token
  | take _ token => [token]
  | _ => []

/-- An action that drops nothing consumes what it keeps. -/
theorem Performs.rest {action : Action} {s t : State} (h : action.Performs s t)
    (hkept : .undefined ∉ action.records) :
    s.cursor.rest = action.tokens ++ t.cursor.rest := by
  cases action with
  | take kind token =>
      obtain ⟨rest, hrest, rfl⟩ := Pass.advance_eq_ok.1 h.2
      exact hrest
  | skipCall name | skipStatement => exact absurd List.mem_cons_self hkept
  | _ => exact congrArg Cursor.rest (h.effect.cursor rfl).symm

/-- What an action says of its token, or has checked. -/
def Fact : Action → Prop
  | take kind token => token.kind = kind
  | check fact => fact
  | _ => True

/-- Whether an action may stand in an expression: names, labels and texts are left alone, and
control goes straight on. -/
def inExpr : Action → Bool
  | take _ _ | skipCall _ | noSign | reg _ | report _ _ | reportHere _ => true
  | nearest _ _ | callee _ _ | noteOverflow _ | check _ => true
  | emit instr => !instr.isBoundary
  | _ => false

/-- Whether an action neither adds code nor gives out a register. -/
def idle : Action → Bool
  | emit _ | reg _ => false
  | _ => true

/-- A property of every action that only reads tokens, observes, or records something else than a
second declaration. Where a property is given by cases, all this holds by unfolding it. -/
class Passive (p : Action → Bool) : Prop where
  take : ∀ kind token, p (.take kind token) = true := by intros; rfl
  report : ∀ line kind, kind ≠ .redefinition → p (.report line kind) = true := by intros; rfl
  reportHere : ∀ kind, kind ≠ .redefinition → p (.reportHere kind) = true := by intros; rfl
  nearest : ∀ name symbol, p (.nearest name symbol) = true := by intros; rfl
  noteOverflow : ∀ overflows, p (.noteOverflow overflows) = true := by intros; rfl
  check : ∀ fact, p (.check fact) = true := by intros; rfl

/-- A property of these, and of every other action that may stand in an expression. -/
class Evaluative (p : Action → Bool) : Prop extends Passive p where
  skipCall : ∀ name, p (.skipCall name) = true := by intros; rfl
  noSign : p .noSign = true := by rfl
  callee : ∀ name symbol, p (.callee name symbol) = true := by intros; rfl
  reg : ∀ r, p (.reg r) = true := by intros; rfl
  emit : ∀ instr, instr.computes = true → p (.emit instr) = true

/-- A property of every action that may stand in a statement. -/
class Executive (p : Action → Bool) : Prop extends Passive p where
  skipCall : ∀ name, p (.skipCall name) = true := by intros; rfl
  skipStatement : p .skipStatement = true := by rfl
  noSign : p .noSign = true := by rfl
  callee : ∀ name symbol, p (.callee name symbol) = true := by intros; rfl
  reg : ∀ r, p (.reg r) = true := by intros; rfl
  label : ∀ l, p (.label l) = true := by intros; rfl
  intern : ∀ text index, p (.intern text index) = true := by intros; rfl
  emit : ∀ instr, instr.executes = true → p (.emit instr) = true := by intros; rfl

/-- A property of every passive action, and of every action that changes the scopes. -/
class Declarative (p : Action → Bool) : Prop extends Passive p where
  declare : ∀ scope symbol, p (.declare scope symbol) = true := by intros; rfl
  declareConst : ∀ scope ty item, p (.declareConst scope ty item) = true := by intros; rfl
  checkRedefinition : ∀ scope name, p (.checkRedefinition scope name) = true := by intros; rfl
  resetLocals : p .resetLocals = true := by rfl
  addParameter : ∀ function ty, p (.addParameter function ty) = true := by intros; rfl

instance : Passive inExpr := {}

instance (p : Action → Bool) [Executive p] : Evaluative p where
  skipCall := Executive.skipCall
  noSign := Executive.noSign
  callee := Executive.callee
  reg := Executive.reg
  emit instr h := by
    apply Executive.emit
    cases instr with
    | param ty name | var ty name length | funcDeclare ty name | functionEnd => cases h
    | load dst name => cases h
    | _ => rfl

instance : Evaluative inExpr where
  emit instr h := by
    cases instr with
    | arith op dst lhs rhs | neg dst value | loadElement dst name index | takeResult dst => rfl
    | save function | push function value position | call function => rfl
    | _ => cases h

instance : Passive idle := {}

instance : Declarative idle := {}

theorem Performs.of_idle {action : Action} {s t : State} (h : action.Performs s t)
    (hidle : action.idle = true) :
    action.code = [] ∧ t.counters.regs = s.counters.regs := by
  rw [h.effect.counters]
  cases action with
  | emit instr | reg r => cases hidle
  | _ => exact ⟨rfl, rfl⟩

end Action

/-- Actions lead from one state to another, one after the other. -/
def Plays : List Action → State → State → Prop
  | [], s, t => s = t
  | action :: log, s, t => ∃ u, action.Performs s u ∧ Plays log u t

@[simp]
theorem plays_nil {s t : State} : Plays [] s t ↔ s = t :=
  Iff.rfl

@[simp]
theorem plays_cons {action : Action} {log : List Action} {s t : State} :
    Plays (action :: log) s t ↔ ∃ u, action.Performs s u ∧ Plays log u t :=
  Iff.rfl

@[simp]
theorem plays_append {front back : List Action} {s t : State} :
    Plays (front ++ back) s t ↔ ∃ u, Plays front s u ∧ Plays back u t := by
  induction front generalizing s with
  | nil => simp
  | cons action front ih =>
      simp only [List.cons_append, plays_cons, ih]
      constructor
      · rintro ⟨u, hu, v, hv, ht⟩
        exact ⟨v, ⟨u, hu, hv⟩, ht⟩
      · rintro ⟨v, ⟨u, hu, hv⟩, ht⟩
        exact ⟨u, hu, v, hv, ht⟩

namespace Plays

variable {log : List Action} {s t : State}

/-- What holds at the end, and before an action if it does after it, holds all along a log. -/
@[elab_as_elim]
theorem induction {P : ∀ log s, Plays log s t → Prop} (nil : P [] t rfl)
    (cons : ∀ {s u : State} {action : Action} {log : List Action} (haction : action.Performs s u)
      (hlog : Plays log u t), P log u hlog → P (action :: log) s ⟨u, haction, hlog⟩)
    (h : Plays log s t) : P log s h := by
  induction log generalizing s with
  | nil =>
      obtain rfl := plays_nil.1 h
      exact nil
  | cons action log ih =>
      obtain ⟨u, haction, hlog⟩ := h
      exact cons haction hlog (ih hlog)

/-- What single actions leave as it is, a log of such actions leaves as it is. -/
theorem kept {α : Type} {f : State → α} {p : Action → Bool}
    (hstep : ∀ action s u, action.Performs s u → p action = true → f u = f s) (h : Plays log s t)
    (hlog : log.all p = true) : f t = f s := by
  induction h using Plays.induction with
  | nil => rfl
  | @cons s u action log haction _ ih =>
      rw [List.all_cons, Bool.and_eq_true] at hlog
      rw [ih hlog.2, hstep action s u haction hlog.1]

theorem facts (h : Plays log s t) : ∀ action ∈ log, action.Fact := by
  induction h using Plays.induction with
  | nil => simp
  | @cons s u action log haction _ ih =>
      refine List.forall_mem_cons.2 ⟨?_, ih⟩
      cases action with
      | take kind token | check fact => exact haction.1
      | _ => trivial

/-- The code grows by what the actions add. -/
theorem code (h : Plays log s t) :
    t.emitter.code.toList = s.emitter.code.toList ++ log.flatMap Action.code := by
  induction h using Plays.induction with
  | nil => simp
  | cons haction _ ih =>
      rw [ih, haction.effect.code, List.flatMap_cons, List.append_assoc]

/-- A number has overflowed when one of the actions has noted it. -/
theorem overflowed_iff (h : Plays log s t) :
    t.overflowed = true ↔ s.overflowed = true ∨ .noteOverflow true ∈ log := by
  induction h using Plays.induction with
  | nil => simp
  | @cons s u action log haction _ ih =>
      rw [ih, haction.effect.overflowed]
      cases action <;> simp [Action.overflowed, or_assoc]

/-- Diagnostics are only added, and what the actions record is among them. -/
theorem diagnostics (h : Plays log s t) :
    ∃ found, t.diagnostics.toList = s.diagnostics.toList ++ found ∧
      ∀ kind ∈ log.flatMap Action.records, ∃ d ∈ found, d.kind = kind := by
  induction h using Plays.induction with
  | nil => exact ⟨[], by simp⟩
  | cons haction _ ih =>
      obtain ⟨first, hfirst, hrecords⟩ := haction.effect.diagnostics
      obtain ⟨rest, hrest, hmore⟩ := ih
      refine ⟨first ++ rest, by rw [hrest, hfirst, List.append_assoc], ?_⟩
      intro kind hkind
      rw [List.flatMap_cons, List.mem_append] at hkind
      rcases hkind with hkind | hkind
      · rcases hrecords with hrecords | ⟨scope, name, rfl⟩
        · obtain ⟨d, hd, rfl⟩ := List.mem_map.1 (hrecords ▸ hkind)
          exact ⟨d, List.mem_append_left rest hd, rfl⟩
        · cases hkind
      · obtain ⟨d, hd, rfl⟩ := hmore kind hkind
        exact ⟨d, List.mem_append_right first hd, rfl⟩

theorem counters_le (h : Plays log s t) :
    s.counters.regs ≤ t.counters.regs ∧ s.counters.labels ≤ t.counters.labels := by
  induction h using Plays.induction with
  | nil => exact ⟨Nat.le_refl _, Nat.le_refl _⟩
  | @cons s u action log haction _ ih =>
      refine .imp (Nat.le_trans ?_) (Nat.le_trans ?_) ih <;> rw [haction.effect.counters] <;>
        cases action <;> simp [Action.counters, Counters.freshReg, Counters.freshLabel]

theorem regs_le (h : Plays log s t) : s.counters.regs ≤ t.counters.regs :=
  h.counters_le.1

theorem labels_le (h : Plays log s t) : s.counters.labels ≤ t.counters.labels :=
  h.counters_le.2

/-- A log that drops nothing consumes the tokens that it keeps. -/
theorem rest (h : Plays log s t) (hkept : ∀ action ∈ log, .undefined ∉ action.records) :
    s.cursor.rest = log.flatMap Action.tokens ++ t.cursor.rest := by
  induction h using Plays.induction with
  | nil => rfl
  | @cons s u action log haction _ ih =>
      have hlater := ih fun later hlater => hkept later (List.mem_cons_of_mem action hlater)
      rw [haction.rest (hkept action List.mem_cons_self), hlater, List.flatMap_cons,
        List.append_assoc]

/-- Nothing is declared in an expression. -/
theorem scopes_eq (h : Plays log s t) (hlog : log.all Action.inExpr = true) :
    t.scopes = s.scopes := by
  refine h.kept (f := State.scopes) (fun action s u haction hin => ?_) hlog
  rw [haction.effect.scopes]
  cases action with
  | declare scope symbol | declareConst scope ty item | resetLocals | addParameter name ty =>
      cases hin
  | _ => rfl

theorem of_idle (h : Plays log s t) (hidle : log.all Action.idle = true) :
    log.flatMap Action.code = [] ∧ t.counters.regs = s.counters.regs := by
  induction h using Plays.induction with
  | nil => exact ⟨rfl, rfl⟩
  | cons haction _ ih =>
      rw [List.all_cons, Bool.and_eq_true] at hidle
      obtain ⟨hcode, hregs⟩ := haction.of_idle hidle.1
      obtain ⟨hrest, hlater⟩ := ih hidle.2
      exact ⟨by rw [List.flatMap_cons, hcode, hrest]; rfl, hlater.trans hregs⟩

end Plays

end OnePass
