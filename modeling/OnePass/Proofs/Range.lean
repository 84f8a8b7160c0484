import Mathlib.Algebra.Group.Int.Defs
import OnePass.Proofs.Chains.Basic
import OnePass.Proofs.Names.Operands

/-!
The range of numbers. The least word has no negation, and a numeral without a sign cannot spell it.
So no operand is the least word, and no negation goes wrong, unless a constant is read that was set
to the least word by a text that is no literal; such a constant has been recorded.
-/

namespace OnePass

open OnePass.Tree (annotations)

section Operands

/-- A numeral has digits only, and a name spells no number. -/
def Token.isUnsigned (token : Token) : Bool :=
  match token.kind with
  | .intLit => token.value.toList.all Char.isDigit
  | .ident => (Text.signed? token.value.toList).isNone
  | _ => true

namespace Operand

/-- If the operand is a number, then one above the least word. -/
def InRange (operand : Operand) : Prop :=
  ∀ n, operand.literal? = some n → -2 ^ 63 < n.toInt

/-- Whether the operand is anything but the least word. -/
def inRange (operand : Operand) : Bool :=
  operand.literal? != some Int64.minValue

variable {operand : Operand}

theorem inRange_eq_true : operand.inRange = true ↔ operand.literal? ≠ some Int64.minValue := by
  simp [inRange]

theorem inRange_iff : operand.inRange = true ↔ operand.InRange := by
  rw [inRange_eq_true]
  constructor
  · intro h n hn
    have hne : n.toInt ≠ -2 ^ 63 := fun heq =>
      h (hn.trans (congrArg some (Int64.toInt_inj.1 heq)))
    have hlower := n.le_toInt
    omega
  · intro h hmin
    exact absurd (h _ hmin) (by decide)

theorem inRange_of_literal?_eq_none (h : operand.literal? = none) : operand.inRange = true := by
  simp [inRange, h]

theorem inRange_ofNumber {n : Int64} (hn : n ≠ Int64.minValue) : (ofNumber n).inRange = true := by
  rw [inRange_eq_true, ofNumber, literal?, Text.signed?_numberText]
  exact fun h => hn (Option.some.inj h)

theorem inRange_named {token : Token} (hkind : token.kind = .ident)
    (h : token.isUnsigned = true) : (named token.value).inRange = true := by
  simp only [Token.isUnsigned, hkind, Option.isNone_iff_eq_none] at h
  exact inRange_of_literal?_eq_none h

end Operand

/-- The negation of a number in range is exact. -/
theorem Operand.InRange.toInt_neg {operand : Operand} {n : Int64} (h : operand.InRange)
    (hn : operand.literal? = some n) : (-n).toInt = -n.toInt := by
  refine Text.toInt_neg ?_
  rintro rfl
  exact Operand.inRange_eq_true.1 (Operand.inRange_iff.2 h) hn

end Operands

section Actions

/-- What an action reads has no sign in it. -/
def Action.Unsigned : Action → Prop
  | take kind token => token.kind = kind ∧ token.isUnsigned = true
  | skipCall name => name.kind = .ident ∧ name.isUnsigned = true
  | check fact => fact
  | _ => True

theorem Action.Performs.unsigned {action : Action} {s t : State} (h : action.Performs s t)
    (hs : ∀ token ∈ s.cursor.tokens, token.isUnsigned = true) : action.Unsigned := by
  cases action with
  | take kind token => exact ⟨h.1, hs token (Pass.mem_tokens_of_advance h.2)⟩
  | skipCall name =>
      obtain ⟨hkind, _, _, hadvance, _⟩ := h
      exact ⟨hkind, hs name (Pass.mem_tokens_of_advance hadvance)⟩
  | check fact => exact h.1
  | _ => trivial

theorem UnsignedLit.value_ne_minValue {lit : UnsignedLit}
    (h : ∀ action ∈ lit.log, action.Unsigned) : lit.value ≠ Int64.minValue := by
  simp only [log, List.forall_mem_cons] at h
  obtain ⟨⟨hkind, hdigits⟩, hvalue, _⟩ := h
  simp only [Token.isUnsigned, hkind] at hdigits
  exact (Text.toInt_of_signed? hdigits hvalue).2

theorem IntLit.value_ne_minValue {lit : IntLit} (h : ∀ action ∈ lit.log, action.Unsigned) :
    lit.value ≠ Int64.minValue := by
  have hdigits : lit.digits.value ≠ Int64.minValue :=
    UnsignedLit.value_ne_minValue (List.forall_mem_append.1 (List.forall_mem_append.1 h).2).1
  unfold value
  cases lit.sign with
  | none => exact hdigits
  | some sign =>
      dsimp only
      split
      · exact Text.neg_ne_minValue hdigits
      · exact hdigits

/-- Only names can stand for the least word. -/
theorem valueRule_inRange : ValueRule Action.Unsigned Operand.inRange where
  check _ h := h
  reg _ := rfl
  numeral _ h := Operand.inRange_ofNumber (IntLit.value_ne_minValue h)
  negated value n hvalue hn := by
    refine Operand.inRange_ofNumber (Text.neg_ne_minValue ?_)
    rintro rfl
    exact Operand.inRange_eq_true.1 hvalue hn
  char literal _ := Operand.inRange_of_literal?_eq_none (Text.signed?_ofChar literal.value)
  unknownCall fn h := by
    obtain ⟨hkind, hfn⟩ := h (.skipCall fn) (by simp [unknownCallLog])
    exact Operand.inRange_named hkind hfn

end Actions

section Compilations

variable {tokens : List Token} {c : Compilation}

theorem unsigned_of_compile (h : compile tokens = .ok c)
    (htokens : ∀ token ∈ tokens, token.isUnsigned = true) :
    ∀ action ∈ c.program.log, action.Unsigned := by
  intro action haction
  obtain ⟨t, hplays, _, _⟩ := plays_of_compile h
  obtain ⟨front, back, hlog⟩ := List.append_of_mem haction
  rw [hlog] at hplays
  obtain ⟨u, hfront, v, hperforms, _⟩ := plays_append.1 hplays
  refine hperforms.unsigned ?_
  rw [hfront.tokens]
  exact htokens

/-- Every number in the tree and in the code is above the least word. -/
structure Compilation.InRange (c : Compilation) : Prop where
  carried : ∀ node ∈ c.tree.preorder, ∀ operand, node.operand? = some operand → operand.InRange
  emitted : ∀ instr ∈ c.code, ∀ operand ∈ instr.operands, operand.InRange

/-- Every negation that is made while compiling is exact: that of a numeral behind a minus, and that
of the first operand of a chain. -/
structure Compilation.NegatesExactly (tokens : List Token) (c : Compilation) : Prop where
  numerals : ∀ token ∈ tokens, token.kind = .intLit → ∀ n,
    Text.signed? token.value.toList = some n → (-n).toInt = -n.toInt
  operands : ∀ node ∈ c.tree.preorder, ∀ chain, node.chain? = some chain →
    chain.negated = true → ∀ n, chain.first.literal? = some n → (-n).toInt = -n.toInt

/-- The tokens have `name = init`, where the text of `init` spells the least word though it is no
numeral, and `init` has been recorded as no value of a constant. -/
def Compilation.SetsToLeast (tokens : List Token) (c : Compilation) (name : String) : Prop :=
  ∃ ident assign init : Token, [ident, assign, init] <:+: tokens ∧ ident.kind = .ident ∧
    ident.value = name ∧ assign.kind = .assign ∧ init.kind ≠ .intLit ∧
    Text.signed? init.value.toList = some Int64.minValue ∧
    ⟨init.line, .constInitialiser⟩ ∈ c.diagnostics

/-- A constant that stands for the least word was not set to a literal. -/
theorem ConstItem.exists_other {scope : Scope} {ty : Ty} {item : ConstItem}
    (h : ∀ action ∈ item.log scope ty, action.Unsigned)
    (hleast : Text.signed? item.init.text.toList = some Int64.minValue) :
    ∃ token, item.init = .other token := by
  cases hinit : item.init with
  | char literal =>
      rw [hinit, ConstInit.text, Text.signed?_ofChar] at hleast
      cases hleast
  | int literal =>
      have hlog : ∀ action ∈ literal.log, action.Unsigned := fun action haction =>
        h action (by simp [log, ConstInit.log, ConstInit.takeLog, hinit, haction])
      rw [hinit, ConstInit.text, Operand.ofNumber, Operand.text, Text.signed?_numberText] at hleast
      exact absurd (Option.some.inj hleast) (IntLit.value_ne_minValue hlog)
  | other token => exact ⟨token, rfl⟩

theorem ConstItem.setsToLeast (h : compile tokens = .ok c)
    (htokens : ∀ token ∈ tokens, token.isUnsigned = true) {scope : Scope} {ty : Ty}
    {item : ConstItem} (hdefined : item.log scope ty <:+: c.program.log)
    (hleast : Text.signed? item.init.text.toList = some Int64.minValue) :
    c.SetsToLeast tokens item.name.value := by
  have hunsigned : ∀ action ∈ item.log scope ty, action.Unsigned := fun action haction =>
    unsigned_of_compile h htokens action (hdefined.subset haction)
  obtain ⟨init, hinit⟩ := exists_other hunsigned hleast
  have hlog : item.log scope ty = [.take .ident item.name, .checkRedefinition scope item.name,
      .take .assign item.assign, .report init.line .constInitialiser, .take init.kind init,
      .check (init.kind ≠ .charLit ∧ init.kind ≠ .intLit), .declareConst scope ty item] := by
    simp [log, ConstInit.log, ConstInit.takeLog, ConstInit.fits, ConstInit.token, Action.when, hinit]
  rw [hlog] at hunsigned hdefined
  rw [hinit, ConstInit.text] at hleast
  simp only [List.forall_mem_cons] at hunsigned
  obtain ⟨⟨hident, _⟩, _, ⟨hassign, _⟩, _, ⟨_, hdigits⟩, _⟩ := hunsigned
  obtain ⟨t, hplays, _, _⟩ := plays_of_compile h
  obtain ⟨front, back, u, v, _, hfront, hitem, _⟩ := hplays.of_infix hdefined
  have hrest : u.cursor.rest = [item.name, item.assign, init] ++ v.cursor.rest :=
    hitem.rest (by simp [Action.records])
  have hall : u.cursor.tokens = tokens := hfront.tokens
  refine ⟨item.name, item.assign, init, ⟨u.cursor.consumed.reverse, v.cursor.rest, ?_⟩, hident,
    rfl, hassign, ?_, hleast, ?_⟩
  · rw [← hall, Cursor.tokens, hrest, List.append_assoc]
  · intro hkind
    simp only [Token.isUnsigned, hkind] at hdigits
    exact (Text.toInt_of_signed? hdigits hleast).2 rfl
  · exact mem_diagnostics_of_report h (hdefined.subset (by simp))

theorem constProperty_substitute (text : String) :
    ConstProperty fun symbol => symbol.substitute? == some text where
  const symbol h := by
    cases hkind : symbol.kind with
    | const => rfl
    | _ => simp [Symbol.substitute?, hkind] at h
  addParameter symbol ty := by
    unfold Symbol.addParameter?
    cases ty.signatureCode? <;> rfl

/-- A name that is read and stands for the least word is one of a constant that was set to it. -/
theorem NameRef.setsToLeast (h : compile tokens = .ok c)
    (htokens : ∀ token ∈ tokens, token.isUnsigned = true) {ref : NameRef}
    (hlooked : ∀ action ∈ ref.readLog, action ∈ c.program.log)
    (hleast : ref.value.literal? = some Int64.minValue) : c.SetsToLeast tokens ref.token.value := by
  cases hvalue : ref.symbol.bind Symbol.substitute? with
  | none =>
      have htake := unsigned_of_compile h htokens _ (hlooked (.take .ident ref.token) (by
        simp [readLog, log]))
      have hrange := Operand.inRange_named htake.1 htake.2
      rw [value, hvalue] at hleast
      exact absurd hleast (Operand.inRange_eq_true.1 hrange)
  | some text =>
      rw [value, hvalue] at hleast
      have hnearest := hlooked (.nearest ref.token.value ref.symbol) (by simp [readLog, log])
      obtain ⟨t, hplays, _, _⟩ := plays_of_compile h
      obtain ⟨front, back, hlog⟩ := List.append_of_mem hnearest
      rw [hlog] at hplays
      obtain ⟨u, hfront, v, ⟨hfound, _⟩, _⟩ := plays_append.1 hplays
      obtain ⟨symbol, hsymbol, htext⟩ := Option.bind_eq_some_iff.1 hvalue
      have hconst : (u.scopes.nearest? ref.token.value).any
          (fun symbol => symbol.substitute? == some text) = true := by
        rw [hfound, hsymbol]
        simpa using htext
      obtain ⟨scope, ty, item, hmem, hname, hitem⟩ :=
        hfront.exists_const (constProperty_substitute text) hconst
      have hdefined := c.program.definesConsts_log scope ty item (by
        rw [hlog]
        exact List.mem_append_left _ hmem)
      obtain rfl : item.init.text = text := by
        simpa [ConstItem.symbol, Symbol.substitute?] using hitem
      rw [← hname]
      exact item.setsToLeast h htokens hdefined hleast

/-- The operands are in range if those are that names stand for. -/
theorem inRange_of_readNames (h : compile tokens = .ok c)
    (htokens : ∀ token ∈ tokens, token.isUnsigned = true)
    (hnames : ∀ ref ∈ c.program.readNames, ref.value.inRange = true) : c.InRange := by
  have hexpr : ∀ e ∈ c.program.exprs, e.value.inRange = true ∧
      Valued Operand.inRange e.log e.children := fun e he =>
    e.valued valueRule_inRange
      (fun action haction =>
        unsigned_of_compile h htokens action (c.program.log_of_exprs he action haction))
      fun ref href => hnames ref (List.mem_flatMap.2 ⟨e, he, href⟩)
  constructor
  · intro node hnode operand hoperand
    have hmem : operand ∈ annotations [c.tree] := Tree.mem_annotations.2 ⟨node, hnode, hoperand⟩
    obtain ⟨e, he, hmem⟩ := Program.mem_annotations.1 hmem
    obtain ⟨hvalue, hvalued⟩ := hexpr e he
    rw [← Operand.inRange_iff]
    rcases hmem with rfl | hmem
    · exact hvalue
    · exact List.all_eq_true.1 hvalued.carried operand hmem
  · intro instr hinstr operand hoperand
    obtain ⟨done, todo, hcode⟩ := List.append_of_mem hinstr
    obtain ⟨u, hemits, _⟩ := exists_emits_of_code h hcode
    obtain ⟨f, v, hbody, hemits⟩ :=
      (emits_iff_of_frames (Instr.frames_of_operands hoperand)).1 hemits
    have hall : (Stmt.logs f.head.ty f.body.stmts).all (Action.operandsAll Operand.inRange) = true :=
      Stmt.operandsAll_of_allExprs f.head.ty f.body.stmts fun e he => by
        obtain ⟨hvalue, hvalued⟩ := hexpr e (List.mem_flatMap.2 ⟨f, hbody.mem, he⟩)
        exact ⟨hvalue, hvalued.emitted⟩
    have hone := List.all_eq_true.1 hall _ hemits.mem
    exact Operand.inRange_iff.1 (List.all_eq_true.1 hone operand hoperand)

/-- The nodes of a program show every name that is read, so that the operands of none are in range
unless those are. -/
theorem Compilation.InRange.readNames (h : c.InRange) :
    ∀ ref ∈ c.program.readNames, ref.value.inRange = true := by
  intro ref href
  obtain ⟨e, he, href⟩ := List.mem_flatMap.1 href
  have hmem : ref.value ∈ annotations [c.tree] :=
    Program.mem_annotations.2 ⟨e, he, .inr (e.shown href).carried⟩
  obtain ⟨node, hnode, hoperand⟩ := Tree.mem_annotations.1 hmem
  exact Operand.inRange_iff.2 (h.carried node hnode ref.value hoperand)

/-- The first operand of a chain is carried by a child of its node. -/
theorem Tree.exists_child_of_chain? {tree : Tree} {chain : Chain} (h : tree.chain? = some chain) :
    ∃ child ∈ tree.children, child.operand? = some chain.first := by
  cases tree with
  | token t => cases h
  | node rule operand children =>
      obtain ⟨op?, _, hread⟩ := Option.bind_eq_some_iff.1 h
      fun_cases Chain.ofChildren? op? children with
      | case1 sign first rest =>
          simp only [Chain.ofChildren?, Option.pure_def, Option.bind_eq_bind,
            Option.bind_eq_some_iff] at hread
          obtain ⟨value, hvalue, _, _, heq⟩ := hread
          cases heq
          exact ⟨first, by simp [Tree.children], hvalue⟩
      | case2 inner value grandchildren rest =>
          simp only [Chain.ofChildren?, Option.pure_def, Option.bind_eq_bind,
            Option.bind_eq_some_iff] at hread
          obtain ⟨value, hvalue, _, _, heq⟩ := hread
          cases heq
          exact ⟨_, List.mem_cons_self, hvalue⟩
      | case3 children hsigned hplain =>
          rw [Chain.ofChildren?.eq_3 op? children hsigned hplain] at hread
          cases hread

theorem Compilation.InRange.negatesExactly (h : c.InRange)
    (htokens : ∀ token ∈ tokens, token.isUnsigned = true) : c.NegatesExactly tokens where
  numerals token htoken hkind n hn := by
    have hdigits := htokens token htoken
    simp only [Token.isUnsigned, hkind] at hdigits
    exact Text.toInt_neg (Text.toInt_of_signed? hdigits hn).2
  operands node hnode chain hchain _ n hn := by
    obtain ⟨child, hchild, hoperand⟩ := Tree.exists_child_of_chain? hchain
    have hmem := Tree.mem_preorder_of_children hnode hchild
    exact (h.carried child hmem chain.first hoperand).toInt_neg hn

/-- All operands are in range, and all negations exact, if and only if no name that is read stands
for the least word. A name that does is one of a constant which was set to the least word by a text
that is no numeral, and which has been recorded. -/
theorem compilation_inRange_iff (h : compile tokens = .ok c)
    (htokens : ∀ token ∈ tokens, token.isUnsigned = true) :
    (c.InRange ↔ ∀ ref ∈ c.program.readNames, ref.value.literal? ≠ some Int64.minValue) ∧
      (∀ ref ∈ c.program.readNames, ref.value.literal? = some Int64.minValue →
        c.SetsToLeast tokens ref.token.value) ∧
      (c.InRange → c.NegatesExactly tokens) := by
  refine ⟨⟨fun hrange ref href => ?_, fun hnames => ?_⟩, fun ref href hleast => ?_, fun hrange => ?_⟩
  · exact Operand.inRange_eq_true.1 (hrange.readNames ref href)
  · exact inRange_of_readNames h htokens fun ref href =>
      Operand.inRange_eq_true.2 (hnames ref href)
  · obtain ⟨e, he, href⟩ := List.mem_flatMap.1 href
    refine ref.setsToLeast h htokens (fun action haction => ?_) hleast
    exact c.program.log_of_exprs he action ((e.shown href).looked action haction)
  · exact hrange.negatesExactly htokens

end Compilations

/-- `const int k = 9223372036854775807, m = "-9223372036854775808"; void main() { printf(-k); }` -/
def greatestTokens : List Token :=
  scan 1 ["const int k = 9223372036854775807 , m = \"-9223372036854775808\" ;"] ++
    scan 1 ["void main ( ) \x7b printf ( - k ) ; \x7d"]

theorem inRange_greatestTokens : (∀ token ∈ greatestTokens, token.isUnsigned = true) ∧
    ∃ c, compile greatestTokens = .ok c ∧ c.diagnostics = [⟨1, .constInitialiser⟩] ∧
      .printInt (.named "-9223372036854775807") ∈ c.code ∧ c.InRange ∧
      c.NegatesExactly greatestTokens := by
  have htokens : ∀ token ∈ greatestTokens, token.isUnsigned = true := by decide +kernel
  have hc := eq_ok_get (compile greatestTokens) (by decide +kernel)
  obtain ⟨hiff, _, hnegates⟩ := compilation_inRange_iff hc htokens
  have hrange := hiff.2 (by decide +kernel)
  exact ⟨htokens, _, hc, by decide +kernel, by decide +kernel, hrange, hnegates hrange⟩

/-- `const int k = "-9223372036854775808"; void main() { printf(k); }` -/
def leastTokens : List Token :=
  scan 1 ["const int k = \"-9223372036854775808\" ; void main ( ) \x7b printf ( k ) ; \x7d"]

/-- A text may stand for the least word. -/
theorem not_inRange_leastTokens : (∀ token ∈ leastTokens, token.isUnsigned = true) ∧
    ∃ c, compile leastTokens = .ok c ∧ ¬ c.InRange := by
  have hc := eq_ok_get (compile leastTokens) (by decide +kernel)
  refine ⟨by decide +kernel, _, hc, fun hrange => ?_⟩
  have hoperand := hrange.emitted (.printInt (.named "-9223372036854775808")) (by decide +kernel) _
    List.mem_cons_self
  exact Operand.inRange_eq_true.1 (Operand.inRange_iff.2 hoperand) (by decide +kernel)

end OnePass
