import OnePass.Proofs.Lossless
import OnePass.Proofs.Trace.Pushes

/-!
The trace says all. What a compilation puts into the code is legible if its tokens are and no wrong
initialiser is recorded: names are those of tokens, and constants stand for literals. The code is
then read back from its text, and the arguments of calls are completed, so that no two programs have
the same text and different code.
-/

namespace OnePass

open Instr

/-- Whether a token has the shape in which a scanner hands it over, a character being no line feed
and `main` being called so. -/
def Token.isLegible (token : Token) : Bool :=
  token.isScanned &&
    match token.kind with
    | .charLit => token.value != "\n"
    | .kwMain => token.value == "main"
    | _ => true

namespace Token

variable {token : Token}

theorem isName_of_isLegible (h : token.isLegible = true) (hkind : token.kind = .ident) :
    Text.isName token.value = true := by
  simpa [isLegible, isScanned, hkind] using h

theorem value_of_isLegible (h : token.isLegible = true) (hkind : token.kind = .kwMain) :
    token.value = "main" := by
  simpa [isLegible, isScanned, hkind] using h

theorem legible_ofChar (h : token.isLegible = true) (hkind : token.kind = .charLit) :
    (Operand.ofChar token.value).Legible := by
  simp only [isLegible, isScanned, hkind, Bool.and_eq_true, decide_eq_true_eq, bne_iff_ne] at h
  obtain ⟨c, hc⟩ := List.length_eq_one_iff.1 h.1
  refine .quoted hc ?_
  rintro rfl
  exact h.2 (String.toList_inj.1 hc)

end Token

/-- What a constant stands for can stand in a line. -/
def Symbol.Legible (symbol : Symbol) : Prop :=
  ∀ text ∈ symbol.substitute?, (Operand.named text).Legible

theorem ConstInit.legible {init : ConstInit} {ty : Ty} {cursor : Cursor}
    (htokens : ∀ token ∈ cursor.tokens, token.isLegible = true) (hfits : init.fits ty = true)
    (h : init.Behind cursor) : (Operand.named init.text).Legible := by
  cases init with
  | char literal =>
      have hmem : literal ∈ cursor.tokens := List.mem_append_left _ (List.mem_reverse.2 h.2)
      exact Token.legible_ofChar (htokens literal hmem) h.1
  | int literal => exact .plain (Text.plain_numberText _)
  | other token => cases hfits

theorem symbolRule_legible : SymbolRule Token.isLegible Symbol.Legible where
  other symbol h := by
    have hnone : symbol.substitute? = none := by simp [Symbol.substitute?]
    simp [Symbol.Legible, hnone]
  const item ty cursor htokens hfits hbehind := by
    rintro text htext
    obtain rfl := Option.some.inj htext
    exact ConstInit.legible htokens hfits hbehind
  addParameter symbol ty h := by
    unfold Symbol.addParameter?
    cases ty.signatureCode? with
    | none => exact h
    | some code => exact h

/-- What an action reads can stand in a line. -/
def Action.Legible : Action → Prop
  | take kind token => token.kind = kind ∧ token.isLegible = true
  | skipCall name => name.kind = .ident ∧ name.isLegible = true
  | nearest _ symbol => ∀ found ∈ symbol, found.Legible
  | check fact => fact
  | _ => True

theorem Action.Performs.legible {action : Action} {s t : State} (h : action.Performs s t)
    (hs : s.Keeps Token.isLegible Symbol.Legible) (hclean : ¬ s.HasMisfit) : action.Legible := by
  cases action with
  | take kind token => exact ⟨h.1, hs.shaped token (Pass.mem_tokens_of_advance h.2)⟩
  | skipCall name =>
      obtain ⟨hkind, _, _, hadvance, _⟩ := h
      exact ⟨hkind, hs.shaped name (Pass.mem_tokens_of_advance hadvance)⟩
  | nearest name symbol =>
      intro found hfound
      have hsymbols := hs.symbols.resolve_left hclean
      exact hsymbols.nearest (h.1.trans hfound)
  | check fact => exact h.1
  | _ => trivial

section Statements

theorem NameRef.isName_of_log {ref : NameRef} (h : ∀ action ∈ ref.log, action.Legible) :
    Text.isName ref.token.value = true := by
  obtain ⟨hkind, htoken⟩ := h (.take .ident ref.token) (by simp [log])
  exact Token.isName_of_isLegible htoken hkind

theorem NameRef.legible_value {ref : NameRef} (h : ∀ action ∈ ref.log, action.Legible) :
    ref.value.Legible := by
  unfold value
  cases hvalue : ref.symbol.bind Symbol.substitute? with
  | none => exact .plain (Text.plain_of_isName (isName_of_log h))
  | some text =>
      obtain ⟨symbol, hsymbol, htext⟩ := Option.bind_eq_some_iff.1 hvalue
      exact h (.nearest ref.token.value ref.symbol) (by simp [log]) symbol hsymbol text htext

open Classical in
/-- The operands that are made of what is legible are so themselves. -/
theorem operandRule_legible :
    OperandRule Action.Legible fun operand => decide operand.Legible where
  check _ h := h
  reg r := decide_eq_true (.reg r)
  number n := decide_eq_true (.plain (Text.plain_numberText n))
  char _ h := decide_eq_true (Token.legible_ofChar h.2 h.1)
  name _ h := decide_eq_true (NameRef.legible_value (List.forall_mem_append.1 h).1)
  unknownCall fn h := by
    obtain ⟨hkind, hfn⟩ := h (.skipCall fn) (by simp [unknownCallLog])
    exact decide_eq_true (.plain (Text.plain_of_isName (Token.isName_of_isLegible hfn hkind)))

theorem Use.isName_of_log {use : Use} (h : ∀ action ∈ use.log, action.Legible) :
    Text.isName use.ref.token.value = true := by
  obtain ⟨role, ref⟩ := use
  refine NameRef.isName_of_log fun action haction => h action ?_
  cases role <;> exact List.mem_append_left _ haction

theorem isName_of_callee {log : List Action} (h : ∀ action ∈ log, action.Legible) :
    AllCalls (fun call => Text.isName call.name.value = true) log := by
  intro call hcall
  obtain ⟨hkind, hname⟩ := h (.take .ident call.name) (hcall.subset (by
    cases call
    simp [Call.entry, Call.log, Call.name]))
  exact Token.isName_of_isLegible hname hkind

variable {ty : Ty} {stmts : List Stmt} {instr : Instr}

/-- Statements are compiled to legible code. -/
theorem Stmt.legible_of_mem_codes (h : ∀ action ∈ Stmt.logs ty stmts, action.Legible)
    (hinstr : instr ∈ Stmt.codes stmts) : instr.Legible := by
  have hexecutes := Stmt.executes_of_mem_codes hinstr
  rw [← Stmt.codes_logs ty stmts] at hinstr
  have hemit := emit_mem_of_mem_code hinstr
  constructor
  · intro operand hoperand
    have hall := Stmt.operandsAll_logs operandRule_legible ty stmts h
    have hone := List.all_eq_true.1 (List.all_eq_true.1 hall _ hemit) operand hoperand
    simpa using hone
  · intro mention hmention
    have hmem : mention ∈ mentionsOf (Stmt.logs ty stmts) := List.mem_flatMap.2 ⟨_, hemit, hmention⟩
    rw [Stmt.mentionsOf_logs] at hmem
    obtain ⟨use, huse, rfl⟩ := List.mem_map.1 hmem
    exact use.isName_of_log fun action haction =>
      h action (Stmt.logs_subset ty stmts use huse haction)
  · intro function hfunction
    have hcalls := (Stmt.makes_all ty stmts (isName_of_callee h)).calls
    obtain ⟨call, hname, hcallee⟩ :=
      hcalls.exists_call (List.mem_filter.2 ⟨hinstr, by rw [hfunction]; rfl⟩)
    obtain rfl := Option.some.inj (hfunction.symm.trans hcallee)
    exact hname
  · intro name hname
    cases instr with
    | param ty name | var ty name length | funcDeclare ty name => cases hexecutes
    | _ => cases hname
  · rintro dst name rfl
    cases hexecutes

end Statements

section Declarations

theorem Instr.Legible.of_announced {instr : Instr} {name : String}
    (hinstr : instr.announced? = some name) (hname : Text.isName name = true) :
    instr.Legible := by
  have hannounced : ∀ other ∈ instr.announced?, Text.isName other = true := by
    rw [hinstr]
    rintro other ⟨⟩
    exact hname
  cases instr with
  | param ty name | var ty name length | funcDeclare ty name =>
      exact ⟨by simp [Instr.operands], by simp [Instr.mentions], by simp [Instr.callee?],
        hannounced, by simp⟩
  | _ => cases hinstr

theorem VarDecl.legible_of_mem_code {scope : Scope} {decl : VarDecl} {instr : Instr}
    (h : ∀ action ∈ decl.log scope, action.Legible) (hinstr : instr ∈ decl.code) :
    instr.Legible := by
  obtain ⟨item, hitem, hvar⟩ := List.mem_flatMap.1 hinstr
  obtain rfl := List.mem_singleton.1 hvar
  have htake : .take .ident item.name ∈ decl.log scope := by
    have hown : .take .ident item.name ∈ item.log scope decl.type.ty := by simp [VarItem.log]
    have hitems : .take .ident item.name ∈ decl.items.log (VarItem.log scope decl.type.ty) :=
      CommaList.subset_log hitem hown
    simp [VarDecl.log, hitems]
  obtain ⟨hkind, hname⟩ := h _ htake
  exact .of_announced rfl (Token.isName_of_isLegible hname hkind)

namespace FunctionHead

variable {head : FunctionHead}

/-- A function is called by a name, which may be `main`. -/
theorem isName_name (h : ∀ action ∈ head.log, action.Legible) :
    Text.isName head.name.value = true := by
  cases head with
  | value type fn lparen params rparen =>
      obtain ⟨hkind, hfn⟩ := h (.take .ident fn) (by simp [log])
      exact Token.isName_of_isLegible hfn hkind
  | void keyword fn lparen params rparen =>
      obtain ⟨hkind, hfn⟩ := h (.take .ident fn) (by simp [log])
      exact Token.isName_of_isLegible hfn hkind
  | main keyword fn lparen rparen =>
      obtain ⟨hkind, hfn⟩ := h (.take .kwMain fn) (by simp [log])
      rw [name, Token.value_of_isLegible hfn hkind]
      decide

theorem isName_param (h : ∀ action ∈ head.log, action.Legible) {param : Param}
    (hparam : param ∈ head.params) : Text.isName param.name.value = true := by
  have htake : .take .ident param.name ∈ head.log := subset_log hparam (by simp [Param.log])
  obtain ⟨hkind, hname⟩ := h _ htake
  exact Token.isName_of_isLegible hname hkind

end FunctionHead

theorem Function.legible_of_mem_code {f : Function} {instr : Instr}
    (h : ∀ action ∈ f.log, action.Legible) (hinstr : instr ∈ f.code) : instr.Legible := by
  simp only [Function.log, Body.log, List.forall_mem_append, List.forall_mem_cons] at h
  obtain ⟨hhead, _, _, ⟨_, hvars, hstmts, _⟩, _⟩ := h
  have hclosing : Instr.retVoid.Legible ∧ Instr.functionEnd.Legible := by
    constructor <;>
      exact ⟨by simp [operands], by simp [mentions], by simp [callee?], by simp [announced?],
        by simp⟩
  simp only [code_eq, inner, List.mem_cons, List.mem_append, List.mem_map] at hinstr
  rcases hinstr with rfl | (⟨param, hparam, rfl⟩ | hvar | hstmt | hret) | rfl | hnil
  · exact .of_announced rfl (FunctionHead.isName_name hhead)
  · exact .of_announced rfl (FunctionHead.isName_param hhead hparam)
  · obtain ⟨decl, hdecl, hcode⟩ := List.mem_flatMap.1 hvar
    exact decl.legible_of_mem_code (fun action haction =>
      hvars action (List.mem_flatMap.2 ⟨decl, hdecl, haction⟩)) hcode
  · exact Stmt.legible_of_mem_codes hstmts hstmt
  · split at hret
    · obtain rfl := List.mem_singleton.1 hret
      exact hclosing.1
    · cases hret
  · exact hclosing.2
  · cases hnil

theorem TopLevel.legible_of_mem_code {item : TopLevel} {instr : Instr}
    (h : ∀ action ∈ item.log, action.Legible) (hinstr : instr ∈ item.code) : instr.Legible := by
  cases item with
  | consts decls => cases hinstr
  | vars decls =>
      obtain ⟨decl, hdecl, hcode⟩ := List.mem_flatMap.1 hinstr
      exact decl.legible_of_mem_code (fun action haction =>
        h action (List.mem_flatMap.2 ⟨decl, hdecl, haction⟩)) hcode
  | function f => exact f.legible_of_mem_code h hinstr

end Declarations

section Compilations

variable {tokens others : List Token} {c d : Compilation}

/-- No constant was set to anything but a literal of its type. -/
def Compilation.InitialisersFit (c : Compilation) : Prop :=
  ∀ d ∈ c.diagnostics, d.kind ≠ .constInitialiser

instance (c : Compilation) : Decidable c.InitialisersFit :=
  List.decidableBAll _ c.diagnostics

theorem legible_of_compile (h : compile tokens = .ok c)
    (htokens : ∀ token ∈ tokens, token.isLegible = true) (hfits : c.InitialisersFit) :
    ∀ instr ∈ c.code, instr.Legible := by
  obtain ⟨t, hplays, _, hc⟩ := plays_of_compile h
  have hclean : ¬ t.HasMisfit := by
    rintro ⟨d, hd, hkind⟩
    refine hfits d ?_ hkind
    rw [hc]
    exact hd
  have hstart : (State.start {} tokens).Keeps Token.isLegible Symbol.Legible := by
    refine ⟨htokens, Or.inr ?_⟩
    intro scope name symbol hfound
    cases scope <;> simp [State.start, Scopes.lookup?, Scopes.table] at hfound
  intro instr hinstr
  rw [code_of_compile h] at hinstr
  obtain ⟨item, hitem, hcode⟩ := List.mem_flatMap.1 hinstr
  refine item.legible_of_mem_code (fun action haction => ?_) hcode
  have hmem : action ∈ c.program.log :=
    List.mem_append_left _ (List.mem_flatMap.2 ⟨item, hitem, haction⟩)
  obtain ⟨u, v, hkeeps, hbefore, hperforms⟩ :=
    hstart.exists_performs symbolRule_legible hplays hclean hmem
  exact hperforms.legible hkeeps hbefore

/-- The code of a program is read back from its trace. -/
theorem restore_unrender?_trace (h : compile tokens = .ok c)
    (htokens : ∀ token ∈ tokens, token.isLegible = true) (hfits : c.InitialisersFit) :
    (unrender? c.trace).map (restore []) = some c.code := by
  rw [Compilation.trace, unrender?_render (legible_of_compile h htokens hfits), Option.map_some,
    restore_of_compile h]

/-- Programs with the same trace have the same code. -/
theorem code_eq_of_trace_eq (hc : compile tokens = .ok c) (hd : compile others = .ok d)
    (htokens : ∀ token ∈ tokens, token.isLegible = true)
    (hothers : ∀ token ∈ others, token.isLegible = true) (hcfits : c.InitialisersFit)
    (hdfits : d.InitialisersFit) (htrace : c.trace = d.trace) : c.code = d.code := by
  have hcode := restore_unrender?_trace hc htokens hcfits
  rw [htrace, restore_unrender?_trace hd hothers hdfits] at hcode
  exact (Option.some.inj hcode).symm

end Compilations

/-- `const int one = 1;` in front of the functions of `nestedCallTokens`, with the constant in place
of the numeral. -/
def namedCallTokens : List Token :=
  scan 1 ["const int one = 1 ;"] ++
    nestedCallTokens.map fun token =>
      if token.kind = .intLit then { token with kind := .ident, value := "one" } else token

theorem code_eq_namedCall : ∃ c d, compile nestedCallTokens = .ok c ∧
    compile namedCallTokens = .ok d ∧ c.trace = d.trace ∧
    .push "f" (.named "1") 0 ∈ c.code ∧ c.code = d.code := by
  have hc := eq_ok_get (compile nestedCallTokens) (by decide +kernel)
  have hd := eq_ok_get (compile namedCallTokens) (by decide +kernel)
  refine ⟨_, _, hc, hd, by decide +kernel, by decide +kernel, ?_⟩
  exact code_eq_of_trace_eq hc hd (by decide +kernel) (by decide +kernel) (by decide +kernel)
    (by decide +kernel) (by decide +kernel)

end OnePass
