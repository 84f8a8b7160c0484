import OnePass.Proofs.Grammar.Soundness
import OnePass.Proofs.Names.Reads
import OnePass.Proofs.Parts

/-!
The heads of functions. The parameters in the tree, the codes in the function's signature and the
parameters that the code announces are the same in number. In the tree they stand with commas
between them, as the grammar has it, or else with one more comma behind the last.
-/

namespace OnePass

namespace Grammar

/-- So many parameters with commas between them. -/
inductive ParameterTable : Nat → List TokenKind → Prop where
  | none : ParameterTable 0 []
  | one {param : List TokenKind} (hparam : Parameter param) : ParameterTable 1 param
  | cons {n : Nat} {param rest : List TokenKind} (hparam : Parameter param)
      (hrest : ParameterTable (n + 1) rest) : ParameterTable (n + 2) (param ++ .comma :: rest)

namespace ParameterTable

variable {n : Nat} {kinds : List TokenKind}

/-- The last parameter ends with its name. -/
theorem getLast?_eq (h : ParameterTable n kinds) (hn : 0 < n) : kinds.getLast? = some .ident := by
  induction h with
  | none => cases hn
  | one hparam =>
      obtain ⟨type, _, rfl⟩ := hparam
      rfl
  | cons _ _ ih => simp [List.getLast?_append, List.getLast?_cons, ih]

theorem getLast?_ne_comma (h : ParameterTable n kinds) : kinds.getLast? ≠ some .comma := by
  cases n with
  | zero =>
      cases h
      simp
  | succ n =>
      rw [h.getLast?_eq n.succ_pos]
      decide

end ParameterTable

end Grammar

section Parameters

/-- The kinds of the tokens that a log leaves in the tree, if no name in it is unknown. -/
theorem map_kind_leavesOf {log : List Action} {s t : State} (h : Plays log s t)
    (hregular : Regular log) : (leavesOf log).map Token.kind = logKinds log := by
  induction log generalizing s with
  | nil => rfl
  | cons action log ih =>
      obtain ⟨u, haction, hlog⟩ := h
      rw [leavesOf_cons, List.map_append, logKinds_cons, ih hlog hregular.tail]
      congr 1
      cases action with
      | take kind token => exact congrArg (· :: []) haction.1
      | skipCall name => cases (hregular.head .undefined List.mem_cons_self).2 rfl
      | _ => rfl

/-- Parameters are a table of them, or a table and a comma behind it. -/
theorem Params.exists_table (function : String) (params : Params)
    (h : Regular (params.log function)) :
    ∃ kinds, Grammar.ParameterTable params.toList.length kinds ∧
      (logKinds (params.log function) = kinds ∨
        0 < params.toList.length ∧ logKinds (params.log function) = kinds ++ [.comma]) := by
  induction params with
  | nil => exact ⟨[], .none, .inl rfl⟩
  | last param => exact ⟨_, .one (param.sentence function h), .inl rfl⟩
  | cons param comma rest ih =>
      have hparam := param.sentence function h.left
      have hkinds : logKinds ((Params.cons param comma rest).log function) =
          logKinds (param.log function) ++ .comma :: logKinds (rest.log function) := by
        simp [Params.log, Action.kinds]
      obtain ⟨kinds, htable, hrest⟩ := ih h.right.tail
      rw [hkinds, Params.toList, List.length_cons]
      generalize rest.toList.length = n at htable hrest
      cases n with
      | zero =>
          cases htable
          rcases hrest with hnone | ⟨hpos, _⟩
          · exact ⟨_, .one hparam, .inr ⟨Nat.one_pos, by rw [hnone]⟩⟩
          · cases hpos
      | succ n =>
          refine ⟨_, .cons hparam htable, ?_⟩
          rcases hrest with hrest | ⟨_, hrest⟩
          · exact .inl (by rw [hrest])
          · exact .inr ⟨Nat.succ_pos _, by rw [hrest]; simp⟩

/-- The parameters of a function as they are written, if it may have any. -/
def FunctionHead.table? : FunctionHead → Option Params
  | value _ _ _ params _ => some params
  | void _ _ _ params _ => some params
  | main _ _ _ _ => none

variable {head : FunctionHead} {params : Params}

theorem FunctionHead.params_of_table? (h : head.table? = some params) :
    head.params = params.toList := by
  cases head <;> cases h <;> rfl

theorem FunctionHead.infix_of_table? (h : head.table? = some params) :
    params.log head.name.value <:+: head.log := by
  cases head with
  | value type name lparen params rparen =>
      cases h
      exact ⟨type.log ++ (.take .ident name :: (openFunctionLog type.ty name ++
        [.take .lparen lparen])), recoverLog .rparen .missingParen rparen, by
          simp [FunctionHead.log, FunctionHead.name]⟩
  | void keyword name lparen params rparen =>
      cases h
      exact ⟨.take .kwVoid keyword :: .take .ident name :: (openFunctionLog .void name ++
        [.take .lparen lparen]), recoverLog .rparen .missingParen rparen, by
          simp [FunctionHead.log, FunctionHead.name]⟩
  | main keyword name lparen rparen => cases h

theorem Program.infix_of_function {program : Program} {f : Function}
    (h : .function f ∈ program.items) : f.head.log <:+: program.log := by
  have hitem : f.log <:+: program.items.flatMap TopLevel.log :=
    List.infix_of_mem_flatten (List.mem_map_of_mem h)
  exact (List.prefix_append _ _).isInfix.trans
    (hitem.trans (List.prefix_append _ _).isInfix)

end Parameters

section Nodes

open OnePass.Tree (gather parameters? sparse_parameters?)

mutual

/-- There are no nodes of parameters in an expression. -/
theorem Expr.gather_parameters? : (e : Expr) → gather parameters? e.children = []
  | .term t | .positive _ t | .negative _ t _ => by
      simp [Expr.children, Tree.gather_node_cons, parameters?, Tree.rule?, t.gather_parameters?,
        sparse_parameters?.token_cons]
  | .chain lhs _ _ rhs _ => by
      simp [Expr.children, Tree.gather_node_cons, parameters?, Tree.rule?, lhs.gather_parameters?,
        rhs.gather_parameters?, sparse_parameters?.token_cons]

theorem Term.gather_parameters? : (t : Term) → gather parameters? t.children = []
  | .factor f => by
      simp [Term.children, Tree.gather_node_cons, parameters?, Tree.rule?, f.gather_parameters?]
  | .chain lhs _ _ rhs _ => by
      simp [Term.children, Tree.gather_node_cons, parameters?, Tree.rule?, lhs.gather_parameters?,
        rhs.gather_parameters?, sparse_parameters?.token_cons]

theorem Factor.gather_parameters? : (f : Factor) → gather parameters? f.children = []
  | .name _ | .unknownCall _ | .char _ => by
      simp [Factor.children, sparse_parameters?.token_cons]
  | .element _ _ e _ _ | .paren _ e _ => by
      simp [Factor.children, Tree.gather_node_cons, parameters?, Tree.rule?, e.gather_parameters?,
        sparse_parameters?.token_cons, sparse_parameters?.optional]
  | .call c _ => by
      simp [Factor.children, sparse_parameters?.inner_cons, c.gather_parameters?]
  | .int literal => by
      simp [Factor.children, literal.gather_cons sparse_parameters?]

theorem Call.gather_parameters? : (c : Call) → gather parameters? c.children = []
  | .mk _ _ _ args _ => by
      simp [Call.children, sparse_parameters?.token_cons, sparse_parameters?.inner_cons,
        sparse_parameters?.optional, args.gather_parameters?]

theorem Args.gather_parameters? : (args : Args) → gather parameters? args.children = []
  | .nil => by simp [Args.children]
  | .first e => by
      simp [Args.children, Tree.gather_node_cons, parameters?, Tree.rule?, e.gather_parameters?]
  | .more init _ e => by
      simp [Args.children, Tree.gather_node_cons, parameters?, Tree.rule?, e.gather_parameters?,
        init.gather_parameters?, sparse_parameters?.token_cons]

end

/-- The only node of parameters in a function is in its head. -/
theorem Function.gather_parameters? (f : Function) : gather parameters? [f.tree] =
    (f.head.table?.map fun params => .inner .parameters params.children).toList := by
  have hexprs : ∀ exprs : List Expr, gather parameters? (exprs.map Expr.tree) = [] := by
    intro exprs
    rw [List.map_eq_flatMap]
    refine Tree.gather_flatMap_eq_nil (fun e => ?_) exprs
    simp [Expr.tree, Tree.gather_node_cons, parameters?, Tree.rule?, e.gather_parameters?]
  have htable : ∀ (params : Params) (forest : List Tree),
      gather parameters? (.inner .parameters params.children :: forest) =
        .inner .parameters params.children :: gather parameters? forest := by
    intro params forest
    refine (Tree.gather_node_cons _ _ _ _).trans ?_
    rw [params.gather_children sparse_parameters?]
    rfl
  rw [f.gather_tree sparse_parameters?, hexprs, List.append_nil]
  cases f.head <;>
    simp [FunctionHead.children, FunctionHead.table?, htable, sparse_parameters?.token_cons,
      sparse_parameters?.inner_cons, sparse_parameters?.optional]

theorem FunctionHead.mem_children_of_table? {head : FunctionHead} {params : Params}
    (h : head.table? = some params) : .inner .parameters params.children ∈ head.children := by
  cases head with
  | value type name lparen params rparen | void keyword name lparen params rparen =>
      cases h
      simp [children]
  | main keyword name lparen rparen => cases h

theorem Program.exists_of_parameters {program : Program} {node : Tree}
    (h : node ∈ program.tree.preorder) (hrule : node.rule? = some .parameters) :
    ∃ f params, .function f ∈ program.items ∧ f.head.table? = some params ∧
      node = .inner .parameters params.children ∧ node ∈ f.head.children := by
  have hmem := Tree.mem_gather_parameters? h hrule
  rw [program.gather_tree sparse_parameters?, List.mem_flatMap] at hmem
  obtain ⟨f, hf, hnode⟩ := hmem
  rw [f.gather_parameters?, Option.mem_toList, Option.map_eq_some_iff] at hnode
  obtain ⟨params, htable, rfl⟩ := hnode
  exact ⟨f, params, Program.mem_functions.1 hf, htable, rfl,
    FunctionHead.mem_children_of_table? htable⟩

end Nodes

section Counts

/-- Whether an instruction announces a parameter. -/
def Instr.isParam : Instr → Bool
  | param _ _ => true
  | _ => false

/-- A function has so many parameters: in its signature, and in the code behind its
announcement. -/
structure Compilation.Counts (c : Compilation) (f : Function) (n : Nat) : Prop where
  signature : ∃ symbol, c.symbol? Pass.globalName f.head.name.value = some symbol ∧
    symbol.kind = .function ∧ symbol.parameterCount = n
  announced : ∃ front back,
    c.code = front ++ .funcDeclare f.head.ty f.head.name.value :: back ∧
      (back.takeWhile Instr.isParam).length = n

theorem length_takeWhile_isParam (code : List Instr) :
    (code.takeWhile Instr.isParam).length = (leadingParams code).length := by
  induction code with
  | nil => rfl
  | cons instr code ih =>
      cases instr with
      | param ty name => exact congrArg (· + 1) ih
      | _ => rfl

/-- The parameters of a function are all that is announced as such behind it, whatever comes after
the function. -/
theorem Function.exists_code (f : Function) :
    ∃ back, f.code = .funcDeclare f.head.ty f.head.name.value :: back ∧
      ∀ more, ((back ++ more).takeWhile Instr.isParam).length = f.head.params.length := by
  refine ⟨f.inner ++ [.functionEnd], f.code_eq, fun more => ?_⟩
  rw [length_takeWhile_isParam, List.append_assoc, List.singleton_append, f.leadingParams_inner,
    FunctionHead.paramTypes, List.length_map]

variable {tokens : List Token} {c : Compilation} {f : Function}

theorem symbol?_of_function (h : compile tokens = .ok c)
    (hquiet : ∀ d ∈ c.diagnostics, d.kind ≠ .redefinition) (hf : .function f ∈ c.program.items) :
    c.symbol? Pass.globalName f.head.name.value = some f.head.symbol := by
  obtain ⟨table, htable, hholds⟩ := tableHolds_globals h hquiet
  have hmem : f.head.symbol ∈ c.program.globals :=
    List.mem_flatMap.2 ⟨_, hf, List.mem_singleton_self _⟩
  have hentry : (f.head.name.value, f.head.symbol) ∈ table.toList :=
    hholds.mem_iff.2 (List.mem_map.2 ⟨_, hmem, by rw [f.head.name_symbol]⟩)
  rw [Compilation.symbol?, htable]
  exact Std.TreeMap.mem_toList_iff_getElem?_eq_some.1 hentry

theorem counts_of_compile (h : compile tokens = .ok c)
    (hquiet : ∀ d ∈ c.diagnostics, d.kind ≠ .redefinition) (hf : .function f ∈ c.program.items) :
    c.Counts f f.head.params.length := by
  refine ⟨⟨f.head.symbol, symbol?_of_function h hquiet hf, f.head.kind_symbol, ?_⟩, ?_⟩
  · rw [FunctionHead.parameterCount_symbol (FunctionHead.ne_void_of_compile h hf),
      FunctionHead.paramTypes, List.length_map]
  · obtain ⟨before, after, hitems⟩ := List.append_of_mem hf
    obtain ⟨back, hcode, hlength⟩ := f.exists_code
    refine ⟨before.flatMap TopLevel.code, back ++ after.flatMap TopLevel.code, ?_, hlength _⟩
    rw [code_of_compile h, hitems, List.flatMap_append, List.flatMap_cons, TopLevel.code, hcode]
    rfl

end Counts

section Compilations

/-- The heads of all functions are written as the grammar has it, and agree with the signatures and
with the code in the number of parameters. -/
def Compilation.HeadsMatch (c : Compilation) : Prop :=
  ∀ node ∈ c.tree.preorder, node.rule? = some .parameters →
    ∃ f n, .function f ∈ c.program.items ∧ node ∈ f.head.children ∧
      Grammar.ParameterTable n (node.tokens.map Token.kind) ∧ c.Counts f n

variable {tokens : List Token} {c : Compilation}

/-- The tokens of a node of parameters are a table of them, or a table and a comma behind it. -/
theorem exists_table_of_compile (h : compile tokens = .ok c) (hclean : c.diagnostics = [])
    {node : Tree} (hnode : node ∈ c.tree.preorder) (hrule : node.rule? = some .parameters) :
    ∃ f n kinds, .function f ∈ c.program.items ∧ node ∈ f.head.children ∧
      Grammar.ParameterTable n kinds ∧ c.Counts f n ∧
      (node.tokens.map Token.kind = kinds ∨
        0 < n ∧ node.tokens.map Token.kind = kinds ++ [.comma]) := by
  obtain ⟨f, params, hf, htable, rfl, hmem⟩ := Program.exists_of_parameters hnode hrule
  obtain ⟨t, hplays, _, _⟩ := plays_of_compile h
  have hregular := regular_of_compile h (by simp [hclean])
  have hpart := (FunctionHead.infix_of_table? htable).trans (Program.infix_of_function hf)
  obtain ⟨_, _, u, v, _, _, hparams, _⟩ := hplays.of_infix hpart
  have hown : Regular (params.log f.head.name.value) := fun action haction =>
    hregular action (hpart.subset haction)
  have hkinds : (Tree.inner .parameters params.children).tokens.map Token.kind =
      logKinds (params.log f.head.name.value) := by
    rw [← map_kind_leavesOf hparams hown, ← params.tokensOf_children]
    simp [Tree.tokens]
  obtain ⟨kinds, hkindsTable, hcases⟩ := params.exists_table f.head.name.value hown
  have hcounts := counts_of_compile h (by simp [hclean]) hf
  rw [FunctionHead.params_of_table? htable] at hcounts
  rw [hkinds]
  exact ⟨f, _, kinds, hf, hmem, hkindsTable, hcounts, hcases⟩

/-- Whether some parameters in the tree end with a comma. -/
def Compilation.endsWithComma (c : Compilation) : Bool :=
  c.tree.preorder.any fun node => node.rule? == some .parameters &&
    (node.tokens.map Token.kind).getLast? == some .comma

theorem Compilation.HeadsMatch.endsWithComma (h : c.HeadsMatch) : c.endsWithComma = false := by
  rw [Compilation.endsWithComma, List.any_eq_false]
  intro node hnode hends
  rw [Bool.and_eq_true, beq_iff_eq, beq_iff_eq] at hends
  obtain ⟨_, _, _, _, hkinds, _⟩ := h node hnode hends.1
  exact hkinds.getLast?_ne_comma hends.2

/-- In every head the parameters of the tree, of the signature and of the code are the same in
number, and those of the tree are written as the grammar has it but for a comma behind the last. So
all heads are written that way exactly when none has such a comma. -/
theorem headsMatch_iff (h : compile tokens = .ok c) (hclean : c.diagnostics = []) :
    (∀ node ∈ c.tree.preorder, node.rule? = some .parameters →
      ∃ f n kinds, .function f ∈ c.program.items ∧ node ∈ f.head.children ∧
        Grammar.ParameterTable n kinds ∧ c.Counts f n ∧
        (node.tokens.map Token.kind = kinds ∨
          0 < n ∧ node.tokens.map Token.kind = kinds ++ [.comma])) ∧
    (c.HeadsMatch ↔ c.endsWithComma = false) := by
  have htable : ∀ node ∈ c.tree.preorder, node.rule? = some .parameters → _ :=
    fun node hnode hrule => exists_table_of_compile h hclean hnode hrule
  refine ⟨htable, Compilation.HeadsMatch.endsWithComma, fun hnone node hnode hrule => ?_⟩
  obtain ⟨f, n, kinds, hf, hmem, hkinds, hcounts, heq | ⟨_, heq⟩⟩ := htable node hnode hrule
  · exact ⟨f, n, hf, hmem, heq ▸ hkinds, hcounts⟩
  · rw [Compilation.endsWithComma, List.any_eq_false] at hnone
    exact absurd (by simp [hrule, heq]) (hnone node hnode)

/-- `int f(int a, char b) { return (a); } void main() { f(1, 'c'); }` -/
def parametersTokens : List Token :=
  scan 1 ["int f ( int a , char b ) \x7b return ( a ) ; \x7d"] ++
    scan 1 ["void main ( ) \x7b f ( 1 , 'c' ) ; \x7d"]

theorem headsMatch_parametersTokens : ∃ c, compile parametersTokens = .ok c ∧
    c.diagnostics = [] ∧ c.tree.count .parameters = 1 ∧ c.HeadsMatch := by
  have hc := eq_ok_get (compile parametersTokens) (by decide +kernel)
  refine ⟨_, hc, by decide +kernel, by decide +kernel, ?_⟩
  exact (headsMatch_iff hc (by decide +kernel)).2.2 (by decide +kernel)

/-- `void f(int a,) { } void main() { }` -/
def trailingCommaTokens : List Token :=
  scan 1 ["void f ( int a , ) \x7b \x7d void main ( ) \x7b \x7d"]

/-- A comma behind the last parameter is let through without a word. -/
theorem not_headsMatch_trailingCommaTokens : ∃ c, compile trailingCommaTokens = .ok c ∧
    c.diagnostics = [] ∧ ¬ c.HeadsMatch := by
  have hc := eq_ok_get (compile trailingCommaTokens) (by decide +kernel)
  refine ⟨_, hc, by decide +kernel, fun hall => ?_⟩
  exact absurd hall.endsWithComma (by decide +kernel)

end Compilations

end OnePass
