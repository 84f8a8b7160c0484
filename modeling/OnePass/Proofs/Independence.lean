import OnePass.Proofs.Grammar.Completeness.Program
import OnePass.Proofs.Locality
import OnePass.Proofs.Lossless
import OnePass.Proofs.Rename.Resume

/-!
Functions are compiled independently of each other. Of a function all that matters behind it is its
head: with another body the rest of the program gives the same error or the same diagnostics, and
the same code but for an offset of its registers, its labels and its texts.
-/

namespace OnePass

open Pass

/-- The tokens of a function with this name, up to its opening brace. -/
def IsOpening (name : String) (tokens : List Token) : Prop :=
  ∃ head lbrace, tokens = head ++ [lbrace] ∧ Grammar.FunctionHead (head.map Token.kind) ∧
    lbrace.kind = .lbrace ∧ head[1]?.map Token.value = some name

/-- The tokens of a function behind its opening brace. -/
def IsClosing (tokens : List Token) : Prop :=
  ∃ body rbrace, tokens = body ++ [rbrace] ∧ Grammar.Body (body.map Token.kind) ∧
    rbrace.kind = .rbrace

section Kinds

variable {ks rest : List TokenKind}

/-- There are no numerals in the head of a function. -/
theorem Grammar.FunctionHead.intLit_not_mem (h : Grammar.FunctionHead ks) : .intLit ∉ ks := by
  have htypes : .intLit ∉ Grammar.types := by decide
  have hparam : ∀ {param}, Grammar.Parameter param → .intLit ∉ param := by
    rintro param ⟨type, htype, rfl⟩ hmem
    simp only [List.mem_cons, List.not_mem_nil, or_false, reduceCtorEq] at hmem
    exact htypes (hmem ▸ htype)
  have hlisted : ∀ {params}, Grammar.Listed Grammar.Parameter params → .intLit ∉ params := by
    intro params hparams
    induction hparams with
    | one hitem => exact hparam hitem
    | cons hitem _ ih => simp [hparam hitem, ih]
  have hparams : ∀ {params}, Grammar.Parameters params → .intLit ∉ params := by
    intro params h
    cases h with
    | none => exact List.not_mem_nil
    | some h => exact hlisted h
    | trailing h => simp [hlisted h]
  cases h with
  | @value type params htype h =>
      have hne : TokenKind.intLit ≠ type := fun heq => htypes (heq ▸ htype)
      simp [hne, hparams h]
  | void h => simp [hparams h]
  | main => decide

theorem exists_fit (ks : List TokenKind) : ∃ s : State, s.Fit ∧ s.kinds = ks := by
  refine ⟨.start {} (ks.map .ofKind), ⟨rfl, rfl, Token.spelled_of_mem ks, ?_⟩,
    Token.map_kind_ofKind ks⟩
  simp [State.start]

/-- A function ends with its brace: none is the front of a longer one. -/
theorem Grammar.eq_nil_of_function {head body head' body' : List TokenKind}
    (hhead : Grammar.FunctionHead head) (hbody : Grammar.Body body)
    (hhead' : Grammar.FunctionHead head') (hbody' : Grammar.Body body')
    (h : head ++ .lbrace :: (body ++ [.rbrace]) =
      head' ++ .lbrace :: (body' ++ [.rbrace]) ++ rest) : rest = [] := by
  -- a run that reads the one and a run that reads the other are the same run
  obtain ⟨s, hfit, hkinds⟩ := exists_fit (head ++ .lbrace :: (body ++ [.rbrace]))
  obtain ⟨found, t, hrun, _, ht, _⟩ :=
    yields_function hhead hbody s hfit (hkinds.trans (List.append_nil _).symm)
  obtain ⟨found', t', hrun', _, ht', _⟩ := yields_function hhead' hbody' s hfit (hkinds.trans h)
  rw [hrun] at hrun'
  cases hrun'
  exact ht'.symm.trans ht

/-- What starts with the head of a function is no declaration. -/
theorem Grammar.TopLevel.function_of_head {head more : List TokenKind}
    (hhead : Grammar.FunctionHead head) (h : Grammar.TopLevel ks)
    (heq : ks ++ rest = head ++ more) :
    ∃ head' body', ks = head' ++ .lbrace :: (body' ++ [.rbrace]) ∧ Grammar.FunctionHead head' ∧
      Grammar.Body body' := by
  cases h with
  | const hdecl =>
      obtain ⟨kind, hkind, tail, htail⟩ := hdecl.begins.append rest
      rw [heq] at htail
      cases hhead with
      | @value type params htype hparams =>
          cases htail
          obtain rfl := List.mem_singleton.1 hkind
          exact absurd htype (by decide)
      | void hparams | main =>
          cases htail
          exact absurd hkind (by decide)
  | var hdecl =>
      have hdeclared := Grammar.looksDeclared_append hdecl rest
      rw [heq] at hdeclared
      exact absurd hdeclared (hhead.not_looksDeclared more)
  | function hhead' hbody' => exact ⟨_, _, rfl, hhead', hbody'⟩

end Kinds

section Heads

/-- How a head of these kinds is read. -/
structure ReadsHead (ks : List TokenKind) (head : Pass FunctionHead) : Prop where
  next : ∀ (s : State) rest, s.kinds = ks ++ rest → (partAt s.cursor).head? = some head
  reads : ∀ rest, Reads head ks rest
  steady : ∃ ks', Steady Anything ks' head head

theorem exists_readsHead {ks : List TokenKind} (h : Grammar.FunctionHead ks) :
    ∃ head, ReadsHead ks head := by
  cases h with
  | @value type params htype hparams =>
      refine ⟨valueHead, ?_, fun rest => reads_valueHead htype hparams, _, .valueHead⟩
      intro s rest hkinds
      rw [partAt, State.peekKind?_eq, State.peekKind?_eq, State.peekKind?_eq, hkinds]
      rcases List.mem_cons.1 htype with rfl | htype
      · rfl
      · obtain rfl := List.mem_singleton.1 htype
        rfl
  | void hparams =>
      refine ⟨voidHead, ?_, fun rest => reads_voidHead hparams, _, Steady.voidHead.1⟩
      intro s rest hkinds
      rw [partAt, State.peekKind?_eq, State.peekKind?_eq, State.peekKind?_eq, hkinds]
      rfl
  | main =>
      refine ⟨mainHead, ?_, fun rest => reads_mainHead, _, .mainHead⟩
      intro s rest hkinds
      rw [partAt, State.peekKind?_eq, State.peekKind?_eq, State.peekKind?_eq, hkinds]
      rfl

/-- A head is read in the same way whatever is behind its brace. -/
theorem ReadsHead.exists_head {head : Pass FunctionHead} {front : List Token} {lbrace : Token}
    (hhead : ReadsHead (front.map Token.kind) head)
    (hkinds : Grammar.FunctionHead (front.map Token.kind)) (hlbrace : lbrace.kind = .lbrace)
    {u : State} (hfit : u.Fit) (hrest : u.cursor.rest = []) :
    ∃ found, ∀ more, ∃ t, head (u.feed (front ++ [lbrace] ++ more)) = .ok found t := by
  have hspelled : ∀ token ∈ (u.feed (front ++ [lbrace])).cursor.rest, token.Spelled := by
    intro token htoken hint
    rw [State.feed, hrest, List.nil_append, List.mem_append, List.mem_singleton] at htoken
    rcases htoken with htoken | rfl
    · exact absurd (hint ▸ List.mem_map_of_mem htoken) hkinds.intLit_not_mem
    · rw [hlbrace] at hint
      cases hint
  have hahead : (u.feed (front ++ [lbrace])).kinds = front.map Token.kind ++ [.lbrace] := by
    rw [State.kinds, State.feed, hrest, List.nil_append, List.map_append, List.map_singleton,
      hlbrace]
  have hbefore : (u.feed (front ++ [lbrace])).Fit :=
    ⟨hfit.unlimited, hfit.flushes, hspelled, hfit.regular⟩
  obtain ⟨found, t, hrun, _, ht, _⟩ := hhead.reads [.lbrace] _ hbefore hahead
  have hne : t.cursor.rest ≠ [] := by
    intro hnil
    rw [State.kinds, hnil] at ht
    cases ht
  obtain ⟨ks', hsteady⟩ := hhead.steady
  refine ⟨found, fun more => ⟨t.feed more, ?_⟩⟩
  rw [State.feed_append]
  exact (hsteady.feeds _ hbefore.unlimited).keeps found t hrun hne more

end Heads

section Functions

variable {head : Pass FunctionHead} {s u : State} {items : List TopLevel}

/-- Where a function comes next, it is the first of the parts. -/
theorem exists_function_of_parts (hat : (partAt s.cursor).head? = some head)
    (h : parts s = .ok items u) : ∃ f rest v, items = .function f :: rest ∧
      function head s = .ok f v ∧ Plays f.log s v ∧ parts v = .ok rest u := by
  have hpass := Part.pass_of_head? hat
  rw [parts_eq, hpass] at h
  obtain ⟨found, v, hfound, h⟩ := bind_eq_ok.1 h
  have hplays := plays_topLevel? ((topLevel?_eq s).trans (hpass ▸ hfound))
  obtain ⟨f, w, hf, hpure⟩ := bind_eq_ok.1 hfound
  obtain ⟨rfl, rfl⟩ := pure_eq_ok.1 hpure
  obtain ⟨rest, x, hrest, hpure⟩ := bind_eq_ok.1 h
  obtain ⟨rfl, rfl⟩ := pure_eq_ok.1 hpure
  rcases hplays with ⟨hnone, _⟩ | ⟨item, hitem, hplays⟩
  · cases hnone
  · cases hitem
    exact ⟨f, rest, w, rfl, hf, hplays, hrest⟩

theorem plays_parts (h : parts s = .ok items u) : Plays (items.flatMap TopLevel.log) s u := by
  refine many_ok (P := fun s items t => Plays (items.flatMap TopLevel.log) s t) ?_ ?_ h
  · intro s t hnone
    rcases plays_topLevel? hnone with ⟨_, rfl, _⟩ | ⟨item, hitem, _⟩
    · exact plays_nil.2 rfl
    · cases hitem
  · intro s v t item items hitem hrest
    rcases plays_topLevel? hitem with ⟨hnone, _⟩ | ⟨item', hsome, hplays⟩
    · cases hnone
    · cases hsome
      exact plays_append.2 ⟨v, hplays, hrest⟩

theorem Plays.regular_of_clean {log : List Action} (h : Plays log s u)
    (hclean : u.diagnostics.toList = []) : Regular log := by
  obtain ⟨found, hfound, hrecords⟩ := h.diagnostics
  have hnone : found = [] := (List.append_eq_nil_iff.1 (hfound.symm.trans hclean)).2
  refine h.regular fun kind hkind => ?_
  obtain ⟨d, hd, _⟩ := hrecords kind hkind
  rw [hnone] at hd
  cases hd

theorem Regular.kept {log : List Action} (h : Regular log) :
    ∀ action ∈ log, .undefined ∉ action.records := by
  intro action haction hmem
  have haction := h action haction
  cases action with
  | check fact => cases hmem
  | _ => exact (haction .undefined hmem).2 rfl

theorem FunctionHead.exists_tokens (head : FunctionHead) :
    ∃ first more, head.log.flatMap Action.tokens = first :: head.name :: more := by
  cases head with
  | value type name lparen params rparen => exact ⟨type.token, _, rfl⟩
  | void keyword name lparen params rparen => exact ⟨keyword, _, rfl⟩
  | main keyword name lparen rparen => exact ⟨keyword, _, rfl⟩

/-- The name of a function is its second token. -/
theorem Function.name_of_plays {f : Function} (h : Plays f.log s u) (hregular : Regular f.log) :
    s.cursor.rest[1]? = some f.head.name := by
  obtain ⟨first, more, htokens⟩ := f.head.exists_tokens
  rw [h.rest hregular.kept, Function.log, List.flatMap_append, htokens]
  rfl

theorem head_of_function {f : Function} (h : function head s = .ok f u) :
    ∃ t, head s = .ok f.head t := by
  obtain ⟨found, t, hfound, h⟩ := bind_eq_ok.1 h
  obtain ⟨_, _, _, h⟩ := bind_eq_ok.1 h
  obtain ⟨lbrace, _, _, h⟩ := bind_eq_ok.1 h
  obtain ⟨body, _, _, h⟩ := bind_eq_ok.1 h
  obtain ⟨_, _, h⟩ := joined_eq_ok.1 h
  obtain ⟨_, _, _, h⟩ := bind_eq_ok.1 h
  obtain ⟨rbrace, _, _, h⟩ := bind_eq_ok.1 h
  obtain ⟨_, _, _, h⟩ := bind_eq_ok.1 h
  obtain ⟨rfl, _⟩ := pure_eq_ok.1 h
  exact ⟨t, hfound⟩

/-- Tokens that are a function in the grammar are read as one, and nothing is left of them. -/
theorem function_of_parts {front body : List TokenKind} (hhead : Grammar.FunctionHead front)
    (hbody : Grammar.Body body) (hkinds : s.kinds = front ++ .lbrace :: (body ++ [.rbrace]))
    (hat : (partAt s.cursor).head? = some head) (h : parts s = .ok items u)
    (hclean : u.diagnostics.toList = []) :
    ∃ f, function head s = .ok f u ∧ Plays f.log s u ∧ Regular f.log := by
  obtain ⟨f, rest, v, rfl, hf, hplays, hrest⟩ := exists_function_of_parts hat h
  have hregular : Regular f.log := ((plays_parts h).regular_of_clean hclean).left
  have hconsumed : s.kinds = logKinds f.log ++ v.kinds := hplays.kinds hregular
  obtain ⟨head', body', hlog, hhead', hbody'⟩ :=
    Grammar.TopLevel.function_of_head hhead (f.sentence hregular) (hconsumed.symm.trans hkinds)
  have hnil : v.cursor.rest = [] := by
    rw [← List.map_eq_nil_iff]
    refine Grammar.eq_nil_of_function hhead hbody hhead' hbody' ?_
    rw [← hkinds, hconsumed, hlog, State.kinds]
  rw [parts_nil hnil] at hrest
  cases hrest
  exact ⟨f, hf, hplays, hregular⟩

end Functions

/-- Behind a function there are the same global names and other tables, whatever its body. -/
theorem exists_behind_of_opening {A opening : List Token} {a : Compilation} {name : String}
    (hA : compile A = .ok a) (hclean : a.diagnostics = []) (hopening : IsOpening name opening) :
    ∃ (globals : SymbolTable) (tables : SymbolTables), ∀ closing c, IsClosing closing →
      compile (A ++ (opening ++ closing)) = .ok c → c.diagnostics = [] →
      c.globals = globals ∧
        ∀ key : String, key ≠ name → key ≠ globalName → c.tables[key]? = tables[key]? := by
  obtain ⟨items, u, hparts, rfl, hfree, hskim⟩ := exists_behind_of_compile hA hclean
  obtain ⟨front, lbrace, rfl, hhead, hlbrace, hname⟩ := hopening
  obtain ⟨pass, hpass⟩ := exists_readsHead hhead
  have hrest := rest_of_parts hparts
  have hfit : u.Fit := by
    refine ⟨hfree, flushFails_of_parts hparts, by simp [hrest], ?_⟩
    intro d hd
    have hnone : u.diagnostics.toList = [] := hclean
    simp [Array.toList_eq_nil_iff.1 hnone] at hd
  obtain ⟨found, hfound⟩ := hpass.exists_head hhead hlbrace hfit hrest
  refine ⟨(found.log.foldl Action.scopes u.scopes).globals, u.tables, ?_⟩
  rintro closing c ⟨body, rbrace, rfl, hbody, hrbrace⟩ hc hclean
  obtain ⟨all, v, hall, rfl⟩ := compile_eq_ok_iff.1 hc
  obtain ⟨later, hlater⟩ := parts_of_skim ((hskim _).symm.trans (skim_of_ok hall))
  have hkinds : (u.feed (front ++ [lbrace] ++ (body ++ [rbrace]))).kinds =
      front.map Token.kind ++ .lbrace :: (body.map Token.kind ++ [.rbrace]) := by
    simp [State.kinds, State.feed, hrest, hlbrace, hrbrace]
  obtain ⟨f, hf, hplays, hregular⟩ :=
    function_of_parts hhead hbody hkinds (hpass.next _ _ hkinds) hlater hclean
  have hhead : f.head = found := by
    obtain ⟨t, ht⟩ := head_of_function hf
    obtain ⟨t', ht'⟩ := hfound (body ++ [rbrace])
    rw [ht] at ht'
    cases ht'
    rfl
  have hfname : f.head.name.value = name := by
    obtain ⟨token, htoken, rfl⟩ := Option.map_eq_some_iff.1 hname
    have hlength : 1 < front.length := (List.getElem?_eq_some_iff.1 htoken).1
    have hsecond := Function.name_of_plays hplays hregular
    rw [State.feed, hrest, List.nil_append, List.append_assoc, List.getElem?_append_left hlength,
      htoken] at hsecond
    exact congrArg Token.value (Option.some.inj hsecond).symm
  constructor
  · rw [State.globals_compilation, Function.globals_of_plays hplays, hhead]
    rfl
  · intro key hkey hglobal
    obtain ⟨own, hown⟩ := Function.tables_of_plays hplays
    rw [State.compilation, getElem?_insert_of_ne _ hglobal, hown, hfname,
      getElem?_insert_of_ne _ hkey]
    rfl

/-- Two compilations that go on with two others in the same way, but for the numbers that these had
reached and the table of one function. -/
structure GoOnAlike (name : String) (c₁ c₂ d₁ d₂ : Compilation) : Prop where
  code : ∃ code : List Instr, d₁.code = c₁.code ++ code.map (Instr.rename c₁.offsets) ∧
    d₂.code = c₂.code ++ code.map (Instr.rename c₂.offsets)
  strings : ∃ texts, d₁.strings.toList = c₁.strings.toList ++ texts ∧
    d₂.strings.toList = c₂.strings.toList ++ texts
  diagnostics : d₁.diagnostics = d₂.diagnostics
  tables : ∀ key : String, key ≠ name → d₁.tables[key]? = d₂.tables[key]?

theorem Resumes.goOnAlike {name : String} {c₁ c₂ d₁ d₂ : Compilation} {t : State}
    (h₁ : Resumes c₁ t d₁) (h₂ : Resumes c₂ t d₂)
    (hdiagnostics : c₁.diagnostics = c₂.diagnostics)
    (htables : ∀ key : String, key ≠ name → key ≠ globalName → c₁.tables[key]? = c₂.tables[key]?) :
    GoOnAlike name c₁ c₂ d₁ d₂ where
  code := ⟨_, h₁.code, h₂.code⟩
  strings := ⟨_, h₁.texts, h₂.texts⟩
  diagnostics := by rw [h₁.diagnostics, h₂.diagnostics, hdiagnostics]
  tables := by
    intro key hkey
    by_cases hglobal : key = globalName
    · rw [hglobal, h₁.globals, h₂.globals]
    · rw [h₁.tables key hglobal, h₂.tables key hglobal, htables key hkey hglobal]

/-- The body of a function does not matter behind the function. -/
theorem compile_body_irrelevant {A opening closing₁ closing₂ : List Token} {name : String}
    {a c₁ c₂ : Compilation} (hopening : IsOpening name opening) (hclosing₁ : IsClosing closing₁)
    (hclosing₂ : IsClosing closing₂) (hA : compile A = .ok a) (hclean : a.diagnostics = [])
    (h₁ : compile (A ++ (opening ++ closing₁)) = .ok c₁) (hclean₁ : c₁.diagnostics = [])
    (h₂ : compile (A ++ (opening ++ closing₂)) = .ok c₂) (hclean₂ : c₂.diagnostics = [])
    (B : List Token) :
    failure? (compile (A ++ (opening ++ closing₁) ++ B)) =
        failure? (compile (A ++ (opening ++ closing₂) ++ B)) ∧
      ∀ d₁ d₂, compile (A ++ (opening ++ closing₁) ++ B) = .ok d₁ →
        compile (A ++ (opening ++ closing₂) ++ B) = .ok d₂ → GoOnAlike name c₁ c₂ d₁ d₂ := by
  obtain ⟨globals, tables, hbehind⟩ := exists_behind_of_opening hA hclean hopening
  obtain ⟨hglobals₁, htables₁⟩ := hbehind _ _ hclosing₁ h₁ hclean₁
  obtain ⟨hglobals₂, htables₂⟩ := hbehind _ _ hclosing₂ h₂ hclean₂
  cases hrun : parts (.afresh globals B) with
  | error error t =>
      rw [compile_append_of_error h₁ hclean₁ (hglobals₁ ▸ hrun),
        compile_append_of_error h₂ hclean₂ (hglobals₂ ▸ hrun)]
      exact ⟨rfl, nofun⟩
  | ok items t =>
      obtain ⟨d₁, hd₁, hresumes₁⟩ := resumes_of_ok h₁ hclean₁ (hglobals₁ ▸ hrun)
      obtain ⟨d₂, hd₂, hresumes₂⟩ := resumes_of_ok h₂ hclean₂ (hglobals₂ ▸ hrun)
      rw [hd₁, hd₂]
      refine ⟨rfl, ?_⟩
      rintro _ _ ⟨⟩ ⟨⟩
      refine hresumes₁.goOnAlike hresumes₂ (hclean₁.trans hclean₂.symm) fun key hkey hglobal => ?_
      rw [htables₁ key hkey hglobal, htables₂ key hkey hglobal]

/-- `int n;` -/
def sharedTokens : List Token :=
  [⟨.kwInt, "int", 1⟩, ⟨.ident, "n", 1⟩, ⟨.semicolon, ";", 1⟩]

/-- `void f() {` -/
def openingTokens : List Token :=
  scan 2 ["void f ( ) \x7b"]

/-- `while (n) printf("x", n + 1); }` -/
def loopTokens : List Token :=
  scan 3 ["while ( n ) printf ( \"x\" , n + 1 ) ; \x7d"]

/-- `void main() { while (n) printf("x", n + 1); }` -/
def mainTokens : List Token :=
  scan 4 ["void main ( ) \x7b"] ++ loopTokens

theorem isClosing_loopTokens : IsClosing loopTokens := by
  have hname : Grammar.Item [.ident] := .mk .name .nil
  have hsum : Grammar.Expression [.ident, .plus, .intLit] :=
    .plain hname (.cons (by decide) (.mk (.integer .plain) .nil) .nil)
  have hloop : Grammar.Statement (loopTokens.dropLast.map Token.kind) :=
    .whileLoop (.test (.plain hname .nil)) (.simple (.print (.textValue hsum)))
  exact ⟨loopTokens.dropLast, ⟨.rbrace, "\x7d", 3⟩, rfl, .mk .nil .nil (.cons hloop .nil), rfl⟩

/-- An empty body and one that uses a register, two labels and a text. -/
theorem goOnAlike_empty_loop : ∃ c₁ c₂ d₁ d₂,
    compile (sharedTokens ++ (openingTokens ++ [⟨.rbrace, "\x7d", 3⟩])) = .ok c₁ ∧
    compile (sharedTokens ++ (openingTokens ++ loopTokens)) = .ok c₂ ∧
    (c₁.regCount, c₁.labelCount, c₁.strings.size) = (0, 0, 0) ∧
    (c₂.regCount, c₂.labelCount, c₂.strings.size) = (1, 2, 1) ∧
    compile (sharedTokens ++ (openingTokens ++ [⟨.rbrace, "\x7d", 3⟩]) ++ mainTokens) = .ok d₁ ∧
    compile (sharedTokens ++ (openingTokens ++ loopTokens) ++ mainTokens) = .ok d₂ ∧
    GoOnAlike "f" c₁ c₂ d₁ d₂ := by
  have hopening : IsOpening "f" openingTokens :=
    ⟨openingTokens.dropLast, ⟨.lbrace, "\x7b", 2⟩, rfl, .void .none, rfl, rfl⟩
  have hempty : IsClosing [⟨.rbrace, "\x7d", 3⟩] := ⟨[], _, rfl, .mk .nil .nil .nil, rfl⟩
  have ha := eq_ok_get (compile sharedTokens) (by decide +kernel)
  have hc₁ := eq_ok_get (compile (sharedTokens ++ (openingTokens ++ [⟨.rbrace, "\x7d", 3⟩])))
    (by decide +kernel)
  have hc₂ := eq_ok_get (compile (sharedTokens ++ (openingTokens ++ loopTokens)))
    (by decide +kernel)
  have hd₁ := eq_ok_get (compile (sharedTokens ++ (openingTokens ++ [⟨.rbrace, "\x7d", 3⟩]) ++
    mainTokens)) (by decide +kernel)
  have hd₂ := eq_ok_get (compile (sharedTokens ++ (openingTokens ++ loopTokens) ++ mainTokens))
    (by decide +kernel)
  refine ⟨_, _, _, _, hc₁, hc₂, by decide +kernel, by decide +kernel, hd₁, hd₂, ?_⟩
  exact (compile_body_irrelevant hopening hempty isClosing_loopTokens ha (by decide +kernel) hc₁
    (by decide +kernel) hc₂ (by decide +kernel) mainTokens).2 _ _ hd₁ hd₂

end OnePass
