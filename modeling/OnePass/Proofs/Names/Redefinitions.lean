import OnePass.Proofs.Tables

/-!
Names that are declared more than once. A name may be declared once among the globals and once in
each function. Every further declaration is recorded where it stands and counts from there on, so
that a table has, for each name of its group, what the tokens of the last declaration say.
-/

namespace OnePass

/-- The declarations of a program come in groups: the global ones, and those in each part of it. -/
abbrev DeclaratorGroup := Option Nat

/-- A declarator and its group. -/
abbrev Occurrence := DeclaratorGroup × Declarator

/-- The declarators of a part of a program in the order of its text, given the place of the part. -/
def TopLevel.occurrences (place : Nat) : TopLevel → List Occurrence
  | consts decls => (decls.flatMap ConstDecl.declarators).map (none, ·)
  | vars decls => (decls.flatMap VarDecl.declarators).map (none, ·)
  | function f => (none, .function f.head) :: f.declarators.map (some place, ·)

/-- The declarators of the parts of a program from a place on. -/
def occurrencesFrom (place : Nat) : List TopLevel → List Occurrence
  | [] => []
  | item :: items => item.occurrences place ++ occurrencesFrom (place + 1) items

/-- All declarators of a program in the order of its text. -/
def Program.occurrences (program : Program) : List Occurrence :=
  occurrencesFrom 0 program.items

namespace Occurrence

/-- Whether a declarator is one of a name in a group. -/
def isOf (group : DeclaratorGroup) (name : String) (occurrence : Occurrence) : Bool :=
  occurrence.1 = group ∧ occurrence.2.name.value = name

/-- The second declarations among those that come after others, in order. -/
def redefinitions (earlier : List Occurrence) : List Occurrence → List Diagnostic
  | [] => []
  | occurrence :: later =>
    (if earlier.any (isOf occurrence.1 occurrence.2.name.value) then
      [⟨occurrence.2.name.line, .redefinition⟩] else []) ++
      redefinitions (earlier ++ [occurrence]) later

/-- The last declarator of a name in a group. -/
def last? (group : DeclaratorGroup) (name : String) (occurrences : List Occurrence) :
    Option Declarator :=
  (occurrences.reverse.find? (isOf group name)).map Prod.snd

variable {group : DeclaratorGroup} {name : String} {front back : List Occurrence}

theorem redefinitions_append (earlier : List Occurrence) :
    redefinitions earlier (front ++ back) =
      redefinitions earlier front ++ redefinitions (earlier ++ front) back := by
  induction front generalizing earlier with
  | nil => simp [redefinitions]
  | cons occurrence front ih =>
      rw [List.cons_append, redefinitions, redefinitions, ih, List.append_assoc, List.append_assoc,
        List.singleton_append]

/-- A later declarator of the name hides an earlier one. -/
theorem last?_concat (occurrence : Occurrence) :
    last? group name (front ++ [occurrence]) =
      if isOf group name occurrence then some occurrence.2 else last? group name front := by
  unfold last?
  rw [List.reverse_append, List.reverse_singleton, List.singleton_append, List.find?_cons]
  cases isOf group name occurrence <;> rfl

theorem last?_append (hback : back.any (isOf group name) = false) :
    last? group name (front ++ back) = last? group name front := by
  have hnone : back.reverse.find? (isOf group name) = none := by
    rw [List.find?_eq_none]
    intro occurrence hmem
    rw [List.any_eq_false] at hback
    exact hback occurrence (List.mem_reverse.1 hmem)
  unfold last?
  rw [List.reverse_append, List.find?_append, hnone, Option.none_or]

theorem isSome_last? : (last? group name front).isSome = front.any (isOf group name) := by
  unfold last?
  rw [Option.isSome_map, Bool.eq_iff_iff, List.find?_isSome, List.any_eq_true]
  simp

theorem last?_eq_none (h : front.any (isOf group name) = false) : last? group name front = none := by
  rw [← Option.isNone_iff_eq_none, ← Option.not_isSome, isSome_last?, h]
  rfl

theorem any_isOf_map {other : DeclaratorGroup} (h : other ≠ group) (declarators : List Declarator) :
    (declarators.map (other, ·)).any (isOf group name) = false := by
  simp [isOf, h]

end Occurrence

section Recording

/-- What has been recorded of second declarations. -/
def State.redefinitions (s : State) : List Diagnostic :=
  s.diagnostics.toList.filter fun d => d.kind = .redefinition

theorem Action.Performs.redefinitions {action : Action} {s t : State} (h : action.Performs s t)
    (hnone : action.repeatsNone = true) : t.redefinitions = s.redefinitions := by
  obtain ⟨found, hfound, hkinds | ⟨scope, name, rfl⟩⟩ := h.effect.diagnostics
  · have hother : .redefinition ∉ action.records := by
      intro hmem
      cases action <;> simp_all [Action.records, Action.repeatsNone]
    have hdropped : found.filter (fun d => d.kind = .redefinition) = [] := by
      refine List.filter_eq_nil_iff.2 fun d hd hkind => hother ?_
      rw [← hkinds, ← of_decide_eq_true hkind]
      exact List.mem_map_of_mem hd
    rw [State.redefinitions, hfound, List.filter_append, hdropped, List.append_nil]
    rfl
  · cases hnone

/-- A name that is known already is recorded, and nothing else is. -/
theorem redefinitions_of_checkRedefinition {scope : Scope} {name : Token} {s t : State}
    (h : (Action.checkRedefinition scope name).Performs s t) :
    t.redefinitions = s.redefinitions ++
      if (s.scopes.lookup? scope name.value).isSome then [⟨name.line, .redefinition⟩] else [] := by
  by_cases hknown : (s.scopes.lookup? scope name.value).isSome = true
  · cases Pass.report_of_checkRedefinition h hknown
    rw [if_pos hknown]
    simp [State.redefinitions]
  · obtain ⟨found, u, hfound, h⟩ := Pass.bind_eq_ok.1 h
    cases hfound
    rw [if_neg hknown] at h ⊢
    cases h
    rw [List.append_nil]

theorem Plays.redefinitions {log : List Action} {s t : State} (h : Plays log s t)
    (hlog : log.all Action.repeatsNone = true) : t.redefinitions = s.redefinitions :=
  h.kept (f := State.redefinitions) (fun _ _ _ haction => haction.redefinitions) hlog

theorem Plays.redefinitions_of_isAside {scope : Scope} {log : List Action} {s t : State}
    (h : Plays log s t) (hlog : log.all (Action.isAside scope) = true) :
    t.redefinitions = s.redefinitions := by
  rw [List.all_eq_true] at hlog
  refine h.redefinitions (List.all_eq_true.2 fun action haction => ?_)
  exact (Bool.and_eq_true_iff.1 (hlog action haction)).2

end Recording

section Groups

open Occurrence

/-- The table of a scope has the symbol that is entered for the last declarator of each name of a
group. -/
def SymbolTable.HoldsLast (table : SymbolTable) (group : DeclaratorGroup)
    (occurrences : List Occurrence) : Prop :=
  ∀ name : String, table[name]? = (last? group name occurrences).map Declarator.entry

theorem SymbolTable.HoldsLast.append {table : SymbolTable} {group : DeclaratorGroup}
    {front back : List Occurrence} (h : table.HoldsLast group front)
    (hback : ∀ name, back.any (isOf group name) = false) : table.HoldsLast group (front ++ back) := by
  intro name
  rw [last?_append (hback name)]
  exact h name

/-- From one state to another the names of a group have been declared in a scope, and every second
declaration has been recorded. -/
structure Declared (scope : Scope) (group : DeclaratorGroup) (earlier : List Occurrence)
    (declarators : List Declarator) (s t : State) : Prop where
  table : (t.scopes.table scope).HoldsLast group (earlier ++ declarators.map (group, ·))
  redefinitions : t.redefinitions =
    s.redefinitions ++ Occurrence.redefinitions earlier (declarators.map (group, ·))

/-- What a log declares goes on from what has been declared before. -/
theorem Declares.declared {scope : Scope} {log : List Action} {declarators : List Declarator}
    (h : Declares scope log declarators) {group : DeclaratorGroup} {earlier : List Occurrence}
    {s t : State} (hplays : Plays log s t)
    (hs : (s.scopes.table scope).HoldsLast group earlier) :
    Declared scope group earlier declarators s t := by
  induction h generalizing s t earlier with
  | aside haside =>
      refine ⟨?_, ?_⟩
      · rw [hplays.table_of_spares (Action.all_spares_of_isAside haside)]
        simpa using hs
      · rw [hplays.redefinitions_of_isAside haside]
        simp [Occurrence.redefinitions]
  | @checked d between action hname hbetween hquiet hscopes =>
      obtain ⟨u, hcheck, hrest⟩ := hplays
      obtain ⟨v, haside, w, hdeclare, rfl⟩ := plays_append.1 hrest
      have hu : u.scopes = s.scopes := hcheck.effect.scopes
      have hv : v.scopes.table scope = s.scopes.table scope := by
        rw [haside.table_of_spares (Action.all_spares_of_isAside hbetween), hu]
      refine ⟨fun other => ?_, ?_⟩
      · have hlookup := v.scopes.lookup?_declare scope d.entry other
        rw [hdeclare.effect.scopes, hscopes]
        refine hlookup.trans ?_
        rw [List.map_singleton, last?_concat, apply_ite (Option.map Declarator.entry),
          Scopes.lookup?, hv, hs other, hname]
        simp [isOf]
      · rw [hdeclare.redefinitions hquiet, haside.redefinitions_of_isAside hbetween,
          redefinitions_of_checkRedefinition hcheck, Scopes.lookup?, hs d.name.value, Option.isSome_map, isSome_last?]
        simp [Occurrence.redefinitions]
  | append hfront hback ihfront ihback =>
      obtain ⟨u, hfirst, hrest⟩ := plays_append.1 hplays
      have hbefore := ihfront hfirst hs
      have hafter := ihback hrest hbefore.table
      refine ⟨?_, ?_⟩
      · rw [List.map_append, ← List.append_assoc]
        exact hafter.table
      · rw [hafter.redefinitions, hbefore.redefinitions, List.map_append, redefinitions_append,
          List.append_assoc]

end Groups

section Functions

open Occurrence

variable {f : Function} {place : Nat} {earlier : List Occurrence} {s t : State}

/-- A head declares its function among the globals, and its parameters in a group of their own. -/
theorem FunctionHead.declared {head : FunctionHead} (h : Plays head.log s t)
    (hs : s.scopes.globals.HoldsLast none earlier)
    (hfresh : ∀ name, earlier.any (isOf (some place) name) = false) :
    t.scopes.globals.HoldsLast none (earlier ++ [(none, .function head)]) ∧
      t.scopes.locals.HoldsLast (some place) (earlier ++ ((none, .function head) ::
        head.params.map fun param => (some place, .param param))) ∧
      t.redefinitions = s.redefinitions ++ Occurrence.redefinitions earlier
        ((none, .function head) :: head.params.map fun param => (some place, .param param)) := by
  have hglobals : t.scopes.globals.HoldsLast none (earlier ++ [(none, .function head)]) := by
    intro name
    refine (h.lookup?_global name).trans ?_
    rw [head.globalAfter_log, last?_concat, apply_ite (Option.map Declarator.entry), Scopes.lookup?,
      Scopes.table, hs name]
    simp [isOf, Declarator.name, Declarator.entry]
  obtain ⟨front, back, hlog, hexpr, haside, hback⟩ := head.exists_opened
  rw [hlog] at h
  obtain ⟨u, hfront, hopened⟩ := plays_append.1 h
  obtain ⟨v, ⟨u₁, hcheck, u₂, hdeclare, u₃, hreset, rfl⟩, hparams⟩ := plays_append.1 hopened
  have hu : u.scopes = s.scopes := hfront.scopes_eq hexpr
  have hchecked : u₃.redefinitions = s.redefinitions ++
      Occurrence.redefinitions earlier [(none, .function head)] := by
    rw [hreset.redefinitions rfl, hdeclare.redefinitions rfl,
      redefinitions_of_checkRedefinition hcheck, hfront.redefinitions_of_isAside (haside .global),
      hu, Scopes.lookup?, Scopes.table, hs, Option.isSome_map, isSome_last?]
    rw [Occurrence.redefinitions, Occurrence.redefinitions, List.append_nil]
    rfl
  have hempty : (u₃.scopes.table .local).HoldsLast (some place)
      (earlier ++ [(none, .function head)]) := by
    intro name
    rw [last?_append (by simp [isOf]), last?_eq_none (hfresh name), hreset.effect.scopes]
    exact Scopes.lookup?_reset _ _ _
  have hdeclared := hback.declared hparams hempty
  have hmap : (head.params.map Declarator.param).map ((some place : DeclaratorGroup), ·) =
      head.params.map fun param => (some place, .param param) := List.map_map
  refine ⟨hglobals, ?_, ?_⟩
  · have htable := hdeclared.table
    rwa [hmap, List.append_assoc] at htable
  · rw [hdeclared.redefinitions, hchecked, hmap, List.append_assoc, ← redefinitions_append]
    rfl

theorem Function.declared (h : Plays f.log s t) (hs : s.scopes.globals.HoldsLast none earlier)
    (hfresh : ∀ name, earlier.any (isOf (some place) name) = false) :
    t.scopes.globals.HoldsLast none (earlier ++ (TopLevel.function f).occurrences place) ∧
      t.scopes.locals.HoldsLast (some place)
        (earlier ++ (TopLevel.function f).occurrences place) ∧
      t.redefinitions = s.redefinitions ++
        Occurrence.redefinitions earlier ((TopLevel.function f).occurrences place) := by
  have hoccurrences : (TopLevel.function f).occurrences place =
      ((none, .function f.head) :: f.head.params.map fun param => (some place, .param param)) ++
        f.body.declarators.map (some place, ·) := by
    simp [TopLevel.occurrences, Function.declarators]
  have hkept := Function.globals_of_plays h
  rw [f.log_eq] at h
  obtain ⟨u, hhead, hinside⟩ := plays_append.1 h
  obtain ⟨hglobals, hlocals, hrecorded⟩ := FunctionHead.declared hhead hs hfresh
  have hdeclared := f.declares_inside.declared hinside hlocals
  rw [hoccurrences]
  refine ⟨?_, ?_, ?_⟩
  · rw [hkept, ← hhead.scopes, List.cons_append, List.append_cons]
    refine hglobals.append fun name => ?_
    rw [List.any_append, any_isOf_map (by simp)]
    simp [isOf]
  · rw [← List.append_assoc]
    exact hdeclared.table
  · rw [hdeclared.redefinitions, hrecorded, List.append_assoc, ← redefinitions_append]

theorem TopLevel.declared {item : TopLevel} (h : Plays item.log s t)
    (hs : s.scopes.globals.HoldsLast none earlier)
    (hfresh : ∀ name, earlier.any (isOf (some place) name) = false) :
    t.scopes.globals.HoldsLast none (earlier ++ item.occurrences place) ∧
      t.redefinitions = s.redefinitions ++
        Occurrence.redefinitions earlier (item.occurrences place) := by
  cases item with
  | consts decls =>
      have hdeclared := (Declares.flatMap ConstDecl.declares_log decls).declared h hs
      exact ⟨hdeclared.table, hdeclared.redefinitions⟩
  | vars decls =>
      have hdeclared := (Declares.flatMap VarDecl.declares_log decls).declared h hs
      exact ⟨hdeclared.table, hdeclared.redefinitions⟩
  | function f =>
      obtain ⟨hglobals, _, hrecorded⟩ := Function.declared h hs hfresh
      exact ⟨hglobals, hrecorded⟩

end Functions

section Programs

open Occurrence

/-- Only the part at its place declares names in a group. -/
theorem TopLevel.any_occurrences {place group : Nat} (h : place ≠ group) (item : TopLevel)
    (name : String) : (item.occurrences place).any (isOf (some group) name) = false := by
  cases item with
  | consts decls => exact any_isOf_map (by simp) _
  | vars decls => exact any_isOf_map (by simp) _
  | function f =>
      rw [occurrences, List.any_cons, any_isOf_map (by simpa using h)]
      simp [isOf]

theorem any_occurrencesFrom {place group : Nat} (h : group < place) (items : List TopLevel)
    (name : String) : (occurrencesFrom place items).any (isOf (some group) name) = false := by
  induction items generalizing place with
  | nil => rfl
  | cons item items ih =>
      rw [occurrencesFrom, List.any_append, item.any_occurrences (by omega), ih (by omega)]
      rfl

theorem occurrencesFrom_append (place : Nat) (front back : List TopLevel) :
    occurrencesFrom place (front ++ back) =
      occurrencesFrom place front ++ occurrencesFrom (place + front.length) back := by
  induction front generalizing place with
  | nil => simp [occurrencesFrom]
  | cons item front ih =>
      rw [List.cons_append, occurrencesFrom, occurrencesFrom, ih, List.append_assoc,
        List.length_cons, Nat.add_assoc, Nat.add_comm 1]

/-- Part by part, the globals hold what was declared last, and all second declarations have been
recorded. -/
theorem declared_of_plays (place : Nat) {items : List TopLevel} {earlier : List Occurrence}
    {s t : State} (h : Plays (items.flatMap TopLevel.log) s t)
    (hs : s.scopes.globals.HoldsLast none earlier)
    (hfresh : ∀ group ≥ place, ∀ name, earlier.any (isOf (some group) name) = false) :
    t.scopes.globals.HoldsLast none (earlier ++ occurrencesFrom place items) ∧
      (∀ group ≥ place + items.length, ∀ name,
        (earlier ++ occurrencesFrom place items).any (isOf (some group) name) = false) ∧
      t.redefinitions = s.redefinitions ++
        Occurrence.redefinitions earlier (occurrencesFrom place items) := by
  induction items generalizing place earlier s with
  | nil =>
      obtain rfl := plays_nil.1 h
      refine ⟨?_, ?_, by simp [occurrencesFrom, Occurrence.redefinitions]⟩
      · simpa [occurrencesFrom] using hs
      · simpa [occurrencesFrom] using hfresh
  | cons item items ih =>
      obtain ⟨u, hitem, hitems⟩ := plays_append.1 h
      obtain ⟨hglobals, hrecorded⟩ := TopLevel.declared hitem hs (hfresh place (Nat.le_refl _))
      have hlater : ∀ group ≥ place + 1, ∀ name,
          (earlier ++ item.occurrences place).any (isOf (some group) name) = false := by
        intro group hgroup name
        rw [List.any_append, hfresh group (by omega), item.any_occurrences (by omega)]
        rfl
      obtain ⟨hend, hnone, hrest⟩ := ih (place + 1) hitems hglobals hlater
      rw [occurrencesFrom, ← List.append_assoc]
      refine ⟨hend, fun group hgroup => hnone group ?_, ?_⟩
      · rw [List.length_cons] at hgroup
        omega
      · rw [hrest, hrecorded, List.append_assoc, ← redefinitions_append]

/-- Parts that have no function of a name leave the table that was kept under it. -/
theorem tables_of_plays_items {items : List TopLevel} {key : String} {s t : State}
    (h : Plays (items.flatMap TopLevel.log) s t)
    (hkey : ∀ g, .function g ∈ items → g.head.name.value ≠ key) :
    t.tables[key]? = s.tables[key]? := by
  induction items generalizing s with
  | nil =>
      obtain rfl := plays_nil.1 h
      rfl
  | cons item items ih =>
      obtain ⟨u, hitem, hitems⟩ := plays_append.1 h
      rw [ih hitems fun g hg => hkey g (List.mem_cons_of_mem item hg)]
      cases item with
      | consts decls =>
          rw [hitem.tables_of_keepsNone (TopLevel.keepsNone_consts decls)]
      | vars decls =>
          rw [hitem.tables_of_keepsNone (TopLevel.keepsNone_vars decls)]
      | function g =>
          rw [Function.tables_eq_of_plays hitem,
            getElem?_insert_of_ne _ (Ne.symm (hkey g List.mem_cons_self))]

end Programs

section Spelling

/-- The type that a keyword names. -/
def Token.named (token : Token) : Ty :=
  if token.kind = .kwChar then .char else .int

/-- The word that a numeral spells. -/
def Token.word (token : Token) : Int64 :=
  (Text.signed? token.value.toList).getD 0

def ConstInit.tokens : ConstInit → List Token
  | char literal => [literal]
  | int literal => literal.sign.toList ++ [literal.digits.token]
  | other token => [token]

/-- The text that stands for a constant. A character is put in quotes, a number is written out with
its sign, and any other token stands for itself. -/
def initialText : List Token → String
  | [token] =>
    match token.kind with
    | .charLit => "'" ++ token.value ++ "'"
    | .intLit => Text.numberText token.word
    | _ => token.value
  | [sign, digits] => Text.numberText (if sign.kind = .minus then -digits.word else digits.word)
  | _ => ""

/-- What a name is declared as, by the tokens of its declarator. -/
def Declarator.symbol : Declarator → Symbol
  | const type item =>
    { name := item.name.value, kind := .const, ty := type.token.named
      constValue := some (initialText item.init.tokens) }
  | var type ⟨name, none⟩ => { name := name.value, kind := .variable, ty := type.token.named }
  | var type ⟨name, some size⟩ =>
    { name := name.value, kind := .array, ty := type.token.named
      arrayLength := some size.length.token.word.toUInt64 }
  | param p => { name := p.name.value, kind := .parameter, ty := p.type.token.named }
  | function head => head.symbol

theorem TypeName.named_eq {type : TypeName} (h : ∀ action ∈ type.log, action.Fact) :
    type.token.named = type.ty := by
  have hcheck : _ ∨ _ := h _ (List.mem_cons_of_mem _ List.mem_cons_self)
  rcases hcheck with ⟨hkind, hty⟩ | ⟨hkind, hty⟩ <;> simp [Token.named, hkind, hty]

theorem UnsignedLit.word_eq {lit : UnsignedLit} (h : ∀ action ∈ lit.log, action.Fact) :
    lit.token.word = lit.value := by
  have hcheck : Text.signed? _ = _ := h _ (List.mem_cons_of_mem _ List.mem_cons_self)
  rw [Token.word, hcheck]
  rfl

theorem ConstInit.initialText_eq {init : ConstInit} (h : ∀ action ∈ init.takeLog, action.Fact) :
    initialText init.tokens = init.text := by
  cases init with
  | char literal =>
      have hkind : literal.kind = .charLit := h _ List.mem_cons_self
      simp [initialText, tokens, hkind, text, Operand.ofChar, Operand.text]
  | int literal =>
      rw [takeLog, IntLit.log, List.forall_mem_append, List.forall_mem_append] at h
      have hword := UnsignedLit.word_eq h.2.1
      have hkind : literal.digits.token.kind = .intLit := h.2.1 _ List.mem_cons_self
      unfold tokens text IntLit.value
      cases hsign : literal.sign <;>
        simp [initialText, hsign, hkind, hword, Operand.ofNumber, Operand.text]
  | other token =>
      have hkind : _ ∧ _ := h _ (List.mem_cons_of_mem _ List.mem_cons_self)
      unfold tokens initialText
      split <;> simp_all [text]

/-- The actions behind the tokens of a declarator. -/
def Declarator.reads : Declarator → List Action
  | const type item => type.log ++ item.init.takeLog
  | var type item => type.log ++ (item.size.map ArraySize.log).getD []
  | param p => p.type.log
  | function _ => []

/-- The symbol that is entered for a name is the one that its tokens say. -/
theorem Declarator.symbol_eq {d : Declarator} (h : ∀ action ∈ d.reads, action.Fact) :
    d.symbol = d.entry := by
  cases d with
  | const type item =>
      rw [reads, List.forall_mem_append] at h
      rw [symbol, TypeName.named_eq h.1, ConstInit.initialText_eq h.2]
      rfl
  | var type item =>
      rw [reads, List.forall_mem_append] at h
      obtain ⟨name, size⟩ := item
      cases size with
      | none =>
          rw [symbol, TypeName.named_eq h.1]
          rfl
      | some size =>
          have hlength : ∀ action ∈ size.length.log, action.Fact := fun action haction =>
            h.2 action (List.mem_cons_of_mem _ (List.mem_append_left _ haction))
          rw [symbol, TypeName.named_eq h.1, UnsignedLit.word_eq hlength]
          rfl
  | param p =>
      rw [symbol, TypeName.named_eq h]
      rfl
  | function head => rfl

theorem ConstDecl.reads_subset (scope : Scope) {decl : ConstDecl} {d : Declarator}
    (h : d ∈ decl.declarators) : d.reads ⊆ decl.log scope := by
  obtain ⟨item, hitem, rfl⟩ := List.mem_map.1 h
  have hown : item.init.takeLog ⊆ decl.items.log (ConstItem.log scope decl.type.ty) :=
    fun action haction => CommaList.subset_log hitem (by simp [ConstItem.log, ConstInit.log, haction])
  intro action haction
  rcases List.mem_append.1 haction with htype | hinit
  · simp [log, htype]
  · simp [log, hown hinit]

theorem VarDecl.reads_subset (scope : Scope) {decl : VarDecl} {d : Declarator}
    (h : d ∈ decl.declarators) : d.reads ⊆ decl.log scope := by
  obtain ⟨item, hitem, rfl⟩ := List.mem_map.1 h
  have hown : (item.size.map ArraySize.log).getD [] ⊆
      decl.items.log (VarItem.log scope decl.type.ty) :=
    fun action haction => CommaList.subset_log hitem (by simp [VarItem.log, haction])
  intro action haction
  rcases List.mem_append.1 haction with htype | hsize
  · simp [log, htype]
  · simp [log, hown hsize]

theorem Function.reads_subset {f : Function} {d : Declarator} (h : d ∈ f.declarators) :
    d.reads ⊆ f.log := by
  intro action haction
  rcases List.mem_append.1 h with hparam | hbody
  · obtain ⟨param, hmem, rfl⟩ := List.mem_map.1 hparam
    exact List.mem_append_left _ (FunctionHead.subset_log hmem (List.mem_append_left _ haction))
  · rcases List.mem_append.1 hbody with hconst | hvar
    · obtain ⟨decl, hdecl, hd⟩ := List.mem_flatMap.1 hconst
      have hmem := List.mem_flatMap.2 ⟨decl, hdecl, decl.reads_subset .local hd haction⟩
      simp [log, Body.log, List.mem_append.2 (.inl hmem)]
    · obtain ⟨decl, hdecl, hd⟩ := List.mem_flatMap.1 hvar
      have hmem := List.mem_flatMap.2 ⟨decl, hdecl, decl.reads_subset .local hd haction⟩
      simp [log, Body.log, hmem]

theorem TopLevel.reads_subset {item : TopLevel} {place : Nat} {o : Occurrence}
    (h : o ∈ item.occurrences place) : o.2.reads ⊆ item.log := by
  intro action haction
  cases item with
  | consts decls =>
      obtain ⟨d, hd, rfl⟩ := List.mem_map.1 h
      obtain ⟨decl, hdecl, hd⟩ := List.mem_flatMap.1 hd
      exact List.mem_flatMap.2 ⟨decl, hdecl, decl.reads_subset .global hd haction⟩
  | vars decls =>
      obtain ⟨d, hd, rfl⟩ := List.mem_map.1 h
      obtain ⟨decl, hdecl, hd⟩ := List.mem_flatMap.1 hd
      exact List.mem_flatMap.2 ⟨decl, hdecl, decl.reads_subset .global hd haction⟩
  | function f =>
      rcases List.mem_cons.1 h with rfl | hlocal
      · cases haction
      · obtain ⟨d, hd, rfl⟩ := List.mem_map.1 hlocal
        exact f.reads_subset hd haction

/-- The declarators of the parts of a program are those of its parts. -/
theorem exists_item_of_occurrence {items : List TopLevel} {place : Nat} {occurrence : Occurrence}
    (h : occurrence ∈ occurrencesFrom place items) :
    ∃ item ∈ items, ∃ other, occurrence ∈ item.occurrences other := by
  induction items generalizing place with
  | nil => cases h
  | cons item items ih =>
      rcases List.mem_append.1 h with hitem | hitems
      · exact ⟨item, List.mem_cons_self, place, hitem⟩
      · obtain ⟨later, hlater, hplace⟩ := ih hitems
        exact ⟨later, List.mem_cons_of_mem item hlater, hplace⟩

theorem symbol_eq_of_plays {items : List TopLevel} {place : Nat} {s t : State}
    (h : Plays (items.flatMap TopLevel.log) s t) :
    ∀ o ∈ occurrencesFrom place items, o.2.symbol = o.2.entry := by
  intro o ho
  obtain ⟨item, hitem, other, hown⟩ := exists_item_of_occurrence ho
  exact Declarator.symbol_eq fun action haction =>
    h.facts action (List.mem_flatMap.2 ⟨item, hitem, TopLevel.reads_subset hown haction⟩)

end Spelling

section Compilations

open Occurrence

variable {tokens : List Token} {c : Compilation}

/-- A table has, for each name of a group, what its last declarator says. -/
def SymbolTable.SaysLast (table : SymbolTable) (group : DeclaratorGroup)
    (occurrences : List Occurrence) : Prop :=
  ∀ name : String, table[name]? = (last? group name occurrences).map Declarator.symbol

theorem SymbolTable.HoldsLast.saysLast {table : SymbolTable} {group : DeclaratorGroup}
    {occurrences : List Occurrence} (h : table.HoldsLast group occurrences)
    (hsymbol : ∀ o ∈ occurrences, o.2.symbol = o.2.entry) : table.SaysLast group occurrences := by
  intro name
  rw [h name]
  refine Option.map_congr fun d hd => ?_
  obtain ⟨o, ho, rfl⟩ := Option.map_eq_some_iff.1 hd
  exact (hsymbol o (List.mem_reverse.1 (List.mem_of_find?_eq_some ho))).symm

/-- The tables of a compilation and the second declarations that it records, as the declarators of
its program demand. -/
structure Compilation.KeepsLast (c : Compilation) : Prop where
  redefinitions : c.diagnostics.filter (fun d => d.kind = .redefinition) =
    Occurrence.redefinitions [] c.program.occurrences
  globals : ∃ table, c.tables[Pass.globalName]? = some table ∧
    table.SaysLast none c.program.occurrences
  locals : ∀ before f after, c.program.items = before ++ .function f :: after →
    (∀ g, .function g ∈ after → g.head.name.value ≠ f.head.name.value) →
    f.head.name.value ≠ Pass.globalName →
    ∃ table, c.tables[f.head.name.value]? = some table ∧
      table.SaysLast (some before.length) c.program.occurrences

theorem holdsLast_start (tokens : List Token) :
    (State.start {} tokens).scopes.globals.HoldsLast none [] :=
  lookup?_start {} tokens .global

/-- Behind a function its own names have been entered, and all global names so far. -/
theorem Function.holdsLast_of_plays {before : List TopLevel} {f : Function} {s t : State}
    (hbefore : Plays (before.flatMap TopLevel.log) (.start {} tokens) s) (h : Plays f.log s t) :
    t.scopes.globals.HoldsLast none (occurrencesFrom 0 (before ++ [.function f])) ∧
      t.scopes.locals.HoldsLast (some before.length)
        (occurrencesFrom 0 (before ++ [.function f])) := by
  obtain ⟨hknown, hfresh, _⟩ :=
    declared_of_plays 0 hbefore (holdsLast_start tokens) fun _ _ _ => rfl
  obtain ⟨hglobals, hlocals, _⟩ := Function.declared h hknown (hfresh before.length (by omega))
  rw [occurrencesFrom_append, occurrencesFrom, occurrencesFrom, List.append_nil, Nat.zero_add]
  exact ⟨hglobals, hlocals⟩

/-- Behind the last part of a program all its global names have been entered, and all its second
declarations have been recorded. -/
theorem declared_of_compile (h : compile tokens = .ok c) :
    ∃ u, Plays (c.program.items.flatMap TopLevel.log) (.start {} tokens) u ∧
      c.tables = u.tables.insert Pass.globalName u.scopes.globals ∧
      u.scopes.globals.HoldsLast none c.program.occurrences ∧
      c.diagnostics.filter (fun d => d.kind = .redefinition) =
        Occurrence.redefinitions [] c.program.occurrences := by
  obtain ⟨u, hitems, hdiagnostics, htables⟩ := exists_before_end h
  obtain ⟨hglobals, _, hrecorded⟩ :=
    declared_of_plays 0 hitems (holdsLast_start tokens) fun _ _ _ => rfl
  exact ⟨u, hitems, htables, hglobals, hdiagnostics ▸ hrecorded⟩

/-- A declarator is recorded exactly if its name was declared before in its group, and the tables
have what the last declarator of each name says. -/
theorem keepsLast_of_compile (h : compile tokens = .ok c) : c.KeepsLast := by
  obtain ⟨u, hitems, htables, hglobals, hrecorded⟩ := declared_of_compile h
  have hsymbol : ∀ o ∈ c.program.occurrences, o.2.symbol = o.2.entry := symbol_eq_of_plays hitems
  refine ⟨hrecorded, ⟨u.scopes.globals, ?_, hglobals.saysLast hsymbol⟩, ?_⟩
  · rw [htables, Std.TreeMap.getElem?_insert_self]
  · intro before f after hsplit hlast hname
    rw [hsplit, List.flatMap_append] at hitems
    obtain ⟨s₁, hbefore, hrest⟩ := plays_append.1 hitems
    obtain ⟨s₂, hfunction, hafter⟩ := plays_append.1 hrest
    obtain ⟨_, hlocals⟩ := Function.holdsLast_of_plays hbefore hfunction
    refine ⟨s₂.scopes.locals, ?_, SymbolTable.HoldsLast.saysLast ?_ hsymbol⟩
    · rw [htables, getElem?_insert_of_ne _ hname, tables_of_plays_items hafter hlast,
        Function.tables_eq_of_plays hfunction, Std.TreeMap.getElem?_insert_self]
    · rw [Program.occurrences, hsplit, List.append_cons, occurrencesFrom_append]
      exact hlocals.append fun name => any_occurrencesFrom (by simp) after name

end Compilations

/-- `int a; char a[2]; int a(int x, char x) { const int x = 3; return (x); } void main() { }`, where
`a` and `x` are declared three times each. -/
def repeatedTokens : List Token :=
  scan 1 ["int a ;", "char a [ 2 ] ;", "int a (", "int x ,", "char x ) \x7b", "const int x = 3 ;",
    "return ( x ) ;", "\x7d", "void main ( ) \x7b \x7d"]

theorem keepsLast_repeatedTokens : ∃ c, compile repeatedTokens = .ok c ∧
    c.diagnostics = [⟨2, .redefinition⟩, ⟨3, .redefinition⟩, ⟨5, .redefinition⟩,
      ⟨6, .redefinition⟩] ∧
    (Occurrence.last? none "a" c.program.occurrences).map Declarator.symbol =
      some { name := "a", kind := .function, ty := .int, signature := "01" } ∧
    (Occurrence.last? (some 1) "x" c.program.occurrences).map Declarator.symbol =
      some { name := "x", kind := .const, ty := .int, constValue := some "3" } ∧
    c.KeepsLast := by
  have hc := eq_ok_get (compile repeatedTokens) (by decide +kernel)
  exact ⟨_, hc, by decide +kernel, by decide +kernel, by decide +kernel, keepsLast_of_compile hc⟩

end OnePass
