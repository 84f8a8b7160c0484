import Mathlib.Data.List.Induction
import OnePass.Names.Scopes

/-!
What the scopes remember of the operations on them. The symbol of a name is made by the last
declaration of the name in its scope, unless the scope was emptied since, and by the changes that
came behind this declaration. Everything else that can be looked up follows from the symbols of the
two scopes, of which neither depends on what is done to the other. A snapshot lists the symbols that
are there when it is taken, and stays as it is.
-/

namespace OnePass

/-- A change of a symbol, which leaves its name alone. -/
structure Symbol.Change where
  apply : Symbol → Symbol
  name_apply : ∀ symbol, (apply symbol).name = symbol.name

/-- The symbol after some changes, one after the other. -/
def Symbol.changed (symbol : Symbol) (changes : List Change) : Symbol :=
  changes.foldl (fun current change => change.apply current) symbol

theorem Symbol.changed_append (symbol : Symbol) (front back : List Change) :
    symbol.changed (front ++ back) = (symbol.changed front).changed back :=
  List.foldl_append

@[simp]
theorem Symbol.name_changed (symbol : Symbol) (changes : List Change) :
    (symbol.changed changes).name = symbol.name := by
  induction changes generalizing symbol with
  | nil => rfl
  | cons change changes ih => exact (ih (change.apply symbol)).trans (change.name_apply symbol)

/-- What can be done to the scopes. A declaration gives a name a new symbol without attributes. -/
inductive Operation where
  | declare (scope : Scope) (name : String) (kind : SymbolKind) (ty : Ty)
  | change (scope : Scope) (name : String) (change : Symbol.Change)
  | reset (scope : Scope)
  | snapshot (scope : Scope)

/-- The scopes, and the snapshots that have been taken of them. -/
structure Session where
  scopes : Scopes := {}
  taken : List SymbolTable := []

namespace Session

def perform (session : Session) : Operation → Session
  | .declare scope name kind ty =>
    { session with scopes := session.scopes.declare scope { name, kind, ty } }
  | .change scope name change =>
    { session with scopes := session.scopes.modify scope name change.apply }
  | .reset scope => { session with scopes := session.scopes.reset scope }
  | .snapshot scope => { session with taken := session.taken ++ [session.scopes.table scope] }

/-- The session behind some operations, which start with nothing declared. -/
def after (operations : List Operation) : Session :=
  operations.foldl perform {}

@[simp]
theorem after_concat (operations : List Operation) (operation : Operation) :
    after (operations ++ [operation]) = (after operations).perform operation := by
  simp [after]

end Session

namespace Operation

/-- Whether a symbol of the name does not outlive the operation. -/
def Ends (scope : Scope) (name : String) : Operation → Prop
  | declare other declared _ _ => other = scope ∧ declared = name
  | reset other => other = scope
  | _ => False

/-- The change that an operation makes to the symbol of the name, if any. -/
def change? (scope : Scope) (name : String) : Operation → Option Symbol.Change
  | change other changed made => if other = scope ∧ changed = name then some made else none
  | _ => none

/-- Whether an operation is about a scope, and more than a look at it. -/
def touches (scope : Scope) : Operation → Bool
  | declare other _ _ _ | change other _ _ | reset other => other = scope
  | snapshot _ => false

end Operation

/-- The symbol is what the last declaration of the name in the scope and the changes behind it make,
and the scope was not emptied since. -/
def Live (operations : List Operation) (scope : Scope) (name : String) (symbol : Symbol) : Prop :=
  ∃ before kind ty later, operations = before ++ .declare scope name kind ty :: later ∧
    (∀ operation ∈ later, ¬ operation.Ends scope name) ∧
    symbol = Symbol.changed { name, kind, ty } (later.filterMap (Operation.change? scope name))

namespace Live

variable {operations : List Operation} {operation : Operation} {scope : Scope} {name : String}
  {symbol : Symbol}

theorem name_eq (h : Live operations scope name symbol) : symbol.name = name := by
  obtain ⟨before, kind, ty, later, _, _, rfl⟩ := h
  simp

theorem not_nil : ¬ Live [] scope name symbol := by
  rintro ⟨before, kind, ty, later, hnil, _⟩
  simp at hnil

/-- What is live behind one more operation: what it declares, and what it does not end. -/
theorem concat_iff : Live (operations ++ [operation]) scope name symbol ↔
    (∃ kind ty, operation = .declare scope name kind ty ∧ symbol = { name, kind, ty }) ∨
      ¬ operation.Ends scope name ∧ ∃ earlier, Live operations scope name earlier ∧
        symbol = earlier.changed (operation.change? scope name).toList := by
  have hchange : [operation].filterMap (Operation.change? scope name) =
      (operation.change? scope name).toList := by
    cases hchange : operation.change? scope name <;> simp [hchange]
  constructor
  · rintro ⟨before, kind, ty, later, hsplit, hlater, rfl⟩
    rcases List.eq_nil_or_concat later with rfl | ⟨front, last, rfl⟩
    · obtain ⟨rfl, hlast⟩ := List.append_inj' hsplit rfl
      obtain rfl := (List.cons.inj hlast).1
      exact .inl ⟨kind, ty, rfl, rfl⟩
    · rw [List.concat_eq_append] at hsplit hlater ⊢
      rw [← List.cons_append, ← List.append_assoc] at hsplit
      obtain ⟨rfl, hlast⟩ := List.append_inj' hsplit rfl
      obtain rfl := (List.cons.inj hlast).1
      rw [List.forall_mem_append, List.forall_mem_singleton] at hlater
      refine .inr ⟨hlater.2, _, ⟨before, kind, ty, front, rfl, hlater.1, rfl⟩, ?_⟩
      rw [List.filterMap_append, Symbol.changed_append, hchange]
  · rintro (⟨kind, ty, rfl, rfl⟩ | ⟨hends, earlier, ⟨before, kind, ty, later, rfl, hlater, rfl⟩, rfl⟩)
    · exact ⟨operations, kind, ty, [], rfl, by simp, rfl⟩
    · refine ⟨before, kind, ty, later ++ [operation], by simp, ?_, ?_⟩
      · rw [List.forall_mem_append, List.forall_mem_singleton]
        exact ⟨hlater, hends⟩
      · rw [List.filterMap_append, Symbol.changed_append, hchange]

end Live

namespace Session

variable {scope : Scope} {name : String} {symbol : Symbol} {operation : Operation}

/-- What is not about a scope leaves its table alone. -/
theorem table_perform (session : Session) (h : operation.touches scope = false) :
    (session.perform operation).scopes.table scope = session.scopes.table scope := by
  cases operation with
  | declare other name kind ty | change other name made | reset other =>
      exact Scopes.table_update_of_ne _ _ (Ne.symm (of_decide_eq_false h))
  | snapshot other => rfl

/-- What an operation makes of the table of a scope depends on this table alone. -/
theorem table_perform_congr {session other : Session}
    (h : session.scopes.table scope = other.scopes.table scope) (operation : Operation) :
    (session.perform operation).scopes.table scope =
      (other.perform operation).scopes.table scope := by
  by_cases htouches : operation.touches scope = true
  · cases operation with
    | declare owner name kind ty | change owner name made | reset owner =>
        obtain rfl := of_decide_eq_true htouches
        simp only [perform, Scopes.declare, Scopes.modify, Scopes.reset, Scopes.table_update_self, h]
    | snapshot owner => cases htouches
  · rw [Bool.not_eq_true] at htouches
    rw [table_perform _ htouches, table_perform _ htouches, h]

theorem lookup?_perform (session : Session) (h : operation.touches scope = false) :
    (session.perform operation).scopes.lookup? scope name = session.scopes.lookup? scope name := by
  rw [Scopes.lookup?, Scopes.lookup?, session.table_perform h]

/-- What is found behind one more operation: what it declares, and what it does not end. -/
theorem lookup?_perform_iff (session : Session) (operation : Operation) :
    (session.perform operation).scopes.lookup? scope name = some symbol ↔
      (∃ kind ty, operation = .declare scope name kind ty ∧ symbol = { name, kind, ty }) ∨
        ¬ operation.Ends scope name ∧ ∃ earlier, session.scopes.lookup? scope name = some earlier ∧
          symbol = earlier.changed (operation.change? scope name).toList := by
  by_cases htouches : operation.touches scope = true
  · cases operation with
    | declare other declared kind ty =>
        obtain rfl := of_decide_eq_true htouches
        by_cases hname : declared = name
        · subst hname
          have hfound := Scopes.lookup?_declare session.scopes other
            { name := declared, kind, ty } declared
          rw [if_pos rfl] at hfound
          rw [perform, hfound]
          constructor
          · intro h
            exact .inl ⟨kind, ty, rfl, (Option.some.inj h).symm⟩
          · rintro (⟨_, _, hdeclare, rfl⟩ | ⟨hends, _⟩)
            · cases hdeclare
              rfl
            · exact absurd ⟨rfl, rfl⟩ hends
        · simp [perform, Scopes.lookup?_declare, Operation.Ends, hname, Operation.change?,
            Symbol.changed]
    | change other changed made =>
        obtain rfl := of_decide_eq_true htouches
        by_cases hname : changed = name
        · simp [perform, Scopes.lookup?_modify, Operation.Ends, hname, Operation.change?,
            Symbol.changed, @eq_comm _ symbol]
        · simp [perform, Scopes.lookup?_modify, Operation.Ends, hname, Operation.change?,
            Symbol.changed]
    | reset other =>
        obtain rfl := of_decide_eq_true htouches
        simp [perform, Scopes.lookup?_reset, Operation.Ends]
    | snapshot other => cases htouches
  · rw [Bool.not_eq_true] at htouches
    rw [session.lookup?_perform htouches]
    cases operation with
    | declare other declared kind ty | change other changed made | reset other =>
        have hne : other ≠ scope := of_decide_eq_false htouches
        simp [Operation.Ends, hne, Operation.change?, Symbol.changed]
    | snapshot other => simp [Operation.Ends, Operation.change?, Symbol.changed]

theorem lookup?_after_iff (operations : List Operation) :
    (after operations).scopes.lookup? scope name = some symbol ↔
      Live operations scope name symbol := by
  induction operations using List.reverseRecOn generalizing symbol with
  | nil => cases scope <;> simp [after, Live.not_nil, Scopes.lookup?, Scopes.table]
  | append_singleton operations operation ih =>
      rw [after_concat, lookup?_perform_iff, Live.concat_iff]
      simp only [ih]

/-- The table of a scope is made by the operations on this scope alone. -/
theorem table_after_filter (scope : Scope) (operations : List Operation) :
    (after (operations.filter (Operation.touches scope))).scopes.table scope =
      (after operations).scopes.table scope := by
  induction operations using List.reverseRecOn with
  | nil => rfl
  | append_singleton operations operation ih =>
      rw [List.filter_append, after_concat]
      by_cases htouches : operation.touches scope = true
      · rw [List.filter_cons_of_pos htouches, List.filter_nil, after_concat]
        exact table_perform_congr ih operation
      · rw [List.filter_cons_of_neg htouches, List.filter_nil, List.append_nil]
        rw [Bool.not_eq_true] at htouches
        rw [table_perform _ htouches, ih]

end Session

namespace SymbolTable

variable {table : SymbolTable}

/-- Every symbol is kept under its own name. -/
def Keyed (table : SymbolTable) : Prop :=
  ∀ (name : String) (symbol : Symbol), table[name]? = some symbol → symbol.name = name

theorem symbols_eq (table : SymbolTable) : table.symbols = table.toList.map Prod.snd := by
  have hvalues : table.values = table.foldr (fun _ symbol symbols => symbol :: symbols) [] := rfl
  rw [symbols, hvalues, Std.TreeMap.foldr_eq_foldr_toList]
  simp

/-- The symbols are listed in the order of their names. -/
theorem Keyed.pairwise (h : table.Keyed) : (table.symbols.map Symbol.name).Pairwise (· < ·) := by
  have hnames : table.symbols.map Symbol.name = table.toList.map Prod.fst := by
    rw [symbols_eq, List.map_map]
    refine List.map_congr_left fun entry hentry => ?_
    exact h entry.1 entry.2 (Std.TreeMap.mem_toList_iff_getElem?_eq_some.1 hentry)
  have hordered : table.toList.Pairwise fun first second => compare first.1 second.1 = .lt :=
    Std.TreeMap.ordered_keys_toList
  rw [hnames, List.pairwise_map]
  exact hordered.imp fun hlt => compareOfLessAndEq_eq_lt.1 hlt

theorem Keyed.mem_iff (h : table.Keyed) {symbol : Symbol} :
    symbol ∈ table.symbols ↔ table[symbol.name]? = some symbol := by
  rw [symbols_eq, List.mem_map]
  constructor
  · rintro ⟨entry, hentry, rfl⟩
    have hfound := Std.TreeMap.mem_toList_iff_getElem?_eq_some.1 hentry
    rwa [h entry.1 entry.2 hfound]
  · intro hfound
    exact ⟨(symbol.name, symbol), Std.TreeMap.mem_toList_iff_getElem?_eq_some.2 hfound, rfl⟩

end SymbolTable

section Snapshots

variable {operations : List Operation} {scope : Scope}

/-- A table lists what is live in a scope: one symbol for each live name, in the order of the
names. -/
structure Lists (operations : List Operation) (scope : Scope) (table : SymbolTable) : Prop where
  sorted : (table.symbols.map Symbol.name).Pairwise (· < ·)
  names : ∀ name, name ∈ table.symbols.map Symbol.name ↔ ∃ symbol, Live operations scope name symbol
  symbols : ∀ symbol ∈ table.symbols, Live operations scope symbol.name symbol

theorem lists_table_after (operations : List Operation) (scope : Scope) :
    Lists operations scope ((Session.after operations).scopes.table scope) := by
  have hlive : ∀ {name : String} {symbol : Symbol},
      ((Session.after operations).scopes.table scope)[name]? = some symbol ↔
        Live operations scope name symbol := Session.lookup?_after_iff operations
  have hkeyed : ((Session.after operations).scopes.table scope).Keyed := fun name symbol hfound =>
    (hlive.1 hfound).name_eq
  refine ⟨hkeyed.pairwise, fun name => ?_, fun symbol hsymbol => hlive.1 (hkeyed.mem_iff.1 hsymbol)⟩
  rw [List.mem_map]
  constructor
  · rintro ⟨symbol, hsymbol, rfl⟩
    exact ⟨symbol, hlive.1 (hkeyed.mem_iff.1 hsymbol)⟩
  · rintro ⟨symbol, hsymbol⟩
    obtain rfl := hsymbol.name_eq
    exact ⟨symbol, hkeyed.mem_iff.2 (hlive.2 hsymbol), rfl⟩

namespace Session

/-- Snapshots are only added. -/
theorem taken_prefix (session : Session) (operations : List Operation) :
    session.taken <+: (operations.foldl perform session).taken := by
  induction operations generalizing session with
  | nil => exact List.prefix_refl _
  | cons operation operations ih =>
      refine List.IsPrefix.trans ?_ (ih (session.perform operation))
      cases operation with
      | snapshot scope => exact List.prefix_append _ _
      | _ => exact List.prefix_refl _

/-- A snapshot is the table of its time, whatever comes later. -/
theorem getElem?_taken_after (before : List Operation) (scope : Scope) (later : List Operation) :
    (after (before ++ .snapshot scope :: later)).taken[(after before).taken.length]? =
      some ((after before).scopes.table scope) := by
  obtain ⟨added, hadded⟩ := taken_prefix ((after before).perform (.snapshot scope)) later
  have htaken : (after (before ++ .snapshot scope :: later)).taken =
      (after before).taken ++ [(after before).scopes.table scope] ++ added := by
    rw [after, List.foldl_append, List.foldl_cons, ← after, ← hadded, perform]
  simp [htaken]

end Session

end Snapshots

section Lookups

variable {operations : List Operation} {name : String} {symbol : Symbol} {scope : Scope}

open Session (after lookup?_after_iff)

theorem lookup?_after_eq_none_iff : (after operations).scopes.lookup? scope name = none ↔
    ∀ symbol, ¬ Live operations scope name symbol := by
  rw [Option.eq_none_iff_forall_ne_some]
  exact forall_congr' fun symbol => not_congr (lookup?_after_iff operations)

theorem nearest?_after_iff : (after operations).scopes.nearest? name = some symbol ↔
    Live operations .local name symbol ∨
      (∀ hidden, ¬ Live operations .local name hidden) ∧ Live operations .global name symbol := by
  have horElse : (after operations).scopes.nearest? name =
      ((after operations).scopes.lookup? .local name).or
        ((after operations).scopes.lookup? .global name) := Option.orElse_eq_or
  rw [horElse, Option.or_eq_some_iff, lookup?_after_eq_none_iff, lookup?_after_iff,
    lookup?_after_iff]

theorem function?_after_iff : (after operations).scopes.function? name = some symbol ↔
    Live operations .global name symbol ∧ symbol.kind = .function := by
  have hfilter : (after operations).scopes.function? name =
      ((after operations).scopes.lookup? .global name).filter Symbol.isFunction := rfl
  rw [hfilter, Option.filter_eq_some_iff, lookup?_after_iff]
  simp [Symbol.isFunction]

theorem contains_after_iff : ((after operations).scopes.table scope).contains name = true ↔
    ∃ symbol, Live operations scope name symbol := by
  rw [Std.TreeMap.contains_eq_isSome_getElem?, Option.isSome_iff_exists]
  exact exists_congr fun symbol => lookup?_after_iff operations

theorem scopeOf?_after_iff : (after operations).scopes.scopeOf? name = some scope ↔
    (∃ symbol, Live operations scope name symbol) ∧
      (scope = .global → ∀ hidden, ¬ Live operations .local name hidden) := by
  rw [← not_exists, ← contains_after_iff, ← contains_after_iff]
  simp only [Scopes.scopeOf?, Scopes.table]
  cases scope <;> split <;> simp_all

end Lookups

/-- What the scopes answer behind some operations, told from the operations alone. -/
structure Remembers (operations : List Operation) (session : Session) : Prop where
  lookup : ∀ scope name symbol, session.scopes.lookup? scope name = some symbol ↔
    Live operations scope name symbol
  nearest : ∀ name symbol, session.scopes.nearest? name = some symbol ↔
    Live operations .local name symbol ∨
      (∀ hidden, ¬ Live operations .local name hidden) ∧ Live operations .global name symbol
  scopeOf : ∀ name scope, session.scopes.scopeOf? name = some scope ↔
    (∃ symbol, Live operations scope name symbol) ∧
      (scope = .global → ∀ hidden, ¬ Live operations .local name hidden)
  function : ∀ name symbol, session.scopes.function? name = some symbol ↔
    Live operations .global name symbol ∧ symbol.kind = .function
  /-- The operations on the other scope, and the snapshots, may as well be left out. -/
  apart : ∀ scope, session.scopes.table scope =
    (Session.after (operations.filter (Operation.touches scope))).scopes.table scope
  /-- Whatever comes later, a snapshot lists what was live when it was taken. -/
  snapshots : ∀ before scope later, operations = before ++ .snapshot scope :: later →
    ∃ table, session.taken[(Session.after before).taken.length]? = some table ∧
      Lists before scope table

theorem after_remembers (operations : List Operation) :
    Remembers operations (Session.after operations) where
  lookup _ _ _ := Session.lookup?_after_iff operations
  nearest _ _ := nearest?_after_iff
  scopeOf _ _ := scopeOf?_after_iff
  function _ _ := function?_after_iff
  apart scope := (Session.table_after_filter scope operations).symm
  snapshots before scope later hsplit := by
    subst hsplit
    exact ⟨_, Session.getElem?_taken_after before scope later, lists_table_after before scope⟩

end OnePass
