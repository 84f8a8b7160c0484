import OnePass.Proofs.Independence
import OnePass.Proofs.Recovery.Insertions

/-!
A statement that begins with an unknown name changes nothing but what is recorded. Wherever between
two statements it is put in, the program compiles as before, with one diagnostic more. There is one
exception: between an open call and a semicolon the name is read as an argument.
-/

namespace OnePass

open Pass

/-- The second compilation gives what the first does, and records one diagnostic more. -/
structure Compilation.Records (diagnostic : Diagnostic) (c d : Compilation) : Prop
    extends c.SameOutput d where
  diagnostics : ∃ before after, c.diagnostics = before ++ after ∧
    d.diagnostics = before ++ diagnostic :: after

namespace Insertion

variable {ι : Insertion} {moved : Bool} {t t' : State}

/-- Behind the point, both runs have emitted, interned and kept the same. -/
theorem Apart.records (h : ι.Apart moved t t') (items items' : List TopLevel) :
    (t.compilation items).Records ⟨ι.name.line, .undefined⟩ (t'.compilation items') := by
  obtain ⟨earlier, base, hbase, hbase'⟩ := h
  have hid : ∀ diagnostics : List Diagnostic,
      diagnostics.map (Diagnostic.rename (.lines id)) = diagnostics :=
    fun _ => List.map_id'' (fun diagnostic => diagnostic.rename_of_line_id rfl) _
  refine ⟨(hbase.sameOutput items items).of_base (hbase'.sameOutput items items'), earlier,
    base.diagnostics.toList, ?_, ?_⟩
  · exact hbase.diagnostics.trans (congrArg _ (hid _))
  · refine hbase'.diagnostics.trans ?_
    rw [hid, List.append_assoc]
    rfl

end Insertion

/-- At a point of a program, the tokens behind it are left, and names that are declared nowhere are
unknown. -/
theorem exists_reached {tokens back : List Token} {items : List TopLevel} {t : State}
    (h : parts (.start {} tokens) = .ok items t) (hgap : back ∈ Program.gapsIn tokens ⟨items⟩)
    {name : String} (hnew : ∀ o ∈ (Program.mk items).occurrences, o.2.name.value ≠ name) :
    ∃ before ∈ gapsOf items, ∃ g, Plays before (.start {} tokens) g ∧ g.cursor.rest = back ∧
      g.scopes.nearest? name = none := by
  obtain ⟨before, hbefore, hleft⟩ := List.mem_map.1 hgap
  obtain ⟨after, hlog⟩ := prefix_of_mem_gapsOf hbefore
  have hplays := plays_parts h
  rw [← hlog] at hplays
  obtain ⟨g, hg, _⟩ := plays_append.1 hplays
  refine ⟨before, hbefore, g, hg, hg.leftOver.trans hleft, hg.nearest? (fun hmem => ?_) ?_⟩
  · have hdeclared : name ∈ declaredNames (items.flatMap TopLevel.log) := by
      rw [← hlog, declaredNames_append]
      exact List.mem_append_left _ hmem
    rw [declaredNames_items 0] at hdeclared
    obtain ⟨o, ho, heq⟩ := List.mem_map.1 hdeclared
    exact hnew o ho heq
  · rw [Scopes.nearest?_eq_none]
    intro scope
    cases scope <;> rfl

/-- A statement that begins with a name declared nowhere can be put in at every point between
statements: it leaves one diagnostic, and nothing else. -/
theorem compile_with_stray {front back tail : List Token} {name : Token} {c : Compilation}
    (hcompile : compile (front ++ back) = .ok c) (hgap : back ∈ c.program.gapsIn (front ++ back))
    (hname : name.kind = .ident) (hnew : ∀ o ∈ c.program.occurrences, o.2.name.value ≠ name.value)
    (hstray : StrayTail tail)
    (hopen : headKind back = some .semicolon → lastKind front ≠ some .lparen) :
    ∃ d, compile (front ++ name :: (tail ++ back)) = .ok d ∧
      c.Records ⟨name.line, .undefined⟩ d := by
  obtain ⟨items, t, hparts, rfl⟩ := compile_eq_ok_iff.1 hcompile
  obtain ⟨before, hbefore, g, hplays, hback, hunknown⟩ := exists_reached hparts hgap hnew
  have hcomes : ∀ ι : Insertion, ι.back = back → ι.name = name →
      Comes ι ((front ++ back).length + 1) [] (fun items before => before ∈ gapsOf items) parts
        (.start {} (front ++ back)) items t := by
    rintro ι rfl rfl
    exact ⟨Nat.lt_succ_self _, rfl, hparts, _, before, rfl, hbefore, g, hplays, hback, hunknown⟩
  have hfront : front ≠ [] := by
    -- where the point lies does not depend on what the front is said to be
    let ι : Insertion := ⟨[⟨.semicolon, ";", 0⟩], name, tail, back, List.cons_ne_nil _ _, hname,
      hstray, fun _ => by decide⟩
    have hplace := Isolates.parts.place _ _ _ (hcomes ι rfl rfl)
    rintro rfl
    exact absurd hplace (Nat.not_le_of_lt (Nat.lt_add_of_pos_right Nat.two_pos))
  let ι : Insertion := ⟨front, name, tail, back, hfront, hname, hstray, hopen⟩
  obtain ⟨items', t', hparts', happart, _⟩ :=
    Isolates.parts.runs (.start {} front) items t rfl (hcomes ι rfl rfl)
  exact ⟨t'.compilation items', compile_eq_ok_iff.2 ⟨items', t', hparts', rfl⟩,
    happart.records items items'⟩

/-- A program with a point in front of and behind a return, in a conditional and in a loop. One of
its semicolons is missing. -/
def pointedTokens : List Token :=
  scan 1 ["int f ( ) \x7b return ( 1 ) ; \x7d", "void main ( ) \x7b", "int i ;", "if ( i ) \x7b",
    "i = 1", "\x7d else ;", "while ( f ( ) ) \x7b", "\x7d", "\x7d"]

/-- Tokens between an unknown name and a semicolon, with braces and a keyword among them. -/
def junk : List Token :=
  scan 20 ["\x7d else ( \x7b"]

/-- Arguments of an unknown function, with a semicolon and a group among them. -/
def junkArguments : List Token :=
  ⟨.semicolon, ";", 20⟩ :: ⟨.lparen, "(", 20⟩ :: ([] ++ ⟨.rparen, ")", 20⟩ :: [⟨.rbrace, "\x7d", 20⟩])

/-- At each of the eight points a stray assignment or call is left out. -/
theorem records_pointedTokens : ∃ c, compile pointedTokens = .ok c ∧
    c.program.gapsIn pointedTokens = [5, 10, 19, 24, 27, 30, 37, 38].map pointedTokens.drop ∧
      (∀ o ∈ c.program.occurrences, o.2.name.value ≠ "u") ∧
        ∀ n ∈ [5, 10, 19, 24, 27, 30, 37, 38], ∀ tail ∈ [junk ++ [⟨.semicolon, ";", 20⟩],
          ⟨.lparen, "(", 20⟩ :: (junkArguments ++ [⟨.rparen, ")", 20⟩, ⟨.semicolon, ";", 20⟩])],
          StrayTail tail ∧ ∃ d, compile (pointedTokens.take n ++
            ⟨.ident, "u", 20⟩ :: (tail ++ pointedTokens.drop n)) = .ok d ∧
              c.Records ⟨20, .undefined⟩ d := by
  have hc := eq_ok_get (compile pointedTokens) (by decide +kernel)
  have hgaps : ((compile pointedTokens).toOption.get (by decide +kernel)).program.gapsIn
      pointedTokens = [5, 10, 19, 24, 27, 30, 37, 38].map pointedTokens.drop := by
    decide +kernel
  have hstray : ∀ tail ∈ [junk ++ [⟨.semicolon, ";", 20⟩],
      ⟨.lparen, "(", 20⟩ :: (junkArguments ++ [⟨.rparen, ")", 20⟩, ⟨.semicolon, ";", 20⟩])],
      StrayTail tail := by
    have harguments : Matched junkArguments :=
      .cons (by decide) (by decide) (.group rfl rfl .nil (.cons (by decide) (by decide) .nil))
    intro tail htail
    rw [List.mem_cons, List.mem_singleton] at htail
    rcases htail with rfl | rfl
    · exact .plain (by decide) (by decide) rfl
    · exact .call rfl harguments rfl rfl
  refine ⟨_, hc, hgaps, by decide +kernel, fun n hn tail htail => ⟨hstray tail htail, ?_⟩⟩
  have hsplit : pointedTokens.take n ++ pointedTokens.drop n = pointedTokens :=
    List.take_append_drop n pointedTokens
  have hopen : ∀ n ∈ [5, 10, 19, 24, 27, 30, 37, 38],
      headKind (pointedTokens.drop n) ≠ some .semicolon := by
    decide +kernel
  refine compile_with_stray ?_ ?_ rfl (by decide +kernel) (hstray tail htail)
    fun h => absurd h (hopen n hn)
  · rw [hsplit]
    exact hc
  · rw [hsplit, hgaps]
    exact List.mem_map_of_mem hn

/-- A program up to a call without arguments at the end of a loop. -/
def openCallTokens : List Token :=
  scan 1 ["int f ( ) \x7b return ( 1 ) ; \x7d", "void main ( ) \x7b", "do ; while ( f ("]

/-- An empty statement and the end of a function. -/
def emptyTokens : List Token :=
  [⟨.semicolon, ";", 5⟩, ⟨.rbrace, "\x7d", 6⟩]

/-- The semicolon behind an open call is that of the next statement. With a stray statement in front
of it, the name of that one is read as an argument, and is pushed. -/
theorem not_records_openCallTokens : ∃ c d, compile (openCallTokens ++ emptyTokens) = .ok c ∧
    emptyTokens ∈ c.program.gapsIn (openCallTokens ++ emptyTokens) ∧
      (∀ o ∈ c.program.occurrences, o.2.name.value ≠ "u") ∧
        StrayTail ([] ++ [⟨.semicolon, ";", 4⟩]) ∧
          compile (openCallTokens ++ ⟨.ident, "u", 4⟩ ::
            ([] ++ [⟨.semicolon, ";", 4⟩] ++ emptyTokens)) = .ok d ∧
              ¬ c.Records ⟨4, .undefined⟩ d := by
  have hc := eq_ok_get (compile (openCallTokens ++ emptyTokens)) (by decide +kernel)
  have hd := eq_ok_get (compile (openCallTokens ++ ⟨.ident, "u", 4⟩ ::
    ([] ++ [⟨.semicolon, ";", 4⟩] ++ emptyTokens))) (by decide +kernel)
  refine ⟨_, _, hc, by decide +kernel, by decide +kernel, .plain (by decide) (by decide) rfl, hd,
    fun hrecords => ?_⟩
  exact absurd hrecords.code (by decide +kernel)

end OnePass
