import OnePass.Proofs.Calls.Globals

/-!
Where the instructions of a compilation are emitted. A run of a log has one state before each of its
actions, so that every instruction of the code was emitted in one state. An instruction that is not
part of the frame of a function was emitted among the statements of one, and as long as these are
compiled the names in scope stay the same.
-/

namespace OnePass

namespace Action

/-- An action leads to one state only. -/
theorem Performs.unique {action : Action} {s t t' : State} (h : action.Performs s t)
    (h' : action.Performs s t') : t = t' := by
  have hok : ∀ {α : Type} {pass : Pass α} {s t t' : State} {a b : α}, pass s = .ok a t →
      pass s = .ok b t' → a = b ∧ t = t' := by
    intro α pass s t t' a b h h'
    exact EStateM.Result.ok.inj (h.symm.trans h')
  cases action with
  | take kind token => exact (hok h.2 h'.2).2
  | skipCall name =>
      obtain ⟨_, u, v, hadvance, hreport, hskip⟩ := h
      obtain ⟨_, u', v', hadvance', hreport', hskip'⟩ := h'
      obtain rfl := (hok hadvance hadvance').2
      obtain rfl := (hok hreport hreport').2
      exact (hok hskip hskip').2
  | skipStatement =>
      obtain ⟨token, u, v, hadvance, hreport, hskip⟩ := h
      obtain ⟨token', u', v', hadvance', hreport', hskip'⟩ := h'
      obtain ⟨rfl, rfl⟩ := hok hadvance hadvance'
      obtain rfl := (hok hreport hreport').2
      exact (hok hskip hskip').2
  | declare scope symbol => exact (hok h.2 h'.2).2
  | declareConst scope ty item => exact (hok h.2.2 h'.2.2).2
  | noSign | nearest name symbol | callee name symbol | check fact => exact h.2.symm.trans h'.2
  | _ => exact (hok h h').2

/-- Whether an action leaves the names in scope as they are. -/
def keepsScopes : Action → Bool
  | declare _ _ | declareConst _ _ _ | resetLocals | addParameter _ _ => false
  | _ => true

instance : Executive keepsScopes := {}

theorem scopes_of_keepsScopes {action : Action} (h : action.keepsScopes = true) (before : Scopes) :
    action.scopes before = before := by
  cases action with
  | declare scope symbol | declareConst scope ty item | resetLocals | addParameter name ty => cases h
  | _ => rfl

/-- Whether an action emits nothing but the frame of a function: its declarations, and the return
at its end. -/
def frames : Action → Bool
  | emit .retVoid => true
  | emit instr => instr.isFraming
  | _ => true

instance : Declarative frames := {}

theorem eq_emit_of_code {action : Action} {instr : Instr} {rest : List Instr}
    (h : action.code = instr :: rest) : action = .emit instr ∧ rest = [] := by
  cases action with
  | emit other =>
      obtain ⟨rfl, rfl⟩ := List.cons.inj h
      exact ⟨rfl, rfl⟩
  | _ => cases h

end Action

namespace Plays

variable {log : List Action} {s t t' : State}

theorem unique (h : Plays log s t) (h' : Plays log s t') : t = t' := by
  induction log generalizing s with
  | nil => exact (plays_nil.1 h).symm.trans (plays_nil.1 h')
  | cons action log ih =>
      obtain ⟨u, haction, hlog⟩ := h
      obtain ⟨u', haction', hlog'⟩ := h'
      obtain rfl := haction.unique haction'
      exact ih hlog hlog'

theorem scopes_of_keepsScopes (h : Plays log s t) (hlog : log.all Action.keepsScopes = true) :
    t.scopes = s.scopes := by
  refine h.kept (f := State.scopes) (fun action s u haction hkeeps => ?_) hlog
  rw [haction.effect.scopes, Action.scopes_of_keepsScopes hkeeps]

/-- A log that is played is played in all its parts. -/
theorem of_infix {part : List Action} (h : Plays log s t) (hpart : part <:+: log) :
    ∃ front back u v, log = front ++ part ++ back ∧ Plays front s u ∧ Plays part u v ∧
      Plays back v t := by
  obtain ⟨front, back, rfl⟩ := hpart
  obtain ⟨v, hfront, hback⟩ := plays_append.1 h
  obtain ⟨u, hbefore, hplays⟩ := plays_append.1 hfront
  exact ⟨front, back, u, v, rfl, hbefore, hplays, hback⟩

/-- Where the names in scope stay the same, every action was performed with them. -/
theorem exists_performs (h : Plays log s t) (hlog : log.all Action.keepsScopes = true)
    {action : Action} (haction : action ∈ log) :
    ∃ u v, u.scopes = s.scopes ∧ action.Performs u v := by
  obtain ⟨front, back, rfl⟩ := List.append_of_mem haction
  obtain ⟨u, hfront, v, hperforms, _⟩ := plays_append.1 h
  rw [List.all_append, Bool.and_eq_true] at hlog
  exact ⟨u, v, hfront.scopes_of_keepsScopes hlog.1, hperforms⟩

end Plays

/-- Played from `s`, the log comes to emit `instr` in the state `u`. -/
def Emits (log : List Action) (s : State) (instr : Instr) (u : State) : Prop :=
  ∃ front back, log = front ++ .emit instr :: back ∧ Plays front s u

namespace Emits

variable {log front back : List Action} {s t u v : State} {instr : Instr}

theorem mem (h : Emits log s instr u) : .emit instr ∈ log := by
  obtain ⟨front, back, rfl, _⟩ := h
  simp

theorem append_left (h : Emits front s instr u) (back : List Action) :
    Emits (front ++ back) s instr u := by
  obtain ⟨first, rest, rfl, hplays⟩ := h
  exact ⟨first, rest ++ back, by simp, hplays⟩

theorem append_right (hfront : Plays front s v) (h : Emits back v instr u) :
    Emits (front ++ back) s instr u := by
  obtain ⟨first, rest, rfl, hplays⟩ := h
  exact ⟨front ++ first, rest, by simp, plays_append.2 ⟨v, hfront, hplays⟩⟩

/-- What is emitted by a log is emitted by one of its parts. -/
theorem of_append (h : Emits (front ++ back) s instr u) :
    Emits front s instr u ∨ ∃ v, Plays front s v ∧ Emits back v instr u := by
  obtain ⟨first, rest, hlog, hplays⟩ := h
  rcases List.append_eq_append_iff.1 hlog with ⟨middle, rfl, rfl⟩ | ⟨middle, hfront, hback⟩
  · obtain ⟨v, hfront, hmiddle⟩ := plays_append.1 hplays
    exact .inr ⟨v, hfront, middle, rest, rfl, hmiddle⟩
  · cases middle with
    | nil =>
        obtain rfl : front = first := by simpa using hfront
        exact .inr ⟨u, hplays, [], rest, hback.symm, rfl⟩
    | cons action middle =>
        obtain ⟨rfl, _⟩ := List.cons.inj hback
        exact .inl ⟨first, middle, hfront, hplays⟩

theorem of_flatMap {α : Type} {itemLog : α → List Action} {items : List α}
    (h : Emits (items.flatMap itemLog) s instr u) : ∃ before item after v,
      items = before ++ item :: after ∧ Plays (before.flatMap itemLog) s v ∧
        Emits (itemLog item) v instr u := by
  induction items generalizing s with
  | nil =>
      have hmem := h.mem
      cases hmem
  | cons item items ih =>
      rcases h.of_append with hitem | ⟨v, hplays, hitems⟩
      · exact ⟨[], item, items, s, rfl, rfl, hitem⟩
      · obtain ⟨before, found, after, w, rfl, hbefore, hfound⟩ := ih hitems
        exact ⟨item :: before, found, after, w, rfl, plays_append.2 ⟨v, hplays, hbefore⟩, hfound⟩

theorem scopes_eq (h : Emits log s instr u) (hlog : log.all Action.keepsScopes = true) :
    u.scopes = s.scopes := by
  obtain ⟨front, back, rfl, hplays⟩ := h
  rw [List.all_append, Bool.and_eq_true] at hlog
  exact hplays.scopes_of_keepsScopes hlog.1

theorem exists_of_mem (hplays : Plays log s t) (h : .emit instr ∈ log) :
    ∃ u, Emits log s instr u := by
  obtain ⟨front, back, rfl⟩ := List.append_of_mem h
  obtain ⟨u, hfront, _⟩ := plays_append.1 hplays
  exact ⟨u, front, back, rfl, hfront⟩

/-- A run that goes on from an emission has more code, unless it stops at once. -/
theorem eq_of_length_le {middle rest : List Action} (hfront : Plays front s u)
    (hplays : Plays (front ++ middle) s v) (hmiddle : .emit instr :: back = middle ++ rest)
    (hlength : v.emitter.code.toList.length ≤ u.emitter.code.toList.length) : u = v := by
  obtain ⟨u', hfront', hplays⟩ := plays_append.1 hplays
  obtain rfl := hfront.unique hfront'
  cases middle with
  | nil => exact plays_nil.1 hplays
  | cons action middle =>
      obtain ⟨rfl, _⟩ := List.cons.inj hmiddle
      rw [hplays.code, List.flatMap_cons, Action.code, List.length_append, List.length_append,
        List.length_singleton] at hlength
      omega

/-- An instruction is emitted in one state only at each length of the code. -/
theorem unique (h : Emits log s instr u) (h' : Emits log s instr v)
    (hlength : u.emitter.code.toList.length = v.emitter.code.toList.length) : u = v := by
  obtain ⟨front, back, rfl, hplays⟩ := h
  obtain ⟨front', back', hlog, hplays'⟩ := h'
  rcases List.append_eq_append_iff.1 hlog with ⟨middle, rfl, hmiddle⟩ | ⟨middle, rfl, hmiddle⟩
  · exact eq_of_length_le hplays hplays' hmiddle (Nat.le_of_eq hlength.symm)
  · exact (eq_of_length_le hplays' hplays hmiddle (Nat.le_of_eq hlength)).symm

/-- Every instruction that a log adds to the code was emitted behind those in front of it. -/
theorem exists_of_code (hplays : Plays log s t) {done todo : List Instr}
    (h : log.flatMap Action.code = done ++ instr :: todo) :
    ∃ u, Emits log s instr u ∧ u.emitter.code.toList = s.emitter.code.toList ++ done := by
  induction log generalizing s done with
  | nil => simp at h
  | cons action log ih =>
      obtain ⟨v, haction, hlog⟩ := hplays
      have hfirst : Plays [action] s v := ⟨v, haction, rfl⟩
      have hcode := haction.effect.code
      rw [List.flatMap_cons] at h
      cases hadded : action.code with
      | nil =>
          rw [hadded] at h hcode
          obtain ⟨u, hemits, hbefore⟩ := ih hlog h
          refine ⟨u, .append_right hfirst hemits, ?_⟩
          rw [hbefore, hcode, List.append_nil]
      | cons first rest =>
          obtain ⟨rfl, rfl⟩ := Action.eq_emit_of_code hadded
          rw [hadded] at h hcode
          cases done with
          | nil =>
              obtain ⟨rfl, _⟩ := List.cons.inj h
              exact ⟨s, ⟨[], log, rfl, rfl⟩, by simp⟩
          | cons other done =>
              obtain ⟨rfl, hrest⟩ := List.cons.inj h
              obtain ⟨u, hemits, hbefore⟩ := ih hlog hrest
              refine ⟨u, .append_right hfirst hemits, ?_⟩
              rw [hbefore, hcode, List.append_assoc, List.singleton_append]

end Emits

section Functions

def TopLevel.function? : TopLevel → Option Function
  | function f => some f
  | _ => none

def Program.functions (program : Program) : List Function :=
  program.items.filterMap TopLevel.function?

@[simp]
theorem Program.mem_functions {program : Program} {f : Function} :
    f ∈ program.functions ↔ .function f ∈ program.items := by
  have hfunction : ∀ item : TopLevel, item.function? = some f ↔ item = .function f := by
    intro item
    cases item <;> simp [TopLevel.function?]
  simp [functions, hfunction]

theorem VarDecl.frames_log (scope : Scope) (decl : VarDecl) :
    (decl.log scope).all Action.frames = true :=
  decl.all_log_of (fun _ => rfl) (fun _ _ => rfl) fun _ _ _ => rfl

theorem Action.frames_emit (instr : Instr) (h : instr.isFraming = true) :
    (emit instr).frames = true := by
  cases instr <;> first | rfl | cases h

theorem Function.frames_prelude (f : Function) : f.prelude.all Action.frames = true :=
  f.all_prelude Action.frames_emit (fun _ => rfl) (fun _ _ => rfl) fun _ _ => rfl

theorem Function.frames_closing (f : Function) : f.closing.all Action.frames = true :=
  f.all_closing rfl Action.frames_emit fun _ => rfl

/-- A log that only frames functions emits no other instruction. -/
theorem Emits.frames {log : List Action} {s u : State} {instr : Instr} (h : Emits log s instr u)
    (hlog : log.all Action.frames = true) : (Action.emit instr).frames = true :=
  List.all_eq_true.1 hlog _ h.mem

/-- The statements of a function are compiled from the state `v` on. -/
def BodyAt (tokens : List Token) (c : Compilation) (f : Function) (v : State) : Prop :=
  ∃ before after, c.program.items = before ++ .function f :: after ∧
    Plays (before.flatMap TopLevel.log ++ (f.head.log ++ f.prelude)) (.start {} tokens) v

variable {tokens : List Token} {c : Compilation} {instr : Instr} {u v : State} {f : Function}

theorem BodyAt.log_eq {before after : List TopLevel}
    (hitems : c.program.items = before ++ .function f :: after) : c.program.log =
      (before.flatMap TopLevel.log ++ (f.head.log ++ f.prelude)) ++
        (Stmt.logs f.head.ty f.body.stmts ++
          (f.closing ++ (after.flatMap TopLevel.log ++ [.keepTable Pass.globalName .global]))) := by
  rw [Program.log, hitems]
  simp [TopLevel.log, f.log_eq]

/-- An instruction that is not part of the frame of a function is emitted among the statements
of one. -/
theorem emits_iff_of_frames (hinstr : (Action.emit instr).frames = false) :
    Emits c.program.log (.start {} tokens) instr u ↔ ∃ f v, BodyAt tokens c f v ∧
      Emits (Stmt.logs f.head.ty f.body.stmts) v instr u := by
  have hnot : ∀ {log : List Action} {s : State}, log.all Action.frames = true →
      ¬ Emits log s instr u := by
    intro log s hlog hemits
    rw [hemits.frames hlog] at hinstr
    cases hinstr
  constructor
  · intro h
    rcases h.of_append with hitems | ⟨_, _, hlast⟩
    · obtain ⟨before, item, after, s, hsplit, hbefore, hitem⟩ := hitems.of_flatMap
      cases item with
      | consts decls =>
          refine absurd hitem (hnot ?_)
          rw [TopLevel.log, List.all_flatMap, List.all_eq_true]
          exact fun decl _ => decl.all_log .global
      | vars decls =>
          refine absurd hitem (hnot ?_)
          rw [TopLevel.log, List.all_flatMap, List.all_eq_true]
          exact fun decl _ => decl.frames_log .global
      | function f =>
          rw [TopLevel.log, f.log_eq] at hitem
          rcases hitem.of_append with hhead | ⟨s', hhead, hitem⟩
          · exact absurd hhead (hnot f.head.all_log)
          rcases hitem.of_append with hprelude | ⟨v, hprelude, hitem⟩
          · exact absurd hprelude (hnot f.frames_prelude)
          rcases hitem.of_append with hstmts | ⟨w, _, hclosing⟩
          · refine ⟨f, v, ⟨before, after, hsplit, ?_⟩, hstmts⟩
            exact plays_append.2 ⟨s, hbefore, plays_append.2 ⟨s', hhead, hprelude⟩⟩
          · exact absurd hclosing (hnot f.frames_closing)
    · exact absurd hlast (hnot rfl)
  · rintro ⟨f, v, ⟨before, after, hitems, hplays⟩, hemits⟩
    rw [BodyAt.log_eq hitems]
    exact .append_right hplays (hemits.append_left _)

/-- The statements of every function are compiled, from one state on. -/
theorem exists_bodyAt (h : compile tokens = .ok c) (hf : f ∈ c.program.functions) :
    ∃ v, BodyAt tokens c f v := by
  obtain ⟨before, after, hitems⟩ := List.append_of_mem (Program.mem_functions.1 hf)
  obtain ⟨t, hplays, _⟩ := plays_of_compile h
  rw [BodyAt.log_eq hitems] at hplays
  obtain ⟨v, hbefore, _⟩ := plays_append.1 hplays
  exact ⟨v, before, after, hitems, hbefore⟩

theorem BodyAt.mem (h : BodyAt tokens c f v) : f ∈ c.program.functions := by
  obtain ⟨before, after, hitems, _⟩ := h
  rw [Program.mem_functions, hitems]
  simp

/-- The statements of a function are compiled to their end. -/
theorem BodyAt.exists_plays (hbody : BodyAt tokens c f v) (h : compile tokens = .ok c) :
    ∃ w, Plays (Stmt.logs f.head.ty f.body.stmts) v w := by
  obtain ⟨before, after, hitems, hbefore⟩ := hbody
  obtain ⟨t, hplays, _⟩ := plays_of_compile h
  rw [BodyAt.log_eq hitems] at hplays
  obtain ⟨v', hbefore', hrest⟩ := plays_append.1 hplays
  obtain rfl := hbefore.unique hbefore'
  obtain ⟨w, hstmts, _⟩ := plays_append.1 hrest
  exact ⟨w, hstmts⟩

theorem BodyAt.subset (hbody : BodyAt tokens c f v) {action : Action}
    (haction : action ∈ Stmt.logs f.head.ty f.body.stmts) : action ∈ c.program.log := by
  obtain ⟨before, after, hitems, _⟩ := hbody
  rw [BodyAt.log_eq hitems]
  simp [haction]

/-- Every instruction of the code was emitted once those in front of it had been. -/
theorem exists_emits_of_code (h : compile tokens = .ok c) {done todo : List Instr}
    (hcode : c.code = done ++ instr :: todo) :
    ∃ u, Emits c.program.log (.start {} tokens) instr u ∧ u.emitter.code.toList = done := by
  obtain ⟨t, hplays, _, hc⟩ := plays_of_compile h
  have hadded : c.program.log.flatMap Action.code = done ++ instr :: todo := by
    rw [← hcode, hc]
    exact hplays.code.symm
  exact Emits.exists_of_code hplays hadded

/-- What is emitted goes behind the code that is there. -/
theorem Emits.exists_code (hemits : Emits c.program.log (.start {} tokens) instr u)
    (h : compile tokens = .ok c) : ∃ todo, c.code = u.emitter.code.toList ++ instr :: todo := by
  obtain ⟨front, back, hlog, hfront⟩ := hemits
  obtain ⟨t, hplays, _, hc⟩ := plays_of_compile h
  refine ⟨back.flatMap Action.code, ?_⟩
  have hcode : c.code = c.program.log.flatMap Action.code := by
    rw [hc]
    exact hplays.code
  have hdone : u.emitter.code.toList = front.flatMap Action.code := hfront.code
  rw [hcode, hlog, hdone, List.flatMap_append, List.flatMap_cons]
  rfl

/-- Every instruction of the code was emitted once those in front of it had been, and is allowed
with the names that were in scope then. -/
def Compilation.Always (tokens : List Token) (c : Compilation)
    (allowed : Scopes → Instr → Prop) : Prop :=
  ∀ done instr todo, c.code = done ++ instr :: todo →
    ∃ u, Emits c.program.log (.start {} tokens) instr u ∧ u.emitter.code.toList = done ∧
      allowed u.scopes instr

theorem always_iff (h : compile tokens = .ok c) {allowed : Scopes → Instr → Prop} :
    c.Always tokens allowed ↔
      ∀ instr u, Emits c.program.log (.start {} tokens) instr u → allowed u.scopes instr := by
  constructor
  · intro halways instr u hemits
    obtain ⟨todo, hcode⟩ := hemits.exists_code h
    obtain ⟨v, hemits', hdone, hallowed⟩ := halways _ _ _ hcode
    obtain rfl := hemits.unique hemits' (congrArg List.length hdone.symm)
    exact hallowed
  · intro hallowed done instr todo hcode
    obtain ⟨u, hemits, hdone⟩ := exists_emits_of_code h hcode
    exact ⟨u, hemits, hdone, hallowed instr u hemits⟩

end Functions

end OnePass
