import OnePass.Proofs.Log.Program

/-!
What a function leaves behind. From its head to its closing brace only local names are declared,
and no table is kept. So the global names behind a function are those behind its head, and of the
tables only its own is new.
-/

namespace OnePass

namespace Action

/-- Whether an action keeps no table. -/
def keepsNone : Action → Bool
  | keepTable _ _ => false
  | _ => true

/-- Whether an action keeps no table and leaves the global names alone. -/
def isLocal : Action → Bool
  | declare scope _ | declareConst scope _ _ => scope = .local
  | addParameter _ _ | keepTable _ _ => false
  | _ => true

instance : Declarative keepsNone := {}

instance : Executive isLocal := {}

variable {action : Action}

theorem tables_of_keepsNone (h : action.keepsNone = true) (s : State) :
    action.tables s = s.tables := by
  cases action with
  | keepTable name scope => cases h
  | _ => rfl

theorem keepsNone_of_isLocal (h : action.isLocal = true) : action.keepsNone = true := by
  cases action with
  | keepTable name scope => cases h
  | _ => rfl

theorem globals_of_isLocal (h : action.isLocal = true) (before : Scopes) :
    (action.scopes before).globals = before.globals := by
  cases action with
  | declare scope symbol | declareConst scope ty item =>
      cases scope with
      | global => cases h
      | «local» => rfl
  | addParameter function ty => cases h
  | _ => rfl

end Action

namespace Plays

variable {log : List Action} {s t : State}

theorem scopes (h : Plays log s t) : t.scopes = log.foldl Action.scopes s.scopes := by
  induction h using Plays.induction with
  | nil => rfl
  | cons haction _ ih =>
      rw [ih, haction.effect.scopes, List.foldl_cons]

theorem globals_of_isLocal (h : Plays log s t) (hlog : log.all Action.isLocal = true) :
    t.scopes.globals = s.scopes.globals := by
  refine h.kept (f := fun s => s.scopes.globals) (fun action s u haction hlocal => ?_) hlog
  rw [haction.effect.scopes, Action.globals_of_isLocal hlocal]

theorem tables_of_keepsNone (h : Plays log s t) (hlog : log.all Action.keepsNone = true) :
    t.tables = s.tables := by
  refine h.kept (f := State.tables) (fun action s u haction hnone => ?_) hlog
  rw [haction.effect.tables, Action.tables_of_keepsNone hnone]

end Plays

section Logs

theorem ConstDecl.isLocal_log (decl : ConstDecl) : (decl.log .local).all Action.isLocal = true :=
  decl.all_log_of (fun _ => rfl) fun _ _ => rfl

theorem VarDecl.isLocal_log (decl : VarDecl) : (decl.log .local).all Action.isLocal = true :=
  decl.all_log_of (fun _ => rfl) (fun _ _ => rfl) fun _ _ _ => rfl

theorem Body.isLocal_log (body : Body) (returnType : Ty) (line : UInt64) :
    (body.log returnType line).all Action.isLocal = true := by
  have hconsts : (body.consts.flatMap (ConstDecl.log .local)).all Action.isLocal = true := by
    rw [List.all_flatMap, List.all_eq_true]
    exact fun decl _ => decl.isLocal_log
  have hvars : (body.vars.flatMap (VarDecl.log .local)).all Action.isLocal = true := by
    rw [List.all_flatMap, List.all_eq_true]
    exact fun decl _ => decl.isLocal_log
  rw [Body.log, List.all_append, List.all_append, List.all_append, hconsts, hvars,
    Stmt.all_logs returnType body.stmts, all_when _ _ rfl]
  rfl

/-- Behind its head a function is local, up to where its table is kept. -/
theorem Function.exists_inside {f : Function} {s t : State} (h : Plays f.log s t) :
    ∃ inside u v, Plays f.head.log s u ∧ Plays inside u v ∧ inside.all Action.isLocal = true ∧
      (Action.keepTable f.head.name.value .local).Performs v t := by
  have hlog : f.log = f.head.log ++ ((f.head.announceLog ++ (.take .lbrace f.lbrace ::
      (f.body.log f.head.ty f.rbrace.line ++ (Action.when (f.head.ty = .void) (.emit .retVoid) ++
        [.emit .functionEnd, .take .rbrace f.rbrace])))) ++
      [.keepTable f.head.name.value .local]) := by
    simp [Function.log]
  rw [hlog, plays_append] at h
  obtain ⟨u, hhead, h⟩ := h
  obtain ⟨v, hinside, w, hkeep, rfl⟩ := plays_append.1 h
  refine ⟨_, u, v, hhead, hinside, ?_, hkeep⟩
  have hannounce : f.head.announceLog.all Action.isLocal = true := by
    simp [FunctionHead.announceLog, Action.isLocal]
  rw [List.all_append, List.all_cons, List.all_append, List.all_append, hannounce,
    f.body.isLocal_log, all_when _ _ rfl]
  rfl

/-- The global names behind a function are those behind its head. -/
theorem Function.globals_of_plays {f : Function} {s t : State} (h : Plays f.log s t) :
    t.scopes.globals = (f.head.log.foldl Action.scopes s.scopes).globals := by
  obtain ⟨inside, u, v, hhead, hinside, hlocal, hkeep⟩ := Function.exists_inside h
  have hkept : t.scopes = v.scopes := hkeep.effect.scopes
  rw [hkept, hinside.globals_of_isLocal hlocal, hhead.scopes]

/-- A function keeps the table of its local names. -/
theorem Function.tables_eq_of_plays {f : Function} {s t : State} (h : Plays f.log s t) :
    t.tables = s.tables.insert f.head.name.value t.scopes.locals := by
  obtain ⟨inside, u, v, hhead, hinside, hlocal, hkeep⟩ := Function.exists_inside h
  have hnone : inside.all Action.keepsNone = true := by
    rw [List.all_eq_true] at hlocal ⊢
    exact fun action haction => Action.keepsNone_of_isLocal (hlocal action haction)
  have hkept : t.scopes = v.scopes := hkeep.effect.scopes
  rw [hkeep.effect.tables, Action.tables, hinside.tables_of_keepsNone hnone,
    hhead.tables_of_keepsNone f.head.all_log, hkept]
  rfl

/-- A function keeps its own table, and leaves the others as they are. -/
theorem Function.tables_of_plays {f : Function} {s t : State} (h : Plays f.log s t) :
    ∃ own, t.tables = s.tables.insert f.head.name.value own :=
  ⟨_, Function.tables_eq_of_plays h⟩

end Logs

end OnePass
