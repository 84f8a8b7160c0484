import OnePass.Proofs.Action
import OnePass.Proofs.Literals
import OnePass.Proofs.Trace.Composed

/-!
What holds of every state of a compilation whose tokens have the shape a scanner gives them: the
constants in scope stand for literals, unless a wrong initialiser has been recorded. An action
that is performed in such a state therefore only reads such tokens and such constants.
-/

namespace OnePass

/-- A text that the compiler writes for a literal. -/
inductive Text.IsLiteral : String → Prop where
  | number (n : Int64) (hn : n ≠ Int64.minValue) : IsLiteral (Text.numberText n)
  | char (value : String) (c : Char) (hvalue : value.toList = [c]) :
      IsLiteral (Operand.ofChar value).text

/-- A constant stands for a literal. -/
def Symbol.Sound (symbol : Symbol) : Prop :=
  symbol.kind = .const → ∃ text, symbol.constValue = some text ∧ Text.IsLiteral text

/-- All constants in scope stand for literals. -/
def Scopes.Sound (scopes : Scopes) : Prop :=
  ∀ scope name symbol, scopes.lookup? scope name = some symbol → symbol.Sound

/-- All symbols in scope have a property. -/
def Scopes.Each (P : Symbol → Prop) (scopes : Scopes) : Prop :=
  ∀ scope name symbol, scopes.lookup? scope name = some symbol → P symbol

/-- A wrong initialiser has been recorded. -/
def State.HasMisfit (s : State) : Prop :=
  ∃ d ∈ s.diagnostics.toList, d.kind = .constInitialiser

/-- The invariant of a compilation. -/
structure State.Sound (s : State) : Prop where
  scanned : ∀ token ∈ s.cursor.tokens, token.isScanned = true
  consts : s.HasMisfit ∨ s.scopes.Sound

namespace Scopes

variable {P : Symbol → Prop} {scopes : Scopes}

theorem Each.declare (h : scopes.Each P) {scope : Scope} {symbol : Symbol}
    (hsymbol : P symbol) : (scopes.declare scope symbol).Each P := by
  intro other name found hfound
  by_cases hscope : other = scope
  · subst hscope
    rw [lookup?_declare] at hfound
    split at hfound
    · obtain rfl := Option.some.inj hfound
      exact hsymbol
    · exact h other name found hfound
  · unfold lookup? Scopes.declare at hfound
    rw [table_update_of_ne scopes _ hscope] at hfound
    exact h other name found hfound

theorem Each.reset (h : scopes.Each P) (scope : Scope) :
    (scopes.reset scope).Each P := by
  intro other name found hfound
  by_cases hscope : other = scope
  · subst hscope
    rw [lookup?_reset] at hfound
    cases hfound
  · unfold lookup? Scopes.reset at hfound
    rw [table_update_of_ne scopes _ hscope] at hfound
    exact h other name found hfound

theorem Each.modify (h : scopes.Each P) {scope : Scope} {name : String}
    {f : Symbol → Symbol} (hf : ∀ symbol : Symbol, P symbol → P (f symbol)) :
    (scopes.modify scope name f).Each P := by
  intro other key found hfound
  by_cases hscope : other = scope
  · subst hscope
    rw [lookup?_modify] at hfound
    split at hfound
    · obtain ⟨symbol, hsymbol, rfl⟩ := Option.map_eq_some_iff.1 hfound
      exact hf symbol (h other key symbol hsymbol)
    · exact h other key found hfound
  · unfold lookup? Scopes.modify at hfound
    rw [table_update_of_ne scopes _ hscope] at hfound
    exact h other key found hfound

/-- The innermost symbol of a name is a symbol of one of the scopes. -/
theorem Each.nearest (h : scopes.Each P) {name : String} {symbol : Symbol}
    (hsymbol : scopes.nearest? name = some symbol) : P symbol := by
  unfold nearest? at hsymbol
  cases hlocal : scopes.locals[name]? with
  | some found =>
      rw [hlocal] at hsymbol
      obtain rfl := Option.some.inj hsymbol
      exact h .local name found hlocal
  | none =>
      rw [hlocal] at hsymbol
      exact h .global name symbol hsymbol

end Scopes

theorem Symbol.Sound.addParameter {symbol : Symbol} (h : symbol.Sound) (ty : Ty) :
    ((symbol.addParameter? ty).getD symbol).Sound := by
  unfold Symbol.addParameter?
  cases ty.signatureCode? with
  | none => exact h
  | some code => exact h

theorem Pass.mem_tokens_of_advance {token : Token} {s t : State} (h : Pass.advance s = .ok token t) :
    token ∈ s.cursor.tokens := by
  obtain ⟨rest, hrest, _⟩ := Pass.advance_eq_ok.1 h
  simp [Cursor.tokens, hrest]

/-- Every action leaves the list of tokens as it is, and at most moves the cursor in it. -/
theorem Action.Performs.tokens {action : Action} {s t : State} (h : action.Performs s t) :
    t.cursor.tokens = s.cursor.tokens := by
  cases action with
  | take kind token => exact (Pass.Orderly.advance.reaches h.2).tokens_eq
  | skipCall name =>
      obtain ⟨_, u, v, hname, hreport, hskip⟩ := h
      have hbefore := Pass.Orderly.advance.reaches hname
      cases hreport
      have hafter := Pass.Orderly.skipParens.reaches hskip
      exact (hbefore.trans hafter).tokens_eq
  | skipStatement =>
      obtain ⟨token, u, v, hname, hreport, hskip⟩ := h
      have hbefore := Pass.Orderly.advance.reaches hname
      cases hreport
      have hafter := (Pass.Orderly.skipPast .semicolon).reaches hskip
      exact (hbefore.trans hafter).tokens_eq
  | _ => exact congrArg Cursor.tokens (h.effect.cursor rfl)

theorem Plays.tokens {log : List Action} {s t : State} (h : Plays log s t) :
    t.cursor.tokens = s.cursor.tokens :=
  h.kept (f := fun s => s.cursor.tokens) (p := fun _ => true)
    (fun _ _ _ haction _ => haction.tokens) (by simp)

/-- A literal that lies behind the cursor is written as one. -/
theorem ConstInit.isLiteral {init : ConstInit} {ty : Ty} {cursor : Cursor}
    (hscanned : ∀ token ∈ cursor.tokens, token.isScanned = true) (hfits : init.fits ty = true)
    (h : init.Behind cursor) : Text.IsLiteral init.text := by
  have hbehind : ∀ token ∈ cursor.consumed, token.isScanned = true := by
    intro token htoken
    exact hscanned token (List.mem_append_left _ (List.mem_reverse.2 htoken))
  cases init with
  | char literal =>
      have hshape := hbehind literal h.2
      simp only [Token.isScanned, h.1, decide_eq_true_eq] at hshape
      obtain ⟨c, hc⟩ := List.length_eq_one_iff.1 hshape
      exact .char literal.value c hc
  | int literal =>
      obtain ⟨hkind, hmem, hvalue⟩ := h
      have hshape := hbehind literal.digits.token hmem
      simp only [Token.isScanned, hkind] at hshape
      have hne := (Text.toInt_of_signed? hshape hvalue).2
      refine .number literal.value ?_
      unfold IntLit.value
      cases literal.sign with
      | none => exact hne
      | some sign =>
          dsimp only
          split
          · exact Text.neg_ne_minValue hne
          · exact hne
  | other token => cases hfits

namespace State

theorem HasMisfit.mono {s t : State} (h : s.HasMisfit) {found : List Diagnostic}
    (hfound : t.diagnostics.toList = s.diagnostics.toList ++ found) : t.HasMisfit := by
  obtain ⟨d, hd, hkind⟩ := h
  exact ⟨d, by rw [hfound]; exact List.mem_append_left _ hd, hkind⟩

end State

/-- A property that symbols have from their declaration on, if the tokens are shaped: what is no
constant, and every constant that is set to a literal of its type. -/
structure SymbolRule (shaped : Token → Bool) (P : Symbol → Prop) : Prop where
  other : ∀ symbol : Symbol, symbol.kind ≠ .const → P symbol
  const : ∀ (item : ConstItem) (ty : Ty) (cursor : Cursor),
    (∀ token ∈ cursor.tokens, shaped token = true) → item.init.fits ty = true →
      item.init.Behind cursor → P (item.symbol ty)
  addParameter : ∀ (symbol : Symbol) (ty : Ty), P symbol →
    P ((symbol.addParameter? ty).getD symbol)

/-- The symbols in scope have such a property, unless a wrong initialiser has been recorded. -/
structure State.Keeps (shaped : Token → Bool) (P : Symbol → Prop) (s : State) : Prop where
  shaped : ∀ token ∈ s.cursor.tokens, shaped token = true
  symbols : s.HasMisfit ∨ s.scopes.Each P

namespace State.Keeps

variable {shaped : Token → Bool} {P : Symbol → Prop} {s t : State}

/-- One action keeps the invariant. -/
theorem step (rule : SymbolRule shaped P) (hs : s.Keeps shaped P) (action : Action)
    (h : action.Performs s t) : t.Keeps shaped P := by
  refine ⟨by rw [h.tokens]; exact hs.shaped, ?_⟩
  obtain ⟨found, hfound, _⟩ := h.effect.diagnostics
  rcases hs.symbols with hmisfit | hsymbols
  · exact Or.inl (hmisfit.mono hfound)
  rw [h.effect.scopes]
  cases action with
  | declare scope symbol => exact Or.inr (hsymbols.declare (rule.other symbol h.1))
  | declareConst scope ty item =>
      obtain ⟨hrecorded, hbehind, _⟩ := h
      cases hfits : item.init.fits ty with
      | false => exact Or.inl (State.HasMisfit.mono (hrecorded hfits) hfound)
      | true =>
          exact Or.inr (hsymbols.declare (rule.const item ty s.cursor hs.shaped hfits hbehind))
  | resetLocals => exact Or.inr (hsymbols.reset .local)
  | addParameter name ty =>
      exact Or.inr (hsymbols.modify fun symbol hsymbol => rule.addParameter symbol ty hsymbol)
  | _ => exact Or.inr hsymbols

/-- A whole log keeps the invariant. -/
theorem plays (rule : SymbolRule shaped P) {log : List Action} (hs : s.Keeps shaped P)
    (h : Plays log s t) : t.Keeps shaped P := by
  induction log generalizing s with
  | nil => exact plays_nil.1 h ▸ hs
  | cons action log ih =>
      obtain ⟨u, haction, hlog⟩ := h
      exact ih (hs.step rule _ haction) hlog

/-- As long as no wrong initialiser is recorded, every action is performed in a state whose symbols
have the property. -/
theorem exists_performs (rule : SymbolRule shaped P) {log : List Action} (hs : s.Keeps shaped P)
    (h : Plays log s t) (hclean : ¬ t.HasMisfit) {action : Action} (haction : action ∈ log) :
    ∃ u v, u.Keeps shaped P ∧ ¬ u.HasMisfit ∧ action.Performs u v := by
  obtain ⟨front, back, rfl⟩ := List.append_of_mem haction
  obtain ⟨u, hfront, hrest⟩ := plays_append.1 h
  obtain ⟨found, hfound, _⟩ := hrest.diagnostics
  obtain ⟨v, hperforms, _⟩ := hrest
  exact ⟨u, v, hs.plays rule hfront, fun hmisfit => hclean (hmisfit.mono hfound), hperforms⟩

end State.Keeps

theorem symbolRule_sound : SymbolRule Token.isScanned Symbol.Sound where
  other _ h hconst := absurd hconst h
  const item _ _ hscanned hfits hbehind _ :=
    ⟨item.init.text, rfl, ConstInit.isLiteral hscanned hfits hbehind⟩
  addParameter _ ty h := h.addParameter ty

namespace State

theorem Sound.keeps {s : State} (hs : s.Sound) : s.Keeps Token.isScanned Symbol.Sound :=
  ⟨hs.scanned, hs.consts⟩

theorem Sound.step {s t : State} (hs : s.Sound) (action : Action) (h : action.Performs s t) :
    t.Sound := by
  obtain ⟨hscanned, hconsts⟩ := hs.keeps.step symbolRule_sound action h
  exact ⟨hscanned, hconsts⟩

theorem Sound.plays {log : List Action} {s t : State} (hs : s.Sound) (h : Plays log s t) :
    t.Sound := by
  obtain ⟨hscanned, hconsts⟩ := hs.keeps.plays symbolRule_sound h
  exact ⟨hscanned, hconsts⟩

end State

/-- What an action reads has the right shape. -/
def Action.Sound : Action → Prop
  | take _ token => token.isScanned = true
  | nearest _ symbol => ∀ found ∈ symbol, found.Sound
  | _ => True

theorem Action.Performs.sound {action : Action} {s t : State} (h : action.Performs s t)
    (hs : s.Sound) (hclean : ¬ s.HasMisfit) : action.Sound := by
  cases action with
  | take kind token => exact hs.scanned token (Pass.mem_tokens_of_advance h.2)
  | nearest name symbol =>
      intro found hfound
      have hconsts := hs.consts.resolve_left hclean
      exact Scopes.Each.nearest hconsts (h.1.trans hfound)
  | _ => trivial

/-- All that a log reads has the right shape, as long as no wrong initialiser is recorded. -/
theorem Plays.sound {log : List Action} {s t : State} (h : Plays log s t) (hs : s.Sound)
    (hclean : ¬ t.HasMisfit) : ∀ action ∈ log, action.Sound := by
  intro action haction
  obtain ⟨u, v, ⟨hscanned, hconsts⟩, hbefore, hperforms⟩ :=
    hs.keeps.exists_performs symbolRule_sound h hclean haction
  exact hperforms.sound ⟨hscanned, hconsts⟩ hbefore

end OnePass
