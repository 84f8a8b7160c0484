import OnePass.Proofs.Feed.Basic

/-!
Nesting, loops and skips in front of more tokens. A nested pass is compared, under any bound on its
depth, with itself as a fixed point. Of a loop it has to be known where it declines to go on.
-/

namespace OnePass

namespace Pass

variable {α β ι : Type} {after : Follow} {ks : List TokenKind} {s : State}

section Loops

/-- Under any bound a phrase goes as `r` does, or it stalls, if it does so whenever what it calls
does. -/
theorem Feeds.nestFrom {phrase : (ι → Pass α) → ι → Pass α} {r : ι → Pass α}
    (hphrase : ∀ again, (∀ i s, s.Free → Feeds after (again i) (r i) s) →
      ∀ i s, s.Free → Feeds after (phrase again i) (r i) s)
    (i : ι) (hs : s.Free) : Feeds after (Pass.nestFrom phrase i) (r i) s := by
  have hbound : ∀ bound i s, s.Free → Feeds after (Pass.nestUpTo phrase bound i) (r i) s := by
    intro bound
    induction bound with
    | zero =>
        exact fun _ _ _ => .of_stalled rfl
    | succ bound ih => exact hphrase _ ih
  exact (hbound (s.cursor.rest.length + 1) i s hs).congr rfl fun _ _ => rfl

theorem Feeds.nest {phrase : Pass α → Pass α} {r : Pass α}
    (hphrase : ∀ again, (∀ s, s.Free → Feeds after again r s) →
      ∀ s, s.Free → Feeds after (phrase again) r s)
    (hs : s.Free) : Feeds after (Pass.nest phrase) r s :=
  .nestFrom (r := fun _ => r) (fun again hagain _ => hphrase (again ()) (hagain ())) () hs

/-- The item declines in front of what may come after the loop. -/
def Declines (after : Follow) (item : Pass (Option α)) : Prop :=
  ∀ s, after (headKind s.cursor.rest) → item s = .ok none s

theorem Settles.many {item : Pass (Option α)} (hprogress : ∀ n, Alike n IfSome item item)
    (hdeclines : Declines after item) : Settles after [] (Pass.many item) := by
  have hnone : Settles after [] (Pure.pure [] : Pass (List α)) := (Steady.pure []).settles
  rw [many_eq hprogress]
  refine hnone.congr ?_
  rintro s ⟨next, hnext, hhead⟩
  refine bind_of_ok (hdeclines s ?_)
  rw [hhead]
  exact hnext

/-- An item that is there comes before the rest of a loop. -/
theorem manyOf_of_some {item : Pass (Option α)} {step : Pass α} {more : Pass (List α)}
    {next : List α → Pass β} (hitem : item s = (step >>= fun a => pure (some a)) s) :
    (manyOf item more >>= next) s =
      (step >>= fun a => more >>= fun as => next (a :: as)) s := by
  rw [manyOf, bind_assoc]
  cases hrun : step s with
  | error error t =>
      rw [bind_of_error hrun] at hitem ⊢
      exact bind_of_error hitem
  | ok a t =>
      rw [bind_of_ok hrun] at hitem ⊢
      rw [bind_of_ok hitem, manyNext, bind_assoc]
      rfl

theorem Steady.manyNext {more more' : Pass (List α)} (hmore : Steady after [] more more')
    (found : Option α) : Steady after [] (Pass.manyNext more found) (Pass.manyNext more' found) := by
  cases found with
  | none => exact .pure []
  | some a => exact .bind hmore (fun _ => .pure _) rfl fun _ => id

theorem Steady.many {item item' : Pass (Option α)} (hprogress : ∀ n, Alike n IfSome item' item')
    (hitem : ∀ s, s.Free → Feeds after item item' s) (hdeclines : Declines after item') :
    Steady after [] (Pass.many item) (Pass.many item') := by
  have hsettles := Settles.many hprogress hdeclines
  refine ⟨fun s hs => .nest (fun more hmore s hs => ?_) hs, hsettles⟩
  rw [many_eq hprogress]
  exact (hitem s hs).andThen (.manyNext ⟨hmore, hsettles⟩)

theorem Settles.extend {link : α → Pass (Option α)}
    (hprogress : ∀ n a, Alike n IfSome (link a) (link a)) (hdeclines : ∀ a, Declines after (link a))
    (a : α) : Settles after [] (Pass.extend link a) := by
  have hnone : Settles after [] (Pure.pure a : Pass α) := (Steady.pure a).settles
  rw [extend_eq hprogress]
  refine hnone.congr ?_
  rintro s ⟨next, hnext, hhead⟩
  refine bind_of_ok (hdeclines a s ?_)
  rw [hhead]
  exact hnext

theorem Steady.extend {link link' : α → Pass (Option α)}
    (hprogress : ∀ n a, Alike n IfSome (link' a) (link' a))
    (hlink : ∀ a s, s.Free → Feeds after (link a) (link' a) s)
    (hdeclines : ∀ a, Declines after (link' a)) (a : α) :
    Steady after [] (Pass.extend link a) (Pass.extend link' a) := by
  have hsettles := Settles.extend hprogress hdeclines
  refine ⟨fun s hs => .nestFrom (fun more hmore a s hs => ?_) a hs, hsettles a⟩
  rw [extend_eq hprogress]
  refine (hlink a s hs).andThen fun found => ?_
  cases found with
  | none => exact .pure a
  | some longer => exact ⟨hmore longer, hsettles longer⟩

theorem Steady.commaList {item item' : Pass α} (hprogress : ∀ n, Alike n Always item' item')
    (hitem : Steady after ks item item') (hcomma : ∀ h, after h → h ≠ some .comma) :
    Steady after ks (Pass.commaList item) (Pass.commaList item') := by
  have hsettles : Settles after ks (Pass.commaList item') := by
    rw [commaList_eq hprogress]
    refine hitem.settles.bind (fun a _ _ _ => ?_) (List.append_nil ks).symm fun _ => id
    exact .decline hcomma (Steady.pure _).settles
  refine ⟨fun s hs => .nest (fun more hmore s hs => ?_) hs, hsettles⟩
  have hmore : Steady after ks more (Pass.commaList item') := ⟨hmore, hsettles⟩
  rw [commaList_eq hprogress]
  refine (hitem.feeds s hs).andThen fun a => .accept ks hcomma (.pure _) fun comma => ?_
  exact .bind hmore (fun _ => .pure _) (List.append_nil ks).symm fun _ => id

end Loops

section Skips

/-- A skip goes past everything in front of what it looks for. -/
theorem Settles.skipPast {kind : TokenKind} (front : List TokenKind) (hfront : kind ∉ front) :
    Settles Anything (front ++ [kind]) (Pass.onCursor (Cursor.skipPast kind)) := by
  induction front with
  | nil =>
      refine .of_take fun s token rest hrest hkind _ => ⟨(), ?_⟩
      rw [skipPast_cons hrest, if_pos hkind]
  | cons other front ih =>
      intro s tokens more hs hrest hkinds hspelled _
      rw [List.cons_append, List.map_eq_cons_iff] at hkinds
      obtain ⟨token, tail, rfl, rfl, htail⟩ := hkinds
      have hne : ¬ token.kind = kind := fun h => hfront (h ▸ List.mem_cons_self)
      have hnext : s.cursor.rest = token :: (tail ++ more) := hrest
      unfold Leaves
      rw [skipPast_cons hnext, if_neg hne]
      exact ih (fun h => hfront (List.mem_cons_of_mem _ h)) (s.take token (tail ++ more)) tail more hs
        rfl htail (fun t ht => hspelled t (List.mem_cons_of_mem _ ht)) trivial

theorem Feeds.skipPast (kind : TokenKind) (hs : s.Free) :
    Feeds Anything (Pass.onCursor (Cursor.skipPast kind))
      (Pass.onCursor (Cursor.skipPast kind)) s := by
  induction hrest : s.cursor.rest generalizing s with
  | nil => exact .of_eof hrest (skipPast_nil hrest)
  | cons token rest ih =>
      have hfeed := State.rest_feed_cons hrest
      by_cases hkind : token.kind = kind
      · exact .of_take hs hrest ((skipPast_cons hrest).trans (if_pos hkind)) fun more =>
          (skipPast_cons (hfeed more)).trans (if_pos hkind)
      · have hstep : Feeds Anything
            (Pass.advance >>= fun _ => Pass.onCursor (Cursor.skipPast kind))
            (Pass.advance >>= fun _ => Pass.onCursor (Cursor.skipPast kind)) s := by
          refine ((Steady.advance kind).feeds s hs).bind ?_
            (fun _ _ _ _ => Settles.skipPast [] List.not_mem_nil) fun _ _ => trivial
          intro a t hrun ht
          rw [advance_cons hrest] at hrun
          cases hrun
          exact ih ht rfl
        refine hstep.congr ?_ fun _ more => ?_
        · rw [skipPast_cons hrest, if_neg hkind, bind_of_ok (advance_cons hrest)]
        · rw [skipPast_cons (hfeed more), if_neg hkind, bind_of_ok (advance_cons (hfeed more))]

theorem Settles.skipClosing (depth : Nat) :
    Settles Anything (List.replicate (depth + 1) .rparen) (Pass.skipClosing depth) := by
  induction depth with
  | zero =>
      refine .of_take fun s token rest hrest hkind _ => ⟨(), ?_⟩
      rw [skipClosing_cons hrest, hkind]
      rfl
  | succ depth ih =>
      intro s tokens more hs hrest hkinds hspelled _
      rw [List.replicate_succ, List.map_eq_cons_iff] at hkinds
      obtain ⟨token, tail, rfl, hkind, htail⟩ := hkinds
      have hnext : s.cursor.rest = token :: (tail ++ more) := hrest
      unfold Leaves
      rw [skipClosing_cons hnext, hkind]
      exact ih (s.take token (tail ++ more)) tail more hs rfl htail
        (fun t ht => hspelled t (List.mem_cons_of_mem _ ht)) trivial

theorem Settles.skipClosing_intLit : Settles Anything [.intLit, .rparen] (Pass.skipClosing 0) := by
  intro s tokens more hs hrest hkinds hspelled _
  rw [List.map_eq_cons_iff] at hkinds
  obtain ⟨token, tail, rfl, hkind, htail⟩ := hkinds
  have hnext : s.cursor.rest = token :: (tail ++ more) := hrest
  unfold Leaves
  rw [skipClosing_cons hnext, hkind]
  exact Settles.skipClosing 0 (s.take token (tail ++ more)) tail more hs rfl htail
    (fun t ht => hspelled t (List.mem_cons_of_mem _ ht)) trivial

theorem Feeds.skipClosing (depth : Nat) (hs : s.Free) :
    Feeds Anything (Pass.skipClosing depth) (Pass.skipClosing depth) s := by
  induction hrest : s.cursor.rest generalizing s depth with
  | nil => exact .of_eof hrest (skipClosing_nil hrest)
  | cons token rest ih =>
      have hfeed := State.rest_feed_cons hrest
      cases hdepth : depthAfter depth token.kind with
      | none =>
          refine .of_take (a := ()) hs hrest ?_ fun more => ?_
          · rw [skipClosing_cons hrest, hdepth]
          · rw [skipClosing_cons (hfeed more), hdepth]
      | some inner =>
          have hstep : Feeds Anything (Pass.advance >>= fun _ => Pass.skipClosing inner)
              (Pass.advance >>= fun _ => Pass.skipClosing inner) s := by
            refine ((Steady.advance .rparen).feeds s hs).bind ?_
              (fun _ _ _ _ => Settles.skipClosing inner) fun _ _ => trivial
            intro a t hrun ht
            rw [advance_cons hrest] at hrun
            cases hrun
            exact ih inner ht rfl
          refine hstep.congr ?_ fun _ more => ?_
          · rw [skipClosing_cons hrest, hdepth, bind_of_ok (advance_cons hrest)]
          · rw [skipClosing_cons (hfeed more), hdepth, bind_of_ok (advance_cons (hfeed more))]

end Skips

section Forks

/-- The pass has nothing left to read behind a single token of a kind. -/
def Spends (kind : TokenKind) (pass : Pass α) : Prop :=
  ∀ s token, s.Free → s.cursor.rest = [token] → token.kind = kind → IsSpent (pass s)

theorem Spends.expected {kind : TokenKind} {next next' : Token → Pass β}
    (hnext : ∀ token, Steady after ks (next token) (next' token)) :
    Spends kind (Pass.expect kind >>= next) := by
  intro s token hs hrest hkind
  rw [bind_of_ok ((expect_cons hrest).trans (if_pos hkind))]
  exact ((hnext token).feeds (s.take token []) hs).ends rfl

theorem Spends.advanced {kind : TokenKind} {next next' : Token → Pass β}
    (hnext : ∀ token, Steady after ks (next token) (next' token)) :
    Spends kind (Pass.advance >>= next) := by
  intro s token hs hrest _
  rw [bind_of_ok (advance_cons hrest)]
  exact ((hnext token).feeds (s.take token []) hs).ends rfl

theorem Spends.blind {kind : TokenKind} {step : Pass α} {next : α → Pass β} (h : IsBlind step)
    (hnext : ∀ a, Spends kind (next a)) : Spends kind (step >>= next) := by
  intro s token hs hrest hkind
  obtain ⟨a, t, ha, ht⟩ := h.okay s hs
  have hcursor := h.cursor_eq s
  rw [ha, endState] at hcursor
  rw [bind_of_ok ha]
  exact hnext a t token ht (by rw [hcursor, hrest]) hkind

theorem Spends.bind {kind : TokenKind} {before : Follow} {step step' : Pass α}
    {next : α → Pass β} (hspends : Spends kind step)
    (hstep : ∀ s, s.Free → Feeds before step step' s)
    (hnext : ∀ a t, t.Free → t.cursor.rest = [] → IsSpent (next a t)) :
    Spends kind (step >>= next) := by
  intro s token hs hrest hkind
  have hspent := hspends s token hs hrest hkind
  cases hrun : step s with
  | ok a t =>
      rw [bind_of_ok hrun]
      exact hnext a t ((hstep s hs).free a t hrun) (hspent.1 a t hrun)
  | error error t =>
      rw [bind_of_error hrun]
      refine ⟨fun _ _ => nofun, fun error' u herror => ?_⟩
      cases herror
      exact hspent.2 _ _ hrun

theorem Spends.ite {kind : TokenKind} {condition : Prop} [Decidable condition] {yes no : Pass α}
    (hyes : Spends kind yes) (hno : Spends kind no) :
    Spends kind (if condition then yes else no) := by
  by_cases h : condition
  · rw [if_pos h]
    exact hyes
  · rw [if_neg h]
    exact hno

theorem Steady.expected_spends {kind : TokenKind} {next next' : Token → Pass β}
    (hnext : ∀ token, Steady after ks (next token) (next' token)) :
    Steady after (kind :: ks) (Pass.expect kind >>= next) (Pass.expect kind >>= next') ∧
      Spends kind (Pass.expect kind >>= next) :=
  ⟨.expected hnext, .expected hnext⟩

/-- The token behind the next one decides between two passes. It may not be there yet; the pass
that is taken then has nothing left to read behind the next token, and can be run to its end with
tokens that do not change the decision. -/
theorem Feeds.fork {kind : TokenKind} {yes yes' no no' : Pass α} {token : Token}
    {rest : List Token} (ks : List TokenKind) (hs : s.Free) (hrest : s.cursor.rest = token :: rest)
    (hspelled : token.Spelled) (hyes : Feeds after yes yes' s) (hno : Feeds after no no' s)
    (hspent : rest = [] → IsSpent (no s)) (hsettles : Settles after (token.kind :: ks) no')
    (hhead : ∀ h, after h → ks.head?.or h ≠ some kind) :
    Feeds after (Pass.peekKind 1 >>= fun second => if second = some kind then yes else no)
      (Pass.peekKind 1 >>= fun second => if second = some kind then yes' else no') s := by
  have hpeek : ∀ (u : State) (tail : List Token) (yes no : Pass α), u.cursor.rest = token :: tail →
      (Pass.peekKind 1 >>= fun second => if second = some kind then yes else no) u =
        if headKind tail = some kind then yes u else no u := by
    intro u tail yes no hu
    have hsecond : u.cursor.peekKind? 1 = headKind tail := by
      simp [Cursor.peekKind?, Cursor.peek?, hu, headKind, List.head?_eq_getElem?]
    rw [bind_of_ok (show Pass.peekKind 1 u = .ok _ u from rfl), hsecond]
    split <;> rfl
  have hfeed := State.rest_feed_cons hrest
  cases rest with
  | nil =>
      have hleft := hpeek s [] yes no hrest
      rw [if_neg (by simp [headKind])] at hleft
      refine .of_spent (by simp [hrest]) (hleft ▸ hno.free) (hleft ▸ hspent rfl) ?_
      refine ⟨ks.map .ofKind, fun more hmore => ?_⟩
      have hkinds := Token.map_kind_ofKind ks
      have hright := hpeek _ _ yes' no' (hfeed (ks.map .ofKind ++ more))
      rw [List.nil_append, headKind_append, hkinds, if_neg (hhead _ hmore)] at hright
      unfold Leaves
      rw [hright]
      refine hsettles.completes hs ks ?_ ?_ more hmore
      · rw [hrest]
        rfl
      · rw [hrest]
        exact fun other hother => List.mem_singleton.1 hother ▸ hspelled
  | cons second tail =>
      have hleft := hpeek s (second :: tail) yes no hrest
      have hright := fun more => hpeek _ _ yes' no' (hfeed more)
      by_cases hkind : second.kind = kind
      · refine hyes.congr (hleft.trans (if_pos ?_)) fun _ more => (hright more).trans (if_pos ?_)
        · exact congrArg some hkind
        · exact congrArg some hkind
      · refine hno.congr (hleft.trans (if_neg ?_)) fun _ more => (hright more).trans (if_neg ?_)
        · exact fun h => hkind (Option.some.inj h)
        · exact fun h => hkind (Option.some.inj h)

end Forks

end Pass

end OnePass
