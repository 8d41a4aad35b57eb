import BracketTree.Proofs.Builder.Locality
import BracketTree.Proofs.Tree.Alike

/-! Two builders at places that are alike. They take and refuse the same tokens and stay alike, and
what they warn of is the same but for the positions of the tokens and for the statements that stand in
front under the second root. -/

namespace BracketTree
open Forest
set_option autoImplicit false

namespace Diagnostic

/-- The diagnostic when `ahead` more tokens come first. -/
def later (ahead : Nat) (d : Diagnostic) : Diagnostic := { d with token := d.token.map (· + ahead) }

/-- The diagnostic of a source is raised again when `ahead` tokens come first that leave the trees
`front` under the root. Those trees are printed when the root is, after a token of which `AtRoot`
holds. -/
inductive Echoes (front : List String) (ahead : Nat) (AtRoot : Nat → Prop) (d : Diagnostic) :
    Diagnostic → Prop where
  | same : Echoes front ahead AtRoot d (d.later ahead)
  | atRoot {k : Nat} {label : String} {inner : List String} : d.token = some k → AtRoot k →
      d.detail = some (wrap label inner) →
      Echoes front ahead AtRoot d { d.later ahead with detail := some (wrap label (front ++ inner)) }

variable {front : List String} {ahead : Nat} {R R' : Nat → Prop} {d d' : Diagnostic}

theorem Echoes.imp (h : Echoes front ahead R d d') (himp : ∀ k, R k → R' k) :
    Echoes front ahead R' d d' := by
  cases h with
  | same => exact .same
  | atRoot ht hk hd => exact .atRoot ht (himp _ hk) hd

/-- With nothing in front nothing else changes. -/
theorem Echoes.eq_later (h : Echoes [] ahead R d d') : d' = d.later ahead := by
  cases h with
  | same => rfl
  | atRoot _ _ hd => rw [List.nil_append, ← hd]; rfl

theorem eq_map_later {raised raised' : Report}
    (h : List.Forall₂ (Echoes [] ahead R) raised raised') : raised' = raised.map (later ahead) := by
  induction h with
  | nil => rfl
  | cons hd _ ih => rw [hd.eq_later, ih, List.map_cons]

end Diagnostic

namespace Builder
open BracketTree.Tree

/-! ## Builders that are alike -/

/-- The second builder has taken `ahead` tokens more, which left the trees `before` under its root. -/
structure Alike (before : Forest Node) (ahead : Nat) (b b' : Builder) : Prop where
  steady : b.Steady
  steady' : b'.Steady
  sourceId : b'.sourceId = b.sourceId
  recovers : b'.recovers = b.recovers
  pending : b'.pending = b.pending
  fed : b'.fed = b.fed + ahead
  place : AlikeAt before b.tree b.focus b'.tree b'.focus

/-- The builders `b` and `b'` have gone on to `v` and `v'`, which are alike. -/
structure Onward (before : Forest Node) (ahead : Nat) (R : Nat → Prop) (b b' v v' : Builder) :
    Prop where
  alike : Alike before ahead v v'
  raised : ∃ raised raised', v.report = b.report ++ raised ∧ v'.report = b'.report ++ raised' ∧
    List.Forall₂ (Diagnostic.Echoes (before.render fun n => n.label) ahead R) raised raised'

variable {before : Forest Node} {ahead : Nat} {R R' : Nat → Prop}
  {b b' v v' w w' : Builder} {token : Token}

theorem Alike.level (h : Alike before ahead b b') : b'.level = b.level := by
  obtain ⟨fr, outer, c, fr', outer', c', hn, hid, hn', hid', hal⟩ := h.place
  have hlength := hal.length
  simp only [List.length_cons, Nat.add_right_cancel_iff] at hlength
  rw [level_focus h.steady.wellFormed hn hid, level_focus h.steady'.wellFormed hn' hid', hlength,
    h.pending]

theorem Alike.pending_of_level (hplace : AlikeAt before v.tree v.focus v'.tree v'.focus)
    (hw : v.tree.WellFormed) (hw' : v'.tree.WellFormed) (hl : v'.level = v.level) :
    v'.pending = v.pending := by
  obtain ⟨fr, outer, c, fr', outer', c', hn, hid, hn', hid', hal⟩ := hplace
  have hlength := hal.length
  simp only [List.length_cons, Nat.add_right_cancel_iff] at hlength
  rw [level_focus hw hn hid, level_focus hw' hn' hid'] at hl
  omega

theorem Alike.quiet (h : Alike before ahead v v') (hr : v.report = b.report)
    (hr' : v'.report = b'.report) : Onward before ahead R b b' v v' :=
  ⟨h, [], [], by rw [hr, List.append_nil], by rw [hr', List.append_nil], .nil⟩

theorem Alike.insert (h : Alike before ahead b b') (item : Item) :
    Parallel before b.tree b'.tree (b.tree.insert b.focus item) (b'.tree.insert b'.focus item) := by
  obtain ⟨fr, outer, c, fr', outer', c', hn, hid, hn', hid', hal⟩ := h.place
  have hu := h.steady.underway_focus hn hid
  have hu' := h.steady'.underway_focus hn' hid'
  rw [← hid, ← hid']
  exact hal.insert h.steady.wellFormed h.steady'.wellFormed hn hn' hu hu' item

/-- A token that changes nothing else is counted. -/
theorem Alike.counted (h : Alike before ahead b b') :
    Alike before ahead { b with fed := b.fed + 1 } { b' with fed := b'.fed + 1 } where
  steady := ⟨h.steady.wellFormed, h.steady.underway, h.steady.clean⟩
  steady' := ⟨h.steady'.wellFormed, h.steady'.underway, h.steady'.clean⟩
  sourceId := h.sourceId
  recovers := h.recovers
  pending := h.pending
  fed := by rw [h.fed, Nat.add_right_comm]
  place := h.place

theorem Alike.discard (h : Alike before ahead b b') {item : Item} (hs : (b.discard item).Steady)
    (hs' : (b'.discard item).Steady) : Alike before ahead (b.discard item) (b'.discard item) := by
  unfold Builder.discard at hs hs' ⊢
  cases hb : item.kind.brace? with
  | none =>
    rw [hb] at hs hs'
    exact h
  | some brace =>
    rw [hb] at hs hs'
    refine ⟨hs, hs', h.sourceId, h.recovers, ?_, h.fed, h.place⟩
    dsimp only
    rw [h.pending]

theorem warning_echoes {u u' : Tree} {id id' : NodeId} (hplace : AlikeAt before u id u' id')
    (hw : u.WellFormed) (hw' : u'.WellFormed) (hsource : b'.sourceId = b.sourceId)
    (hfed : b'.fed = b.fed + ahead) (x : TreeError) :
    Diagnostic.Echoes (before.render fun n => n.label) ahead (fun k => k = b.fed ∧ id = rootId)
      (b.warning u x id) (b'.warning u' x id') := by
  obtain ⟨inner, hprint, hprint'⟩ := hplace.print hw hw'
  have hwarning : b'.warning u' x id' =
      { (b.warning u x id).later ahead with detail := some (u'.print id') } := by
    rw [warning, hsource, hfed]
    rfl
  rw [hwarning, hprint']
  split
  · next hroot => exact .atRoot rfl ⟨rfl, hroot⟩ (congrArg some hprint)
  · rw [Forest.render, List.nil_append, ← hprint]
    exact .same

/-- One token does the same to both. -/
theorem Alike.feed (h : Alike before ahead b b') (token : Token) :
    (b'.feed token).2 = (b.feed token).2 ∧
      (b.recovers = true ∨ (b.feed token).2 = .ok () →
        Onward before ahead (fun k => k = b.fed ∧ (b.feed token).1.focus = rootId) b b'
          (b.feed token).1 (b'.feed token).1) := by
  have hsteady : b.recovers = true ∨ (b.feed token).2 = .ok () → (b.feed token).1.Steady :=
    fun hr => (h.steady.feeds token hr).steady h.steady
  have hsteady' : b'.recovers = true ∨ (b'.feed token).2 = .ok () → (b'.feed token).1.Steady :=
    fun hr => (h.steady'.feeds token hr).steady h.steady'
  have hfed : b'.fed + 1 = b.fed + 1 + ahead := by
    rw [h.fed, Nat.add_right_comm]
  rw [h.recovers] at hsteady'
  cases hi : Item.ofToken? token with
  | error e =>
    rw [feed_of_unknown hi, feed_of_unknown hi]
    exact ⟨rfl, fun _ => h.counted.quiet rfl rfl⟩
  | ok item =>
    by_cases hp : 0 < b.pending
    · rw [feed_of_pending hi hp] at hsteady
      rw [feed_of_pending hi (h.pending.symm ▸ hp)] at hsteady'
      rw [feed_of_pending hi hp, feed_of_pending hi (h.pending.symm ▸ hp)]
      exact ⟨rfl, fun hr => (h.counted.discard (hsteady hr) (hsteady' hr)).quiet
        (discard_report ..) (discard_report ..)⟩
    have hzero : b.pending = 0 := Nat.eq_zero_of_not_pos hp
    have hzero' : b'.pending = 0 := h.pending.trans hzero
    have hpar := h.insert item
    generalize hins : b.tree.insert b.focus item = r at hpar
    generalize hins' : b'.tree.insert b'.focus item = r' at hpar
    cases hpar with
    | accepted hplace =>
      rw [feed_of_accepted hi hzero hins] at hsteady
      rw [feed_of_accepted hi hzero' hins'] at hsteady'
      rw [feed_of_accepted hi hzero hins, feed_of_accepted hi hzero' hins']
      exact ⟨rfl, fun hr => Alike.quiet
        ⟨hsteady hr, hsteady' hr, h.sourceId, h.recovers, h.pending, hfed, hplace⟩ rfl rfl⟩
    | refused x =>
      rw [feed_of_refused hi hzero hins, feed_of_refused hi hzero' hins']
      exact ⟨rfl, fun _ => h.counted.quiet rfl rfl⟩
    | recovered hplace =>
      cases hrec : b.recovers with
      | false =>
        rw [feed_of_failed hi hzero hrec hins,
          feed_of_failed hi hzero' (h.recovers.trans hrec) hins']
        refine ⟨rfl, fun hr => ?_⟩
        rcases hr with hr | hr <;> cases hr
      | true =>
        have hrec' := h.recovers.trans hrec
        have hv := feed_of_recovered hi hzero hrec hins
        have hv' := feed_of_recovered hi hzero' hrec' hins'
        have hlevel := h.steady.level_feed hrec hv
        have hlevel' := h.steady'.level_feed hrec' hv'
        have hsame := h.level
        rw [hv] at hsteady
        rw [hv'] at hsteady'
        rw [hv, hv']
        refine ⟨rfl, fun _ => ?_⟩
        have hs := hsteady (.inl hrec)
        have hs' := hsteady' (.inl hrec)
        refine ⟨⟨hs, hs', h.sourceId, h.recovers, ?_, hfed, hplace⟩, [_], [_], rfl, rfl,
          .cons (warning_echoes hplace hs.wellFormed hs'.wellFormed h.sourceId h.fed _) .nil⟩
        apply Alike.pending_of_level hplace hs.wellFormed hs'.wellFormed
        dsimp only
        omega

/-! ## Runs -/

theorem Onward.imp (h : Onward before ahead R b b' v v') (himp : ∀ k, R k → R' k) :
    Onward before ahead R' b b' v v' := by
  obtain ⟨raised, raised', hr, hr', hall⟩ := h.raised
  exact ⟨h.alike, raised, raised', hr, hr', hall.imp fun _ _ hd => hd.imp himp⟩

theorem Onward.trans (h : Onward before ahead R b b' v v')
    (h' : Onward before ahead R v v' w w') : Onward before ahead R b b' w w' := by
  obtain ⟨early, early', he, he', hearly⟩ := h.raised
  obtain ⟨late, late', hl, hl', hlate⟩ := h'.raised
  refine ⟨h'.alike, early ++ late, early' ++ late', ?_, ?_, List.rel_append hearly hlate⟩
  · rw [hl, he, List.append_assoc]
  · rw [hl', he', List.append_assoc]

/-- The token at position `k` of the input, one of `tokens`, leaves the builder at the root. -/
def AtRoot (b : Builder) (tokens : List Token) (k : Nat) : Prop :=
  ∃ n, k = b.fed + n ∧ (b.feedAll (tokens.take (n + 1))).1.focus = rootId

theorem feed_counts (b : Builder) (token : Token) :
    (b.feed token).1.sourceId = b.sourceId ∧ (b.feed token).1.recovers = b.recovers ∧
      (b.feed token).1.fed = b.fed + 1 := by
  rw [Builder.feed]
  cases Item.ofToken? token with
  | error e => exact ⟨rfl, rfl, rfl⟩
  | ok item =>
    dsimp only
    split
    · rw [Builder.discard]
      split <;> exact ⟨rfl, rfl, rfl⟩
    · rcases b.tree.insert b.focus item with ⟨u, (x | ⟨x, id⟩) | id⟩
      · exact ⟨rfl, rfl, rfl⟩
      · dsimp only [resume]
        split <;> exact ⟨rfl, rfl, rfl⟩
      · exact ⟨rfl, rfl, rfl⟩

theorem feedAll_counts {tokens : List Token} (hf : b.feedAll tokens = (v, .ok ())) :
    v.sourceId = b.sourceId ∧ v.recovers = b.recovers ∧ v.fed = b.fed + tokens.length := by
  induction tokens generalizing b with
  | nil =>
    cases hf
    exact ⟨rfl, rfl, rfl⟩
  | cons token rest ih =>
    obtain ⟨w, hw, hrest⟩ := feedAll_cons_eq_ok_iff.mp hf
    obtain ⟨hsource, hrec, hfed⟩ := feed_counts b token
    rw [hw] at hsource hrec hfed
    obtain ⟨hs, hr, hl⟩ := ih hrest
    refine ⟨hs.trans hsource, hr.trans hrec, ?_⟩
    rw [hl, hfed, List.length_cons]
    omega

/-- Up to the first token that is refused, tokens do the same to both. -/
theorem Alike.feedAll (h : Alike before ahead b b') (tokens : List Token) :
    (b'.feedAll tokens).2 = (b.feedAll tokens).2 ∧
      ((b.feedAll tokens).2 = .ok () →
        Onward before ahead (b.AtRoot tokens) b b' (b.feedAll tokens).1 (b'.feedAll tokens).1) := by
  induction tokens generalizing b b' with
  | nil => exact ⟨rfl, fun _ => h.quiet rfl rfl⟩
  | cons token rest ih =>
    obtain ⟨hresult, hstep⟩ := h.feed token
    obtain ⟨-, -, hfed⟩ := feed_counts b token
    rw [Builder.feedAll, Builder.feedAll]
    rcases hv : b.feed token with ⟨v, e | _⟩ <;> rcases hv' : b'.feed token with ⟨v', e' | _⟩ <;>
      rw [hv, hv'] at hresult hstep <;> rw [hv] at hfed
    · exact ⟨hresult, fun hok => by cases hok⟩
    · cases hresult
    · cases hresult
    · have hnext := hstep (.inr rfl)
      obtain ⟨hrest, hrun⟩ := ih hnext.alike
      refine ⟨hrest, fun hok => (hnext.imp ?_).trans ((hrun hok).imp ?_)⟩
      · rintro k ⟨rfl, hroot⟩
        refine ⟨0, rfl, ?_⟩
        rw [List.take_succ_cons, List.take_zero, Builder.feedAll, hv]
        exact hroot
      · rintro k ⟨n, rfl, hroot⟩
        refine ⟨n + 1, ?_, ?_⟩
        · omega
        · rw [List.take_succ_cons, Builder.feedAll, hv]
          exact hroot

/-- Both inputs are complete, or both are not. -/
theorem Alike.finish (h : Alike before ahead b b') :
    (∃ e, b.finish = .error e ∧ b'.finish = .error e) ∨
      b.finish = .ok ⟨b.tree, b.report⟩ ∧ b'.finish = .ok ⟨b'.tree, b'.report⟩ := by
  have hw := h.steady.wellFormed
  have hw' := h.steady'.wellFormed
  have hend : (b'.focus = rootId ∧ b'.pending = 0) ↔ b.focus = rootId ∧ b.pending = 0 := by
    rw [h.place.eq_rootId_iff hw hw', h.pending]
  rw [Builder.finish, Builder.finish, h.place.label hw hw']
  by_cases hb : b.focus = rootId ∧ b.pending = 0
  · rw [if_pos hb, if_pos (hend.mpr hb)]
    exact .inr ⟨rfl, rfl⟩
  · rw [if_neg hb, if_neg fun hb' => hb (hend.mp hb')]
    exact .inl ⟨_, rfl, rfl⟩

end Builder
end BracketTree
