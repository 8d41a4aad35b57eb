import BracketTree.Proofs.Builder.Alike

/-! A damaged statement inside a block is as if it had never been written: whatever follows does the
same with it and without it. -/

namespace BracketTree
open Forest
set_option autoImplicit false

namespace Tree

/-- Every place is alike itself. -/
theorem Underway.alike {P : Node → Forest Node → Prop} {spine : List (Frame Node)} {c : Forest Node}
    (h : Underway P spine c) : Alike .nil spine c spine c := by
  induction h with
  | top _ _ => exact .top rfl rfl
  | inside _ _ _ ih => exact ih.inside rfl rfl

end Tree

namespace Builder
open BracketTree.Tree

/-- What is seen of a builder while it is fed: for each token what became of it, and the tree as
printed after it. Refused tokens do not end the input. -/
def transcript (b : Builder) : List Token → List (Except TreeError Unit × String)
  | [] => []
  | token :: rest =>
    ((b.feed token).2, (b.feed token).1.tree.print rootId) :: (b.feed token).1.transcript rest

variable {ahead : Nat} {b b' : Builder} {fr : Frame Node} {outer : List (Frame Node)}
  {c : Forest Node} {tokens : List Token}

theorem feedEach_cons (b : Builder) (token : Token) (rest : List Token) :
    (b.feedEach (token :: rest)).1 = ((b.feed token).1.feedEach rest).1 := by
  rw [feedEach]
  rcases b.feed token with ⟨v, e | _⟩ <;> rfl

/-- The trees of builders that are alike with nothing in front are printed the same. -/
theorem Alike.print (h : Alike .nil ahead b b') : b'.tree.print rootId = b.tree.print rootId := by
  have hw := h.steady.wellFormed
  have hw' := h.steady'.wellFormed
  obtain ⟨inner, hprint, hprint'⟩ := (h.place.root hw hw').print hw hw'
  rw [hprint, hprint', ite_self, Forest.render, List.nil_append]

theorem Alike.transcript (h : Alike .nil ahead b b') (hr : b.recovers = true)
    (tokens : List Token) : b'.transcript tokens = b.transcript tokens ∧
      Onward .nil ahead (fun _ => True) b b' (b.feedEach tokens).1 (b'.feedEach tokens).1 := by
  induction tokens generalizing b b' with
  | nil => exact ⟨rfl, h.quiet rfl rfl⟩
  | cons token rest ih =>
    obtain ⟨hresult, hstep⟩ := h.feed token
    have hnext := hstep (.inl hr)
    have hr' := (h.steady.feeds token (.inl hr)).recovers.trans hr
    obtain ⟨hrest, hrun⟩ := ih hnext.alike hr'
    rw [Builder.transcript, Builder.transcript, feedEach_cons, feedEach_cons, hresult, hrest,
      hnext.alike.print]
    exact ⟨rfl, (hnext.imp fun _ _ => trivial).trans hrun⟩

/-- A statement that is given up inside a block leaves a builder that is alike. -/
theorem Between.alike (h : Between fr outer c b) (ht : Token.NestedStatement tokens)
    (hf : b.feedAll tokens = (b', .ok ()))
    (hsame : b'.tree.children b.focus = b.tree.children b.focus) :
    Alike .nil tokens.length b b' := by
  obtain ⟨d, hnodes, hid, hpending, hd⟩ := h.back ht hf
  have hsteady := (h.feedAll ht hf).1
  have hchildren := children_of_plug hsteady.steady.wellFormed.nodup h.steady.wellFormed.nodup
    h.nodes hnodes
  obtain rfl : d = .nil := by
    rcases hd with ⟨rfl, -⟩ | ⟨n, e, rfl⟩
    · rfl
    · rw [h.focus, hsame] at hchildren
      simp at hchildren
  obtain ⟨hsource, -, hfed⟩ := feedAll_counts hf
  have hu := h.steady.underway_focus h.nodes h.focus
  rw [append_nil] at hnodes
  exact ⟨h.steady, hsteady.steady, hsource, hsteady.recovers.trans h.recovers.symm,
    hpending.trans h.pending.symm, hfed,
    ⟨_, _, _, _, _, _, h.nodes, h.focus, hnodes, hid, hu.alike⟩⟩

/-- A statement that left no node in the block where it stands may as well not have been written. For
every continuation each token is taken or refused as without the statement, the trees are printed the
same throughout, the input is complete or not alike, and the same warnings are raised, at positions
later by the length of the statement. -/
theorem omits_damaged_statement {sourceId : String} {before statement : List Token} {b b' : Builder}
    (hb : b = ((start sourceId true).feedEach before).1) (hzero : b.pending = 0)
    (hblock : ∃ n, b.tree.get? b.focus = some n ∧ n.kind = .block)
    (ht : Token.NestedStatement statement) (hf : b.feedAll statement = (b', .ok ()))
    (hsame : b'.tree.children b.focus = b.tree.children b.focus) (post : List Token) :
    b'.tree.print rootId = b.tree.print rootId ∧ b'.transcript post = b.transcript post ∧
      (b'.feedEach post).1.finish.map (fun built => built.tree.print rootId) =
        (b.feedEach post).1.finish.map (fun built => built.tree.print rootId) ∧
      ∃ raised, (b.feedEach post).1.report = b.report ++ raised ∧
        (b'.feedEach post).1.report =
          b'.report ++ raised.map (Diagnostic.later statement.length) := by
  obtain ⟨hsteady, hr⟩ := (steady_start sourceId true).feedEach rfl before
  subst hb
  obtain ⟨fr, outer, c, hbetween⟩ := hsteady.exists_between hr hzero (.inr hblock)
  have halike := hbetween.alike ht hf hsame
  obtain ⟨htranscript, hrun⟩ := halike.transcript hr post
  refine ⟨halike.print, htranscript, ?_, ?_⟩
  · rcases hrun.alike.finish with ⟨e, he, he'⟩ | ⟨hok, hok'⟩
    · rw [he, he']
    · rw [hok, hok']
      exact congrArg Except.ok hrun.alike.print
  · obtain ⟨raised, raised', hraised, hraised', hall⟩ := hrun.raised
    exact ⟨raised, hraised, by rw [hraised', Diagnostic.eq_map_later hall]⟩

/-- Inside a block an expression without operands fails, two brackets deep. What follows holds another
such expression, a token that is refused, and the end of the block. -/
theorem omits_nested_damage :
    let before : List Token := [.bare "\x7b", .valued "ID" "a"]
    let statement : List Token := [.bare "(", .bare "PLUS", .bare "(", .bare "exp", .bare ")",
      .valued "ID" "b", .bare ")"]
    let post : List Token := [.bare "(", .bare "exp", .bare ")", .bare "?", .valued "ID" "c",
      .bare "\x7d"]
    let b := ((start "" true).feedEach before).1
    ∃ b', b.feedAll statement = (b', .ok ()) ∧ b'.transcript post = b.transcript post ∧
      (b'.feedEach post).1.report.length = 2 ∧
      ((b'.feedEach post).1.finish.map fun built => built.tree.print rootId).toOption =
        some "root(\x7b(ID:a ID:c))" := by
  intro before statement post b
  have hb : b = ((start "" true).feedEach before).1 := rfl
  have hblock : ∃ n, b.tree.get? b.focus = some n ∧ n.kind = .block := ⟨_, rfl, rfl⟩
  have hexp : Token.Nested [.bare "exp"] := .leaf rfl .nil
  have hgroup : Token.Nested [.bare "(", .bare "exp", .bare ")", .valued "ID" "b"] :=
    .bracket rfl rfl rfl rfl hexp (.leaf rfl .nil)
  have ht : Token.NestedStatement statement := .bracket rfl rfl rfl rfl (.leaf rfl hgroup)
  have hpair : ∀ r : Builder × Except TreeError Unit, r.2.isOk = true → r = (r.1, .ok ()) := by
    rintro ⟨v, e | _⟩ hok
    · cases hok
    · rfl
  have hf := hpair (b.feedAll statement) (by decide +kernel)
  have hsame : (b.feedAll statement).1.tree.children b.focus = b.tree.children b.focus := by
    decide +kernel
  obtain ⟨-, htranscript, hfinish, -⟩ :=
    omits_damaged_statement hb (by decide) hblock ht hf hsame post
  exact ⟨_, hf, htranscript, by decide +kernel, by rw [hfinish]; decide +kernel⟩

end Builder
end BracketTree
