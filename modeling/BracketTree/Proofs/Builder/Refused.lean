import BracketTree.Proofs.Builder.OpenChain

/-! Insertions that are refused. An item is refused exactly when the focus is not live or does not fit a
closing bracket, and then nothing has changed; a setup that fails is never a reason. So a builder that
recovers loses nothing but the token when it is given one that it refuses. -/

namespace BracketTree
open Forest
set_option autoImplicit false

namespace Tree

/-- The ways in which the node `focus` does not fit a closing bracket. -/
inductive Unfit (t : Tree) (focus : NodeId) (closing : Brace) : Prop where
  | root : focus = rootId → Unfit t focus closing
  | notOpening {n : Node} : t.get? focus = some n →
      (∀ b, n.kind.brace? = some b → b.isOpening = false) → Unfit t focus closing
  | otherShape {n : Node} {b : Brace} : t.get? focus = some n → n.kind.brace? = some b →
      b.shape ≠ closing.shape → Unfit t focus closing
  | emptyGroup {n : Node} : t.get? focus = some n → n.kind = .brace ⟨.round, .opening⟩ →
      t.children focus = [] → Unfit t focus closing
  | grownFirst {n : Node} {first : NodeId} {rest : List NodeId} : t.get? focus = some n →
      n.kind = .brace ⟨.round, .opening⟩ → t.children focus = first :: rest →
      t.children first ≠ [] → Unfit t focus closing

inductive Refuses (t : Tree) (focus : NodeId) (item : Item) : Prop where
  | dead : t.contains focus = false → Refuses t focus item
  | unfit {closing : Brace} : item.kind.brace? = some closing → closing.isOpening = false →
      t.Unfit focus closing → Refuses t focus item

/-- What is to be set up when the node `n` closes: the node itself, or the first child of a group. -/
def closedAs (t : Tree) (n : Node) : Except StructureError (Tree × NodeId) :=
  if n.kind = .brace ⟨.round, .opening⟩ then t.elide n.id else .ok (t, n.id)

variable {t u : Tree} {focus : NodeId} {item : Item} {n : Node} {closing : Brace}
  {fr up : Frame Node} {outer : List (Frame Node)} {c : Forest Node}

/-! ## The focus and its bracket -/

theorem not_unfit_of_closable (hw : t.WellFormed) (h : t.nodes = plug (fr :: up :: outer) c)
    (hc : Closable fr.node c closing) : ¬t.Unfit fr.node.id closing := by
  obtain ⟨opening, ho, hclosed, hgroup⟩ := hc
  have hget := get?_focus hw.nodup h
  have hchildren := children_focus hw.nodup h
  have hfirst : fr.node.kind = .brace ⟨.round, .opening⟩ →
      ∃ first rest, c = .node first .nil rest := by
    intro hk
    apply hgroup
    rw [hk] at ho
    cases ho
    rfl
  intro hu
  cases hu with
  | root hid => cases (hw.id_eq_rootId_iff h).mp hid
  | notOpening hg hn =>
    cases hget.symm.trans hg
    have hside := (Brace.isOpening_of_closedBy hclosed).1
    rw [hn opening ho] at hside
    cases hside
  | otherShape hg hb hne =>
    cases hget.symm.trans hg
    cases ho.symm.trans hb
    exact hne ((Brace.closedBy_iff _ _).mp hclosed).2.2
  | emptyGroup hg hk hempty =>
    cases hget.symm.trans hg
    obtain ⟨first, rest, rfl⟩ := hfirst hk
    rw [hchildren] at hempty
    cases hempty
  | grownFirst hg hk hrow hgrown =>
    cases hget.symm.trans hg
    obtain ⟨first, rest, rfl⟩ := hfirst hk
    rw [hchildren] at hrow
    cases hrow
    have hin : t.nodes = plug (⟨.nil, first, rest⟩ :: fr :: up :: outer) .nil := h
    exact hgrown (children_focus hw.nodup hin)

theorem closable_of_not_unfit (hw : t.WellFormed) (h : t.nodes = plug (fr :: up :: outer) c)
    (hclosing : closing.isOpening = false) (hu : ¬t.Unfit fr.node.id closing) :
    Closable fr.node c closing := by
  have hget := get?_focus hw.nodup h
  have hchildren := children_focus hw.nodup h
  cases ho : fr.node.kind.brace? with
  | none => exact absurd (.notOpening hget (by simp [ho])) hu
  | some opening =>
    have hopening := hw.opening _ (mem_of_get? hget) opening ho
    have hshape : opening.shape = closing.shape := by
      by_contra hne
      exact hu (.otherShape hget ho hne)
    have hclosed : opening.closedBy closing = true := by
      rw [Brace.closedBy_iff]
      obtain ⟨shape, side⟩ := opening
      obtain ⟨shape', side'⟩ := closing
      cases side <;> cases side' <;> simp_all [Brace.isOpening]
    refine ⟨opening, ho, hclosed, fun hg => ?_⟩
    have hk := Kind.eq_of_isGrouping ho hg
    rcases c with _ | ⟨first, _ | _, rest⟩
    · exact absurd (.emptyGroup hget hk hchildren) hu
    · exact ⟨first, rest, rfl⟩
    · next m d s =>
      have hin : t.nodes = plug (⟨.nil, first, rest⟩ :: fr :: up :: outer) (.node m d s) := h
      have hgrown : t.children first.id ≠ [] := by
        rw [children_focus hw.nodup hin]
        simp
      exact absurd (.grownFirst hget hk hchildren hgrown) hu

/-! ## Insertion -/

/-- A focus that fits closes, and what it closes as is set up. -/
theorem insert_of_fits (hw : t.WellFormed) (hg : t.get? focus = some n)
    (hitem : item.kind.brace? = some closing) (hclosing : closing.isOpening = false)
    (hfits : ¬t.Unfit focus closing) :
    ∃ u fr up outer c, t.closedAs n = .ok (u, fr.node.id) ∧
      Finishes u fr (up :: outer) c up.node.id (t.insert focus item) := by
  obtain ⟨left, right, outer, c, h, rfl⟩ := exists_spine_of_get? hg
  cases outer with
  | nil => exact absurd (.root ((hw.id_eq_rootId_iff h).mpr rfl)) hfits
  | cons up outer =>
    have hcloses := insert_closing hw.nodup h hitem hclosing
    generalize t.insert n.id item = r at hcloses
    cases hcloses with
    | keep ho _ hgroup =>
      have hk : n.kind ≠ .brace ⟨.round, .opening⟩ := by
        intro hk
        dsimp only at ho
        rw [hk] at ho
        cases ho
        cases hgroup
      exact ⟨t, ⟨left, n, right⟩, up, outer, c, if_neg hk, finish_focus hw h up.node.id⟩
    | @elide _ first rest ho _ hgroup he =>
      subst he
      refine ⟨_, ⟨left, first, right⟩, up, outer, rest, ?_, finish_elided hw h up.node.id⟩
      exact (if_pos (Kind.eq_of_isGrouping ho hgroup)).trans (elide_node hw.nodup h)
    | refuse hno => exact absurd (closable_of_not_unfit hw h hclosing hfits) hno

theorem insert_of_refuses (hw : t.WellFormed) (h : t.Refuses focus item) :
    ∃ e, t.insert focus item = (t, .error (.fatal e)) := by
  cases hg : t.get? focus with
  | none => exact ⟨_, by rw [insert, hg]⟩
  | some n =>
    cases h with
    | dead hdead =>
      rw [contains, hg] at hdead
      cases hdead
    | @unfit closing hitem hclosing hu =>
      obtain ⟨left, right, outer, c, h, rfl⟩ := exists_spine_of_get? hg
      cases outer with
      | nil =>
        rw [insert, hg, hitem]
        dsimp only
        rw [hclosing, close, parent?_focus hw.nodup h]
        exact ⟨_, rfl⟩
      | cons up outer =>
        have hcloses := insert_closing hw.nodup h hitem hclosing
        have hno : ¬Closable n c closing := fun hc => not_unfit_of_closable hw h hc hu
        generalize t.insert n.id item = r at hcloses
        cases hcloses with
        | keep ho hc hgroup => exact absurd ⟨_, ho, hc, by simp [hgroup]⟩ hno
        | elide ho hc _ he => exact absurd ⟨_, ho, hc, fun _ => ⟨_, _, he⟩⟩ hno
        | refuse _ => exact ⟨_, rfl⟩

theorem refuses_of_fatal (hw : t.WellFormed) {e : TreeError}
    (h : (t.insert focus item).2 = .error (.fatal e)) : t.Refuses focus item := by
  cases hg : t.get? focus with
  | none => exact .dead (by rw [contains, hg]; rfl)
  | some n =>
    rcases hins : t.insert focus item with ⟨v, x⟩
    obtain rfl : x = .error (.fatal e) := by rwa [hins] at h
    obtain ⟨b, hitem, hside, -⟩ := closing_of_insert_error hg hins
    by_contra hno
    obtain ⟨u, fr, up, outer, c, -, hf⟩ :=
      insert_of_fits hw hg hitem hside fun hu => hno (.unfit hitem hside hu)
    rw [hins] at hf
    exact hf.not_fatal

theorem Finishes.resumes {next : NodeId} {e : TreeError} {r : Tree × Except InsertError NodeId}
    (h : Finishes t fr outer c next r) (hw : r.1.WellFormed)
    (he : (t.setupAsParent fr.node.id).2 = .error e) :
    ∃ v resumeAt, r = (v, .error (.recovered e resumeAt)) ∧
      (resumeAt = rootId ∨ ∃ m, v.get? resumeAt = some m ∧ m.kind = .block) := by
  cases h with
  | ok hs => cases (congrArg Prod.snd hs).symm.trans he
  | atRoot _ hs _ =>
    cases (congrArg Prod.snd hs).symm.trans he
    exact ⟨_, _, rfl, .inl rfl⟩
  | @atBlock v e' kept block rest hs hb =>
    cases (congrArg Prod.snd hs).symm.trans he
    have hkind := (nearestBlock_eq_some hb).1
    exact ⟨_, _, rfl, .inr ⟨block.node, get?_focus hw.nodup rfl, hkind⟩⟩

theorem Finishes.returns {next : NodeId} {r : Tree × Except InsertError NodeId}
    (h : Finishes t fr outer c next r) (hok : (t.setupAsParent fr.node.id).2 = .ok ()) :
    r = ((t.setupAsParent fr.node.id).1, .ok next) := by
  cases h with
  | ok hs => rw [hs]
  | atRoot _ hs _ => cases (congrArg Prod.snd hs).symm.trans hok
  | atBlock hs _ => cases (congrArg Prod.snd hs).symm.trans hok

end Tree

/-- A builder that recovers counts a token that it refuses, and keeps all else. -/
theorem Builder.Steady.feed_of_error {b : Builder} (h : b.Steady) (hr : b.recovers = true)
    {token : Token} {e : TreeError} (he : (b.feed token).2 = .error e) :
    (b.feed token).1 = { b with fed := b.fed + 1 } := by
  have hf := h.feeds token (.inl hr)
  generalize b.feed token = r at hf he
  cases hf with
  | refused => rfl
  | passed | taken | givenUp => cases he

/-- An insertion that is refused changes nothing, and it is refused exactly when the focus is not live
or does not fit the closing bracket. Otherwise the bracket closes, and a setup that fails then is
recovered at a block or at the root. -/
theorem refusal_exact {t : Tree} (h : Tree.Reachable t) (focus : NodeId) (item : Item) :
    (∀ e, (t.insert focus item).2 = .error (.fatal e) → (t.insert focus item).1 = t) ∧
    ((∃ e, (t.insert focus item).2 = .error (.fatal e)) ↔ t.Refuses focus item) ∧
    (∀ n closing, t.get? focus = some n → item.kind.brace? = some closing →
      closing.isOpening = false → ¬t.Refuses focus item →
      ∃ u closed, t.closedAs n = .ok (u, closed) ∧
        ((u.setupAsParent closed).2 = .ok () →
          ∃ next, t.insert focus item = ((u.setupAsParent closed).1, .ok next)) ∧
        ∀ e, (u.setupAsParent closed).2 = .error e →
          ∃ v resumeAt, t.insert focus item = (v, .error (.recovered e resumeAt)) ∧
            (resumeAt = Tree.rootId ∨ ∃ m, v.get? resumeAt = some m ∧ m.kind = .block)) ∧
    ∀ sourceId tokens token e, let b := ((Builder.start sourceId true).feedEach tokens).1
      (b.feed token).2 = .error e → (b.feed token).1 = { b with fed := b.fed + 1 } := by
  have hw := h.wellFormed
  refine ⟨fun e hfatal => ?_, ⟨fun ⟨e, hfatal⟩ => Tree.refuses_of_fatal hw hfatal, ?_⟩, ?_, ?_⟩
  · obtain ⟨x, hx⟩ := Tree.insert_of_refuses hw (Tree.refuses_of_fatal hw hfatal)
    rw [hx]
  · intro hrefuses
    obtain ⟨e, he⟩ := Tree.insert_of_refuses hw hrefuses
    exact ⟨e, by rw [he]⟩
  · intro n closing hg hitem hclosing hno
    obtain ⟨u, fr, up, outer, c, hclosed, hf⟩ :=
      Tree.insert_of_fits hw hg hitem hclosing fun hu => hno (.unfit hitem hclosing hu)
    refine ⟨u, fr.node.id, hclosed, fun hok => ⟨_, hf.returns hok⟩, fun e he => ?_⟩
    exact hf.resumes ((Tree.insert_edits t focus item).wellFormed hw) he
  · intro sourceId tokens token e b he
    obtain ⟨hb, hr⟩ := (Builder.steady_start sourceId true).feedEach rfl tokens
    exact hb.feed_of_error hr he

/-- In a block stands a group over an expression without operands. A square bracket is refused there; a
round one closes the group, and the setup of the expression is recovered at the block. -/
theorem refusal_exact_in_group :
    let block : Item := ⟨.block, "\x7b", none⟩
    let group : Item := ⟨.brace ⟨.round, .opening⟩, "(", none⟩
    let square : Item := ⟨.brace ⟨.square, .closing⟩, "]", none⟩
    let round : Item := ⟨.brace ⟨.round, .closing⟩, ")", none⟩
    let t := (((Tree.start.insert 0 block).1.insert 1 group).1.insert 2 ⟨.expression, "exp", none⟩).1
    let b := ((Builder.start "" true).feedEach [.bare "\x7b", .bare "(", .bare "exp"]).1
    Tree.Reachable t ∧ t.Refuses 2 square ∧ (t.insert 2 square).1 = t ∧ ¬t.Refuses 2 round ∧
      (∃ v e resumeAt, t.insert 2 round = (v, .error (.recovered e resumeAt)) ∧
        (resumeAt = Tree.rootId ∨ ∃ m, v.get? resumeAt = some m ∧ m.kind = .block)) ∧
      (b.feed (.bare "]")).1 = { b with fed := b.fed + 1 } := by
  intro block group square round t b
  have h : Tree.Reachable t := .tail (.tail (.tail .refl (.insert 0 block)) (.insert 1 group))
    (.insert 2 _)
  obtain ⟨hsame, hrefuses, -, hfeed⟩ := refusal_exact h 2 square
  obtain ⟨-, hround, hcloses, -⟩ := refusal_exact h 2 round
  have hsquare : (t.insert 2 square).2 = .error (.fatal (.shape (.mismatch "(" "]"))) := by
    decide +kernel
  let failure : TreeError := .shape (.operandCount "exp" "至少 1" 0)
  have hfits : ¬t.Refuses 2 round := by
    have hrecovered : (t.insert 2 round).2 = .error (.recovered failure 1) := by decide +kernel
    rw [← hround, hrecovered]
    rintro ⟨e, he⟩
    cases he
  let opened : Node := ⟨group, 2, none, some 0, ⟨true, false, false, false⟩⟩
  have hn : t.get? 2 = some opened := by decide +kernel
  obtain ⟨u, closed, hclosed, -, hfail⟩ := hcloses _ _ hn rfl rfl hfits
  have hsetup : (t.closedAs opened).toOption.map (fun r => (r.1.setupAsParent r.2).2) =
      some (.error failure) := by decide +kernel
  rw [hclosed] at hsetup
  obtain ⟨v, resumeAt, hv⟩ := hfail failure (Option.some.inj hsetup)
  exact ⟨h, hrefuses.mp ⟨_, hsquare⟩, hsame _ hsquare, hfits, ⟨v, failure, resumeAt, hv⟩,
    hfeed "" _ (.bare "]") (.shape (.mismatch "(" "]")) (by decide +kernel)⟩

end BracketTree
