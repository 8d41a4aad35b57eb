import BracketTree.Proofs.Builder.Elision

/-! Building on items alone: a stack of open brackets, each with the finished trees to its left, and
the finished trees inside the innermost one. A bracket is elided and checked when it closes. The stack
reads exactly the lists that nest and have an elided forest. -/

namespace BracketTree.Item
open Forest
set_option autoImplicit false

structure Stack where
  spine : List (Frame Item)
  below : Forest Item

inductive Advance : Stack → Item → Stack → Prop where
  | leaf {spine : List (Frame Item)} {c : Forest Item} {i : Item} : i.kind.brace? = none →
      Advance ⟨spine, c⟩ i ⟨spine, c ++ .leaf i⟩
  | enter {spine : List (Frame Item)} {c : Forest Item} {i : Item} {b : Brace} :
      i.kind.brace? = some b → b.isOpening = true →
      Advance ⟨spine, c⟩ i ⟨⟨c, i, .nil⟩ :: spine, .nil⟩
  | keep {fr up : Frame Item} {outer : List (Frame Item)} {c : Forest Item} {i : Item}
      {opening closing : Brace} : i.kind.brace? = some closing →
      fr.node.kind.brace? = some opening → opening.closedBy closing = true →
      opening.isGrouping = false → c.Tops Fits →
      Advance ⟨fr :: up :: outer, c⟩ i ⟨up :: outer, fr.left ++ .node fr.node c .nil⟩
  | elide {fr up : Frame Item} {outer : List (Frame Item)} {first : Item} {rest : Forest Item}
      {i : Item} {opening closing : Brace} : i.kind.brace? = some closing →
      fr.node.kind.brace? = some opening → opening.closedBy closing = true →
      opening.isGrouping = true → rest.Tops Fits → first.Fits rest →
      Advance ⟨fr :: up :: outer, .node first .nil rest⟩ i
        ⟨up :: outer, fr.left ++ .node first rest .nil⟩

inductive Advances : Stack → List Item → Stack → Prop where
  | nil {p : Stack} : Advances p [] p
  | cons {p q r : Stack} {i : Item} {items : List Item} : Advance p i q → Advances q items r →
      Advances p (i :: items) r

theorem Advances.append {p q r : Stack} {items items' : List Item} (h : Advances p items q)
    (h' : Advances q items' r) : Advances p (items ++ items') r := by
  induction h with
  | nil => exact h'
  | cons ha _ ih => exact .cons ha (ih h')

/-! ## Every elided forest is read -/

theorem Nested.advances {items : List Item} {f g : Forest Item} (h : Nested items f)
    (he : Elides f g) (up : Frame Item) (outer : List (Frame Item)) (c : Forest Item) :
    Advances ⟨up :: outer, c⟩ items ⟨up :: outer, c ++ g⟩ := by
  induction h generalizing g up outer c with
  | nil =>
    cases he.elide
    rw [append_nil]
    exact .nil
  | @leaf i items s hi _ ih =>
    obtain ⟨s', hs, rfl⟩ := (elides_leaf_iff hi).mp he
    have hrest := ih hs up outer (c ++ .leaf i)
    rw [append_assoc] at hrest
    exact .cons (.leaf hi) hrest
  | @bracket i close opening closing inner items d s hi hc hb _ _ ihin ihrest =>
    have henter : Advance ⟨up :: outer, c⟩ i ⟨⟨c, i, .nil⟩ :: up :: outer, .nil⟩ :=
      .enter hi (Brace.isOpening_of_closedBy hb).1
    cases hg : opening.isGrouping with
    | false =>
      obtain ⟨d', s', hd, hs, htops, rfl⟩ := (elides_bracket_iff hi hg).mp he
      have hinner := ihin hd ⟨c, i, .nil⟩ (up :: outer) .nil
      have hrest := ihrest hs up outer (c ++ .node i d' .nil)
      rw [append_assoc] at hrest
      exact .cons henter (hinner.append (.cons (.keep hc hi hb hg htops) hrest))
    | true =>
      obtain ⟨first, rest, s', hd, hs, hfirst, htops, rfl⟩ := (elides_group_iff hi hg).mp he
      have hinner := ihin hd ⟨c, i, .nil⟩ (up :: outer) .nil
      have hrest := ihrest hs up outer (c ++ .node first rest .nil)
      rw [append_assoc] at hrest
      exact .cons henter (hinner.append (.cons (.elide hc hi hb hg htops hfirst) hrest))

/-! ## Nothing else is read -/

/-- What a stack holds, written out: at every level the trees to the left have an elided forest. -/
inductive Holds : Stack → List Item → Prop where
  | top {r : Frame Item} {items : List Item} {f g : Forest Item} : Nested items f → Elides f g →
      Holds ⟨[r], g⟩ items
  | inside {fr : Frame Item} {outer : List (Frame Item)} {b : Brace} {before items : List Item}
      {f g : Forest Item} : Holds ⟨outer, fr.left⟩ before → fr.node.kind.brace? = some b →
      Nested items f → Elides f g → Holds ⟨fr :: outer, g⟩ (before ++ fr.node :: items)

theorem Holds.append {spine : List (Frame Item)} {c f g : Forest Item} {before items : List Item}
    (h : Holds ⟨spine, c⟩ before) (hn : Nested items f) (he : Elides f g) :
    Holds ⟨spine, c ++ g⟩ (before ++ items) := by
  cases h with
  | top hn' he' => exact .top (hn'.append hn) (he'.append he)
  | inside hout hb hn' he' =>
    rw [List.append_assoc, List.cons_append]
    exact .inside hout hb (hn'.append hn) (he'.append he)

/-- The innermost bracket of a stack was opened after what stands to its left, and its contents
follow it. -/
theorem Holds.split {fr up : Frame Item} {outer : List (Frame Item)} {c : Forest Item}
    {items : List Item} (h : Holds ⟨fr :: up :: outer, c⟩ items) :
    ∃ before inner f, Holds ⟨up :: outer, fr.left⟩ before ∧ Nested inner f ∧ Elides f c ∧
      items = before ++ fr.node :: inner := by
  cases h with
  | inside hout _ hn he => exact ⟨_, _, _, hout, hn, he, rfl⟩

theorem Holds.advance {p q : Stack} {i : Item} {items : List Item} (h : Holds p items)
    (ha : Advance p i q) : Holds q (items ++ [i]) := by
  cases ha with
  | leaf hi =>
    have he : Elides (.leaf i) (.leaf i) := (elides_leaf_iff hi).mpr ⟨.nil, .nil, rfl⟩
    exact h.append (.leaf hi .nil) he
  | enter hi _ => exact .inside h hi .nil .nil
  | @keep fr up outer c i opening closing hc hi hb hg htops =>
    obtain ⟨before, inner, f, hout, hn, he, rfl⟩ := h.split
    have hnode : Elides (.node fr.node f .nil) (.node fr.node c .nil) :=
      (elides_bracket_iff hi hg).mpr ⟨c, .nil, he, .nil, htops, rfl⟩
    rw [List.append_assoc, List.cons_append]
    exact hout.append (.bracket hi hc hb hn .nil) hnode
  | @elide fr up outer first rest i opening closing hc hi hb hg htops hfirst =>
    obtain ⟨before, inner, f, hout, hn, he, rfl⟩ := h.split
    have hnode : Elides (.node fr.node f .nil) (.node first rest .nil) :=
      (elides_group_iff hi hg).mpr ⟨first, rest, .nil, he, .nil, hfirst, htops, rfl⟩
    rw [List.append_assoc, List.cons_append]
    exact hout.append (.bracket hi hc hb hn .nil) hnode

theorem Holds.advances {p q : Stack} {items before : List Item} (h : Holds p before)
    (ha : Advances p items q) : Holds q (before ++ items) := by
  induction ha generalizing before with
  | nil =>
    rw [List.append_nil]
    exact h
  | cons hstep _ ih =>
    have hrest := ih (h.advance hstep)
    rw [List.append_assoc] at hrest
    exact hrest

theorem Advances.exists_elides {r r' : Frame Item} {items : List Item} {g : Forest Item}
    (h : Advances ⟨[r], .nil⟩ items ⟨[r'], g⟩) : ∃ f, Nested items f ∧ Elides f g := by
  have hstart : Holds ⟨[r], .nil⟩ [] := .top .nil .nil
  cases hstart.advances h with
  | top hn he => exact ⟨_, hn, he⟩
  | inside hout _ _ _ => cases hout

end BracketTree.Item
