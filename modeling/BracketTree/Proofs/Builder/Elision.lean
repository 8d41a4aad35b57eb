import BracketTree.Proofs.Tree.Setup

/-! What a list of items means, apart from any tree under construction: the brackets nest, grouping
brackets are elided from the inside out, and every node fits what it ends up with. -/

namespace BracketTree.Item
open Forest
set_option autoImplicit false

/-- `Nested items f`: the items are `f` written out, each bracket before its contents and some
closing bracket of its shape after them. -/
inductive Nested : List Item → Forest Item → Prop where
  | nil : Nested [] .nil
  | leaf {i : Item} {items : List Item} {s : Forest Item} : i.kind.brace? = none →
      Nested items s → Nested (i :: items) (.node i .nil s)
  | bracket {i close : Item} {opening closing : Brace} {inner items : List Item}
      {c s : Forest Item} : i.kind.brace? = some opening → close.kind.brace? = some closing →
      opening.closedBy closing = true → Nested inner c → Nested items s →
      Nested (i :: (inner ++ close :: items)) (.node i c s)

def groups (i : Item) : Bool := i.kind.brace?.any Brace.isGrouping

/-- Every grouping bracket is replaced by its first child, which must have no children of its own
and receives the other children. -/
def elide : Forest Item → Option (Forest Item)
  | .nil => some .nil
  | .node i c s =>
    match elide c, elide s with
    | some c, some s =>
      if i.groups then
        match c with
        | .node first .nil rest => some (.node first rest s)
        | _ => none
      else some (.node i c s)
    | _, _ => none

/-- Every node of the elided forest fits what stands under it; an item that stands by itself at the
top of the source is not asked. -/
def Fitting : Forest Item → Forest Item → Prop
  | .node i _ s, .node j d s' =>
    (i.kind.brace? = none ∨ j.Fits d) ∧ d.Everywhere Fits ∧ Fitting s s'
  | _, _ => True

/-- A grouping bracket that comes to hold a single childless item is closed over that item, which
must fit as it is, also when an outer bracket gives it children later. -/
def LoneFit (f : Forest Item) : Prop :=
  f.Everywhere fun i c => i.groups = true → ∀ first, elide c = some (.leaf first) → first.Fits .nil

/-- The elided forest `g` of `f`, with all that is checked on the way. -/
structure Elides (f g : Forest Item) : Prop where
  elide : elide f = some g
  fitting : Fitting f g
  lone : LoneFit f

theorem elide_node_eq_some {i : Item} {c s g : Forest Item} :
    elide (.node i c s) = some g ↔ ∃ d s', elide c = some d ∧ elide s = some s' ∧
      (i.groups = false ∧ g = .node i d s' ∨
        i.groups = true ∧ ∃ first rest, d = .node first .nil rest ∧ g = .node first rest s') := by
  rw [elide]
  constructor
  · intro h
    cases hd : elide c with
    | none => simp [hd] at h
    | some d =>
      cases hs : elide s with
      | none => simp [hd, hs] at h
      | some s' =>
        refine ⟨d, s', rfl, rfl, ?_⟩
        rw [hd, hs] at h
        cases hg : i.groups with
        | false =>
          simp only [hg, Bool.false_eq_true, if_false, Option.some.injEq] at h
          exact .inl ⟨rfl, h.symm⟩
        | true =>
          simp only [hg, if_true] at h
          split at h
          · next first rest =>
            exact .inr ⟨rfl, first, rest, rfl, (Option.some.inj h).symm⟩
          · cases h
  · rintro ⟨d, s', hd, hs, ⟨hg, rfl⟩ | ⟨hg, first, rest, rfl, rfl⟩⟩
    · simp [hd, hs, hg]
    · simp [hd, hs, hg]

theorem groups_of_brace?_eq_none {i : Item} (h : i.kind.brace? = none) : i.groups = false := by
  rw [groups, h]
  rfl

theorem groups_of_brace?_eq_some {i : Item} {b : Brace} (h : i.kind.brace? = some b) :
    i.groups = b.isGrouping := by
  rw [groups, h]
  rfl

theorem Fitting.of_everywhere {f g : Forest Item} (h : g.Everywhere Fits) : Fitting f g := by
  induction f generalizing g with
  | nil => trivial
  | node i c s _ ih =>
    cases g with
    | nil => trivial
    | node j d s' => exact ⟨.inr h.1, h.2.1, ih h.2.2⟩

theorem Fitting.everywhere {f g : Forest Item} (h : Fitting f g) (he : elide f = some g)
    (htops : g.Tops Fits) : g.Everywhere Fits := by
  induction f generalizing g with
  | nil =>
    cases he
    trivial
  | node i c s _ ih =>
    obtain ⟨d, s', -, hs, ⟨-, rfl⟩ | ⟨-, first, rest, rfl, rfl⟩⟩ := elide_node_eq_some.mp he
    · exact ⟨htops.1, h.2.1, ih h.2.2 hs htops.2⟩
    · exact ⟨htops.1, h.2.1, ih h.2.2 hs htops.2⟩

theorem Elides.nil : Elides .nil .nil := ⟨rfl, trivial, trivial⟩

theorem elides_leaf_iff {i : Item} {s g : Forest Item} (hi : i.kind.brace? = none) :
    Elides (.node i .nil s) g ↔ ∃ s', Elides s s' ∧ g = .node i .nil s' := by
  have hg := groups_of_brace?_eq_none hi
  constructor
  · rintro ⟨he, hfit, -, -, hlone⟩
    obtain ⟨d, s', hd, hs, ⟨-, rfl⟩ | ⟨hg', -⟩⟩ := elide_node_eq_some.mp he
    · cases hd
      exact ⟨s', ⟨hs, hfit.2.2, hlone⟩, rfl⟩
    · rw [hg] at hg'
      cases hg'
  · rintro ⟨s', ⟨hs, hfit, hlone⟩, rfl⟩
    refine ⟨?_, ⟨.inl hi, trivial, hfit⟩, ?_, trivial, hlone⟩
    · exact elide_node_eq_some.mpr ⟨.nil, s', rfl, hs, .inl ⟨hg, rfl⟩⟩
    · intro h
      rw [hg] at h
      cases h

theorem elides_bracket_iff {i : Item} {b : Brace} {c s g : Forest Item}
    (hi : i.kind.brace? = some b) (hb : b.isGrouping = false) :
    Elides (.node i c s) g ↔ ∃ d s', Elides c d ∧ Elides s s' ∧ d.Tops Fits ∧
      g = .node i d s' := by
  have hg := (groups_of_brace?_eq_some hi).trans hb
  constructor
  · rintro ⟨he, hfit, -, hinner, hlone⟩
    obtain ⟨d, s', hd, hs, ⟨-, rfl⟩ | ⟨hg', -⟩⟩ := elide_node_eq_some.mp he
    · exact ⟨d, s', ⟨hd, .of_everywhere hfit.2.1, hinner⟩, ⟨hs, hfit.2.2, hlone⟩,
        hfit.2.1.tops, rfl⟩
    · rw [hg] at hg'
      cases hg'
  · rintro ⟨d, s', ⟨hd, hfitd, hinner⟩, ⟨hs, hfit, hlone⟩, htops, rfl⟩
    refine ⟨?_, ⟨.inr (fits_of_brace hi d), hfitd.everywhere hd htops, hfit⟩, ?_, hinner, hlone⟩
    · exact elide_node_eq_some.mpr ⟨d, s', hd, hs, .inl ⟨hg, rfl⟩⟩
    · intro h
      rw [hg] at h
      cases h

/-- A childless first item of an elided forest fits, or it stands by itself in the source. -/
theorem fits_or_bare {i first : Item} {c s rest : Forest Item}
    (he : elide (.node i c s) = some (.node first .nil rest)) (hlone : LoneFit (.node i c s)) :
    i.kind.brace? = none ∨ first.Fits .nil := by
  obtain ⟨d, s', hd, -, ⟨-, h⟩ | ⟨hg, first', rest', rfl, h⟩⟩ := elide_node_eq_some.mp he
  · obtain ⟨rfl, -, -⟩ := Forest.node.inj h
    cases hi : first.kind.brace? with
    | none => exact .inl rfl
    | some b => exact .inr (fits_of_brace hi .nil)
  · obtain ⟨rfl, rfl, -⟩ := Forest.node.inj h
    exact .inr (hlone.1 hg first hd)

theorem elides_group_iff {i : Item} {b : Brace} {c s g : Forest Item}
    (hi : i.kind.brace? = some b) (hb : b.isGrouping = true) :
    Elides (.node i c s) g ↔ ∃ first rest s', Elides c (.node first .nil rest) ∧ Elides s s' ∧
      first.Fits rest ∧ rest.Tops Fits ∧ g = .node first rest s' := by
  have hg := (groups_of_brace?_eq_some hi).trans hb
  have hbrace : i.kind.brace? ≠ none := by
    rw [hi]
    exact Option.some_ne_none b
  constructor
  · rintro ⟨he, hfit, -, hinner, hlone⟩
    obtain ⟨d, s', hd, hs, ⟨hg', -⟩ | ⟨-, first, rest, rfl, rfl⟩⟩ := elide_node_eq_some.mp he
    · rw [hg] at hg'
      cases hg'
    · obtain ⟨hfirst, hrest, hfit⟩ := hfit
      -- before the bracket closed the first child was childless: only `LoneFit` says that it fit
      refine ⟨first, rest, s', ⟨hd, ?_, hinner⟩, ⟨hs, hfit, hlone⟩,
        hfirst.resolve_left hbrace, hrest.tops, rfl⟩
      cases c with
      | nil => cases hd
      | node k e u => exact ⟨fits_or_bare hd hinner, trivial, .of_everywhere hrest⟩
  · rintro ⟨first, rest, s', ⟨hd, hfitd, hinner⟩, ⟨hs, hfit, hlone⟩, hfirst, hrest, rfl⟩
    refine ⟨?_, ⟨.inr hfirst, ?_, hfit⟩, ?_, hinner, hlone⟩
    · exact elide_node_eq_some.mpr ⟨_, s', hd, hs, .inr ⟨hg, first, rest, rfl, rfl⟩⟩
    · cases c with
      | nil => cases hd
      | node k e u =>
        obtain ⟨d', u', -, hu, ⟨-, h⟩ | ⟨-, first', rest', -, h⟩⟩ := elide_node_eq_some.mp hd
        · obtain ⟨-, -, rfl⟩ := Forest.node.inj h
          exact hfitd.2.2.everywhere hu hrest
        · obtain ⟨-, -, rfl⟩ := Forest.node.inj h
          exact hfitd.2.2.everywhere hu hrest
    · intro _ first' hd'
      obtain ⟨rfl, -, rfl⟩ := Forest.node.inj (Option.some.inj (hd.symm.trans hd'))
      exact hfirst

theorem Nested.append {items items' : List Item} {f f' : Forest Item} (h : Nested items f)
    (h' : Nested items' f') : Nested (items ++ items') (f ++ f') := by
  induction h with
  | nil => exact h'
  | leaf hi _ ih => exact .leaf hi ih
  | bracket hi hc hb hin _ _ ih =>
    rw [List.cons_append, List.append_assoc, List.cons_append]
    exact .bracket hi hc hb hin ih

/-- What may follow the items of a forest: the end, or the bracket that closes around them. -/
def Ends (items : List Item) : Prop :=
  ∀ i ∈ items.head?, ∃ b, i.kind.brace? = some b ∧ b.isOpening = false

theorem ends_cons {i : Item} {b : Brace} {items : List Item} (hi : i.kind.brace? = some b)
    (hb : b.isOpening = false) : Ends (i :: items) := by
  intro j hm
  obtain rfl := Option.some.inj hm
  exact ⟨b, hi, hb⟩

theorem Nested.eq_nil_of_ends {items rest : List Item} {f : Forest Item} (h : Nested items f)
    (he : Ends (items ++ rest)) : items = [] ∧ f = .nil := by
  cases h with
  | nil => exact ⟨rfl, rfl⟩
  | leaf hi _ =>
    obtain ⟨b, hb, -⟩ := he _ rfl
    rw [hi] at hb
    cases hb
  | bracket hi _ hcl _ _ =>
    obtain ⟨b, hb, ho⟩ := he _ rfl
    rw [hi] at hb
    cases hb
    rw [(Brace.isOpening_of_closedBy hcl).1] at ho
    cases ho

theorem Nested.unique_append {items items' rest rest' : List Item} {f f' : Forest Item}
    (h : Nested items f) (h' : Nested items' f') (he : Ends rest) (he' : Ends rest')
    (heq : items ++ rest = items' ++ rest') : f = f' ∧ rest = rest' := by
  induction h generalizing items' rest rest' f' with
  | nil =>
    rw [List.nil_append] at heq
    obtain ⟨rfl, rfl⟩ := h'.eq_nil_of_ends (heq ▸ he)
    exact ⟨rfl, heq⟩
  | leaf hi h ih =>
    cases h' with
    | nil =>
      rw [List.nil_append] at heq
      obtain ⟨hnil, -⟩ := (Nested.leaf hi h).eq_nil_of_ends (heq ▸ he')
      cases hnil
    | leaf hi' h' =>
      obtain ⟨rfl, htail⟩ := List.cons.inj heq
      obtain ⟨rfl, hrest⟩ := ih h' he he' htail
      exact ⟨rfl, hrest⟩
    | bracket hi' _ _ _ _ =>
      obtain ⟨rfl, -⟩ := List.cons.inj heq
      rw [hi] at hi'
      cases hi'
  | bracket hi hc hb hin h ihin ih =>
    -- the contents end where their own bracket closes, then both go on behind it
    cases h' with
    | nil =>
      rw [List.nil_append] at heq
      obtain ⟨hnil, -⟩ := (Nested.bracket hi hc hb hin h).eq_nil_of_ends (heq ▸ he')
      cases hnil
    | leaf hi' _ =>
      obtain ⟨rfl, -⟩ := List.cons.inj heq
      rw [hi'] at hi
      cases hi
    | bracket hi' hc' hb' hin' h' =>
      simp only [List.cons_append, List.append_assoc, List.cons.injEq] at heq
      obtain ⟨rfl, htail⟩ := heq
      obtain ⟨rfl, hclose⟩ := ihin hin' (ends_cons hc (Brace.isOpening_of_closedBy hb).2)
        (ends_cons hc' (Brace.isOpening_of_closedBy hb').2) htail
      obtain ⟨-, hitems⟩ := List.cons.inj hclose
      obtain ⟨rfl, hrest⟩ := ih h' he he' hitems
      exact ⟨rfl, hrest⟩

theorem Nested.unique {items : List Item} {f f' : Forest Item} (h : Nested items f)
    (h' : Nested items f') : f = f' := by
  have hends : Ends [] := by
    intro i hm
    cases hm
  exact (h.unique_append h' hends hends rfl).1

theorem Elides.append {f f' g g' : Forest Item} (h : Elides f g) (h' : Elides f' g') :
    Elides (f ++ f') (g ++ g') := by
  induction f generalizing g with
  | nil =>
    cases h.elide
    exact h'
  | node i c s _ ih =>
    obtain ⟨he, hfit, hhere, hinner, hlone⟩ := h
    obtain ⟨d, s', hd, hs, ⟨hg, rfl⟩ | ⟨hg, first, rest, rfl, rfl⟩⟩ := elide_node_eq_some.mp he
    · obtain ⟨he', hfit', hlone'⟩ := ih ⟨hs, hfit.2.2, hlone⟩
      exact ⟨elide_node_eq_some.mpr ⟨d, _, hd, he', .inl ⟨hg, rfl⟩⟩,
        ⟨hfit.1, hfit.2.1, hfit'⟩, hhere, hinner, hlone'⟩
    · obtain ⟨he', hfit', hlone'⟩ := ih ⟨hs, hfit.2.2, hlone⟩
      exact ⟨elide_node_eq_some.mpr ⟨_, _, hd, he', .inr ⟨hg, first, rest, rfl, rfl⟩⟩,
        ⟨hfit.1, hfit.2.1, hfit'⟩, hhere, hinner, hlone'⟩

end BracketTree.Item
