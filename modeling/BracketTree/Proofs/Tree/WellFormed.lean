import BracketTree.Proofs.Tree.View

/-! What every tree keeps: one root, ids that are used once and never again, and no closing
bracket. -/

namespace BracketTree.Tree
open Forest
set_option autoImplicit false

structure WellFormed (t : Tree) : Prop where
  nodup : t.ids.Nodup
  bounded : ∀ n ∈ t.nodes.preorder, n.id < t.nextId
  rooted : ∃ r c, t.nodes = .node r c .nil ∧ r.id = rootId ∧ r.kind = .root
  opening : ∀ n ∈ t.nodes.preorder, ∀ b, n.kind.brace? = some b → b.isOpening = true

theorem wellFormed_start : start.WellFormed where
  nodup := by simp [ids, start]
  bounded := by simp [start, Node.fresh, rootId]
  rooted := ⟨_, _, rfl, rfl, rfl⟩
  opening := by simp [start, Node.fresh, Kind.brace?]

/-- New contents under a spine keep a tree well formed when their ids are distinct and each node is
an old one or a new one with a new id. -/
theorem WellFormed.replace {t u : Tree} {spine : List (Frame Node)} {c d : Forest Node}
    (hw : t.WellFormed) (ht : t.nodes = plug spine c) (hu : u.nodes = plug spine d)
    (hne : spine ≠ []) (hnext : t.nextId ≤ u.nextId) (hd : (d.preorder.map Node.id).Nodup)
    (hnew : ∀ n ∈ d.preorder, n ∈ c.preorder ∨ (t.nextId ≤ n.id ∧ n.id < u.nextId ∧
      ∀ b, n.kind.brace? = some b → b.isOpening = true)) : u.WellFormed := by
  have hmem : ∀ n, n ∈ t.nodes.preorder ↔ n ∈ c.preorder ∨ n ∈ beside spine := by
    intro n
    rw [ht, (preorder_plug_perm spine c).mem_iff, List.mem_append]
  have hold : ∀ n ∈ u.nodes.preorder, n ∈ t.nodes.preorder ∨ (t.nextId ≤ n.id ∧
      n.id < u.nextId ∧ ∀ b, n.kind.brace? = some b → b.isOpening = true) := by
    intro n hn
    rw [hu, (preorder_plug_perm spine d).mem_iff, List.mem_append] at hn
    rcases hn with hn | hn
    · exact (hnew n hn).imp_left fun h => (hmem n).mpr (.inl h)
    · exact .inl ((hmem n).mpr (.inr hn))
  refine ⟨?_, ?_, ?_, ?_⟩
  · have hids := hw.nodup
    rw [ids, ht, ((preorder_plug_perm spine c).map _).nodup_iff, List.map_append,
      List.nodup_append] at hids
    rw [ids, hu, ((preorder_plug_perm spine d).map _).nodup_iff, List.map_append,
      List.nodup_append]
    refine ⟨hd, hids.2.1, ?_⟩
    intro i hi j hj he
    subst he
    obtain ⟨n, hn, rfl⟩ := List.mem_map.mp hi
    rcases hnew n hn with hn | ⟨hge, -, -⟩
    · exact hids.2.2 _ (List.mem_map_of_mem hn) _ hj rfl
    · obtain ⟨m, hm, he⟩ := List.mem_map.mp hj
      have hlt := hw.bounded m ((hmem m).mpr (.inr hm))
      exact absurd (he ▸ hlt) (Nat.not_lt.mpr hge)
  · intro n hn
    rcases hold n hn with hn | ⟨-, hlt, -⟩
    · exact Nat.lt_of_lt_of_le (hw.bounded n hn) hnext
    · exact hlt
  · obtain ⟨r, e, he, hid, hk⟩ := hw.rooted
    obtain ⟨inner, rfl, -⟩ := exists_spine_below (ht.symm.trans he) hne
    rw [plug_append] at hu
    exact ⟨r, _, hu, hid, hk⟩
  · intro n hn
    rcases hold n hn with hn | ⟨-, -, ho⟩
    · exact hw.opening n hn
    · exact ho

theorem WellFormed.spine_eq {t : Tree} {spine : List (Frame Node)} {c : Forest Node}
    (hw : t.WellFormed) (h : t.nodes = plug spine c) (hne : spine ≠ []) :
    ∃ inner r, spine = inner ++ [⟨.nil, r, .nil⟩] ∧ r.id = rootId ∧ r.kind = .root := by
  obtain ⟨r, d, he, hid, hk⟩ := hw.rooted
  obtain ⟨inner, hs, -⟩ := exists_spine_below (h.symm.trans he) hne
  exact ⟨inner, r, hs, hid, hk⟩

/-- Every node but the root stands under it. -/
theorem WellFormed.root_or_mem_below {t : Tree} (hw : t.WellFormed) {n : Node}
    (hn : n ∈ t.nodes.preorder) :
    n.id = rootId ∧ n.kind = .root ∨ n ∈ (t.below rootId).preorder := by
  obtain ⟨r, c, hnodes, hid, hk⟩ := hw.rooted
  have hspine : t.nodes = plug [⟨.nil, r, .nil⟩] c := hnodes
  rw [← hid, below_focus hw.nodup hspine]
  rw [hnodes] at hn
  simp only [preorder_node, preorder_nil, List.append_nil, List.mem_cons] at hn
  rcases hn with rfl | hn
  · exact .inl ⟨rfl, hk⟩
  · exact .inr hn

/-- Only the innermost level of a spine can be the root, and then it is the only one. -/
theorem WellFormed.id_eq_rootId_iff {t : Tree} {fr : Frame Node} {outer : List (Frame Node)}
    {c : Forest Node} (hw : t.WellFormed) (h : t.nodes = plug (fr :: outer) c) :
    fr.node.id = rootId ↔ outer = [] := by
  obtain ⟨inner, r, hs, hid, -⟩ := hw.spine_eq h (by simp)
  constructor
  · intro hfr
    cases inner with
    | nil => exact (List.cons.inj hs).2
    | cons f inner =>
      obtain ⟨rfl, rfl⟩ := List.cons.inj hs
      refine absurd (hid.trans hfr.symm) (id_ne_of_mem hw.nodup h ?_)
      have hmem : r ∈ beside (inner ++ [⟨.nil, r, .nil⟩]) :=
        (nodes_sublist_beside _).subset (by simp)
      simp [hmem]
  · rintro rfl
    cases inner with
    | nil => rw [(List.cons.inj hs).1, hid]
    | cons f inner => simp at hs

end BracketTree.Tree
