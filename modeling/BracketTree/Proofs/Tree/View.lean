import BracketTree.Proofs.Forest.Everywhere
import BracketTree.Tree

/-! The views of a tree, given the spine of a node: what stands under it, what stands around it, and
what the edits of the tree make of the two. Ids are unique, so every look-up ends at that spine. -/

namespace BracketTree.Tree
open Forest
set_option autoImplicit false

@[simp] theorem hasId_iff (id : NodeId) (n : Node) : Node.hasId id n = true ↔ n.id = id := by
  simp [Node.hasId]

@[simp] theorem hasId_eq_false_iff (id : NodeId) (n : Node) :
    Node.hasId id n = false ↔ n.id ≠ id := by
  simp [Node.hasId]

section Spine
variable {t : Tree} {fr : Frame Node} {outer : List (Frame Node)} {c : Forest Node}

theorem nodup_ids_plug (h : t.nodes = plug (fr :: outer) c) : t.ids.Nodup ↔
    ((c.preorder ++ beside (fr :: outer)).map Node.id).Nodup := by
  rw [ids, h]
  exact ((preorder_plug_perm _ _).map _).nodup_iff

theorem id_ne_of_mem (hn : t.ids.Nodup) (h : t.nodes = plug (fr :: outer) c) {n : Node}
    (hm : n ∈ c.preorder ++ (fr.left.preorder ++ fr.right.preorder ++ beside outer)) :
    n.id ≠ fr.node.id := by
  rw [nodup_ids_plug h, beside, (List.perm_middle.map Node.id).nodup_iff, List.map_cons,
    List.nodup_cons] at hn
  intro he
  exact hn.1 (he ▸ List.mem_map_of_mem hm)

theorem selects (hn : t.ids.Nodup) (h : t.nodes = plug (fr :: outer) c) :
    Selects (Node.hasId fr.node.id) fr outer where
  here := by simp
  left := fun n hm => (hasId_eq_false_iff _ _).mpr (id_ne_of_mem hn h (by simp [hm]))
  right := fun n hm => (hasId_eq_false_iff _ _).mpr (id_ne_of_mem hn h (by simp [hm]))
  outer := fun n hm => (hasId_eq_false_iff _ _).mpr (id_ne_of_mem hn h (by simp [hm]))

theorem subtree?_focus (hn : t.ids.Nodup) (h : t.nodes = plug (fr :: outer) c) :
    t.subtree? fr.node.id = some (fr.node, c) := by
  rw [subtree?, h, (selects hn h).find?]

theorem get?_focus (hn : t.ids.Nodup) (h : t.nodes = plug (fr :: outer) c) :
    t.get? fr.node.id = some fr.node := by
  rw [get?, subtree?_focus hn h]
  rfl

theorem below_focus (hn : t.ids.Nodup) (h : t.nodes = plug (fr :: outer) c) :
    t.below fr.node.id = c := by
  rw [below, subtree?_focus hn h]

theorem children_focus (hn : t.ids.Nodup) (h : t.nodes = plug (fr :: outer) c) :
    t.children fr.node.id = c.roots.map Node.id := by
  rw [children, below_focus hn h]

theorem descendants_of_subtree? {id : NodeId} {n : Node} (h : t.subtree? id = some (n, c)) :
    t.descendants id = n.id :: c.preorder.map Node.id := by
  rw [descendants, h]
  simp [walk_eq]

theorem descendants_focus (hn : t.ids.Nodup) (h : t.nodes = plug (fr :: outer) c) :
    t.descendants fr.node.id = fr.node.id :: c.preorder.map Node.id :=
  descendants_of_subtree? (subtree?_focus hn h)

theorem lineage_focus (hn : t.ids.Nodup) (h : t.nodes = plug (fr :: outer) c) :
    t.lineage fr.node.id = fr.node :: outer.map Frame.node := by
  rw [lineage, h, (selects hn h).path]

theorem parent?_focus (hn : t.ids.Nodup) (h : t.nodes = plug (fr :: outer) c) :
    t.parent? fr.node.id = outer.head?.map Frame.node := by
  rw [parent?, lineage_focus hn h]
  cases outer <;> rfl

theorem nodes_modify_focus (hn : t.ids.Nodup) (h : t.nodes = plug (fr :: outer) c)
    (f : Node → Node) :
    (t.modify fr.node.id f).nodes = plug (⟨fr.left, f fr.node, fr.right⟩ :: outer) c := by
  have hfix : ∀ n ∈ c.preorder ++ (fr.left.preorder ++ fr.right.preorder ++ beside outer),
      (if n.id = fr.node.id then f n else n) = n :=
    fun n hm => if_neg (id_ne_of_mem hn h hm)
  rw [modify, h, map_plug, List.map_cons, Frame.map, if_pos rfl,
    map_of_forall_eq fun n hm => hfix n (by simp [hm]),
    map_spine_eq_self fun n hm => hfix n (by simp [hm]),
    map_of_forall_eq fun n hm => hfix n (by simp [hm]),
    map_of_forall_eq fun n hm => hfix n (by simp [hm])]

theorem nodes_append_focus (hn : t.ids.Nodup) (h : t.nodes = plug (fr :: outer) c) (item : Item) :
    (t.append fr.node.id item).nodes =
      plug (fr :: outer) (c ++ .leaf (.fresh t.nextId item)) := by
  rw [append, h, (selects hn h).mapChildren]

theorem removeFrom_focus {inner : Frame Node} (hn : t.ids.Nodup)
    (h : t.nodes = plug (inner :: fr :: outer) c) :
    t.removeFrom fr.node.id inner.node.id =
      .ok { t with nodes := plug (fr :: outer) inner.left } := by
  have h' : t.nodes = plug (fr :: outer) (inner.left ++ .node inner.node c inner.right) := h
  have hmem : inner.node.id ∈ t.children fr.node.id := by
    rw [children_focus hn h']
    simp
  have hleft : ∀ n ∈ inner.left.roots, Node.hasId inner.node.id n = false :=
    fun n hm => (selects hn h).left n (mem_preorder_of_mem_roots hm)
  have hlive : t.contains fr.node.id = true := by
    rw [contains, get?_focus hn h']
    rfl
  rw [removeFrom, if_pos hlive, if_pos hmem, h', (selects hn h').mapChildren,
    takeUntil_append_node hleft (by simp)]

theorem elide_nil (hn : t.ids.Nodup) (h : t.nodes = plug (fr :: outer) .nil) :
    t.elide fr.node.id = .error .emptyParens := by
  rw [elide, below_focus hn h]

theorem elide_node {first : Node} {rest : Forest Node} (hn : t.ids.Nodup)
    (h : t.nodes = plug (fr :: outer) (.node first .nil rest)) :
    t.elide fr.node.id =
      .ok ({ t with nodes := plug (⟨fr.left, first, fr.right⟩ :: outer) rest }, first.id) := by
  rw [elide, below_focus hn h]
  simp only [Forest.isEmpty, if_true]
  rw [h, (selects hn h).promote]
  rfl

theorem elide_of_children {first : Node} {inner rest : Forest Node} (hn : t.ids.Nodup)
    (h : t.nodes = plug (fr :: outer) (.node first inner rest)) (hi : inner ≠ .nil) :
    t.elide fr.node.id =
      .error (.promotedWithChildren first.label inner.roots.length) := by
  rw [elide, below_focus hn h]
  cases inner with
  | nil => exact absurd rfl hi
  | node a d s => rfl

end Spine

section Map
variable {g : Node → Node}

theorem hasId_comp (hg : ∀ n, (g n).id = n.id) (j : NodeId) : Node.hasId j ∘ g = Node.hasId j := by
  funext n
  simp [Node.hasId, hg]

theorem subtree?_map (hg : ∀ n, (g n).id = n.id) (t : Tree) (j : NodeId) :
    { t with nodes := t.nodes.map g }.subtree? j =
      (t.subtree? j).map fun r => (g r.1, r.2.map g) := by
  rw [subtree?, find?_map, hasId_comp hg]
  rfl

theorem get?_map (hg : ∀ n, (g n).id = n.id) (t : Tree) (j : NodeId) :
    { t with nodes := t.nodes.map g }.get? j = (t.get? j).map g := by
  rw [get?, subtree?_map hg, get?, Option.map_map, Option.map_map]
  rfl

theorem children_map (hg : ∀ n, (g n).id = n.id) (t : Tree) (j : NodeId) :
    { t with nodes := t.nodes.map g }.children j = t.children j := by
  rw [children, children, below, below, subtree?_map hg]
  rcases t.subtree? j with _ | ⟨n, c⟩
  · rfl
  · dsimp only [Option.map_some]
    rw [roots_map, List.map_map]
    exact List.map_congr_left fun m _ => hg m

theorem ids_map (hg : ∀ n, (g n).id = n.id) (t : Tree) :
    { t with nodes := t.nodes.map g }.ids = t.ids := by
  rw [ids, preorder_map, List.map_map, ids]
  exact List.map_congr_left fun n _ => hg n

end Map

section Modify
variable {f : Node → Node}

theorem id_modify (hf : ∀ n, (f n).id = n.id) (id : NodeId) (n : Node) :
    (if n.id = id then f n else n).id = n.id := by
  split
  · exact hf n
  · rfl

theorem get?_modify (hf : ∀ n, (f n).id = n.id) (t : Tree) (id j : NodeId) :
    (t.modify id f).get? j = (t.get? j).map fun n => if n.id = id then f n else n :=
  get?_map (id_modify hf id) t j

theorem children_modify (hf : ∀ n, (f n).id = n.id) (t : Tree) (id j : NodeId) :
    (t.modify id f).children j = t.children j :=
  children_map (id_modify hf id) t j

@[simp] theorem ids_modify (hf : ∀ n, (f n).id = n.id) (t : Tree) (id : NodeId) :
    (t.modify id f).ids = t.ids :=
  ids_map (id_modify hf id) t

end Modify

theorem exists_spine_of_get? {t : Tree} {id : NodeId} {n : Node} (h : t.get? id = some n) :
    ∃ left right outer c, t.nodes = plug (⟨left, n, right⟩ :: outer) c ∧ n.id = id := by
  obtain ⟨⟨m, c⟩, hs, rfl⟩ := Option.map_eq_some_iff.mp h
  obtain ⟨left, right, outer, he, hid⟩ := exists_spine hs
  exact ⟨left, right, outer, c, he, (hasId_iff id m).mp hid⟩

theorem id_of_get? {t : Tree} {id : NodeId} {n : Node} (h : t.get? id = some n) : n.id = id := by
  obtain ⟨-, -, -, -, -, hid⟩ := exists_spine_of_get? h
  exact hid

theorem get?_modify_of_ne {f : Node → Node} (hf : ∀ n, (f n).id = n.id) (t : Tree) {id j : NodeId}
    (hne : id ≠ j) : (t.modify id f).get? j = t.get? j := by
  rw [get?_modify hf]
  cases hg : t.get? j with
  | none => rfl
  | some n => rw [Option.map_some, if_neg fun he => hne (he.symm.trans (id_of_get? hg))]

theorem find?_eq_none_of_get? {t : Tree} {id : NodeId} (h : t.get? id = none) :
    t.nodes.find? (Node.hasId id) = none :=
  Option.map_eq_none_iff.mp h

theorem lineage_eq_nil {t : Tree} {id : NodeId} (h : t.get? id = none) : t.lineage id = [] :=
  pathUnder_eq_nil (forall_of_find?_eq_none (find?_eq_none_of_get? h)) []

theorem below_eq_nil {t : Tree} {id : NodeId} (h : t.get? id = none) : t.below id = .nil := by
  rw [below, subtree?, find?_eq_none_of_get? h]

theorem nodup_below {t : Tree} (hn : t.ids.Nodup) (id : NodeId) :
    (id :: (t.below id).preorder.map Node.id).Nodup := by
  cases hg : t.get? id with
  | none =>
    rw [below_eq_nil hg]
    simp
  | some m =>
    obtain ⟨left, right, outer, c, he, rfl⟩ := exists_spine_of_get? hg
    rw [below_focus hn he, List.nodup_cons]
    constructor
    · intro hm
      obtain ⟨n, hmem, hid⟩ := List.mem_map.mp hm
      exact id_ne_of_mem hn he (List.mem_append_left _ hmem) hid
    · rw [nodup_ids_plug he, List.map_append, List.nodup_append] at hn
      exact hn.1

theorem id_ne_of_mem_below {t : Tree} (hn : t.ids.Nodup) {id : NodeId} {m : Node}
    (hm : m ∈ (t.below id).preorder) : m.id ≠ id := by
  rintro rfl
  exact (List.nodup_cons.mp (nodup_below hn m.id)).1 (List.mem_map_of_mem hm)

theorem below_of_split {t : Tree} (hn : t.ids.Nodup) {id : NodeId} {n : Node}
    {left c right : Forest Node} (h : t.below id = left ++ .node n c right) :
    t.subtree? n.id = some (n, c) := by
  cases hg : t.get? id with
  | none =>
    rw [below_eq_nil hg] at h
    cases left <;> cases h
  | some m =>
    obtain ⟨left', right', outer, d, he, rfl⟩ := exists_spine_of_get? hg
    obtain rfl : d = left ++ .node n c right := (below_focus hn he).symm.trans h
    have he' : t.nodes = plug (⟨left, n, right⟩ :: ⟨left', m, right'⟩ :: outer) c := he
    exact subtree?_focus hn he'

theorem tops_below {t : Tree} (hn : t.ids.Nodup) (id : NodeId) :
    (t.below id).Tops fun n c => t.subtree? n.id = some (n, c) :=
  (tops_iff_split _).mpr fun _ _ _ _ he => below_of_split hn he

theorem get?_of_mem {t : Tree} (hn : t.ids.Nodup) {n : Node} (h : n ∈ t.nodes.preorder) :
    t.get? n.id = some n := by
  obtain ⟨left, right, outer, c, he⟩ := exists_spine_of_mem h
  exact get?_focus hn he

theorem mem_of_get? {t : Tree} {id : NodeId} {n : Node} (h : t.get? id = some n) :
    n ∈ t.nodes.preorder := by
  obtain ⟨left, right, outer, c, he, -⟩ := exists_spine_of_get? h
  rw [he, (preorder_plug_perm _ _).mem_iff]
  simp [beside]

theorem get?_eq_some_iff {t : Tree} (hn : t.ids.Nodup) {id : NodeId} {n : Node} :
    t.get? id = some n ↔ n ∈ t.nodes.preorder ∧ n.id = id := by
  constructor
  · exact fun h => ⟨mem_of_get? h, id_of_get? h⟩
  · rintro ⟨hm, rfl⟩
    exact get?_of_mem hn hm

theorem mem_of_mem_below {t : Tree} {id : NodeId} {n : Node} (h : n ∈ (t.below id).preorder) :
    n ∈ t.nodes.preorder := by
  rw [below] at h
  split at h
  · cases h
  · next m c hs =>
    obtain ⟨left, right, outer, he, -⟩ := exists_spine hs
    rw [he, (preorder_plug_perm _ _).mem_iff]
    exact List.mem_append.mpr (.inl h)

end BracketTree.Tree
