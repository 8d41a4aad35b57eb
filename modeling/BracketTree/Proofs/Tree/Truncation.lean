import BracketTree.Proofs.Tree.Breaks
import BracketTree.Proofs.Tree.Operation

/-! Truncation: a node loses its last children. What stops being live is exactly what stands under these
children, with the children themselves; all that stays is as it was. -/

namespace BracketTree.Tree
open Forest
set_option autoImplicit false

/-- `u` is `t` without the children `gone` of `parent`, which come after the children `kept`, and without
anything under them. -/
structure Truncated (t u : Tree) (parent : NodeId) (kept gone : List NodeId) : Prop where
  before : t.children parent = kept ++ gone
  after : u.children parent = kept
  contains : ∀ id, u.contains id = true ↔ t.contains id = true ∧ id ∉ gone.flatMap t.descendants
  removed_live : ∀ id ∈ gone.flatMap t.descendants, t.contains id = true
  removed_nodup : (gone.flatMap t.descendants).Nodup
  size : t.size = u.size + (gone.flatMap t.descendants).length
  node : ∀ id, u.contains id = true → u.get? id = t.get? id
  children : ∀ id, u.contains id = true → id ≠ parent → u.children id = t.children id
  parent : ∀ id, u.contains id = true → u.parent? id = t.parent? id
  nextId : u.nextId = t.nextId
  scopes : u.scopes = t.scopes

variable {t : Tree} {fr : Frame Node} {outer : List (Frame Node)} {d left right : Forest Node} {n : Node}

/-! ## What is removed -/

/-- Neighbours and all that stands under them, tree by tree. -/
theorem flatMap_descendants {f : Forest Node} (h : f.Tops fun n c => t.subtree? n.id = some (n, c)) :
    (f.roots.map Node.id).flatMap t.descendants = f.preorder.map Node.id := by
  induction f with
  | nil => rfl
  | node n c rest _ ih =>
    rw [roots_node, List.map_cons, List.flatMap_cons, descendants_of_subtree? h.1, ih h.2]
    simp

theorem size_eq_length_ids (t : Tree) : t.size = t.ids.length := by
  rw [size, ids, List.length_map, length_preorder]

/-- The tree that keeps only what stands left of the inner node. -/
theorem truncated_of_plug (hw : t.WellFormed) (h : t.nodes = plug (⟨left, n, right⟩ :: fr :: outer) d) :
    Truncated t { t with nodes := plug (fr :: outer) left } fr.node.id (left.roots.map Node.id)
      (n.id :: right.roots.map Node.id) := by
  have hin : t.nodes = plug (fr :: outer) (left ++ .node n d right) := h
  generalize hu : { t with nodes := plug (fr :: outer) left } = u
  have hnodes : u.nodes = plug (fr :: outer) left := by rw [← hu]
  have hwu : u.WellFormed := hw.removeFrom ((removeFrom_focus hw.nodup h).trans (congrArg _ hu))
  have hgone : (n.id :: right.roots.map Node.id).flatMap t.descendants =
      (Forest.node n d right).preorder.map Node.id := by
    have htops := tops_below hw.nodup fr.node.id
    rw [below_focus hw.nodup hin, tops_append] at htops
    exact flatMap_descendants htops.2
  have hperm : t.ids.Perm (u.ids ++ (Forest.node n d right).preorder.map Node.id) := by
    refine (ids_plug hin).trans (.trans ?_ ((ids_plug hnodes).symm.append_right _))
    rw [← List.map_append]
    apply List.Perm.map
    rw [preorder_append, List.append_assoc, List.append_assoc]
    exact List.perm_append_comm.append_left _
  have hgrows := growsAt_of_plug hw.nodup hwu.nodup hnodes hin
  have hlive := contains_iff_mem_ids hw.nodup
  have hliveu := contains_iff_mem_ids hwu.nodup
  have hnodup := List.nodup_append.mp (hperm.nodup_iff.mp hw.nodup)
  constructor
  case before =>
    rw [children_focus hw.nodup hin, roots_append, List.map_append]
    rfl
  case after => exact children_focus hwu.nodup hnodes
  case contains =>
    intro id
    rw [hlive, hliveu, hgone, hperm.mem_iff, List.mem_append]
    constructor
    · exact fun hid => ⟨.inl hid, fun hgone => hnodup.2.2 id hid id hgone rfl⟩
    · exact fun ⟨hid, hnot⟩ => hid.resolve_right hnot
  case removed_live =>
    intro id hid
    rw [hgone] at hid
    exact (hlive id).mpr (hperm.mem_iff.mpr (List.mem_append_right _ hid))
  case removed_nodup =>
    rw [hgone]
    exact hnodup.2.1
  case size =>
    rw [hgone, size_eq_length_ids, size_eq_length_ids, hperm.length_eq, List.length_append]
  case node =>
    intro id hid
    obtain ⟨m, hm⟩ := Option.isSome_iff_exists.mp hid
    rw [hm, hgrows.kept id m hm]
  case children => exact fun id hid hne => (hgrows.children id hid hne).symm
  case parent =>
    intro id hid
    rw [parent?, parent?, hgrows.lineage id hid]
  case nextId => rw [← hu]
  case scopes => rw [← hu]

theorem exists_truncated (hw : t.WellFormed) {parent child : NodeId}
    (h : child ∈ t.children parent) : ∃ u kept later, t.removeFrom parent child = .ok u ∧
      Truncated t u parent kept (child :: later) := by
  cases hg : t.get? parent with
  | none =>
    rw [children, below_eq_nil hg] at h
    cases h
  | some p =>
    obtain ⟨l, r, outer, c, he, rfl⟩ := exists_spine_of_get? hg
    rw [children_focus hw.nodup he] at h
    obtain ⟨n, hn, rfl⟩ := List.mem_map.mp h
    obtain ⟨left, d, right, rfl⟩ := exists_append_of_mem_roots hn
    have hin : t.nodes = plug (⟨left, n, right⟩ :: ⟨l, p, r⟩ :: outer) d := he
    exact ⟨_, _, _, removeFrom_focus hw.nodup hin, truncated_of_plug hw hin⟩

/-- The removal of a child and of those after it fails exactly when there is no such child, and then
changes nothing. -/
theorem truncation_exact {t : Tree} (h : Reachable t) (parent child : NodeId) :
    (t.contains parent = false →
      t.apply (.removeFrom parent child) = (t, .error (.stage (.noSuchNode parent)))) ∧
    (t.contains parent = true → child ∉ t.children parent →
      t.apply (.removeFrom parent child) =
        (t, .error (.stage (.notAChild (t.label parent) (t.label child))))) ∧
    (child ∈ t.children parent → ∃ u kept later,
      t.apply (.removeFrom parent child) = (u, .ok ()) ∧
      Truncated t u parent kept (child :: later)) := by
  refine ⟨fun hdead => ?_, fun hlive hnot => ?_, fun hchild => ?_⟩
  · rw [apply, removeFrom, hdead]
    rfl
  · rw [apply, removeFrom, if_pos hlive, if_neg hnot]
  · obtain ⟨u, kept, later, hu, ht⟩ := exists_truncated h.wellFormed hchild
    exact ⟨u, kept, later, by rw [apply, hu], ht⟩

/-- Of three children the second holds another node: it goes with that node and with the third child. -/
theorem truncation_exact_in_block :
    let leaf : Item := ⟨.identifier, "ID", none⟩
    let t := (((((start.insert 0 ⟨.block, "\x7b", none⟩).1.insert 1 leaf).1.insert 1
      ⟨.command, "[", none⟩).1.insert 3 leaf).1.insert 1 leaf).1
    Reachable t ∧ 3 ∈ t.children 1 ∧
      (∃ u, t.apply (.removeFrom 1 3) = (u, .ok ()) ∧ Truncated t u 1 [2] [3, 5]) ∧
      [3, 5].flatMap t.descendants = [3, 4, 5] ∧
      t.apply (.removeFrom 1 4) = (t, .error (.stage (.notAChild "\x7b" "ID"))) ∧
      t.apply (.removeFrom 9 1) = (t, .error (.stage (.noSuchNode 9))) := by
  intro leaf t
  have h : Reachable t := .tail (.tail (.tail (.tail (.tail .refl (.insert 0 _)) (.insert 1 leaf))
    (.insert 1 _)) (.insert 3 leaf)) (.insert 1 leaf)
  have hchildren : t.children 1 = [2, 3, 5] := by decide +kernel
  obtain ⟨u, kept, later, hu, ht⟩ := (truncation_exact h 1 3).2.2 (by decide +kernel)
  have hsplit := hchildren.symm.trans ht.before
  obtain ⟨rfl, rfl⟩ : kept = [2] ∧ later = [5] := by
    rcases kept with _ | ⟨a, _ | ⟨b, _ | ⟨c, kept⟩⟩⟩ <;> simp_all
  have hlabels : t.label 1 = "\x7b" ∧ t.label 4 = "ID" := by decide +kernel
  have hnot := (truncation_exact h 1 4).2.1 (by decide +kernel) (by decide +kernel)
  rw [hlabels.1, hlabels.2] at hnot
  exact ⟨h, by decide +kernel, ⟨u, hu, ht⟩, by decide +kernel, hnot,
    (truncation_exact h 9 1).1 (by decide +kernel)⟩

end BracketTree.Tree
