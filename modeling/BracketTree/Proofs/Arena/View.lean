import BracketTree.Proofs.Arena.Run
import BracketTree.Proofs.Tree.Calls
import BracketTree.Proofs.Tree.Descendants
import Mathlib.Data.List.Perm.Subperm

/-! The table of a tree: every live node stands in the slot of its id, with links to its children and to its
parent. All that is read off the table of a well-formed tree is what the tree says; a walk along the
links comes to an end, since no way leads round in a circle. -/

namespace BracketTree
open Forest
set_option autoImplicit false

def Cell.ofNode (n : Node) (children : List NodeId) (parent : Option NodeId) : Cell :=
  ⟨n.toItem, children, parent, n.scope, n.inherited, n.marks⟩

namespace Tree

/-! ## The table of a tree -/

def cell? (t : Tree) (id : NodeId) : Option Cell :=
  (t.get? id).map fun n => .ofNode n (t.children id) ((t.parent? id).map Node.id)

def arena (t : Tree) : Arena := ⟨(Array.range t.nextId).map t.cell?, t.scopes⟩

variable {t : Tree} {id : NodeId} {n : Node}

theorem cell?_of_get? (h : t.get? id = some n) :
    t.cell? id = some (.ofNode n (t.children id) ((t.parent? id).map Node.id)) := by
  rw [cell?, h]
  rfl

theorem cell?_eq_none (h : t.get? id = none) : t.cell? id = none := by
  rw [cell?, h]
  rfl

@[simp] theorem size_slots_arena (t : Tree) : t.arena.slots.size = t.nextId := by
  simp [arena]

@[simp] theorem scopes_arena (t : Tree) : t.arena.scopes = t.scopes := rfl

theorem WellFormed.lt_nextId (hw : t.WellFormed) (h : t.get? id = some n) : id < t.nextId :=
  id_of_get? h ▸ hw.bounded n (mem_of_get? h)

theorem cell?_arena (hw : t.WellFormed) (id : NodeId) : t.arena.cell? id = t.cell? id := by
  rw [Arena.cell?, arena, Array.getElem?_map]
  by_cases hid : id < t.nextId
  · simp [hid]
  · have hdead : t.get? id = none :=
      Option.eq_none_iff_forall_not_mem.mpr fun n hn => hid (hw.lt_nextId hn)
    simp [hid, cell?_eq_none hdead]

theorem cell?_live (hw : t.WellFormed) (h : t.get? id = some n) :
    t.arena.cell? id = some (.ofNode n (t.children id) ((t.parent? id).map Node.id)) :=
  (cell?_arena hw id).trans (cell?_of_get? h)

section Focus
variable {fr : Frame Node} {outer : List (Frame Node)} {c : Forest Node}

theorem cell?_focus (hn : t.ids.Nodup) (h : t.nodes = plug (fr :: outer) c) : t.cell? fr.node.id =
    some (.ofNode fr.node (c.roots.map Node.id) ((outer.head?.map Frame.node).map Node.id)) := by
  rw [cell?_of_get? (get?_focus hn h), children_focus hn h, parent?_focus hn h]

theorem cell?_arena_focus (hw : t.WellFormed) (h : t.nodes = plug (fr :: outer) c) :
    t.arena.cell? fr.node.id =
      some (.ofNode fr.node (c.roots.map Node.id) ((outer.head?.map Frame.node).map Node.id)) :=
  (cell?_arena hw _).trans (cell?_focus hw.nodup h)

end Focus

theorem arena_start : start.arena = .start := by
  have hslots : (Array.range 1).map start.cell? = #[start.cell? rootId] := by
    simp [← Array.toList_inj, rootId]
  exact congrArg (Arena.mk · .empty) hslots

theorem contains_arena (hw : t.WellFormed) (id : NodeId) :
    t.arena.contains id = t.contains id := by
  rw [Arena.contains, cell?_arena hw, cell?, Option.isSome_map, contains]

theorem children_arena (hw : t.WellFormed) (id : NodeId) :
    t.arena.children id = t.children id := by
  rw [Arena.children, cell?_arena hw, cell?]
  cases h : t.get? id with
  | none =>
    rw [children, below_eq_nil h]
    rfl
  | some n => rfl

theorem parent?_arena (hw : t.WellFormed) (id : NodeId) :
    t.arena.parent? id = (t.parent? id).map Node.id := by
  rw [Arena.parent?, cell?_arena hw, cell?]
  cases h : t.get? id with
  | none =>
    rw [parent?, lineage_eq_nil h]
    rfl
  | some n => rfl

theorem label_arena (hw : t.WellFormed) (id : NodeId) : t.arena.label id = t.label id := by
  rw [Arena.label, cell?_arena hw, cell?, label]
  cases t.get? id <;> rfl

theorem isEmpty_arena (hw : t.WellFormed) : t.arena.isEmpty = t.isEmpty := by
  rw [Arena.isEmpty, children_arena hw, isEmpty, children]
  cases t.below rootId <;> rfl

/-! ## Walks -/

theorem visit_arena (hw : t.WellFormed) (w : Walk) :
    t.arena.visit (w.pending, w.visited) =
      (w.turn t).map fun v => (v.pending, v.visited) := by
  obtain ⟨_ | ⟨id, rest⟩, visited⟩ := w
  · rfl
  · rw [Arena.visit, Walk.turn, contains_arena hw, children_arena hw]
    split <;> rfl

theorem size_arena (hw : t.WellFormed) : t.arena.size = t.size := by
  have hlive : ∀ id, (Option.isSome ∘ t.cell?) id = t.contains id :=
    fun id => by rw [Function.comp_apply, cell?, Option.isSome_map, contains]
  have hperm : ((List.range t.nextId).filter t.contains).Perm t.ids := by
    rw [List.perm_ext_iff_of_nodup (List.nodup_range.filter _) hw.nodup]
    intro id
    rw [List.mem_filter, List.mem_range, contains_iff_mem_ids hw.nodup, and_iff_right_iff_imp]
    intro hid
    obtain ⟨n, hn, rfl⟩ := List.mem_map.mp hid
    exact hw.bounded n hn
  rw [size_eq_length_ids, ← hperm.length_eq, ← List.countP_eq_length_filter, Arena.size, arena,
    ← Array.countP_toList, Array.toList_map, Array.toList_range, List.countP_map]
  exact List.countP_congr fun id _ => by rw [hlive]

theorem WellFormed.length_ids_le (hw : t.WellFormed) : t.ids.length ≤ t.nextId := by
  have hsub : t.ids ⊆ List.range t.nextId := by
    intro id hid
    obtain ⟨n, hn, rfl⟩ := List.mem_map.mp hid
    exact List.mem_range.mpr (hw.bounded n hn)
  simpa using (hw.nodup.subperm hsub).length_le

theorem WellFormed.size_below_le (hw : t.WellFormed) (id : NodeId) :
    (t.below id).size ≤ t.nextId := by
  have hsub : (t.below id).preorder.map Node.id ⊆ t.ids :=
    List.map_subset _ fun n hn => mem_of_mem_below hn
  have hlen := ((nodup_below hw.nodup id).of_cons.subperm hsub).length_le
  rw [List.length_map, length_preorder] at hlen
  exact hlen.trans hw.length_ids_le

/-- A forest is printed within a depth that is its size at least. -/
theorem printWithin_arena (hw : t.WellFormed) {f : Forest Node} (hf : t.Standing f) {depth : Nat}
    (hd : f.size ≤ depth) : (f.roots.map Node.id).mapM (t.arena.printWithin depth) =
      some (f.render fun n => n.label) := by
  induction f generalizing depth with
  | nil => rfl
  | node n c s hc hs =>
    obtain ⟨⟨hn, hchildren⟩, hbelow, hnext⟩ := hf
    obtain _ | depth := depth
    · cases hd
    rw [Forest.size] at hd
    have hhere : t.arena.printWithin (depth + 1) n.id =
        some (wrap n.label (c.render fun m => m.label)) := by
      rw [Arena.printWithin, cell?_arena hw, cell?_of_get? hn, hchildren]
      dsimp only [Cell.ofNode]
      rw [hc hbelow (by omega)]
      rfl
    rw [roots_node, List.map_cons, List.mapM_cons, hhere, hs hnext (by omega)]
    rfl

theorem print_arena (hw : t.WellFormed) (id : NodeId) : t.arena.print id = some (t.print id) := by
  rw [Arena.print, Arena.printWithin, cell?_arena hw, print, size_slots_arena]
  cases hg : t.get? id with
  | none =>
    have hsub : t.subtree? id = none := find?_eq_none_of_get? hg
    rw [cell?_eq_none hg, hsub]
  | some n =>
    obtain ⟨⟨m, c⟩, hsub, rfl⟩ := Option.map_eq_some_iff.mp hg
    have hbelow : t.below id = c := by rw [below, hsub]
    have htexts := printWithin_arena hw (standing_below hw.nodup id) (hw.size_below_le id)
    rw [hbelow] at htexts
    rw [cell?_of_get? hg, hsub, children, hbelow]
    dsimp only [Cell.ofNode]
    rw [htexts]
    rfl

end Tree
end BracketTree
