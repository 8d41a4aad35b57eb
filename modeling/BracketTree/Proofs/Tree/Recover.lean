import BracketTree.Proofs.Tree.Setup

/-! Recovery, given the spine of the node whose setup failed: the nearest block keeps what stands to
the left of that spine; without a block nothing changes. A live node can always be recovered. -/

namespace BracketTree.Tree
open Forest
set_option autoImplicit false

/-- The nearest block outwards with the levels around it, and what it keeps: the trees to the left
of the spine, which are `left` at the level inside the first of the levels given. -/
def nearestBlock (left : Forest Node) :
    List (Frame Node) → Option (Forest Node × Frame Node × List (Frame Node))
  | [] => none
  | up :: outer =>
    if up.node.kind.isBlock then some (left, up, outer) else nearestBlock up.left outer

theorem nearestBlock_eq_some {left kept : Forest Node} {block : Frame Node}
    {outer rest : List (Frame Node)} (h : nearestBlock left outer = some (kept, block, rest)) :
    block.node.kind = .block ∧ ∃ skipped, outer = skipped ++ block :: rest := by
  induction outer generalizing left with
  | nil => cases h
  | cons up outer ih =>
    rw [nearestBlock] at h
    split at h
    · next hb =>
      cases h
      exact ⟨(Kind.isBlock_iff _).mp hb, [], rfl⟩
    · obtain ⟨hb, skipped, hs⟩ := ih h
      exact ⟨hb, up :: skipped, by rw [hs]; rfl⟩

variable {t : Tree} {fr : Frame Node} {outer : List (Frame Node)} {c : Forest Node}

theorem recoverAlong_focus (hw : t.WellFormed) (h : t.nodes = plug (fr :: outer) c)
    (e : TreeError) : t.recoverAlong e fr.node (outer.map Frame.node) =
      match nearestBlock fr.left outer with
      | none => (t, .recovered e rootId)
      | some (kept, block, rest) =>
        ({ t with nodes := plug (block :: rest) kept }, .recovered e block.node.id) := by
  induction outer generalizing fr c with
  | nil =>
    obtain ⟨inner, r, hs, hid, hk⟩ := hw.spine_eq h (by simp)
    obtain rfl : fr = ⟨.nil, r, .nil⟩ := by
      cases inner with
      | nil => exact (List.cons.inj hs).1
      | cons f inner => simp at hs
    rw [List.map_nil, recoverAlong, if_pos ⟨hid, hk⟩, hid]
    rfl
  | cons up outer ih =>
    have h' : t.nodes = plug (up :: outer) (fr.left ++ .node fr.node c fr.right) := h
    rw [List.map_cons, recoverAlong, nearestBlock]
    split
    · rw [removeFrom_focus hw.nodup h]
    · exact ih h'

theorem recover_focus (hw : t.WellFormed) (h : t.nodes = plug (fr :: outer) c) (e : TreeError) :
    t.recover e fr.node.id =
      match nearestBlock fr.left outer with
      | none => (t, .recovered e rootId)
      | some (kept, block, rest) =>
        ({ t with nodes := plug (block :: rest) kept }, .recovered e block.node.id) := by
  rw [recover, lineage_focus hw.nodup h]
  exact recoverAlong_focus hw h e

end BracketTree.Tree
