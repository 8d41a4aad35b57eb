import BracketTree.Proofs.Tree.Insert

/-! What a failed setup leaves of the tree, when nothing stands after the bracket that is closed. Inside
a block the statement is gone with all that stands in it. Elsewhere only a group is gone: it has given
way to its first child before the setup began. -/

namespace BracketTree
open Forest
set_option autoImplicit false

namespace Tree

/-- Of a node and its ancestors outwards, the one that stands directly in the nearest block. -/
def inBlock? : List Node → Option Node
  | inner :: outer :: rest => if outer.kind.isBlock then some inner else inBlock? (outer :: rest)
  | _ => none

/-- What a failed setup of the closed bracket `focus` takes out of the tree. -/
def torn (t : Tree) (focus : NodeId) : List NodeId :=
  match inBlock? (t.lineage focus) with
  | some n => t.descendants n.id
  | none =>
    if (t.get? focus).any fun n => n.kind.brace?.any Brace.isGrouping then [focus] else []

/-- The node `focus` is live, and nothing stands after it or after any of its ancestors. -/
def LastAt (t : Tree) (focus : NodeId) : Prop :=
  ∃ fr outer c, t.nodes = plug (fr :: outer) c ∧ fr.node.id = focus ∧ ∀ g ∈ fr :: outer, g.right = .nil

/-- What is left of a tree when the innermost bracket of a spine closes and its setup fails: the
statement is cut out of the nearest block, or without a block the bracket stays, if it is no group. -/
inductive Breaks (fr : Frame Node) (outer : List (Frame Node)) (c : Forest Node) : Tree → Prop where
  | cut {u : Tree} {kept : Forest Node} {block : Frame Node} {rest : List (Frame Node)} :
      nearestBlock fr.left outer = some (kept, block, rest) → u.nodes = plug (block :: rest) kept →
      Breaks fr outer c u
  | stay {u : Tree} {g : Node → Node} : nearestBlock fr.left outer = none →
      fr.node.kind.brace?.any Brace.isGrouping = false → Remarks g →
      u.nodes = plug (⟨fr.left, g fr.node, fr.right⟩ :: outer) (c.map g) → Breaks fr outer c u
  | elide {u : Tree} {g : Node → Node} {first : Node} {rest : Forest Node} :
      nearestBlock fr.left outer = none → fr.node.kind.brace?.any Brace.isGrouping = true →
      c = .node first .nil rest → Remarks g →
      u.nodes = plug (⟨fr.left, g first, fr.right⟩ :: outer) (rest.map g) → Breaks fr outer c u

variable {t u : Tree} {fr up : Frame Node} {outer : List (Frame Node)} {c : Forest Node}

theorem inBlock?_of_no_block (h : nearestBlock fr.left outer = none) :
    inBlock? ((fr :: outer).map Frame.node) = none := by
  induction outer generalizing fr with
  | nil => rfl
  | cons up outer ih =>
    rw [nearestBlock] at h
    split at h
    · cases h
    · next hb => exact (if_neg hb).trans (ih h)

/-- The node in the nearest block, when nothing stands after the spine. -/
theorem exists_inBlock? {kept : Forest Node} {block : Frame Node} {rest : List (Frame Node)}
    (hlast : ∀ g ∈ fr :: outer, g.right = .nil)
    (h : nearestBlock fr.left outer = some (kept, block, rest)) : ∃ n d,
      inBlock? ((fr :: outer).map Frame.node) = some n ∧
      plug (fr :: outer) c = plug (⟨kept, n, .nil⟩ :: block :: rest) d ∧
      ∀ m, m = fr.node ∨ m ∈ c.preorder → m = n ∨ m ∈ d.preorder := by
  induction outer generalizing fr c with
  | nil => cases h
  | cons up outer ih =>
    obtain ⟨left, n, right⟩ := fr
    obtain rfl : right = .nil := hlast _ List.mem_cons_self
    rw [nearestBlock] at h
    split at h
    · next hb =>
      cases h
      exact ⟨n, c, if_pos hb, rfl, fun _ hm => hm⟩
    · next hb =>
      obtain ⟨k, d, hk, hplug, hsub⟩ := ih (c := left ++ .node n c .nil)
        (fun g hg => hlast g (List.mem_cons_of_mem _ hg)) h
      refine ⟨k, d, (if_neg hb).trans hk, hplug, ?_⟩
      intro m hm
      apply hsub m (.inr _)
      simpa using .inr hm

theorem Finishes.broken {next : NodeId} {x : InsertError}
    (hf : Finishes t fr outer c next (u, .error x)) :
    (∃ kept block rest, nearestBlock fr.left outer = some (kept, block, rest) ∧
      u.nodes = plug (block :: rest) kept) ∨
    nearestBlock fr.left outer = none ∧ ∃ g, Remarks g ∧
      u.nodes = plug (⟨fr.left, g fr.node, fr.right⟩ :: outer) (c.map g) := by
  cases hf with
  | atRoot hg _ hnone => exact .inr ⟨hnone, _, hg, rfl⟩
  | atBlock _ hsome => exact .inl ⟨_, _, _, hsome, rfl⟩

theorem insert_breaks (hw : t.WellFormed) (h : t.nodes = plug (fr :: outer) c) {item : Item}
    {e : TreeError} {id : NodeId} (hins : t.insert fr.node.id item = (u, .error (.recovered e id))) :
    Breaks fr outer c u := by
  have hi := insert_focus hw h item
  rw [hins] at hi
  cases hi with
  | @resume b _ skipped rest resumed _ _ hb hclosing hs _ =>
    obtain ⟨up, around, rfl⟩ : ∃ up around, outer = up :: around := by
      rw [hs]
      cases skipped <;> exact ⟨_, _, rfl⟩
    have hc := insert_closing hw.nodup h hb hclosing
    generalize hr : t.insert fr.node.id item = r at hc
    rw [hins] at hr
    cases hc with
    | keep ho _ hg =>
      have hf := finish_focus hw h up.node.id
      rw [← hr] at hf
      obtain ⟨kept, block, rest, hsome, hu⟩ | ⟨hnone, g, hrem, hu⟩ := hf.broken
      · exact .cut hsome hu
      · exact .stay hnone (by simp [ho, hg]) hrem hu
    | @elide opening first d ho _ hg he =>
      subst he
      have hf := finish_elided hw h up.node.id
      rw [← hr] at hf
      obtain ⟨kept, block, rest, hsome, hu⟩ | ⟨hnone, g, hrem, hu⟩ := hf.broken
      · exact .cut hsome hu
      · exact .elide hnone (by simp [ho, hg]) rfl hrem hu
    | refuse _ => cases hr

theorem insert_of_dead {focus : NodeId} (h : t.get? focus = none) (item : Item) :
    t.insert focus item = (t, .error (.fatal (.stage (.noSuchNode focus)))) := by
  rw [insert, h]

section Torn
variable (hn : t.ids.Nodup) (h : t.nodes = plug (fr :: outer) c)
include hn h

theorem torn_of_no_block (hnone : nearestBlock fr.left outer = none) : t.torn fr.node.id =
    if fr.node.kind.brace?.any Brace.isGrouping then [fr.node.id] else [] := by
  have hin := inBlock?_of_no_block hnone
  rw [List.map_cons] at hin
  rw [torn, lineage_focus hn h, hin, get?_focus hn h]
  rfl

theorem torn_of_block {kept : Forest Node} {block : Frame Node} {rest : List (Frame Node)}
    (hlast : ∀ g ∈ fr :: outer, g.right = .nil)
    (hsome : nearestBlock fr.left outer = some (kept, block, rest)) : ∃ n d,
      t.nodes = plug (⟨kept, n, .nil⟩ :: block :: rest) d ∧
      t.torn fr.node.id = n.id :: d.preorder.map Node.id ∧
      fr.node.id ∈ n.id :: d.preorder.map Node.id := by
  obtain ⟨n, d, hin, hplug, hsub⟩ := exists_inBlock? (c := c) hlast hsome
  have ht : t.nodes = plug (⟨kept, n, .nil⟩ :: block :: rest) d := h.trans hplug
  refine ⟨n, d, ht, ?_, ?_⟩
  · rw [List.map_cons] at hin
    rw [torn, lineage_focus hn h, hin]
    exact descendants_focus hn ht
  · rcases hsub fr.node (.inl rfl) with he | hm
    · rw [he]
      exact List.mem_cons_self
    · exact List.mem_cons_of_mem _ (List.mem_map_of_mem hm)

end Torn

theorem ids_plug {spine : List (Frame Node)} (h : t.nodes = plug spine c) :
    t.ids.Perm ((c.preorder ++ beside spine).map Node.id) := by
  rw [ids, h]
  exact (preorder_plug_perm spine c).map _

/-- Of the nodes that were live before the failure, exactly the torn ones are gone. -/
theorem Breaks.ids_perm (hb : Breaks fr outer c u) (hn : t.ids.Nodup)
    (h : t.nodes = plug (fr :: outer) c) (hlast : ∀ g ∈ fr :: outer, g.right = .nil) :
    t.ids.Perm (t.torn fr.node.id ++ u.ids) := by
  cases hb with
  | cut hsome hu =>
    obtain ⟨n, d, ht, htorn, -⟩ := torn_of_block hn h hlast hsome
    rw [htorn]
    refine (ids_plug ht).trans (.trans ?_ ((ids_plug hu).symm.append_left _))
    simp [beside]
  | stay hnone hg hrem hu =>
    rw [torn_of_no_block hn h hnone, hg]
    refine (ids_plug h).trans (.trans (.of_eq ?_) (ids_plug hu).symm)
    simp [beside, hrem.id, Function.comp_def]
  | elide hnone hg he hrem hu =>
    subst he
    rw [torn_of_no_block hn h hnone, hg]
    refine (ids_plug h).trans (.trans ?_ ((ids_plug hu).symm.append_left _))
    simp only [preorder_node, preorder_nil, List.nil_append, beside, List.append_assoc,
      List.cons_append, List.map_cons, List.map_append, if_true, preorder_map, List.map_map,
      Function.comp_def, hrem.id]
    exact (List.perm_middle.cons _).trans ((List.Perm.swap ..).trans (List.perm_middle.symm.cons _))

theorem Breaks.contains_iff (hb : Breaks fr outer c u) (hn : t.ids.Nodup) (hnu : u.ids.Nodup)
    (h : t.nodes = plug (fr :: outer) c) (hlast : ∀ g ∈ fr :: outer, g.right = .nil) (id : NodeId) :
    u.contains id = true ↔ t.contains id = true ∧ id ∉ t.torn fr.node.id := by
  have hperm := hb.ids_perm hn h hlast
  have hdisjoint := (List.nodup_append.mp (hperm.nodup_iff.mp hn)).2.2
  rw [contains_iff_mem_ids hn, contains_iff_mem_ids hnu, hperm.mem_iff, List.mem_append]
  constructor
  · intro hu
    exact ⟨.inr hu, fun ht => hdisjoint id ht id hu rfl⟩
  · rintro ⟨ht | hu, hnot⟩
    · exact absurd ht hnot
    · exact hu

/-- The bracket that is closed goes first: if it stays, so does everything else. -/
theorem Breaks.spares (hb : Breaks fr outer c u) (hn : t.ids.Nodup)
    (h : t.nodes = plug (fr :: outer) c) (hlast : ∀ g ∈ fr :: outer, g.right = .nil)
    (hnot : fr.node.id ∉ t.torn fr.node.id) :
    t.torn fr.node.id = [] ∧ u.LastAt fr.node.id := by
  cases hb with
  | cut hsome hu =>
    obtain ⟨n, d, -, htorn, hmem⟩ := torn_of_block hn h hlast hsome
    rw [htorn] at hnot
    exact absurd hmem hnot
  | stay hnone hg hrem hu =>
    rw [torn_of_no_block hn h hnone, hg]
    refine ⟨rfl, _, _, _, hu, hrem.id _, ?_⟩
    exact List.forall_mem_cons.mpr (List.forall_mem_cons.mp hlast)
  | elide hnone hg _ _ _ =>
    rw [torn_of_no_block hn h hnone, hg] at hnot
    exact absurd List.mem_cons_self hnot

theorem insert_lastAt (hw : t.WellFormed) (h : t.nodes = plug (fr :: outer) c)
    (hlast : ∀ g ∈ fr :: outer, g.right = .nil) {item : Item} {id : NodeId}
    (hins : t.insert fr.node.id item = (u, .ok id)) : u.LastAt id := by
  have hi := insert_focus hw h item
  rw [hins] at hi
  cases hi with
  | stay _ hu => exact ⟨fr, outer, _, hu, rfl, hlast⟩
  | descend _ _ hu => exact ⟨_, _, _, hu, rfl, List.forall_mem_cons.mpr ⟨rfl, hlast⟩⟩
  | ascend _ _ hs hu =>
    subst hs
    exact ⟨_, _, _, hu, rfl, (List.forall_mem_cons.mp hlast).2⟩

end Tree

end BracketTree
