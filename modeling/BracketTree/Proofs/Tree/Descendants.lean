import BracketTree.Proofs.Tree.Resumption

/-! What stands under a node. A walk that looks the nodes up one by one, with a stack of ids that are still
to be visited, ends after finitely many turns and lists the nodes in preorder; these are the nodes whose
ways up to the root lead through the node. -/

namespace BracketTree.Tree
open Forest
set_option autoImplicit false

/-- The ids that are still to be visited, the next one first, and those that have been visited. -/
structure Walk where
  pending : List NodeId
  visited : List NodeId

namespace Walk

/-- One turn: the next id is dropped if it is not live; else it is visited, and its children come next. -/
def turn (t : Tree) : Walk → Option Walk
  | ⟨[], _⟩ => none
  | ⟨id :: rest, visited⟩ =>
    if t.contains id then some ⟨t.children id ++ rest, visited ++ [id]⟩ else some ⟨rest, visited⟩

def Turns (t : Tree) (v w : Walk) : Prop := v.turn t = some w

/-- Some turns lead from `v` to `w`. -/
def Leads (t : Tree) : Walk → Walk → Prop := Relation.ReflTransGen (Turns t)

variable {t : Tree} {id : NodeId} {rest visited : List NodeId}

theorem turns_of_live (h : t.contains id = true) :
    Turns t ⟨id :: rest, visited⟩ ⟨t.children id ++ rest, visited ++ [id]⟩ := by
  rw [Turns, turn, if_pos h]

theorem turns_of_dead (h : t.contains id = false) : Turns t ⟨id :: rest, visited⟩ ⟨rest, visited⟩ := by
  simp [Turns, turn, h]

/-- Turns are made in one way only, so a walk that can come to an end has no endless turns. -/
theorem Leads.acc {v : Walk} (h : Leads t v ⟨[], visited⟩) : Acc (fun w u => Turns t u w) v := by
  induction h using Relation.ReflTransGen.head_induction_on with
  | refl => exact ⟨_, fun w hw => by cases hw⟩
  | @head u k hturn _ ih =>
    refine ⟨_, fun w hw => ?_⟩
    obtain rfl : k = w := Option.some.inj (hturn.symm.trans hw)
    exact ih

/-- Where the pending ids begin with the top nodes of a forest, the walk visits the forest in preorder
before it turns to the rest. -/
theorem leads_forest (hn : t.ids.Nodup) {f : Forest Node}
    (hf : f.Tops fun n c => t.subtree? n.id = some (n, c)) (rest visited : List NodeId) :
    Leads t ⟨f.roots.map Node.id ++ rest, visited⟩ ⟨rest, visited ++ f.preorder.map Node.id⟩ := by
  induction f generalizing rest visited with
  | nil =>
    rw [Leads]
    simpa using Relation.ReflTransGen.refl
  | node n c s hc hs =>
    obtain ⟨hsub, htops⟩ := hf
    have hbelow : t.below n.id = c := by rw [below, hsub]
    have hlive : t.contains n.id = true := by
      rw [contains, get?, hsub]
      rfl
    have hchildren : t.children n.id = c.roots.map Node.id := by rw [children, hbelow]
    have hvisit : Turns t ⟨n.id :: (s.roots.map Node.id ++ rest), visited⟩
        ⟨t.children n.id ++ (s.roots.map Node.id ++ rest), visited ++ [n.id]⟩ := turns_of_live hlive
    rw [hchildren] at hvisit
    have hinner := hc (hbelow ▸ tops_below hn n.id) (s.roots.map Node.id ++ rest)
      (visited ++ [n.id])
    have hlater := hs htops rest (visited ++ [n.id] ++ c.preorder.map Node.id)
    have hall := (Relation.ReflTransGen.head hvisit hinner).trans hlater
    simpa [Leads] using hall

end Walk

/-! ## The nodes under a node -/

section Focus
variable {t : Tree} {id x : NodeId}

theorem descendants_eq_nil (h : t.contains id = false) : t.descendants id = [] := by
  have hget : t.subtree? id = none := by simpa [contains, get?] using h
  rw [descendants, hget]

/-- The list by recursion: a node, then the lists of its children in order. -/
theorem descendants_eq (hn : t.ids.Nodup) (h : t.contains id = true) :
    t.descendants id = id :: (t.children id).flatMap t.descendants := by
  obtain ⟨n, hget⟩ := Option.isSome_iff_exists.mp h
  obtain ⟨left, right, outer, c, he, rfl⟩ := exists_spine_of_get? hget
  have htops := tops_below hn n.id
  rw [below_focus hn he] at htops
  rw [descendants_focus hn he, children_focus hn he, flatMap_descendants htops]

theorem leads_descendants (hn : t.ids.Nodup) (id : NodeId) :
    Walk.Leads t ⟨[id], []⟩ ⟨[], t.descendants id⟩ := by
  cases hlive : t.contains id with
  | false =>
    rw [descendants_eq_nil hlive]
    exact .single (Walk.turns_of_dead hlive)
  | true =>
    obtain ⟨n, hget⟩ := Option.isSome_iff_exists.mp hlive
    obtain ⟨left, right, outer, c, he, rfl⟩ := exists_spine_of_get? hget
    have hsub := subtree?_focus hn he
    have hwalk := Walk.leads_forest hn (f := .node n c .nil) ⟨hsub, trivial⟩ [] []
    rw [descendants_of_subtree? hsub]
    simpa using hwalk

theorem nodup_descendants (hn : t.ids.Nodup) (id : NodeId) : (t.descendants id).Nodup := by
  cases hlive : t.contains id with
  | false =>
    rw [descendants_eq_nil hlive]
    exact List.nodup_nil
  | true =>
    obtain ⟨n, hget⟩ := Option.isSome_iff_exists.mp hlive
    obtain ⟨left, right, outer, c, he, rfl⟩ := exists_spine_of_get? hget
    have hbelow := nodup_below hn n.id
    rw [below_focus hn he] at hbelow
    rwa [descendants_focus hn he]

theorem isAncestor_of_mem_descendants (hn : t.ids.Nodup) (h : x ∈ t.descendants id) :
    t.contains x = true ∧ (x = id ∨ t.IsAncestor id x) := by
  cases hlive : t.contains id with
  | false =>
    rw [descendants_eq_nil hlive] at h
    cases h
  | true =>
    obtain ⟨n, hget⟩ := Option.isSome_iff_exists.mp hlive
    obtain ⟨left, right, outer, c, he, rfl⟩ := exists_spine_of_get? hget
    rw [descendants_focus hn he] at h
    rcases List.mem_cons.mp h with rfl | h
    · exact ⟨hlive, .inl rfl⟩
    obtain ⟨m, hm, rfl⟩ := List.mem_map.mp h
    obtain ⟨l, r, inner, d, rfl⟩ := exists_spine_of_mem hm
    -- the spine of the inner node goes on with the spine of the outer one
    have hspine : t.nodes = plug (⟨l, m, r⟩ :: (inner ++ ⟨left, n, right⟩ :: outer)) d := by
      rw [he, ← plug_append, List.cons_append]
    refine ⟨?_, .inr ((isAncestor_focus_iff hn hspine).mpr ⟨⟨left, n, right⟩, by simp, rfl⟩)⟩
    rw [contains, get?_focus hn hspine]
    rfl

theorem mem_descendants_of_isAncestor (hn : t.ids.Nodup) (hlive : t.contains x = true)
    (h : t.IsAncestor id x) : x ∈ t.descendants id := by
  obtain ⟨m, hget⟩ := Option.isSome_iff_exists.mp hlive
  obtain ⟨l, r, spine, d, he, rfl⟩ := exists_spine_of_get? hget
  obtain ⟨fr, hfr, rfl⟩ := (isAncestor_focus_iff hn he).mp h
  obtain ⟨inner, outer, rfl⟩ := List.append_of_mem hfr
  have hspine : t.nodes = plug (fr :: outer) (plug (⟨l, m, r⟩ :: inner) d) := by
    rw [he, ← List.cons_append, plug_append]
  rw [descendants_focus hn hspine]
  exact List.mem_cons_of_mem _ (List.mem_map_of_mem (mem_preorder_plug List.mem_cons_self d))

theorem mem_descendants_iff (hn : t.ids.Nodup) :
    x ∈ t.descendants id ↔ t.contains x = true ∧ (x = id ∨ t.IsAncestor id x) := by
  refine ⟨isAncestor_of_mem_descendants hn, ?_⟩
  rintro ⟨hlive, rfl | h⟩
  · rw [descendants_eq hn hlive]
    exact List.mem_cons_self
  · exact mem_descendants_of_isAncestor hn hlive h

end Focus

/-- The list of what stands under a node is the result of a walk by look-ups, which ends for every id; it
is the preorder by recursion, has each node once, and has the nodes that are live and have the node on
their way up. -/
theorem descendants_exact {t : Tree} (h : Reachable t) (id : NodeId) :
    Acc (fun w v => Walk.Turns t v w) ⟨[id], []⟩ ∧
    Walk.Leads t ⟨[id], []⟩ ⟨[], t.descendants id⟩ ∧
    t.descendants id =
      (if t.contains id then id :: (t.children id).flatMap t.descendants else []) ∧
    (t.descendants id).Nodup ∧
    ∀ x, x ∈ t.descendants id ↔ t.contains x = true ∧ (x = id ∨ t.IsAncestor id x) := by
  have hn := h.wellFormed.nodup
  have hwalk := leads_descendants hn id
  refine ⟨hwalk.acc, hwalk, ?_, nodup_descendants hn id, fun x => mem_descendants_iff hn⟩
  split
  · next hlive => exact descendants_eq hn hlive
  · next hdead => exact descendants_eq_nil (Bool.eq_false_iff.mpr hdead)

/-- In the command 1 the group 2 gives way to its first child, which takes the leaf 4 and later gets the
leaf 6: it comes before the leaf 5, which entered earlier. -/
theorem descendants_exact_after_elision :
    let leaf : Item := ⟨.identifier, "ID", none⟩
    let t := (((((((start.insert 0 ⟨.command, "[", none⟩).1.insert 1
      ⟨.brace ⟨.round, .opening⟩, "(", none⟩).1.insert 2 leaf).1.insert 2 leaf).1.insert 1 leaf).1.insert 2
      ⟨.brace ⟨.round, .closing⟩, ")", none⟩).1.insert 3 leaf).1
    Reachable t ∧ Walk.Leads t ⟨[1], []⟩ ⟨[], [1, 3, 4, 6, 5]⟩ ∧ t.IsAncestor 1 6 ∧
      Walk.Leads t ⟨[2], []⟩ ⟨[], []⟩ := by
  intro leaf t
  have h : Reachable t := .tail (.tail (.tail (.tail (.tail (.tail (.tail .refl (.insert 0 _))
    (.insert 1 _)) (.insert 2 leaf)) (.insert 2 leaf)) (.insert 1 leaf)) (.insert 2 _)) (.insert 3 leaf)
  have hlist : t.descendants 1 = [1, 3, 4, 6, 5] := by decide +kernel
  have hdead : t.descendants 2 = [] := by decide +kernel
  obtain ⟨-, hwalk, -, -, hmem⟩ := descendants_exact h 1
  obtain ⟨-, hnone, -⟩ := descendants_exact h 2
  rw [hlist] at hwalk
  rw [hdead] at hnone
  obtain ⟨-, hself | hin⟩ := (hmem 6).mp (by simp [hlist])
  · cases hself
  · exact ⟨h, hwalk, hin, hnone⟩

end BracketTree.Tree
