import BracketTree.Proofs.Arena.Edit

/-! Insertion and recovery on the table of a tree. The way outwards that a recovery follows ends at the
root, after no more turns than the table has slots. -/

namespace BracketTree.Tree
open Forest Arena
set_option autoImplicit false

variable {t : Tree} {fr : Frame Node} {outer : List (Frame Node)} {c : Forest Node} {n : Node}

/-! ## Recovery -/

theorem runs_truncate {ε : Type} (hw : t.WellFormed) (e : TreeError) (block child : NodeId) :
    match t.removeFrom block child with
    | .ok u =>
      Runs (truncate e block child : Action ε InsertError) t.arena (.ok (.recovered e block)) u.arena
    | .error cause => Runs (truncate e block child : Action ε InsertError) t.arena
        (.ok (.fatal (.unrecoverable e cause.message))) t.arena := by
  have hremove := runs_removeFrom hw block child
  rcases hr : t.removeFrom block child with cause | u
  · rw [hr] at hremove
    exact hremove.outcome.bind (runs_pure _ _)
  · rw [hr] at hremove
    exact hremove.outcome.bind (runs_pure _ _)

theorem runs_recoverWithin {ε : Type} (hw : t.WellFormed) (h : t.nodes = plug (fr :: outer) c)
    (e : TreeError) {turns : Nat} (ht : outer.length < turns) :
    Runs (recoverWithin e turns fr.node.id : Action ε InsertError) t.arena
      (.ok (t.recoverAlong e fr.node (outer.map Frame.node)).2)
      (t.recoverAlong e fr.node (outer.map Frame.node)).1.arena := by
  induction outer generalizing fr c turns with
  | nil =>
    obtain _ | turns := turns
    · cases ht
    refine (runs_get _).bind ?_
    rw [cell?_arena_focus hw h, List.map_nil, recoverAlong]
    dsimp only [Cell.ofNode, List.head?_nil, Option.map_none]
    split
    · exact runs_pure _ _
    · exact runs_pure _ _
  | cons up outer ih =>
    obtain _ | turns := turns
    · cases ht
    have hin : t.nodes = plug (up :: outer) (fr.left ++ .node fr.node c fr.right) := h
    refine (runs_get _).bind ?_
    rw [cell?_arena_focus hw h, List.map_cons, recoverAlong]
    dsimp only [Cell.ofNode, List.head?_cons, Option.map_some]
    refine (runs_get _).bind ?_
    rw [cell?_arena_focus hw hin]
    dsimp only [Cell.ofNode]
    split
    · have hcut := runs_truncate (ε := ε) hw e up.node.id fr.node.id
      rcases hr : t.removeFrom up.node.id fr.node.id with cause | u
      · rw [hr] at hcut
        exact hcut
      · rw [hr] at hcut
        exact hcut
    · exact ih hin (by simpa using ht)

theorem length_spine_le (hw : t.WellFormed) (h : t.nodes = plug (fr :: outer) c) :
    outer.length < t.nextId := by
  have hsub : ((fr :: outer).map fun g => g.node.id) ⊆ t.ids := by
    intro id hid
    obtain ⟨g, hg, rfl⟩ := List.mem_map.mp hid
    rw [ids, h]
    exact List.mem_map_of_mem (mem_preorder_plug hg c)
  have hlen := ((spine_nodup hw.nodup h).subperm hsub).length_le
  rw [List.length_map] at hlen
  exact hlen.trans hw.length_ids_le

theorem runs_recover {ε : Type} (hw : t.WellFormed) (e : TreeError) (id : NodeId) :
    Runs (Arena.recover e id : Action ε InsertError) t.arena (.ok (t.recover e id).2)
      (t.recover e id).1.arena := by
  refine (runs_get _).bind ?_
  rw [size_slots_arena, recover]
  cases hg : t.get? id with
  | none =>
    rw [lineage_eq_nil hg]
    refine (runs_get _).bind ?_
    rw [cell?_arena hw, cell?_eq_none hg]
    exact runs_pure _ _
  | some n =>
    obtain ⟨left, right, outer, c, h, rfl⟩ := exists_spine_of_get? hg
    have hrun := runs_recoverWithin (ε := ε) hw h e (Nat.lt_succ_of_lt (length_spine_le hw h))
    have hlineage := lineage_focus hw.nodup h
    dsimp only at hrun hlineage
    rw [hlineage]
    exact hrun

/-! ## Insertion -/

theorem runs_finish (hw : t.WellFormed) (closed next : NodeId) :
    Runs (Arena.finish closed next) t.arena (t.finish closed next).2
      (t.finish closed next).1.arena := by
  have hsetup := runs_setupAsParent hw closed
  have hwu := (setupAsParent_edits t closed).wellFormed hw
  rw [finish]
  rcases hs : t.setupAsParent closed with ⟨u, e | _⟩
  · rw [hs] at hsetup hwu
    exact hsetup.outcome.bind ((runs_recover hwu e closed).bind (runs_throw _ _))
  · rw [hs] at hsetup
    exact hsetup.outcome.bind (runs_pure _ _)

theorem runs_close (hw : t.WellFormed) (hn : t.get? n.id = some n) (item : Item) (closing : Brace) :
    Runs (Arena.close n.id item closing) t.arena (t.close n item closing).2
      (t.close n item closing).1.arena := by
  obtain ⟨left, right, outer, c, h, -⟩ := exists_spine_of_get? hn
  have hcell := (runs_cell_node hw hn).stage_fatal
  have hparent := parent?_focus hw.nodup h
  dsimp only at hparent
  rw [hparent] at hcell
  refine hcell.bind ?_
  rw [close, hparent]
  cases outer with
  | nil => exact runs_throw _ _
  | cons up outer =>
    dsimp only [List.head?_cons, Option.map_some, Cell.ofNode]
    cases ho : n.kind.brace?.filter Brace.isOpening with
    | none => exact runs_throw _ _
    | some opening =>
      dsimp only
      split
      · exact runs_throw _ _
      split
      · next hgroup =>
        have helide := runs_elide hw h
        have hedit : ∀ r, t.elide n.id = .ok r → Edit t r.1 := fun r hr =>
          .elide hn (Option.filter_eq_some_iff.mp ho).1 hgroup (by rw [hparent]; rfl) hr
        rcases he : t.elide n.id with e | ⟨u, first⟩
        · rw [he] at helide
          exact helide.fatal.bind_error
        · rw [he] at helide
          exact helide.fatal.bind (runs_finish ((hedit _ he).wellFormed hw) first up.node.id)
      · exact runs_finish hw n.id up.node.id

theorem runs_insert (hw : t.WellFormed) (focus : NodeId) (item : Item) :
    Runs (Arena.insert focus item) t.arena (t.insert focus item).2
      (t.insert focus item).1.arena := by
  refine (runs_get _).bind ?_
  rw [contains_arena hw, insert, contains]
  cases hn : t.get? focus with
  | none => exact runs_throw _ _
  | some n =>
    obtain rfl := id_of_get? hn
    rw [Option.isSome_some, Bool.not_true, if_neg Bool.false_ne_true]
    cases hb : item.kind.brace? with
    | none => exact (runs_attach hw hn (by simp [hb])).bind (runs_pure _ _)
    | some b =>
      dsimp only
      split
      · next ho => exact runs_attach hw hn (by simpa [hb] using ho)
      · exact runs_close hw hn item b

end BracketTree.Tree
