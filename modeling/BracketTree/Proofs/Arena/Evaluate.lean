import BracketTree.Proofs.Arena.Setup

/-! Evaluation on the table of a tree. The evaluator sees the table where on the tree it would see the tree,
and is called for the same nodes, in the same order, with the same states. -/

namespace BracketTree
open Forest Arena
set_option autoImplicit false

variable {σ : Type}

/-- The evaluator of a tree that shows the table of the tree to an evaluator of tables. -/
def Arena.Evaluator.onTree (ev : Arena.Evaluator σ) : BracketTree.Evaluator σ :=
  ⟨fun t id s => ev.hook t.arena id s⟩

namespace Tree

variable {t u : Tree} {f : Forest Node} {n : Node}

/-! ## One node -/

theorem runs_callHook (ev : Arena.Evaluator σ) (t : Tree) (id : NodeId) (s : σ) :
    Runs (callHook ev id) (t.arena, s) ((ev.onTree.hook t id s).2.mapError .hook)
      (t.arena, (ev.onTree.hook t id s).1) := rfl

theorem runs_markEvaluated (hw : t.WellFormed) {id : NodeId} (h : t.contains id = true) (s : σ) :
    Runs (onTable (update id fun c => { c with marks.evaluated := true })) (t.arena, s) (.ok ())
      ((t.modify id .markEvaluated).arena, s) := by
  have hmark : Mirrors .markEvaluated (fun c => { c with marks.evaluated := true }) :=
    mirrors_marks fun m => { m with evaluated := true }
  exact (runs_update_modify hw hmark h).stage.onTable s

section OneNode
variable (ev : Arena.Evaluator σ) (depth : Nat) (hw : t.WellFormed) (hget : t.get? n.id = some n) (s : σ)
include hw hget

theorem runs_evaluated (hev : n.marks.evaluated = true) :
    Runs (evaluateWithin ev (depth + 1) n.id) (t.arena, s)
      (.error (.stage (.alreadyEvaluated (t.print n.id)))) (t.arena, s) := by
  refine ((runs_cell_node hw hget).stage.onTable s).bind ?_
  dsimp only [Cell.ofNode]
  rw [if_pos hev]
  exact (runs_refuse hw _ _).onTable s

theorem runs_unready_under_root (hev : ¬n.marks.evaluated = true) (hready : (!n.marks.ready) = true)
    (hp : (t.parent? n.id).map Node.id = some rootId) :
    Runs (evaluateWithin ev (depth + 1) n.id) (t.arena, s) (.ok ()) (t.arena, s) := by
  refine ((runs_cell_node hw hget).stage.onTable s).bind ?_
  dsimp only [Cell.ofNode]
  rw [if_neg hev, if_pos hready, if_pos hp]
  exact runs_pure _ _

theorem runs_unready (hev : ¬n.marks.evaluated = true) (hready : (!n.marks.ready) = true)
    (hp : (t.parent? n.id).map Node.id ≠ some rootId) :
    Runs (evaluateWithin ev (depth + 1) n.id) (t.arena, s)
      (.error (.stage (.evaluateBeforeSetup (t.print n.id)))) (t.arena, s) := by
  refine ((runs_cell_node hw hget).stage.onTable s).bind ?_
  dsimp only [Cell.ofNode]
  rw [if_neg hev, if_pos hready, if_neg hp]
  exact (runs_refuse hw _ _).onTable s

/-- The children of a ready node come first, then the call of the hook, then the mark. -/
theorem runs_ready (hev : ¬n.marks.evaluated = true) (hready : ¬(!n.marks.ready) = true)
    {r : Except TreeError Unit} {q : Arena × σ} (hrest : Runs (do
      (t.children n.id).forM (evaluateWithin ev depth)
      callHook ev n.id
      onTable (update n.id fun c => { c with marks.evaluated := true })) (t.arena, s) r q) :
    Runs (evaluateWithin ev (depth + 1) n.id) (t.arena, s) r q := by
  refine ((runs_cell_node hw hget).stage.onTable s).bind ?_
  dsimp only [Cell.ofNode]
  rw [if_neg hev, if_neg hready]
  exact hrest

end OneNode

/-! ## A part of the tree -/

/-- What an evaluation over a part of the tree leaves as it was. -/
theorem evaluateForest_beside (ev : BracketTree.Evaluator σ) (lenient : Bool) (hf : t.Standing f)
    (hn : (f.preorder.map Node.id).Nodup) (s : σ) :
    (∀ j, j ∉ f.preorder.map Node.id →
      (evaluateForest ev lenient f t s).tree.get? j = t.get? j) ∧
    (∀ j, (evaluateForest ev lenient f t s).tree.children j = t.children j) ∧
    Edits t (evaluateForest ev lenient f t s).tree := by
  have hplain := congrArg Evaluation.tree (evaluateForest_recorded ev lenient f t ([], s))
  have hsweep := evaluateForest_sweep ev lenient ([], s) hf hn
  obtain ⟨calls, -, hcalls⟩ := hsweep.calls
  rw [← hplain]
  exact ⟨hsweep.beside, hcalls.children, hcalls.edits⟩

/-- A part of the tree that is still to be evaluated: some siblings with all that is under them. An
evaluation under the root is the lenient one. -/
structure Upcoming (t : Tree) (lenient : Bool) (f : Forest Node) : Prop where
  standing : t.Standing f
  nodup : (f.preorder.map Node.id).Nodup
  under_root : ∀ m ∈ f.roots, (t.parent? m.id).map Node.id = some rootId ↔ lenient = true

section Upcoming
variable {lenient : Bool} {c rest : Forest Node}

theorem Upcoming.live (h : t.Upcoming lenient (.node n c rest)) : t.get? n.id = some n :=
  h.standing.1.1

theorem Upcoming.next (h : t.Upcoming lenient (.node n c rest)) : t.Upcoming lenient rest where
  standing := h.standing.2.2
  nodup := by
    have hn := h.nodup
    simp only [preorder_node, List.map_cons, List.map_append, List.nodup_cons, List.nodup_append] at hn
    exact hn.2.2.1
  under_root := fun m hm => h.under_root m (List.mem_cons_of_mem n hm)

/-- What stands under a node other than the root. -/
theorem Upcoming.inner (h : t.Upcoming lenient (.node n c rest)) (hw : t.WellFormed)
    (hroot : n.id ≠ rootId) : t.Upcoming false c where
  standing := h.standing.2.1
  nodup := by
    have hn := h.nodup
    simp only [preorder_node, List.map_cons, List.map_append, List.nodup_cons, List.nodup_append] at hn
    exact hn.2.1
  under_root := by
    intro m hm
    have hp : (t.parent? m.id).map Node.id = some n.id :=
      parent?_of_mem_children hw.nodup (h.standing.1.2 ▸ List.mem_map_of_mem hm)
    simp [hp, hroot]

/-- The siblings of a node that has been evaluated stand as before: they are neither under the node nor
the node itself. -/
theorem Upcoming.later (h : t.Upcoming lenient (.node n c rest)) (hn : t.ids.Nodup)
    (hbeside : ∀ j, j ∉ c.preorder.map Node.id → u.get? j = t.get? j)
    (hlists : ∀ j, u.children j = t.children j) (hnu : (u.modify n.id .markEvaluated).ids.Nodup) :
    (u.modify n.id .markEvaluated).Upcoming lenient rest := by
  have hkept : ∀ j, (u.modify n.id .markEvaluated).children j = t.children j := fun j => by
    rw [children_modify (f := .markEvaluated) fun _ => rfl, hlists]
  have hids := h.nodup
  simp only [preorder_node, List.map_cons, List.map_append, List.nodup_cons, List.mem_append, not_or,
    List.nodup_append] at hids
  obtain ⟨⟨-, hnrest⟩, -, hrest, hapart⟩ := hids
  refine ⟨Standing.of_same h.next.standing (fun m hm => ?_) hkept, hrest, fun m hm => ?_⟩
  · have hid := List.mem_map_of_mem (f := Node.id) hm
    have hne : n.id ≠ m.id := fun he => hnrest (he ▸ hid)
    rw [get?_modify_of_ne (f := .markEvaluated) (fun _ => rfl) u hne]
    exact hbeside m.id fun hmc => hapart _ hmc _ hid rfl
  · rw [← h.next.under_root m hm, map_id_parent?_eq_some_iff hnu, map_id_parent?_eq_some_iff hn, hkept]

end Upcoming

/-- The nodes of a part of the tree are evaluated within a depth that is its size at least. -/
theorem runs_evaluateForest (ev : Arena.Evaluator σ) (lenient : Bool) (h : t.Orderly) (s : σ)
    (hf : t.Upcoming lenient f) {depth : Nat} (hd : f.size ≤ depth) :
    Runs ((f.roots.map Node.id).forM (evaluateWithin ev depth)) (t.arena, s)
      (evaluateForest ev.onTree lenient f t s).result
      ((evaluateForest ev.onTree lenient f t s).tree.arena,
        (evaluateForest ev.onTree lenient f t s).state) := by
  induction f generalizing lenient t s depth with
  | nil => exact runs_pure _ _
  | node n c rest hc hrest =>
    have hw := h.wellFormed
    obtain _ | depth := depth
    · cases hd
    rw [Forest.size] at hd
    have hdeep : c.size ≤ depth := by omega
    have hwide : rest.size ≤ depth + 1 := by omega
    have hparent := hf.under_root n List.mem_cons_self
    rw [evaluateForest, roots_node, List.map_cons]
    split
    · next hev => exact runs_forM_cons_error (runs_evaluated ev depth hw hf.live s hev)
    next hev =>
    split
    · next hready =>
      split
      · next hlenient =>
        have hskip := runs_unready_under_root ev depth hw hf.live s hev hready (hparent.mpr hlenient)
        exact runs_forM_cons hskip (hrest lenient h s hf.next hwide)
      · next hlenient =>
        have hstop : (t.parent? n.id).map Node.id ≠ some rootId := fun hp => hlenient (hparent.mp hp)
        exact runs_forM_cons_error (runs_unready ev depth hw hf.live s hev hready hstop)
    next hready =>
    have hroot : n.id ≠ rootId :=
      h.ne_rootId_of_ready (mem_of_get? hf.live) (by simpa using hready)
    have hinner := hf.inner hw hroot
    have hrun := hc false h s hinner hdeep
    obtain ⟨hbeside, hlists, hedits⟩ := evaluateForest_beside ev.onTree false hinner.standing hinner.nodup s
    rw [← hf.standing.1.2] at hrun
    rcases he : evaluateForest ev.onTree false c t s with ⟨u, s', e | _⟩
    · rw [he] at hrun
      exact runs_forM_cons_error (runs_ready ev depth hw hf.live s hev hready hrun.bind_error)
    rw [he] at hrun hbeside hlists hedits
    dsimp only at hrun hbeside hlists hedits ⊢
    have hcall := runs_callHook ev u n.id s'
    rcases hh : ev.onTree.hook u n.id s' with ⟨s'', e | _⟩
    · rw [hh] at hcall
      exact runs_forM_cons_error
        (runs_ready ev depth hw hf.live s hev hready (hrun.bind hcall.bind_error))
    rw [hh] at hcall
    have hord := hedits.orderly h
    have hself : n.id ∉ c.preorder.map Node.id := by
      have hids := (List.nodup_cons.mp hf.nodup).1
      rw [List.map_append] at hids
      exact fun hid => hids (List.mem_append_left _ hid)
    have hgetu : u.get? n.id = some n := (hbeside n.id hself).trans hf.live
    have hmark := runs_markEvaluated hord.wellFormed (Option.isSome_of_eq_some hgetu) s''
    have hnode := runs_ready ev depth hw hf.live s hev hready (hrun.bind (hcall.bind hmark))
    have hordv := (Edit.evaluate hgetu (.inl (by simpa using hready))).orderly hord
    have hlater := hf.later hw.nodup hbeside hlists hordv.wellFormed.nodup
    exact runs_forM_cons hnode (hrest lenient hordv s'' hlater hwide)

/-! ## Nodes and programs -/

theorem runs_evaluateNode (ev : Arena.Evaluator σ) (h : t.Orderly) (id : NodeId) (s : σ) :
    Runs (Arena.evaluateNode ev id) (t.arena, s) (t.evaluateNode ev.onTree id s).result
      ((t.evaluateNode ev.onTree id s).tree.arena, (t.evaluateNode ev.onTree id s).state) := by
  have hw := h.wellFormed
  refine ((runs_get t.arena).onTable s).bind ?_
  rw [size_slots_arena, evaluateNode]
  cases hg : t.get? id with
  | none =>
    have hsub : t.subtree? id = none := find?_eq_none_of_get? hg
    rw [hsub]
    exact ((runs_cell_dead hw hg).stage.onTable s).bind_error
  | some m =>
    obtain ⟨⟨n, c⟩, hsub, rfl⟩ := Option.map_eq_some_iff.mp hg
    obtain ⟨rfl, hstanding, hnodup⟩ := standing_subtree hw.nodup hsub
    have hsize : (Forest.node n c .nil).size ≤ t.nextId + 1 := by
      have hbelow := hw.size_below_le n.id
      rw [below, hsub] at hbelow
      simpa [Forest.size] using hbelow
    have hunder : ∀ m ∈ (Forest.node n c .nil).roots, (t.parent? m.id).map Node.id = some rootId ↔
        (t.parent? n.id).any (Node.hasId rootId) = true := by
      intro m hm
      obtain rfl := List.mem_singleton.mp hm
      cases t.parent? m.id <;> simp
    have hrun := runs_evaluateForest ev _ h s ⟨hstanding, hnodup, hunder⟩ hsize
    rw [hsub]
    exact hrun.of_singleton

theorem runs_evaluateProgram (ev : Arena.Evaluator σ) (h : t.Orderly) (s : σ) :
    Runs (Arena.evaluateProgram ev) (t.arena, s) (t.evaluateProgram ev.onTree s).result
      ((t.evaluateProgram ev.onTree s).tree.arena, (t.evaluateProgram ev.onTree s).state) := by
  have hw := h.wellFormed
  obtain ⟨r, -, hr, -⟩ := h.rootMarks
  refine ((runs_cell_node hw hr).stage.onTable s).bind ?_
  rw [evaluateProgram, hr, Option.any_some]
  change Runs (if r.marks.evaluated then _ else _) _ _ _
  split
  · exact (runs_refuse hw _ _).onTable s
  refine ((runs_get t.arena).onTable s).bind ?_
  rw [children_arena hw, size_slots_arena, children]
  have hunder : ∀ m ∈ (t.below rootId).roots,
      (t.parent? m.id).map Node.id = some rootId ↔ true = true := by
    intro m hm
    simpa using parent?_of_mem_children hw.nodup (List.mem_map_of_mem (f := Node.id) hm)
  have hstanding := standing_below hw.nodup rootId
  have hnodup := (nodup_below hw.nodup rootId).of_cons
  have hsize := Nat.le_succ_of_le (hw.size_below_le rootId)
  have hrun := runs_evaluateForest ev true h s ⟨hstanding, hnodup, hunder⟩ hsize
  obtain ⟨-, -, hedits⟩ := evaluateForest_beside ev.onTree true hstanding hnodup s
  rcases he : evaluateForest ev.onTree true (t.below rootId) t s with ⟨u, s', e | _⟩
  · rw [he] at hrun
    exact hrun.bind_error
  · rw [he] at hrun hedits
    have hwu := (hedits.orderly h).wellFormed
    exact hrun.bind (runs_markEvaluated hwu hwu.coherent.root_live s')

end Tree
end BracketTree
