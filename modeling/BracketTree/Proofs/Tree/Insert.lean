import BracketTree.Proofs.Tree.Reachable
import BracketTree.Proofs.Tree.Recover

/-! Insertion, given the spine of the focus. An item enters under the focus, or it closes the focus,
or it is refused and nothing changes; the setup of a closed bracket succeeds or is recovered. -/

namespace BracketTree.Tree
open Forest
set_option autoImplicit false

/-- The node that `item` becomes under the node `focus`. -/
def entrant (t : Tree) (focus : Node) (item : Item) : Node where
  toItem := item
  id := t.nextId
  scope := if item.kind.isBlock then some t.scopes.size else none
  inherited := focus.enclosing
  marks := ⟨true, false, false, false⟩

variable {t : Tree} {fr up : Frame Node} {outer : List (Frame Node)} {c : Forest Node}

theorem attach_focus (hw : t.WellFormed) (h : t.nodes = plug (fr :: outer) c) {item : Item}
    (hitem : ∀ b, item.kind.brace? = some b → b.isOpening = true) :
    (t.attach fr.node item).nodes =
      plug (fr :: outer) (c ++ .leaf (t.entrant fr.node item)) := by
  have hu := hw.append (get?_focus hw.nodup h) hitem
  have hnodes : (t.append fr.node.id item).nodes =
      plug (⟨c, .fresh t.nextId item, .nil⟩ :: fr :: outer) .nil :=
    nodes_append_focus hw.nodup h item
  rw [attach, enterScope]
  split
  · next hb =>
    refine (nodes_modify_focus hu.nodup hnodes _).trans ?_
    rw [entrant, if_pos hb]
    rfl
  · next hb =>
    refine (nodes_modify_focus hu.nodup hnodes _).trans ?_
    rw [entrant, if_neg hb]
    rfl

/-- The bracket `n` may be closed: the shapes agree, and a grouping bracket has a first child that
can take its place. -/
def Closable (n : Node) (below : Forest Node) (closing : Brace) : Prop :=
  ∃ opening, n.kind.brace? = some opening ∧ opening.closedBy closing = true ∧
    (opening.isGrouping = true → ∃ first rest, below = .node first .nil rest)

inductive Closes (t : Tree) (fr up : Frame Node) (outer : List (Frame Node)) (c : Forest Node)
    (closing : Brace) : Tree × Except InsertError NodeId → Prop where
  | keep {opening : Brace} : fr.node.kind.brace? = some opening →
      opening.closedBy closing = true → opening.isGrouping = false →
      Closes t fr up outer c closing (t.finish fr.node.id up.node.id)
  | elide {opening : Brace} {first : Node} {rest : Forest Node} :
      fr.node.kind.brace? = some opening → opening.closedBy closing = true →
      opening.isGrouping = true → c = .node first .nil rest →
      Closes t fr up outer c closing
        ({ t with nodes := plug (⟨fr.left, first, fr.right⟩ :: up :: outer) rest }.finish
          first.id up.node.id)
  | refuse {e : StructureError} : ¬Closable fr.node c closing →
      Closes t fr up outer c closing (t, .error (.fatal (.shape e)))

theorem not_closable {n : Node} {opening closing : Brace} (ho : n.kind.brace? = some opening)
    (hc : opening.closedBy closing ≠ true) : ¬Closable n c closing := by
  rintro ⟨o, ho', hc', -⟩
  cases ho.symm.trans ho'
  exact hc hc'

theorem not_closable_group {n : Node} {opening closing : Brace}
    (ho : n.kind.brace? = some opening) (hg : opening.isGrouping = true)
    (hfirst : ∀ first rest, c ≠ .node first .nil rest) : ¬Closable n c closing := by
  rintro ⟨o, ho', -, hc⟩
  cases ho.symm.trans ho'
  obtain ⟨first, rest, he⟩ := hc hg
  exact hfirst first rest he

theorem close_focus (hn : t.ids.Nodup) (h : t.nodes = plug (fr :: up :: outer) c) (item : Item)
    (closing : Brace) : Closes t fr up outer c closing (t.close fr.node item closing) := by
  have hp : t.parent? fr.node.id = some up.node := parent?_focus hn h
  rw [close, hp]
  cases ho : fr.node.kind.brace? with
  | none => exact .refuse (by simp [Closable, ho])
  | some opening =>
    by_cases hc : opening.closedBy closing = true
    · have hside := (Brace.isOpening_of_closedBy hc).1
      simp only [Option.filter_some, hside, if_true, hc, Bool.not_true, Bool.false_eq_true,
        if_false]
      split
      · next hg =>
        -- elision looks at the first child and at what stands under it
        rcases c with _ | ⟨first, _ | _, rest⟩
        · rw [elide_nil hn h]
          apply Closes.refuse
          apply not_closable_group ho hg
          intro first rest he
          cases he
        · rw [elide_node hn h]
          exact .elide ho hc hg rfl
        · rw [elide_of_children hn h (by simp)]
          apply Closes.refuse
          apply not_closable_group ho hg
          intro first rest he
          cases he
      · next hg => exact .keep ho hc (Bool.eq_false_iff.mpr hg)
    · cases hside : opening.isOpening with
      | true =>
        simp only [Option.filter_some, hside, if_true, hc, Bool.not_false]
        exact .refuse (not_closable ho hc)
      | false =>
        simp only [Option.filter_some, hside]
        exact .refuse (not_closable ho hc)

/-- At a live focus only a closing bracket can fail. -/
theorem closing_of_insert_error {u : Tree} {focus : NodeId} {n : Node} {item : Item} {x : InsertError}
    (hg : t.get? focus = some n) (h : t.insert focus item = (u, .error x)) :
    ∃ b, item.kind.brace? = some b ∧ b.isOpening = false ∧ t.close n item b = (u, .error x) := by
  cases hb : item.kind.brace? with
  | none => simp [insert, hg, hb] at h
  | some b =>
    cases ho : b.isOpening with
    | true => simp [insert, hg, hb, ho] at h
    | false =>
      rw [insert, hg, hb] at h
      dsimp only at h
      rw [ho] at h
      exact ⟨b, rfl, ho, h⟩

theorem insert_closing (hn : t.ids.Nodup) (h : t.nodes = plug (fr :: up :: outer) c) {item : Item}
    {b : Brace} (hi : item.kind.brace? = some b) (hb : b.isOpening = false) :
    Closes t fr up outer c b (t.insert fr.node.id item) := by
  rw [insert, get?_focus hn h, hi]
  dsimp only
  rw [hb]
  exact close_focus hn h item b

inductive Finishes (t : Tree) (fr : Frame Node) (outer : List (Frame Node)) (c : Forest Node)
    (next : NodeId) : Tree × Except InsertError NodeId → Prop where
  | ok {u : Tree} : t.setupAsParent fr.node.id = (u, .ok ()) → Finishes t fr outer c next (u, .ok next)
  | atRoot {g : Node → Node} {e : TreeError} : Remarks g →
      t.setupAsParent fr.node.id =
        ({ t with nodes := plug (⟨fr.left, g fr.node, fr.right⟩ :: outer) (c.map g) }, .error e) →
      nearestBlock fr.left outer = none →
      Finishes t fr outer c next
        ({ t with nodes := plug (⟨fr.left, g fr.node, fr.right⟩ :: outer) (c.map g) },
          .error (.recovered e rootId))
  | atBlock {u : Tree} {e : TreeError} {kept : Forest Node} {block : Frame Node}
      {rest : List (Frame Node)} : t.setupAsParent fr.node.id = (u, .error e) →
      nearestBlock fr.left outer = some (kept, block, rest) →
      Finishes t fr outer c next
        ({ t with nodes := plug (block :: rest) kept }, .error (.recovered e block.node.id))

theorem finish_focus (hw : t.WellFormed) (h : t.nodes = plug (fr :: outer) c) (next : NodeId) :
    Finishes t fr outer c next (t.finish fr.node.id next) := by
  obtain ⟨g, hg, hu⟩ := setupAsParent_focus hw.nodup h
  have hwu : (t.setupAsParent fr.node.id).1.WellFormed :=
    (setupAsParent_edits t fr.node.id).wellFormed hw
  rw [finish]
  rcases hs : t.setupAsParent fr.node.id with ⟨u, e | _⟩
  · rw [hs] at hu hwu
    dsimp only at hu hwu ⊢
    subst hu
    have hr := @recover_focus _ ⟨fr.left, g fr.node, fr.right⟩ outer _ hwu rfl e
    rw [hg.id] at hr
    rw [hr]
    cases hb : nearestBlock fr.left outer with
    | none => exact .atRoot hg hs hb
    | some r =>
      obtain ⟨kept, block, rest⟩ := r
      exact .atBlock hs hb
  · exact .ok hs

/-- The tree in which the first child has taken the place of its group. -/
theorem WellFormed.elided {first : Node} {rest : Forest Node} (hw : t.WellFormed)
    (h : t.nodes = plug (fr :: up :: outer) (.node first .nil rest)) :
    { t with nodes := plug (⟨fr.left, first, fr.right⟩ :: up :: outer) rest }.WellFormed := by
  have hp : (t.parent? fr.node.id).isSome = true := by
    rw [parent?_focus hw.nodup h]
    rfl
  exact hw.elide (get?_focus hw.nodup h) hp (elide_node hw.nodup h)

theorem finish_elided {first : Node} {rest : Forest Node} (hw : t.WellFormed)
    (h : t.nodes = plug (fr :: up :: outer) (.node first .nil rest)) (next : NodeId) :
    Finishes { t with nodes := plug (⟨fr.left, first, fr.right⟩ :: up :: outer) rest }
      ⟨fr.left, first, fr.right⟩ (up :: outer) rest next
      ({ t with nodes := plug (⟨fr.left, first, fr.right⟩ :: up :: outer) rest }.finish
        first.id next) :=
  @finish_focus _ ⟨fr.left, first, fr.right⟩ (up :: outer) rest (hw.elided h) rfl next

/-- After a recovery work goes on at a node outside the closed bracket, and nothing around that node
has changed. -/
theorem Finishes.recovered {next : NodeId} {u : Tree} {x : InsertError} (hw : t.WellFormed)
    (h : t.nodes = plug (fr :: up :: outer) c)
    (hf : Finishes t fr (up :: outer) c next (u, .error x)) :
    ∃ e skipped resumed rest d, x = .recovered e resumed.node.id ∧
      up :: outer = skipped ++ resumed :: rest ∧ u.nodes = plug (resumed :: rest) d := by
  cases hf with
  | @atRoot g e hg hs hb =>
    have h' : t.nodes = plug (up :: outer) (fr.left ++ .node fr.node c fr.right) := h
    obtain ⟨inner, r, hspine, hid, -⟩ := hw.spine_eq h' (by simp)
    refine ⟨e, inner, ⟨.nil, r, .nil⟩, [], ?_, by rw [hid], hspine, ?_⟩
    · exact plug (⟨fr.left, g fr.node, fr.right⟩ :: inner) (c.map g)
    · dsimp only
      rw [hspine, ← List.cons_append, plug_append]
  | @atBlock u' e kept block rest hs hb =>
    obtain ⟨-, skipped, hspine⟩ := nearestBlock_eq_some hb
    exact ⟨e, skipped, block, rest, kept, rfl, hspine, rfl⟩

theorem Finishes.accepted {next id : NodeId} {u : Tree} (hn : t.ids.Nodup)
    (h : t.nodes = plug (fr :: up :: outer) c)
    (hf : Finishes t fr (up :: outer) c next (u, .ok id)) :
    id = next ∧ ∃ d, u.nodes = plug (up :: outer) d := by
  cases hf with
  | ok hs =>
    obtain ⟨g, -, hu⟩ := setupAsParent_focus hn h
    rw [hs] at hu
    refine ⟨rfl, fr.left ++ .node (g fr.node) (c.map g) fr.right, ?_⟩
    exact congrArg nodes hu

inductive Inserts (t : Tree) (fr : Frame Node) (outer : List (Frame Node)) (c : Forest Node)
    (item : Item) : Tree × Except InsertError NodeId → Prop where
  | stay {u : Tree} : item.kind.brace? = none →
      u.nodes = plug (fr :: outer) (c ++ .leaf (t.entrant fr.node item)) →
      Inserts t fr outer c item (u, .ok fr.node.id)
  | descend {b : Brace} {u : Tree} : item.kind.brace? = some b → b.isOpening = true →
      u.nodes = plug (⟨c, t.entrant fr.node item, .nil⟩ :: fr :: outer) .nil →
      Inserts t fr outer c item (u, .ok t.nextId)
  | ascend {b : Brace} {up : Frame Node} {around : List (Frame Node)} {u : Tree}
      {d : Forest Node} : item.kind.brace? = some b → b.isOpening = false →
      outer = up :: around → u.nodes = plug (up :: around) d →
      Inserts t fr outer c item (u, .ok up.node.id)
  | resume {b : Brace} {e : TreeError} {skipped rest : List (Frame Node)} {resumed : Frame Node}
      {u : Tree} {d : Forest Node} : item.kind.brace? = some b → b.isOpening = false →
      outer = skipped ++ resumed :: rest → u.nodes = plug (resumed :: rest) d →
      Inserts t fr outer c item (u, .error (.recovered e resumed.node.id))
  | refuse {b : Brace} {e : TreeError} : item.kind.brace? = some b → b.isOpening = false →
      Inserts t fr outer c item (t, .error (.fatal e))

theorem Finishes.inserts {fr' : Frame Node} {c' : Forest Node} {t' : Tree} {item : Item} {b : Brace}
    {r : Tree × Except InsertError NodeId} (hw : t'.WellFormed)
    (h : t'.nodes = plug (fr' :: up :: outer) c') (hb : item.kind.brace? = some b)
    (hclosing : b.isOpening = false) (hf : Finishes t' fr' (up :: outer) c' up.node.id r) :
    Inserts t fr (up :: outer) c item r := by
  obtain ⟨u, x | id⟩ := r
  · obtain ⟨e, skipped, resumed, rest, d, rfl, hs, hu⟩ := hf.recovered hw h
    exact .resume hb hclosing hs hu
  · obtain ⟨rfl, d, hu⟩ := hf.accepted hw.nodup h
    exact .ascend hb hclosing rfl hu

theorem insert_focus (hw : t.WellFormed) (h : t.nodes = plug (fr :: outer) c) (item : Item) :
    Inserts t fr outer c item (t.insert fr.node.id item) := by
  have hget := get?_focus hw.nodup h
  rw [insert, hget]
  cases hb : item.kind.brace? with
  | none => exact .stay hb (attach_focus hw h (by simp [hb]))
  | some b =>
    dsimp only
    cases ho : b.isOpening with
    | true => exact .descend hb ho (attach_focus hw h (by simpa [hb] using ho))
    | false =>
      cases outer with
      | nil =>
        rw [close, parent?_focus hw.nodup h]
        exact .refuse hb ho
      | cons up outer =>
        have hc := close_focus hw.nodup h item b
        generalize hr : t.close fr.node item b = r at hc
        cases hc with
        | keep _ _ _ => exact (finish_focus hw h _).inserts hw h hb ho
        | @elide _ first rest hk _ hg he =>
          subst he
          exact (finish_elided hw h up.node.id).inserts (hw.elided h) rfl hb ho
        | refuse _ => exact .refuse hb ho

end BracketTree.Tree
