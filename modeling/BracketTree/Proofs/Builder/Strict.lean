import BracketTree.Builder
import BracketTree.Proofs.Builder.Stack
import BracketTree.Proofs.Tree.Insert

/-! Building without recovery. As long as nothing has failed, the tree under construction is a stack
of open brackets, and each insertion advances that stack. -/

namespace BracketTree
open Forest
set_option autoImplicit false

/-- The stages were passed in order, and a node that is set up fits what stands under it. -/
structure Node.Sound (n : Node) (below : Forest Node) : Prop where
  inOrder : n.marks.InOrder
  fits : n.marks.setup = true → n.toItem.Fits (below.map Node.toItem)

namespace Node

theorem Sound.fits_of_passes {n : Node} {below : Forest Node} (h : n.Sound below)
    (hp : n.Passes below) : n.toItem.Fits (below.map Node.toItem) := by
  rcases hp with hs | hf
  · exact h.fits hs
  · exact hf

theorem Sound.settle {n : Node} {below : Forest Node} (h : n.Sound below)
    (hf : n.toItem.Fits (below.map Node.toItem)) : n.settle.Sound below := by
  refine ⟨?_, fun _ => by rw [settle_toItem]; exact hf⟩
  rw [Node.settle]
  split
  · exact h.inOrder
  · exact ⟨h.inOrder.initialized, fun _ => rfl, fun _ => rfl⟩

theorem tops_passes_iff {c : Forest Node} (h : c.Everywhere Sound) :
    c.Tops Passes ↔ (c.map Node.toItem).Tops Item.Fits := by
  rw [tops_map]
  constructor
  · intro hp
    exact (h.tops.and hp).imp fun n d hn => hn.1.fits_of_passes hn.2
  · intro hf
    exact hf.imp fun n d hn => .inr hn

theorem everywhere_settle {c : Forest Node} (h : c.Everywhere Sound) (hp : c.Tops Passes) :
    (c.mapRoots settle).Everywhere Sound :=
  h.mapRoots hp fun _ _ hs hn => hs.settle (hs.fits_of_passes hn)

end Node

namespace Tree

structure OpenLevel (fr : Frame Node) : Prop where
  last : fr.right = .nil
  inOrder : fr.node.id = rootId ∨ fr.node.marks.InOrder
  left : fr.left.Everywhere Node.Sound

/-- A tree under construction: everything inside the open brackets `spine` is sound. -/
structure Strict (t : Tree) (spine : List (Frame Node)) (c : Forest Node) : Prop where
  wellFormed : t.WellFormed
  nodes : t.nodes = plug spine c
  levels : ∀ fr ∈ spine, OpenLevel fr
  contents : c.Everywhere Node.Sound

/-- What a tree under construction is without ids, scopes and marks. -/
def stackOf (spine : List (Frame Node)) (c : Forest Node) : Item.Stack :=
  ⟨spine.map (Frame.map Node.toItem), c.map Node.toItem⟩

variable {t u : Tree} {fr up : Frame Node} {outer : List (Frame Node)} {c : Forest Node}

theorem sound_entrant (t : Tree) (focus : Node) (item : Item) :
    (t.entrant focus item).Sound .nil := by
  refine ⟨⟨rfl, ?_, ?_⟩, ?_⟩
  · intro h
    cases h
  · intro h
    cases h
  · intro h
    cases h

theorem Strict.inOrder (h : Strict t (fr :: up :: outer) c) : fr.node.marks.InOrder := by
  refine (h.levels fr (List.mem_cons_self ..)).inOrder.resolve_left ?_
  rw [h.wellFormed.id_eq_rootId_iff h.nodes]
  exact List.cons_ne_nil up outer

theorem Strict.leaf (h : Strict t (fr :: outer) c) {item : Item} (hi : item.kind.brace? = none) :
    ∃ u n, t.insert fr.node.id item = (u, .ok fr.node.id) ∧ n.toItem = item ∧
      Strict u (fr :: outer) (c ++ .leaf n) := by
  have hget := get?_focus h.wellFormed.nodup h.nodes
  have hins : t.insert fr.node.id item = (t.attach fr.node item, .ok fr.node.id) := by
    rw [insert, hget, hi]
  have hw := (insert_edits t fr.node.id item).wellFormed h.wellFormed
  rw [hins] at hw
  refine ⟨_, t.entrant fr.node item, hins, rfl, hw, ?_, h.levels, ?_⟩
  · exact attach_focus h.wellFormed h.nodes (by simp [hi])
  · rw [everywhere_append]
    exact ⟨h.contents, sound_entrant t fr.node item, trivial, trivial⟩

theorem Strict.enter (h : Strict t (fr :: outer) c) {item : Item} {b : Brace}
    (hi : item.kind.brace? = some b) (hb : b.isOpening = true) :
    ∃ u n, t.insert fr.node.id item = (u, .ok n.id) ∧ n.toItem = item ∧
      Strict u (⟨c, n, .nil⟩ :: fr :: outer) .nil := by
  have hget := get?_focus h.wellFormed.nodup h.nodes
  have hins : t.insert fr.node.id item = (t.attach fr.node item, .ok t.nextId) := by
    rw [insert, hget, hi]
    dsimp only
    rw [if_pos hb]
  have hw := (insert_edits t fr.node.id item).wellFormed h.wellFormed
  rw [hins] at hw
  refine ⟨_, t.entrant fr.node item, hins, rfl, hw, ?_, ?_, trivial⟩
  · exact attach_focus h.wellFormed h.nodes (by simpa [hi] using hb)
  · intro g hg
    rcases List.mem_cons.mp hg with rfl | hg
    · exact ⟨rfl, .inr (sound_entrant t fr.node item).inOrder, h.contents⟩
    · exact h.levels g hg

/-! ## Closing -/

/-- The level that closes becomes the last tree of the level around it. -/
def shut (left : Forest Node) (n : Node) (c : Forest Node) : Forest Node :=
  left ++ .node n.settle (c.mapRoots .settle) .nil

theorem map_shut (left : Forest Node) (n : Node) (c : Forest Node) :
    (shut left n c).map Node.toItem =
      left.map Node.toItem ++ .node n.toItem (c.map Node.toItem) .nil := by
  rw [shut, map_append, map_node, map_mapRoots Node.settle_toItem, Node.settle_toItem]
  rfl

/-- The node `n` is about to be set up as the last tree inside the open brackets `spine`. -/
structure Closing (t : Tree) (left : Forest Node) (n : Node) (spine : List (Frame Node))
    (c : Forest Node) : Prop where
  wellFormed : t.WellFormed
  nodes : t.nodes = plug (⟨left, n, .nil⟩ :: spine) c
  levels : ∀ fr ∈ spine, OpenLevel fr
  left : left.Everywhere Node.Sound
  here : n.Sound c
  contents : c.Everywhere Node.Sound

variable {n : Node} {left : Forest Node}

theorem Closing.finish_eq_ok_iff (h : Closing t left n (up :: outer) c) (next id : NodeId) :
    t.finish n.id next = (u, .ok id) ↔ (c.map Node.toItem).Tops Item.Fits ∧
      n.toItem.Fits (c.map Node.toItem) ∧ id = next ∧
      u = { t with nodes := plug (up :: outer) (shut left n c) } := by
  have hsetup := setupAsParent_eq_ok_iff (u := u) h.wellFormed.nodup h.nodes h.here.inOrder
    (h.contents.tops.imp fun _ _ h => h.inOrder)
  have hpass : n.Passes c ↔ n.toItem.Fits (c.map Node.toItem) :=
    ⟨h.here.fits_of_passes, .inr⟩
  have hfinish : t.finish n.id next = (u, .ok id) ↔
      t.setupAsParent n.id = (u, .ok ()) ∧ id = next := by
    rw [finish]
    rcases t.setupAsParent n.id with ⟨v, e | _⟩
    · simp
    · simp [eq_comm]
  rw [hfinish, hsetup, Node.tops_passes_iff h.contents, hpass]
  constructor
  · rintro ⟨⟨htops, hfits, hu⟩, hid⟩
    exact ⟨htops, hfits, hid, hu⟩
  · rintro ⟨htops, hfits, hid, hu⟩
    exact ⟨⟨htops, hfits, hu⟩, hid⟩

theorem Closing.strict (h : Closing t left n (up :: outer) c) {next id : NodeId}
    (hf : t.finish n.id next = (u, .ok id)) : Strict u (up :: outer) (shut left n c) := by
  obtain ⟨htops, hfits, -, hu⟩ := (h.finish_eq_ok_iff next id).mp hf
  have hw := (finish_edits t n.id next).wellFormed h.wellFormed
  rw [hf] at hw
  refine ⟨hw, by rw [hu], h.levels, ?_⟩
  rw [shut, everywhere_append]
  have hpass := (Node.tops_passes_iff h.contents).mpr htops
  refine ⟨h.left, ?_, Node.everywhere_settle h.contents hpass, trivial⟩
  have hn := h.here.settle hfits
  exact ⟨hn.inOrder, by rw [map_mapRoots Node.settle_toItem]; exact hn.fits⟩

theorem Strict.closing_keep (h : Strict t (fr :: up :: outer) c) {opening : Brace}
    (ho : fr.node.kind.brace? = some opening) : Closing t fr.left fr.node (up :: outer) c := by
  have hfr := h.levels fr (List.mem_cons_self ..)
  refine ⟨h.wellFormed, ?_, fun g hg => h.levels g (List.mem_cons_of_mem _ hg), hfr.left,
    ⟨h.inOrder, fun _ => Item.fits_of_brace ho _⟩, h.contents⟩
  rw [h.nodes, ← hfr.last]

theorem Strict.closing_elide {first : Node} {rest : Forest Node}
    (h : Strict t (fr :: up :: outer) (.node first .nil rest)) :
    Closing { t with nodes := plug (⟨fr.left, first, fr.right⟩ :: up :: outer) rest }
      fr.left first (up :: outer) rest := by
  have hn := h.wellFormed.nodup
  have hfr := h.levels fr (List.mem_cons_self ..)
  have hpar : (t.parent? fr.node.id).isSome = true := by
    rw [parent?_focus hn h.nodes]
    rfl
  refine ⟨h.wellFormed.elide (get?_focus hn h.nodes) hpar (elide_node hn h.nodes), ?_,
    fun g hg => h.levels g (List.mem_cons_of_mem _ hg), hfr.left, ?_, h.contents.2.2⟩
  · dsimp only
    rw [hfr.last]
  · -- the first child may be set up already, without children; then it fits any
    exact ⟨h.contents.1.inOrder, fun hs => (h.contents.1.fits hs).of_nil _⟩

theorem Strict.insert_keep (h : Strict t (fr :: up :: outer) c) {item : Item}
    {opening closing : Brace} (hi : item.kind.brace? = some closing)
    (ho : fr.node.kind.brace? = some opening) (hb : opening.closedBy closing = true)
    (hg : opening.isGrouping = false) :
    t.insert fr.node.id item = t.finish fr.node.id up.node.id := by
  have hins := insert_closing h.wellFormed.nodup h.nodes hi (Brace.isOpening_of_closedBy hb).2
  generalize t.insert fr.node.id item = r at hins
  cases hins with
  | keep _ _ _ => rfl
  | elide ho' _ hg' _ =>
    cases ho.symm.trans ho'
    rw [hg] at hg'
    cases hg'
  | refuse hno =>
    refine absurd ⟨opening, ho, hb, ?_⟩ hno
    intro hg'
    rw [hg] at hg'
    cases hg'

theorem Strict.insert_elide {first : Node} {rest : Forest Node}
    (h : Strict t (fr :: up :: outer) (.node first .nil rest)) {item : Item}
    {opening closing : Brace} (hi : item.kind.brace? = some closing)
    (ho : fr.node.kind.brace? = some opening) (hb : opening.closedBy closing = true)
    (hg : opening.isGrouping = true) :
    t.insert fr.node.id item =
      { t with nodes := plug (⟨fr.left, first, fr.right⟩ :: up :: outer) rest }.finish
        first.id up.node.id := by
  have hins := insert_closing h.wellFormed.nodup h.nodes hi (Brace.isOpening_of_closedBy hb).2
  generalize t.insert fr.node.id item = r at hins
  cases hins with
  | keep ho' _ hg' =>
    cases ho.symm.trans ho'
    rw [hg] at hg'
    cases hg'
  | elide _ _ _ he =>
    obtain ⟨rfl, -, rfl⟩ := Forest.node.inj he
    rfl
  | refuse hno => exact absurd ⟨opening, ho, hb, fun _ => ⟨first, rest, rfl⟩⟩ hno

/-! ## Insertions and the stack -/

theorem stackOf_leaf (spine : List (Frame Node)) (c : Forest Node) (n : Node) :
    stackOf spine (c ++ .leaf n) =
      ⟨spine.map (Frame.map Node.toItem), c.map Node.toItem ++ .leaf n.toItem⟩ := by
  rw [stackOf, map_append]
  rfl

theorem stackOf_shut (spine : List (Frame Node)) (left : Forest Node) (n : Node)
    (c : Forest Node) : stackOf spine (shut left n c) =
      ⟨spine.map (Frame.map Node.toItem),
        left.map Node.toItem ++ .node n.toItem (c.map Node.toItem) .nil⟩ := by
  rw [stackOf, map_shut]

theorem exists_of_stackOf_eq {fr' up' : Frame Item} {outer' : List (Frame Item)}
    {c' : Forest Item} (h : stackOf (fr :: outer) c = ⟨fr' :: up' :: outer', c'⟩) :
    ∃ up rest, outer = up :: rest ∧ fr' = fr.map Node.toItem ∧ up' = up.map Node.toItem ∧
      outer' = rest.map (Frame.map Node.toItem) ∧ c' = c.map Node.toItem := by
  obtain ⟨hspine, rfl⟩ := Item.Stack.mk.inj h
  cases outer with
  | nil => cases hspine
  | cons up rest =>
    simp only [List.map_cons, List.cons.injEq] at hspine
    obtain ⟨rfl, rfl, rfl⟩ := hspine
    exact ⟨up, rest, rfl, rfl, rfl, rfl, rfl⟩

theorem exists_of_map_eq_node {first' : Item} {rest' : Forest Item}
    (h : c.map Node.toItem = .node first' .nil rest') :
    ∃ first rest, c = .node first .nil rest ∧ first' = first.toItem ∧
      rest' = rest.map Node.toItem := by
  cases c with
  | nil => cases h
  | node first inner rest =>
    cases inner with
    | node _ _ _ => cases h
    | nil =>
      obtain ⟨rfl, -, rfl⟩ := Forest.node.inj h
      exact ⟨first, rest, rfl, rfl, rfl⟩

theorem Strict.insert_of_advance (h : Strict t (fr :: outer) c) {item : Item} {q : Item.Stack}
    (ha : Item.Advance (stackOf (fr :: outer) c) item q) : ∃ u fr' outer' c',
      t.insert fr.node.id item = (u, .ok fr'.node.id) ∧ Strict u (fr' :: outer') c' ∧
      stackOf (fr' :: outer') c' = q := by
  generalize hp : stackOf (fr :: outer) c = p at ha
  cases ha with
  | leaf hi =>
    obtain ⟨rfl, rfl⟩ := Item.Stack.mk.inj hp
    obtain ⟨u, n, hins, rfl, hu⟩ := h.leaf hi
    exact ⟨u, fr, outer, _, hins, hu, stackOf_leaf _ _ _⟩
  | enter hi hb =>
    obtain ⟨rfl, rfl⟩ := Item.Stack.mk.inj hp
    obtain ⟨u, n, hins, rfl, hu⟩ := h.enter hi hb
    exact ⟨u, _, _, _, hins, hu, rfl⟩
  | keep hi ho hb hg htops =>
    obtain ⟨up, rest, rfl, rfl, rfl, rfl, rfl⟩ := exists_of_stackOf_eq hp
    have hclosing := h.closing_keep ho
    have hfin := (hclosing.finish_eq_ok_iff up.node.id up.node.id).mpr
      ⟨htops, Item.fits_of_brace ho _, rfl, rfl⟩
    exact ⟨_, up, rest, _, (h.insert_keep hi ho hb hg).trans hfin, hclosing.strict hfin,
      stackOf_shut _ _ _ _⟩
  | elide hi ho hb hg htops hfirst =>
    obtain ⟨up, rest, rfl, rfl, rfl, rfl, hc⟩ := exists_of_stackOf_eq hp
    obtain ⟨first, rest', rfl, rfl, rfl⟩ := exists_of_map_eq_node hc.symm
    have hclosing := h.closing_elide
    have hfin := (hclosing.finish_eq_ok_iff up.node.id up.node.id).mpr ⟨htops, hfirst, rfl, rfl⟩
    exact ⟨_, up, rest, _, (h.insert_elide hi ho hb hg).trans hfin, hclosing.strict hfin,
      stackOf_shut _ _ _ _⟩

theorem Strict.advance_closing (h : Strict t (fr :: up :: outer) c) {item : Item} {b : Brace}
    {next : NodeId} (hi : item.kind.brace? = some b) (hb : b.isOpening = false)
    (hins : t.insert fr.node.id item = (u, .ok next)) : ∃ c', up.node.id = next ∧
      Strict u (up :: outer) c' ∧
      Item.Advance (stackOf (fr :: up :: outer) c) item (stackOf (up :: outer) c') := by
  have hc := insert_closing h.wellFormed.nodup h.nodes hi hb
  rw [hins] at hc
  generalize hr : (u, Except.ok next) = r at hc
  cases hc with
  | keep ho hcl hg =>
    have hclosing := h.closing_keep ho
    obtain ⟨htops, -, hid, -⟩ := (hclosing.finish_eq_ok_iff _ _).mp hr.symm
    refine ⟨_, hid.symm, hclosing.strict hr.symm, ?_⟩
    rw [stackOf_shut]
    exact .keep hi ho hcl hg htops
  | elide ho hcl hg he =>
    subst he
    have hclosing := h.closing_elide
    obtain ⟨htops, hfits, hid, -⟩ := (hclosing.finish_eq_ok_iff _ _).mp hr.symm
    refine ⟨_, hid.symm, hclosing.strict hr.symm, ?_⟩
    rw [stackOf_shut]
    exact .elide hi ho hcl hg htops hfits
  | refuse _ => cases hr

theorem Strict.advance (h : Strict t (fr :: outer) c) {item : Item} {next : NodeId}
    (hins : t.insert fr.node.id item = (u, .ok next)) : ∃ fr' outer' c', fr'.node.id = next ∧
      Strict u (fr' :: outer') c' ∧
      Item.Advance (stackOf (fr :: outer) c) item (stackOf (fr' :: outer') c') := by
  cases hi : item.kind.brace? with
  | none =>
    obtain ⟨u', n, hins', rfl, hu⟩ := h.leaf hi
    cases hins.symm.trans hins'
    refine ⟨fr, outer, _, rfl, hu, ?_⟩
    rw [stackOf_leaf]
    exact .leaf hi
  | some b =>
    cases hb : b.isOpening with
    | true =>
      obtain ⟨u', n, hins', rfl, hu⟩ := h.enter hi hb
      cases hins.symm.trans hins'
      exact ⟨_, _, _, rfl, hu, .enter hi hb⟩
    | false =>
      cases outer with
      | nil =>
        rw [insert, get?_focus h.wellFormed.nodup h.nodes, hi] at hins
        dsimp only at hins
        rw [hb, close, parent?_focus h.wellFormed.nodup h.nodes] at hins
        cases hins
      | cons up outer =>
        obtain ⟨c', hid, hu, ha⟩ := h.advance_closing hi hb hins
        exact ⟨up, outer, c', hid, hu, ha⟩

end Tree
end BracketTree
