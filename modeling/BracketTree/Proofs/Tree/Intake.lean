import BracketTree.Proofs.Tree.Insert
import BracketTree.Proofs.Tree.Underway

/-! Insertion into a tree under construction, with the marks that it sets: `Takes` lists all that one
insertion can do. A tree under construction stays one, also when a statement is given up. -/

namespace BracketTree.Tree
open Forest
set_option autoImplicit false

/-- The bracket `n` over `c` is closed by `closing`, and then `m` over `d` is to be set up in its
place. -/
inductive Yields (n : Node) (c : Forest Node) (closing : Brace) : Node → Forest Node → Prop where
  | keep {opening : Brace} : n.kind.brace? = some opening → opening.closedBy closing = true →
      opening.isGrouping = false → Yields n c closing n c
  | elide {opening : Brace} {first : Node} {rest : Forest Node} : n.kind.brace? = some opening →
      opening.closedBy closing = true → opening.isGrouping = true → c = .node first .nil rest →
      Yields n c closing first rest

inductive Takes (t : Tree) (fr : Frame Node) (outer : List (Frame Node)) (c : Forest Node)
    (item : Item) : Tree × Except InsertError NodeId → Prop where
  | leaf : item.kind.brace? = none →
      Takes t fr outer c item (t.attach fr.node item, .ok fr.node.id)
  | enter {b : Brace} : item.kind.brace? = some b → b.isOpening = true →
      Takes t fr outer c item (t.attach fr.node item, .ok t.nextId)
  | close {b : Brace} {up : Frame Node} {around : List (Frame Node)} {n m : Node}
      {d e : Forest Node} : item.kind.brace? = some b → b.isOpening = false →
      outer = up :: around → Yields fr.node c b n d → n.attemptWith d = ((m, e), .ok ()) →
      Takes t fr outer c item
        ({ t with nodes := plug (⟨fr.left, m, fr.right⟩ :: outer) e }, .ok up.node.id)
  | cut {b : Brace} {up : Frame Node} {around : List (Frame Node)} {n m : Node}
      {d e kept : Forest Node} {x : TreeError} {block : Frame Node} {rest : List (Frame Node)} :
      item.kind.brace? = some b → b.isOpening = false →
      outer = up :: around → Yields fr.node c b n d → n.attemptWith d = ((m, e), .error x) →
      nearestBlock fr.left outer = some (kept, block, rest) →
      Takes t fr outer c item
        ({ t with nodes := plug (block :: rest) kept }, .error (.recovered x block.node.id))
  | abandon {b : Brace} {up : Frame Node} {around : List (Frame Node)} {n m : Node}
      {d e : Forest Node} {x : TreeError} : item.kind.brace? = some b → b.isOpening = false →
      outer = up :: around → Yields fr.node c b n d → n.attemptWith d = ((m, e), .error x) →
      nearestBlock fr.left outer = none →
      Takes t fr outer c item ({ t with nodes := plug (⟨fr.left, m, fr.right⟩ :: outer) e },
        .error (.recovered x rootId))
  | refuse {b : Brace} {x : StructureError} : item.kind.brace? = some b → b.isOpening = false →
      (outer = [] ∨ ¬Closable fr.node c b) → Takes t fr outer c item (t, .error (.fatal (.shape x)))

variable {t u : Tree} {fr up : Frame Node} {outer : List (Frame Node)} {c d : Forest Node}
  {n : Node} {b : Brace} {P : Node → Forest Node → Prop}

theorem finish_attempt (hw : t.WellFormed) (h : t.nodes = plug (fr :: up :: outer) c)
    (hm : fr.node.marks.InOrder) (hc : c.Tops fun n _ => n.marks.InOrder) (next : NodeId) :
    t.finish fr.node.id next = match fr.node.attemptWith c, nearestBlock fr.left (up :: outer) with
      | ((m, e), .ok ()), _ =>
        ({ t with nodes := plug (⟨fr.left, m, fr.right⟩ :: up :: outer) e }, .ok next)
      | (_, .error x), some (kept, block, rest) =>
        ({ t with nodes := plug (block :: rest) kept }, .error (.recovered x block.node.id))
      | ((m, e), .error x), none =>
        ({ t with nodes := plug (⟨fr.left, m, fr.right⟩ :: up :: outer) e },
          .error (.recovered x rootId)) := by
  have hset := setupAsParent_attempt hw.nodup h hm hc
  have hf := finish_focus hw h next
  generalize t.finish fr.node.id next = r at hf
  rcases ha : fr.node.attemptWith c with ⟨⟨m, e⟩, x | _⟩
  · rw [ha] at hset
    cases hf with
    | ok hs => cases hset.symm.trans hs
    | atRoot _ hs hb =>
      obtain ⟨htree, herr⟩ := Prod.mk.inj (hs.symm.trans hset)
      rw [hb, htree, Except.error.inj herr]
    | atBlock hs hb =>
      cases hset.symm.trans hs
      rw [hb]
  · rw [ha] at hset
    cases hf with
    | ok hs =>
      cases hset.symm.trans hs
      rfl
    | atRoot _ hs _ => cases (Prod.mk.inj (hset.symm.trans hs)).2
    | atBlock hs _ => cases hset.symm.trans hs

theorem Yields.closing (h : Yields fr.node c b n d) (ha : fr.node.Awaits)
    (hc : c.Tops Node.Operand) : n.Closing ∧ d.Tops Node.Operand := by
  cases h with
  | keep _ _ _ => exact ⟨.inl ha, hc⟩
  | elide _ _ _ he =>
    subst he
    exact ⟨.inr hc.1, hc.2⟩

theorem Yields.wellFormed (h : Yields fr.node c b n d) (hw : t.WellFormed)
    (ht : t.nodes = plug (fr :: up :: outer) c) :
    { t with nodes := plug (⟨fr.left, n, fr.right⟩ :: up :: outer) d }.WellFormed := by
  cases h with
  | keep _ _ _ =>
    rw [← ht]
    exact hw
  | elide _ _ _ he =>
    subst he
    exact hw.elided ht

theorem takes_finish (hw : t.WellFormed) (h : t.nodes = plug (fr :: up :: outer) c) {item : Item}
    (hu : Underway P (fr :: up :: outer) c) (hi : item.kind.brace? = some b)
    (hb : b.isOpening = false) (hy : Yields fr.node c b n d) :
    Takes t fr (up :: outer) c item
      ({ t with nodes := plug (⟨fr.left, n, fr.right⟩ :: up :: outer) d }.finish n.id up.node.id) := by
  obtain ⟨-, ha, -, hc⟩ := hu.around
  obtain ⟨hn, hd⟩ := hy.closing ha hc
  have hf := @finish_attempt _ ⟨fr.left, n, fr.right⟩ up outer d (hy.wellFormed hw h) rfl hn.inOrder
    (hd.imp fun _ _ ho => ho.inOrder) up.node.id
  dsimp only at hf
  rw [hf]
  rcases hr : n.attemptWith d with ⟨⟨m, e⟩, x | _⟩
  · cases hk : Tree.nearestBlock fr.left (up :: outer) with
    | none => exact .abandon hi hb rfl hy hr hk
    | some k => exact .cut hi hb rfl hy hr hk
  · exact .close hi hb rfl hy hr

theorem insert_takes (hw : t.WellFormed) (h : t.nodes = plug (fr :: outer) c)
    (hu : Underway P (fr :: outer) c) (item : Item) :
    Takes t fr outer c item (t.insert fr.node.id item) := by
  have hget := get?_focus hw.nodup h
  cases hi : item.kind.brace? with
  | none =>
    rw [insert, hget, hi]
    exact .leaf hi
  | some b =>
    cases hb : b.isOpening with
    | true =>
      rw [insert, hget, hi]
      dsimp only
      rw [if_pos hb]
      exact .enter hi hb
    | false =>
      cases outer with
      | nil =>
        rw [insert, hget, hi]
        dsimp only
        rw [hb, close, parent?_focus hw.nodup h]
        exact .refuse hi hb (.inl rfl)
      | cons up outer =>
        have hc := insert_closing hw.nodup h hi hb
        generalize t.insert fr.node.id item = r at hc
        cases hc with
        | keep ho hcl hg =>
          have hf := takes_finish hw h hu hi hb (.keep ho hcl hg)
          rw [← h] at hf
          exact hf
        | elide ho hcl hg he => exact takes_finish hw h hu hi hb (.elide ho hcl hg he)
        | refuse hno => exact .refuse hi hb (.inr hno)

/-! ## A tree under construction stays one -/

section Step
variable {item : Item} {id : NodeId}

theorem entrant_entered (t : Tree) (focus : Node) (item : Item) :
    (t.entrant focus item).Entered :=
  rfl

theorem Takes.accepted (ht : Takes t fr outer c item (u, .ok id)) (hw : t.WellFormed)
    (h : t.nodes = plug (fr :: outer) c) (hu : Underway P (fr :: outer) c)
    (hP : ∀ n c, Node.Operand n c → P n c) : UnderwayAt P u id := by
  cases ht with
  | leaf hi =>
    have hn : Node.Operand (t.entrant fr.node item) .nil := .bare (entrant_entered ..) hi
    exact ⟨fr, outer, _, attach_focus hw h (by simp [hi]), rfl,
      hu.snoc (fun _ => hP _ _ hn) fun _ => hn⟩
  | enter hi hb =>
    exact ⟨⟨c, t.entrant fr.node item, .nil⟩, fr :: outer, .nil,
      attach_focus hw h (by simpa [hi] using hb), rfl,
      .inside hu ⟨entrant_entered .., _, hi⟩ trivial⟩
  | @close b up around n m d e hi hb hs hy hr =>
    subst hs
    obtain ⟨hout, ha, hright, hc⟩ := hu.around
    obtain ⟨hn, hd⟩ := hy.closing ha hc
    have hm := hn.operand hd hr
    refine ⟨up, around, fr.left ++ .node m e fr.right, rfl, rfl, ?_⟩
    rw [hright]
    exact hout.snoc (fun _ => hP _ _ hm) fun _ => hm

theorem Takes.recovered {x : TreeError}
    (ht : Takes t fr outer c item (u, .error (.recovered x id))) (hwu : u.WellFormed)
    (hu : Underway Node.Statement (fr :: outer) c) : UnderwayAt Node.Statement u id := by
  cases ht with
  | @cut b up around n m d e kept _ block rest hi hb hs hy hr hk =>
    subst hs
    exact ⟨block, rest, kept, rfl, rfl, hu.around.1.nearestBlock hk⟩
  | @abandon b up around n m d e _ hi hb hs hy hr hk =>
    subst hs
    obtain ⟨hout, ha, hright, hc⟩ := hu.around
    obtain ⟨hn, hd⟩ := hy.closing ha hc
    have hm : Node.Statement m e := .failed hn hd hr
    obtain ⟨r, f, he, hf⟩ : ∃ r f, plug (⟨fr.left, m, fr.right⟩ :: up :: around) e =
        plug [⟨.nil, r, .nil⟩] f ∧ Underway Node.Statement [⟨.nil, r, .nil⟩] f := by
      cases around with
      | nil =>
        cases hout with
        | top hr hleft =>
          refine ⟨_, _, rfl, ?_⟩
          rw [hright]
          exact (Underway.top hr hleft).snoc (fun _ => hm) fun hne => absurd rfl hne
      | cons up' around => exact hout.abandon (fun _ _ ha => .unclosed ha) _
    have hroot := (hwu.id_eq_rootId_iff he).mpr rfl
    exact ⟨_, [], f, he, hroot, hf⟩

theorem Takes.refused {x : TreeError} (ht : Takes t fr outer c item (u, .error (.fatal x))) :
    u = t := by
  cases ht
  rfl

end Step

end BracketTree.Tree
