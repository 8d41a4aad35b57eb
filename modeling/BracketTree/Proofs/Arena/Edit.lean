import BracketTree.Proofs.Arena.Setup
import BracketTree.Proofs.Tree.Elision

/-! The links around a node that enters, around nodes that are removed, and around a group that is elided.
The tree says what every slot holds afterwards; the actions on the table lead there link by link. -/

namespace BracketTree
open Forest Arena
set_option autoImplicit false

namespace Arena

/-- The lists of children in the table are those of the forest. -/
def Holds (a : Arena) (f : Forest Node) : Prop :=
  f.Everywhere fun n c => (a.cell? n.id).map Cell.children = some (c.roots.map Node.id)

variable {a b : Arena} {f : Forest Node}

theorem Holds.of_same (h : a.Holds f) (hsame : ∀ id ∈ f.preorder.map Node.id, b.cell? id = a.cell? id) :
    b.Holds f := by
  induction f with
  | nil => trivial
  | node n c s hc hs =>
    simp only [preorder_node, List.map_cons, List.map_append, List.mem_cons, List.mem_append] at hsame
    refine ⟨?_, hc h.2.1 fun id hid => hsame id (.inr (.inl hid)),
      hs h.2.2 fun id hid => hsame id (.inr (.inr hid))⟩
    dsimp only
    rw [hsame n.id (.inl rfl)]
    exact h.1

@[simp] theorem destroy_nil (a : Arena) : a.destroy [] = a := by
  rw [destroy]

theorem destroy_cons {id : NodeId} {c : Cell} (h : a.cell? id = some c) (rest : List NodeId) :
    a.destroy (id :: rest) = (a.put id none).destroy (c.children ++ rest) := by
  rw [destroy]
  split
  · next hnone => cases hnone.symm.trans h
  · next c' hsome => rw [Option.some.inj (hsome.symm.trans h)]

/-- The nodes of a forest are destroyed in preorder, before the rest of the list. -/
theorem destroy_forest (h : a.Holds f) (hn : (f.preorder.map Node.id).Nodup) (rest : List NodeId) :
    a.destroy (f.roots.map Node.id ++ rest) =
      (a.clear (f.preorder.map Node.id)).destroy rest := by
  induction f generalizing a rest with
  | nil => rfl
  | node n c s hc hs =>
    simp only [preorder_node, List.map_cons, List.map_append, List.nodup_cons, List.mem_append,
      not_or, List.nodup_append] at hn
    obtain ⟨⟨hnc, hns⟩, hcn, hsn, hapart⟩ := hn
    obtain ⟨hhere, hbelow, hnext⟩ := h
    obtain ⟨cell, hcell, hchildren⟩ := Option.map_eq_some_iff.mp hhere
    have hemptied : ∀ ids j, j ≠ n.id → j ∉ ids → ((a.put n.id none).clear ids).cell? j = a.cell? j :=
      fun ids j hj hids => by rw [cell?_clear, if_neg hids, cell?_put fun _ => rfl, if_neg hj]
    have hinner : (a.put n.id none).Holds c :=
      Holds.of_same hbelow fun j hj => hemptied [] j (fun he => hnc (he ▸ hj)) List.not_mem_nil
    have hlater : ((a.put n.id none).clear (c.preorder.map Node.id)).Holds s :=
      Holds.of_same hnext fun j hj =>
        hemptied _ j (fun he => hns (he ▸ hj)) fun hjc => hapart j hjc j hj rfl
    rw [roots_node, List.map_cons, List.cons_append, destroy_cons hcell, hchildren, hc hinner hcn,
      hs hlater hsn, preorder_node, List.map_cons, List.map_append]
    rw [clear, clear, clear, List.foldl_cons, List.foldl_append]

theorem idxOf?_append_cons {left right : List NodeId} {id : NodeId} (h : id ∉ left) :
    (left ++ id :: right).idxOf? id = some left.length := by
  induction left with
  | nil => rw [List.nil_append, List.idxOf?_cons, if_pos (beq_self_eq_true id)]; rfl
  | cons j left ih =>
    obtain ⟨hj, hleft⟩ := List.ne_and_not_mem_of_not_mem_cons h
    rw [List.cons_append, List.idxOf?_cons, if_neg (by simpa using hj.symm), ih hleft]
    rfl

theorem runs_position {parent child : NodeId} {c : Cell} {before after : List NodeId}
    (hc : a.cell? parent = some c) (hchildren : c.children = before ++ child :: after)
    (hnot : child ∉ before) : Runs (position parent child) a (.ok before.length) a := by
  refine (runs_cell hc).bind ?_
  rw [hchildren, idxOf?_append_cons hnot]
  exact runs_pure _ a

theorem runs_position_error {parent child : NodeId} {c : Cell} (hc : a.cell? parent = some c)
    (hnot : child ∉ c.children) :
    Runs (position parent child) a (.error (.notAChild (a.label parent) (a.label child))) a := by
  refine (runs_cell hc).bind ?_
  rw [List.idxOf?_eq_none_iff.mpr hnot]
  exact (runs_get a).bind (runs_throw _ a)

theorem runs_adopt {parent : NodeId} {ids : List NodeId} {c : Cell} (hc : a.cell? parent = some c)
    (hempty : c.children = []) (hlive : ∀ id ∈ ids, (a.cell? id).isSome = true) (hn : ids.Nodup)
    (hnot : parent ∉ ids) : Runs (adopt parent ids) a (.ok ())
      ((a.alterAll ids (.under parent)).alter parent (.relist ids)) := by
  have hparent : (a.alterAll ids (.under parent)).cell? parent = some c := by
    rw [cell?_alterAll hn, if_neg hnot, hc]
  have hlist := alter_congr (f := fun c => { c with children := c.children ++ ids })
    (g := .relist ids) hparent (by rw [hempty]; rfl)
  rw [← hlist]
  exact (runs_updateAll _ hlive).bind (runs_update hparent _)

theorem runs_replaceChild {parent old new : NodeId} {c d : Cell} {before after : List NodeId}
    (hc : a.cell? parent = some c) (hchildren : c.children = before ++ old :: after)
    (hnot : old ∉ before) (hd : a.cell? new = some d) (hne : new ≠ parent) :
    Runs (replaceChild parent old new) a (.ok ())
      ((a.alter parent (.relist (before ++ new :: after))).alter new (.under parent)) := by
  have hlist := alter_congr (f := fun c => { c with children := c.children.set before.length new })
    (g := .relist (before ++ new :: after)) hc (by rw [hchildren]; simp [Cell.relist])
  have hnew : (a.alter parent (.relist (before ++ new :: after))).cell? new = some d := by
    rw [cell?_alter, if_neg hne, hd]
  refine (runs_position hc hchildren hnot).bind ((runs_update hc _).bind ?_)
  rw [hlist]
  exact runs_update hnew _

theorem destroy_childless {id : NodeId} {c : Cell} (h : a.cell? id = some c) (hc : c.children = []) :
    a.destroy [id] = a.put id none := by
  rw [destroy_cons h, hc, List.nil_append, destroy_nil]

/-- What an elision needs: a group under `parent`, with a first child that has no children of its
own and with some operands after it. -/
structure Grouped (a : Arena) (parent group first : NodeId) (operands before after : List NodeId) :
    Prop where
  at_parent : ∃ c, a.cell? parent = some c ∧ c.children = before ++ group :: after
  at_group : ∃ c, a.cell? group = some c ∧ c.children = first :: operands
  at_first : ∃ c, a.cell? first = some c ∧ c.children = []
  live : ∀ id ∈ operands, (a.cell? id).isSome = true
  not_before : group ∉ before
  distinct : (parent :: group :: first :: operands).Nodup

/-- The links of the group, of the operands, of the first child and of the parent are rewritten, and the
slot of the group is emptied. -/
def promoted (a : Arena) (parent group first : NodeId) (operands siblings : List NodeId) : Arena :=
  (((((a.alter group (.relist [])).alterAll operands (.under first)).alter first
    (.relist operands)).alter parent (.relist siblings)).alter first (.under parent)).put group none

theorem Grouped.runs_elide {parent group first : NodeId} {operands before after : List NodeId}
    (h : a.Grouped parent group first operands before after) :
    Runs (elide group parent) a (.ok first)
      (a.promoted parent group first operands (before ++ first :: after)) := by
  obtain ⟨⟨cp, hcp, hcp'⟩, ⟨cg, hcg, hcg'⟩, ⟨cf, hcf, hcf'⟩, hlive, hbefore, hdistinct⟩ := h
  simp only [List.nodup_cons, List.mem_cons, not_or] at hdistinct
  obtain ⟨⟨hpg, hpf, hpo⟩, ⟨hgf, hgo⟩, hfo, hoperands⟩ := hdistinct
  rw [promoted]
  -- the table after the group has given up its children, after the first child has adopted the
  -- others, and after it has taken the place of the group
  have htake := runs_takeChildren hcg
  generalize ha₁ : a.alter group (.relist []) = a₁ at htake
  have h₁ : ∀ j, j ≠ group → a₁.cell? j = a.cell? j := fun j hj => by
    rw [← ha₁, cell?_alter, if_neg hj]
  have hlive₁ : ∀ id ∈ operands, (a₁.cell? id).isSome = true := fun id hid =>
    (h₁ id fun he => hgo (he ▸ hid)).symm ▸ hlive id hid
  have hadopt := runs_adopt ((h₁ _ (Ne.symm hgf)).trans hcf) hcf' hlive₁ hoperands hfo
  generalize ha₂ : (a₁.alterAll operands (.under first)).alter first (.relist operands) = a₂ at hadopt
  have h₂ : ∀ j, j ≠ first → j ∉ operands → a₂.cell? j = a₁.cell? j := fun j hj hj' => by
    rw [← ha₂, cell?_alter, if_neg hj, cell?_alterAll hoperands, if_neg hj']
  have hfirst₂ : a₂.cell? first = some (cf.relist operands) := by
    rw [← ha₂, cell?_alter, if_pos rfl, cell?_alterAll hoperands, if_neg hfo, h₁ _ (Ne.symm hgf), hcf,
      Option.map_some]
  have hplace := runs_replaceChild ((h₂ _ hpf hpo).trans ((h₁ _ hpg).trans hcp)) hcp' hbefore hfirst₂
    (Ne.symm hpf)
  generalize ha₃ : (a₂.alter parent (.relist (before ++ first :: after))).alter first (.under parent) =
    a₃ at hplace
  have hgroup₃ : a₃.cell? group = some (cg.relist []) := by
    rw [← ha₃, cell?_alter, if_neg hgf, cell?_alter, if_neg (Ne.symm hpg), h₂ _ hgf hgo, ← ha₁,
      cell?_alter, if_pos rfl, hcg, Option.map_some]
  rw [← destroy_childless hgroup₃ rfl]
  refine (runs_cell hcg).stage.bind ?_
  rw [hcg']
  refine (runs_cell hcf).stage.bind ?_
  rw [hcf']
  refine htake.stage.bind ?_
  rw [hcg']
  exact hadopt.stage.bind (hplace.stage.bind ((runs_modify _ _).bind (runs_pure _ _)))

end Arena

namespace Tree

variable {t u : Tree} {id : NodeId} {n first : Node} {fr up : Frame Node} {outer : List (Frame Node)}
  {c left right rest : Forest Node}

/-! ## A node enters -/

theorem get?_append_dead (hw : t.WellFormed) (hn : t.get? n.id = some n) {item : Item}
    (hd : t.get? id = none) (hid : id ≠ t.nextId) : (t.append n.id item).get? id = none := by
  obtain ⟨l, r, outer, c, ht, -⟩ := exists_spine_of_get? hn
  have hu := nodes_append_focus hw.nodup ht item
  apply Option.eq_none_iff_forall_not_mem.mpr
  intro m hm
  have hmem := mem_of_get? hm
  rw [hu, (preorder_plug_perm _ _).mem_iff, preorder_append, preorder_leaf, List.append_assoc,
    List.mem_append, List.mem_append, List.mem_singleton] at hmem
  have hold : m ∉ t.nodes.preorder := by
    intro hold
    rw [← id_of_get? hm, get?_of_mem hw.nodup hold] at hd
    cases hd
  rw [ht, (preorder_plug_perm _ _).mem_iff, List.mem_append, not_or] at hold
  rcases hmem with hmem | rfl | hmem
  · exact hold.1 hmem
  · exact hid (id_of_get? hm).symm
  · exact hold.2 hmem

theorem cell?_append (hw : t.WellFormed) (hn : t.get? n.id = some n) {item : Item}
    (hitem : ∀ b, item.kind.brace? = some b → b.isOpening = true) (j : NodeId) :
    (t.append n.id item).cell? j =
      if j = t.nextId then some (.fresh item (some n.id))
      else if j = n.id then (t.cell? j).map fun c => { c with children := c.children ++ [t.nextId] }
      else t.cell? j := by
  obtain ⟨l, r, outer, c, ht, -⟩ := exists_spine_of_get? hn
  have hnv := (hw.append hn hitem).nodup
  have hu := nodes_append_focus hw.nodup ht item
  have hnew : (t.append n.id item).nodes =
      plug (⟨c, .fresh t.nextId item, .nil⟩ :: ⟨l, n, r⟩ :: outer) .nil := hu
  split
  · next hj =>
    rw [hj]
    exact cell?_focus hnv hnew
  next hj =>
  split
  · next hjn =>
    have hold := cell?_focus hw.nodup ht
    have hlist := cell?_focus hnv hu
    dsimp only at hold hlist
    rw [hjn, hold, hlist, roots_append, List.map_append]
    rfl
  next hjn =>
  have hgrows := growsAt_of_plug hnv hw.nodup ht hu
  cases hg : t.get? j with
  | none => rw [cell?_eq_none (get?_append_dead hw hn hg hj), cell?_eq_none hg]
  | some m =>
    have hlive : t.contains j = true := Option.isSome_of_eq_some hg
    rw [cell?_of_get? (hgrows.kept j m hg), cell?_of_get? hg, hgrows.children j hlive hjn, parent?,
      parent?, hgrows.lineage j hlive]

theorem runs_appendChild (hw : t.WellFormed) (hn : t.get? n.id = some n) {item : Item}
    (hitem : ∀ b, item.kind.brace? = some b → b.isOpening = true) :
    Runs (appendChild n.id item) t.arena (.ok t.nextId) (t.append n.id item).arena := by
  have hwu := hw.append hn hitem
  have hlink := runs_update (cell?_live hw hn)
    fun c => { c with children := c.children ++ [t.nextId] }
  have hend : (⟨(t.arena.alter n.id fun c => { c with children := c.children ++ [t.nextId] }).slots.push
      (some (.fresh item (some n.id))), t.scopes⟩ : Arena) = (t.append n.id item).arena := by
    refine ext_cell ?_ (fun j => ?_) rfl
    · rw [Array.size_push, size_alter, size_slots_arena, size_slots_arena, append]
    · rw [cell?_push, size_alter, size_slots_arena, cell?_alter, cell?_arena hw, cell?_arena hwu,
        cell?_append hw hn hitem]
  rw [← hend]
  have hsize : t.arena.slots.size = t.nextId := size_slots_arena t
  refine (runs_get _).bind ?_
  rw [hsize]
  exact hlink.bind ((runs_modify _ _).bind (runs_pure _ _))

theorem initNode_append (hw : t.WellFormed) (hn : t.get? n.id = some n) {item : Item}
    (hitem : ∀ b, item.kind.brace? = some b → b.isOpening = true) :
    (t.append n.id item).initNode t.nextId = .ok (t.attach n item) := by
  obtain ⟨l, r, outer, c, ht, -⟩ := exists_spine_of_get? hn
  have hnew : (t.append n.id item).nodes =
      plug (⟨c, .fresh t.nextId item, .nil⟩ :: ⟨l, n, r⟩ :: outer) .nil :=
    nodes_append_focus hw.nodup ht item
  have hids := (hw.append hn hitem).nodup
  have hget := get?_focus hids hnew
  have hpar := parent?_focus hids hnew
  dsimp only [Node.fresh] at hget hpar
  rw [initNode, hget, hpar]
  rfl

theorem runs_attach (hw : t.WellFormed) (hn : t.get? n.id = some n) {item : Item}
    (hitem : ∀ b, item.kind.brace? = some b → b.isOpening = true) :
    Runs (Arena.attach n.id item) t.arena (.ok t.nextId) (t.attach n item).arena := by
  have hinit := runs_initNode (hw.append hn hitem) t.nextId
  rw [initNode_append hw hn hitem] at hinit
  exact (runs_appendChild hw hn hitem).stage_fatal.bind (hinit.stage_fatal.bind (runs_pure _ _))

/-! ## Nodes are removed -/

theorem holds_arena (hw : t.WellFormed) {f : Forest Node} (h : t.Standing f) : t.arena.Holds f := by
  refine h.imp fun n c hn => ?_
  rw [cell?_arena hw, cell?_of_get? hn.1, ← hn.2]
  rfl

theorem not_mem_before (hn : t.ids.Nodup) {q : NodeId} {before after : List NodeId}
    (h : t.children q = before ++ id :: after) : id ∉ before := by
  have hnodup := nodup_children hn q
  rw [h, List.nodup_append] at hnodup
  exact fun hid => hnodup.2.2 _ hid _ List.mem_cons_self rfl

theorem Truncated.cell? {parent : NodeId} {kept gone : List NodeId}
    (h : Truncated t u parent kept gone) (j : NodeId) : u.cell? j =
      if j ∈ gone.flatMap t.descendants then none
      else if j = parent then (t.cell? j).map (.relist kept)
      else t.cell? j := by
  cases hlive : u.contains j with
  | false =>
    have hnone : u.get? j = none := Option.isNone_iff_eq_none.mp (Option.isSome_eq_false_iff.mp hlive)
    rw [cell?_eq_none hnone]
    split
    · rfl
    next hin =>
    have hdead : t.get? j = none := by
      by_contra hne
      have ht : t.contains j = true := Option.isSome_iff_ne_none.mpr hne
      rw [(h.contains j).mpr ⟨ht, hin⟩] at hlive
      cases hlive
    rw [cell?_eq_none hdead]
    split <;> rfl
  | true =>
    obtain ⟨m, hm⟩ := Option.isSome_iff_exists.mp hlive
    rw [if_neg ((h.contains j).mp hlive).2, cell?_of_get? hm,
      cell?_of_get? ((h.node j hlive).symm.trans hm), h.parent j hlive]
    split
    · next hj =>
      rw [hj, h.after]
      rfl
    · next hj => rw [h.children j hlive hj]

/-- The list of children is cut, then what has been cut off is destroyed. -/
theorem arena_removeFrom (hw : t.WellFormed) {d : Forest Node}
    (h : t.nodes = plug (⟨left, n, right⟩ :: fr :: outer) d) :
    (t.arena.alter fr.node.id (.relist (left.roots.map Node.id))).destroy
        (n.id :: right.roots.map Node.id) =
      ({ t with nodes := plug (fr :: outer) left } : Tree).arena := by
  have hin : t.nodes = plug (fr :: outer) (left ++ .node n d right) := h
  have htr := truncated_of_plug hw h
  have hwu := hw.removeFrom (removeFrom_focus hw.nodup h)
  have hbelow := nodup_below hw.nodup fr.node.id
  have htops := tops_below hw.nodup fr.node.id
  rw [below_focus hw.nodup hin] at hbelow htops
  have hgone : (n.id :: right.roots.map Node.id).flatMap t.descendants =
      (Forest.node n d right).preorder.map Node.id :=
    flatMap_descendants ((tops_append _ _).mp htops).2
  obtain ⟨hself, hnodup⟩ := List.nodup_cons.mp hbelow
  rw [preorder_append, List.map_append] at hself hnodup
  have houtside : fr.node.id ∉ (Forest.node n d right).preorder.map Node.id :=
    fun hid => hself (List.mem_append_right _ hid)
  have hholds : (t.arena.alter fr.node.id (.relist (left.roots.map Node.id))).Holds
      (.node n d right) := by
    refine Holds.of_same (holds_arena hw (standing_of_plug hw.nodup _ left hin)) fun j hj => ?_
    have hne : j ≠ fr.node.id := fun he => houtside (he ▸ hj)
    rw [cell?_alter, if_neg hne]
  have hdestroy := destroy_forest hholds (List.nodup_append.mp hnodup).2.1 []
  rw [List.append_nil, destroy_nil] at hdestroy
  refine hdestroy.trans (ext_cell ?_ (fun j => ?_) ?_)
  · rw [size_clear, size_alter, size_slots_arena, size_slots_arena]
  · rw [cell?_clear, cell?_alter, cell?_arena hw, cell?_arena hwu, htr.cell?, ← hgone]
  · rw [scopes_clear]
    rfl

theorem runs_removeFrom_child (hw : t.WellFormed) {d : Forest Node}
    (h : t.nodes = plug (⟨left, n, right⟩ :: fr :: outer) d) :
    Runs (Arena.removeFrom fr.node.id n.id) t.arena (.ok ())
      ({ t with nodes := plug (fr :: outer) left } : Tree).arena := by
  have hin : t.nodes = plug (fr :: outer) (left ++ .node n d right) := h
  have hcell := cell?_arena_focus hw hin
  have hchildren := children_focus hw.nodup hin
  rw [roots_append, roots_node, List.map_append, List.map_cons] at hcell hchildren
  have hnot := not_mem_before hw.nodup hchildren
  have hcut := alter_congr (f := fun c => { c with children := c.children.take left.roots.length })
    (g := .relist (left.roots.map Node.id)) hcell (by simp [Cell.ofNode, Cell.relist])
  rw [← arena_removeFrom hw h, ← hcut]
  have hupdate := runs_update hcell
    fun c => { c with children := c.children.take (left.roots.map Node.id).length }
  have hpos := runs_position hcell rfl hnot
  refine hpos.bind ((runs_cell hcell).bind (hupdate.bind ?_))
  dsimp only [Cell.ofNode]
  rw [List.drop_left, List.length_map]
  exact runs_modify _ _

theorem runs_removeFrom (hw : t.WellFormed) (parent child : NodeId) :
    match t.removeFrom parent child with
    | .ok u => Runs (Arena.removeFrom parent child) t.arena (.ok ()) u.arena
    | .error e => Runs (Arena.removeFrom parent child) t.arena (.error e) t.arena := by
  cases hg : t.get? parent with
  | none =>
    rw [removeFrom, contains, hg]
    exact ((runs_cell_dead hw hg).bind_error).bind_error
  | some p =>
    have hcell := cell?_live hw hg
    by_cases hchild : child ∈ t.children parent
    · obtain ⟨l, r, outer, c, he, rfl⟩ := exists_spine_of_get? hg
      rw [children_focus hw.nodup he] at hchild
      obtain ⟨n, hn, rfl⟩ := List.mem_map.mp hchild
      obtain ⟨left, d, right, rfl⟩ := exists_append_of_mem_roots hn
      have hin : t.nodes = plug (⟨left, n, right⟩ :: ⟨l, p, r⟩ :: outer) d := he
      have hok := removeFrom_focus hw.nodup hin
      have hrun := runs_removeFrom_child hw hin
      dsimp only at hok hrun
      rw [hok]
      exact hrun
    · rw [removeFrom, contains, hg, if_pos Option.isSome_some, if_neg hchild, ← label_arena hw,
        ← label_arena hw]
      exact (runs_position_error hcell hchild).bind_error

/-! ## A group is elided -/

theorem nodup_around (hn : t.ids.Nodup)
    (ht : t.nodes = plug (⟨left, n, right⟩ :: up :: outer) (.node first .nil rest)) :
    (up.node.id :: n.id :: first.id :: rest.roots.map Node.id).Nodup := by
  have hin : t.nodes = plug (up :: outer) (left ++ .node n (.node first .nil rest) right) := ht
  have hbelow := nodup_below hn up.node.id
  have hsub : (n :: first :: rest.roots).Sublist
      (left ++ .node n (.node first .nil rest) right).preorder := by
    simp only [preorder_append, preorder_node, preorder_nil, List.nil_append, List.cons_append]
    exact ((((roots_sublist_preorder rest).trans (List.sublist_append_left _ _)).cons_cons first).cons_cons
      n).trans (List.sublist_append_right _ _)
  rw [below_focus hn hin] at hbelow
  exact hbelow.sublist ((hsub.map Node.id).cons_cons _)

theorem grouped_arena (hw : t.WellFormed)
    (ht : t.nodes = plug (⟨left, n, right⟩ :: up :: outer) (.node first .nil rest)) :
    t.arena.Grouped up.node.id n.id first.id (rest.roots.map Node.id) (left.roots.map Node.id)
      (right.roots.map Node.id) := by
  have hin : t.nodes = plug (up :: outer) (left ++ .node n (.node first .nil rest) right) := ht
  have hfirst : t.nodes = plug (⟨.nil, first, rest⟩ :: ⟨left, n, right⟩ :: up :: outer) .nil := ht
  have hlist := children_focus hw.nodup hin
  have hparent := cell?_arena_focus hw hin
  rw [roots_append, roots_node, List.map_append, List.map_cons] at hlist hparent
  refine ⟨⟨_, hparent, rfl⟩, ⟨_, cell?_arena_focus hw ht, rfl⟩, ⟨_, cell?_arena_focus hw hfirst, rfl⟩,
    fun id hid => ?_, not_mem_before hw.nodup hlist, nodup_around hw.nodup ht⟩
  have hmem : id ∈ t.children n.id := by
    rw [children_focus hw.nodup ht]
    exact List.mem_cons_of_mem _ hid
  exact (contains_arena hw id).trans (contains_of_mem_children hw.nodup hmem)

section Elide
variable {v : Tree}
  (ht : t.nodes = plug (⟨left, n, right⟩ :: up :: outer) (.node first .nil rest))
  (hv : v.nodes = plug (⟨left, first, right⟩ :: up :: outer) rest)
include ht hv

theorem map_id_parent?_promote (hn : t.ids.Nodup) (hnv : v.ids.Nodup) (hgroup : id ≠ n.id)
    (hid : id ∉ first.id :: rest.roots.map Node.id) :
    (v.parent? id).map Node.id = (t.parent? id).map Node.id := by
  have hin : t.nodes = plug (up :: outer) (left ++ .node n (.node first .nil rest) right) := ht
  have hvin : v.nodes = plug (up :: outer) (left ++ .node first rest right) := hv
  have hfirst : t.nodes = plug (⟨.nil, first, rest⟩ :: ⟨left, n, right⟩ :: up :: outer) .nil := ht
  have hup := children_focus hn hin
  have hup' := children_focus hnv hvin
  rw [roots_append, roots_node, List.map_append, List.map_cons] at hup hup'
  have hempty : v.children n.id = [] := by
    have hdead : ¬v.contains n.id = true := fun hc => ((contains_promote ht hv hn).mp hc).2 rfl
    rw [children, below_eq_nil (Option.not_isSome_iff_eq_none.mp hdead)]
    rfl
  exact map_id_parent?_of_relisted hn hnv hup hup' (children_focus hn ht) hempty
    (children_focus hn hfirst) (children_focus hnv hv)
    (fun q h₁ h₂ h₃ => children_promote ht hv h₁ h₂ h₃) hgroup hid

theorem cell?_promote (hn : t.ids.Nodup) (hnv : v.ids.Nodup) (j : NodeId) : v.cell? j =
    if j = n.id then none
    else if j = up.node.id then
      (t.cell? j).map (.relist (left.roots.map Node.id ++ first.id :: right.roots.map Node.id))
    else if j = first.id then
      (t.cell? j).map fun c => (c.relist (rest.roots.map Node.id)).under up.node.id
    else if j ∈ rest.roots.map Node.id then (t.cell? j).map (.under first.id)
    else t.cell? j := by
  have hin : t.nodes = plug (up :: outer) (left ++ .node n (.node first .nil rest) right) := ht
  have hvin : v.nodes = plug (up :: outer) (left ++ .node first rest right) := hv
  have hfirst : t.nodes = plug (⟨.nil, first, rest⟩ :: ⟨left, n, right⟩ :: up :: outer) .nil := ht
  split
  · next hj =>
    have hdead : ¬v.contains j = true := fun hc => ((contains_promote ht hv hn).mp hc).2 hj
    rw [cell?_eq_none (Option.not_isSome_iff_eq_none.mp hdead)]
  split
  · next hj =>
    rw [hj, cell?_focus hn hin, cell?_focus hnv hvin, roots_append, roots_node, List.map_append]
    rfl
  split
  · next hj =>
    have ht' := cell?_focus hn hfirst
    have hv' := cell?_focus hnv hv
    dsimp only at ht' hv'
    rw [hj, ht', hv']
    rfl
  next hgroup hup hj =>
  rw [cell?, cell?, get?_promote ht hv hn hgroup, children_promote ht hv hup hgroup hj]
  split
  · next hid =>
    have hpar : (v.parent? j).map Node.id = some first.id :=
      parent?_of_mem_children hnv ((children_focus hnv hv).symm ▸ hid)
    rw [hpar]
    cases t.get? j <;> rfl
  · next hid =>
    rw [map_id_parent?_promote ht hv hn hnv hgroup (List.not_mem_cons_of_ne_of_not_mem hj hid)]

/-- The group gives up its children, the operands go to the first child, and the first child takes the
place of the group. -/
theorem arena_promote (hw : t.WellFormed) (hwv : v.WellFormed) (hnext : v.nextId = t.nextId)
    (hscopes : v.scopes = t.scopes) :
    t.arena.promoted up.node.id n.id first.id (rest.roots.map Node.id)
      (left.roots.map Node.id ++ first.id :: right.roots.map Node.id) = v.arena := by
  have hdistinct := (grouped_arena hw ht).distinct
  simp only [List.nodup_cons, List.mem_cons, not_or] at hdistinct
  obtain ⟨⟨hup, hup', hup''⟩, ⟨hgroup, -⟩, hfirst, hroots⟩ := hdistinct
  refine ext_cell (by simp [promoted, hnext]) (fun j => ?_) (by simp [promoted, hscopes])
  rw [promoted, cell?_put fun _ => rfl, cell?_alter, cell?_alter, cell?_alter, cell?_alterAll hroots,
    cell?_alter, cell?_arena hw, cell?_arena hwv, cell?_promote ht hv hw.nodup hwv.nodup]
  by_cases hj : j = n.id
  · rw [if_pos hj, if_pos hj]
  by_cases hj' : j = up.node.id
  · rw [hj', if_neg hup, if_neg hup', if_pos rfl, if_neg hup', if_neg hup'', if_neg hup, if_neg hup,
      if_pos rfl]
  by_cases hj'' : j = first.id
  · rw [hj'', if_neg (Ne.symm hgroup), if_pos rfl, if_neg (Ne.symm hup'), if_pos rfl, if_neg hfirst,
      if_neg (Ne.symm hgroup), if_neg (Ne.symm hgroup), if_neg (Ne.symm hup'), if_pos rfl, Option.map_map]
    rfl
  · simp only [if_neg hj, if_neg hj', if_neg hj'']

end Elide

theorem runs_elide (hw : t.WellFormed) (h : t.nodes = plug (⟨left, n, right⟩ :: up :: outer) c) :
    match t.elide n.id with
    | .ok (u, next) => Runs (Arena.elide n.id up.node.id) t.arena (.ok next) u.arena
    | .error e => Runs (Arena.elide n.id up.node.id) t.arena (.error (.shape e)) t.arena := by
  have hcell := runs_cell (cell?_arena_focus hw h)
  rcases c with _ | ⟨first, _ | ⟨m, d, s⟩, rest⟩
  · have helide := elide_nil hw.nodup h
    dsimp only at helide
    rw [helide]
    exact hcell.stage.bind (runs_throw _ _)
  · have helide := elide_node hw.nodup h
    have hrun := (grouped_arena hw h).runs_elide
    have hlast := arena_promote h rfl hw (hw.elided h) rfl rfl
    dsimp only at helide hlast
    rw [helide]
    rw [hlast] at hrun
    exact hrun
  · have helide := elide_of_children hw.nodup h (by simp)
    have hsub : t.nodes = plug (⟨.nil, first, rest⟩ :: ⟨left, n, right⟩ :: up :: outer)
      (.node m d s) := h
    have hfirst := runs_cell (cell?_arena_focus hw hsub)
    dsimp only at helide
    rw [helide, ← List.length_map Node.id]
    exact hcell.stage.bind (hfirst.stage.bind (runs_throw _ _))

end Tree
end BracketTree
