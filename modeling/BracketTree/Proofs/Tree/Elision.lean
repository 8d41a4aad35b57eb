import BracketTree.Proofs.Tree.Growth
import BracketTree.Proofs.Tree.Orderly

/-! Elision in one step: a group that closes gives way to its first child, which keeps the place of the
group and receives its other children. The group is gone, and the marks of the nodes that it held are
all else that changes. -/

namespace BracketTree
open Forest
set_option autoImplicit false

namespace Node

variable {n : Node}

theorem remarks_settle : Tree.Remarks settle := by
  intro n
  rw [settle]
  split <;> rfl

theorem settle_setup (n : Node) : n.settle.marks.setup = true := by
  rw [settle]
  split
  · assumption
  · rfl

end Node

namespace Tree

/-- In `u` the node `first` has taken the place of the group over it, and has the rest of that group
under it; these nodes are set up. -/
structure Elided (t u : Tree) (outer group first : NodeId) (rest : List NodeId) : Prop where
  place : ∃ before after, t.children outer = before ++ group :: after ∧
    u.children outer = before ++ first :: after
  operands : u.children first = rest
  parent_first : (u.parent? first).map Node.id = some outer
  parent_operand : ∀ id ∈ rest, (u.parent? id).map Node.id = some first
  contains : ∀ id, u.contains id = true ↔ t.contains id = true ∧ id ≠ group
  children : ∀ id, id ≠ outer → id ≠ group → id ≠ first → u.children id = t.children id
  parent : ∀ id, id ≠ group → id ∉ first :: rest →
    (u.parent? id).map Node.id = (t.parent? id).map Node.id
  node : ∀ id, id ≠ group → id ∉ first :: rest → u.get? id = t.get? id
  settled : ∀ id ∈ first :: rest, ∃ n m, t.get? id = some n ∧ u.get? id = some m ∧
    m = { n with marks := m.marks } ∧ m.marks.setup = true
  nextId : u.nextId = t.nextId
  scopes : u.scopes = t.scopes

section Promote
variable {t v : Tree} {left right rest : Forest Node} {n first : Node} {up : Frame Node}
  {outer : List (Frame Node)} {id : NodeId}
  (ht : t.nodes = plug (⟨left, n, right⟩ :: up :: outer) (.node first .nil rest))
  (hv : v.nodes = plug (⟨left, first, right⟩ :: up :: outer) rest)
include ht hv

/-! ## The first child takes the place of the group -/

theorem preorder_promote : t.nodes.preorder.Perm (n :: v.nodes.preorder) := by
  rw [ht, hv]
  refine (preorder_plug_perm _ _).trans (.trans ?_ ((preorder_plug_perm _ _).symm.cons n))
  simp only [preorder_node, preorder_nil, List.nil_append, beside, List.cons_append]
  exact (List.perm_middle.cons _).trans ((List.Perm.swap ..).trans (List.perm_middle.symm.cons _))

theorem nodup_promote (hn : t.ids.Nodup) : (n.id :: v.ids).Nodup :=
  ((preorder_promote ht hv).map Node.id).nodup_iff.mp hn

theorem contains_promote (hn : t.ids.Nodup) :
    v.contains id = true ↔ t.contains id = true ∧ id ≠ n.id := by
  obtain ⟨hgone, hnv⟩ := List.nodup_cons.mp (nodup_promote ht hv hn)
  have hperm : t.ids.Perm (n.id :: v.ids) := (preorder_promote ht hv).map Node.id
  rw [contains_iff_mem_ids hn, contains_iff_mem_ids hnv, hperm.mem_iff, List.mem_cons]
  constructor
  · exact fun hid => ⟨.inr hid, fun he => hgone (he ▸ hid)⟩
  · exact fun ⟨hid, hne⟩ => hid.resolve_left hne

theorem get?_promote (hn : t.ids.Nodup) (hid : id ≠ n.id) : v.get? id = t.get? id := by
  have hnv := (nodup_promote ht hv hn).of_cons
  apply Option.ext
  intro k
  rw [get?_eq_some_iff hn, get?_eq_some_iff hnv, (preorder_promote ht hv).mem_iff, List.mem_cons]
  constructor
  · exact fun ⟨hk, he⟩ => ⟨.inr hk, he⟩
  · rintro ⟨rfl | hk, he⟩
    · exact absurd he.symm hid
    · exact ⟨hk, he⟩

theorem children_promote (hup : id ≠ up.node.id) (hgroup : id ≠ n.id) (hfirst : id ≠ first.id) :
    v.children id = t.children id := by
  have hno : ∀ k : Node, id ≠ k.id → Node.hasId id k = false :=
    fun k hk => (hasId_eq_false_iff _ _).mpr (Ne.symm hk)
  have hglance : v.nodes.glance (Node.hasId id) = t.nodes.glance (Node.hasId id) := by
    rw [ht, hv]
    refine glance_plug outer (by simp) ?_
    simp only [glance_append, glance_node, hno _ hup, hno _ hgroup, hno _ hfirst, Bool.false_eq_true,
      if_false]
    rfl
  rw [children_eq_glance, hglance, ← children_eq_glance]

end Promote

/-! ## Setup follows -/

section Settle
variable {v u : Tree} {fr up : Frame Node} {outer : List (Frame Node)} {c : Forest Node}

theorem roots_mapRoots (g : Node → Node) (f : Forest Node) :
    (f.mapRoots g).roots = f.roots.map g := by
  induction f with
  | nil => rfl
  | node n c s _ hs => simp [mapRoots, hs]

theorem mem_plug_of_mem_roots (fr : Frame Node) (outer : List (Frame Node)) (c : Forest Node) :
    ∀ k ∈ fr.node :: c.roots, k ∈ (plug (fr :: outer) c).preorder := by
  intro k hk
  rw [(preorder_plug_perm _ _).mem_iff, beside]
  rcases List.mem_cons.mp hk with rfl | hk
  · simp
  · exact List.mem_append_left _ (mem_preorder_of_mem_roots hk)

/-- Inside the root all stages were passed in order. -/
theorem Orderly.inOrder (h : v.Orderly) (hv : v.nodes = plug (fr :: up :: outer) c) :
    ∀ k ∈ fr.node :: c.roots, k.marks.InOrder := by
  have hroot : rootId ∉ fr.node.id :: c.roots.map Node.id := by
    rw [List.mem_cons, not_or, ← children_focus h.wellFormed.nodup hv]
    refine ⟨fun hid => ?_, rootId_notMem_children h.wellFormed fr.node.id⟩
    cases (h.wellFormed.id_eq_rootId_iff hv).mp hid.symm
  intro k hk
  refine (h.nodes k (hv ▸ mem_plug_of_mem_roots fr _ c k hk)).inOrder fun hid => hroot ?_
  rw [← hid]
  exact List.mem_map_of_mem (f := Node.id) hk

/-- A setup that succeeds settles the bracket and its children, and changes nothing else. -/
theorem settled_of_setupAsParent (h : v.Orderly) (hv : v.nodes = plug (fr :: up :: outer) c)
    (hok : v.setupAsParent fr.node.id = (u, .ok ())) :
    ∃ g, Remarks g ∧ u = { v with nodes := v.nodes.map g } ∧
      (∀ k : Node, k.id ∉ fr.node.id :: c.roots.map Node.id → g k = k) ∧
      ∀ k ∈ fr.node :: c.roots, g k = k.settle := by
  have hn := h.wellFormed.nodup
  have hnu := ((setupAsParent_edits v fr.node.id).wellFormed h.wellFormed).nodup
  obtain ⟨g, hg, hfix, hu⟩ := setupAsParent_remarked v fr.node.id
  rw [hok] at hu hnu
  dsimp only at hu hnu
  rw [children_focus hn hv] at hfix
  have hord := h.inOrder hv
  have hc := (tops_iff_roots _ c).mpr fun k hk => hord k (List.mem_cons_of_mem _ hk)
  obtain ⟨-, -, hset⟩ := (setupAsParent_eq_ok_iff hn hv (hord _ List.mem_cons_self) hc).mp hok
  refine ⟨g, hg, hu, fun k hk => hfix k fun hm => hk (by simpa [or_comm] using hm), fun k hk => ?_⟩
  -- The node is looked up in `u` in two ways: as what `g` makes of it, and in its place.
  have hget : u.get? k.id = some (g k) := by
    rw [hu, get?_map hg.id, get?_of_mem hn (hv ▸ mem_plug_of_mem_roots fr _ c k hk), Option.map_some]
  have hplace : k.settle ∈ u.nodes.preorder := by
    rw [hset]
    apply mem_plug_of_mem_roots
    rw [roots_mapRoots]
    exact List.mem_map_of_mem (f := Node.settle) hk
  have hget' := get?_of_mem hnu hplace
  rw [Node.remarks_settle.id, hget] at hget'
  exact Option.some.inj hget'

end Settle

/-! ## Elision -/

/-- The parent of a node is read off the lists of children, and these differ at three nodes only. -/
theorem map_id_parent?_of_relisted {t u : Tree} (hn : t.ids.Nodup) (hnu : u.ids.Nodup)
    {outer group first id : NodeId} {before after rest : List NodeId}
    (hup : t.children outer = before ++ group :: after)
    (hup' : u.children outer = before ++ first :: after)
    (hin : t.children group = first :: rest) (hin' : u.children group = [])
    (hfirst : t.children first = []) (hfirst' : u.children first = rest)
    (hothers : ∀ q, q ≠ outer → q ≠ group → q ≠ first → u.children q = t.children q)
    (hgroup : id ≠ group) (hid : id ∉ first :: rest) :
    (u.parent? id).map Node.id = (t.parent? id).map Node.id := by
  obtain ⟨hne, hrest⟩ := List.ne_and_not_mem_of_not_mem_cons hid
  apply Option.ext
  intro q
  rw [map_id_parent?_eq_some_iff hn, map_id_parent?_eq_some_iff hnu]
  by_cases hq : q = outer
  · rw [hq, hup, hup']
    simp [hgroup, hne]
  by_cases hq' : q = group
  · rw [hq', hin, hin']
    simp [hne, hrest]
  by_cases hq'' : q = first
  · rw [hq'', hfirst, hfirst']
    simp [hrest]
  · rw [hothers q hq hq' hq'']

section Elide
variable {t u : Tree} {left right rest : Forest Node} {n first : Node} {up : Frame Node}
  {outer : List (Frame Node)}

theorem elided_of_setup (h : t.Orderly)
    (ht : t.nodes = plug (⟨left, n, right⟩ :: up :: outer) (.node first .nil rest))
    (hv : { t with nodes := plug (⟨left, first, right⟩ :: up :: outer) rest }.Orderly)
    (hok : { t with nodes := plug (⟨left, first, right⟩ :: up :: outer) rest }.setupAsParent first.id =
      (u, .ok ())) :
    Elided t u up.node.id n.id first.id (rest.roots.map Node.id) := by
  generalize hnodes : { t with nodes := plug (⟨left, first, right⟩ :: up :: outer) rest } = v at hv hok
  have hvn : v.nodes = plug (⟨left, first, right⟩ :: up :: outer) rest := by rw [← hnodes]
  have hn := h.wellFormed.nodup
  have hnv := hv.wellFormed.nodup
  obtain ⟨g, hg, rfl, hfix, hsettle⟩ := settled_of_setupAsParent hv hvn hok
  have hnu : { v with nodes := v.nodes.map g }.ids.Nodup := (ids_map hg.id v).symm ▸ hnv
  have hin : t.nodes = plug (up :: outer) (left ++ .node n (.node first .nil rest) right) := ht
  have hvin : v.nodes = plug (up :: outer) (left ++ .node first rest right) := hvn
  have hfirst : t.nodes = plug (⟨.nil, first, rest⟩ :: ⟨left, n, right⟩ :: up :: outer) .nil := ht
  have hchildren := children_map hg.id v
  have hget := get?_map hg.id v
  have hup : t.children up.node.id =
      left.roots.map Node.id ++ n.id :: right.roots.map Node.id := by
    rw [children_focus hn hin]
    simp
  have hup' : { v with nodes := v.nodes.map g }.children up.node.id =
      left.roots.map Node.id ++ first.id :: right.roots.map Node.id := by
    rw [hchildren, children_focus hnv hvin]
    simp
  have hoperands : { v with nodes := v.nodes.map g }.children first.id = rest.roots.map Node.id :=
    (hchildren _).trans (children_focus hnv hvn)
  have hothers : ∀ q, q ≠ up.node.id → q ≠ n.id → q ≠ first.id →
      { v with nodes := v.nodes.map g }.children q = t.children q :=
    fun q h₁ h₂ h₃ => (hchildren q).trans (children_promote ht hvn h₁ h₂ h₃)
  have hgone : v.children n.id = [] := by
    have hdead : ¬v.contains n.id = true := fun hc => ((contains_promote ht hvn hn).mp hc).2 rfl
    rw [Tree.children, below_eq_nil (by simpa [contains] using hdead)]
    rfl
  constructor
  case place => exact ⟨_, _, hup, hup'⟩
  case operands => exact hoperands
  case parent_first => exact parent?_of_mem_children hnu (by rw [hup']; simp)
  case parent_operand => exact fun id hid => parent?_of_mem_children hnu (hoperands ▸ hid)
  case contains =>
    intro id
    rw [← contains_promote ht hvn hn, contains, contains, hget, Option.isSome_map]
  case children => exact hothers
  case parent =>
    intro id hgroup hid
    exact map_id_parent?_of_relisted hn hnu hup hup' (children_focus hn ht)
      ((hchildren _).trans hgone) (children_focus hn hfirst) hoperands hothers hgroup hid
  case node =>
    intro id hgroup hid
    rw [hget, get?_promote ht hvn hn hgroup]
    cases hk : t.get? id with
    | none => rfl
    | some k => rw [Option.map_some, hfix k (id_of_get? hk ▸ hid)]
  case settled =>
    intro id hid
    obtain ⟨k, hk, rfl⟩ : ∃ k ∈ first :: rest.roots, k.id = id := List.mem_map.mp hid
    have hkv : k ∈ v.nodes.preorder :=
      hvn ▸ mem_plug_of_mem_roots ⟨left, first, right⟩ (up :: outer) rest k hk
    have hkt : k ∈ t.nodes.preorder :=
      (preorder_promote ht hvn).mem_iff.mpr (List.mem_cons_of_mem n hkv)
    refine ⟨k, g k, get?_of_mem hn hkt, ?_, hg k, ?_⟩
    · rw [hget, get?_of_mem hnv hkv, Option.map_some]
    · rw [hsettle k hk]
      exact k.settle_setup
  case nextId => rw [← hnodes]
  case scopes => rw [← hnodes]

theorem exists_spine_of_group (hn : t.ids.Nodup) {group op : NodeId} {operands : List NodeId}
    {around : Node} (hg : t.get? group = some n) (hp : t.parent? group = some around)
    (hc : t.children group = op :: operands) (hop : t.children op = []) :
    ∃ left right up outer first rest,
      t.nodes = plug (⟨left, n, right⟩ :: up :: outer) (.node first .nil rest) ∧ n.id = group ∧
      up.node = around ∧ first.id = op ∧ rest.roots.map Node.id = operands := by
  obtain ⟨left, right, outer, c, h, rfl⟩ := exists_spine_of_get? hg
  rw [parent?_focus hn h] at hp
  rw [children_focus hn h] at hc
  cases outer with
  | nil => cases hp
  | cons up outer =>
    cases c with
    | nil => cases hc
    | node first inner rest =>
      obtain ⟨rfl, rfl⟩ := List.cons.inj hc
      have hfirst : t.nodes = plug (⟨.nil, first, rest⟩ :: ⟨left, n, right⟩ :: up :: outer) inner := h
      rw [children_focus hn hfirst] at hop
      cases inner with
      | nil => exact ⟨left, right, up, outer, first, rest, h, rfl, Option.some.inj hp, rfl, rfl⟩
      | node m d s => cases hop

end Elide

/-- A closing bracket that is accepted at a group elides it, and the focus moves to the parent of the
group. -/
theorem elided_of_insert {t u : Tree} (h : Reachable t) {group op next : NodeId}
    {operands : List NodeId} {n around : Node} {item : Item} (hg : t.get? group = some n)
    (hk : n.kind = .brace ⟨.round, .opening⟩) (hp : t.parent? group = some around)
    (hc : t.children group = op :: operands) (hop : t.children op = [])
    (hitem : item.kind = .brace ⟨.round, .closing⟩)
    (hok : t.insert group item = (u, .ok next)) :
    next = around.id ∧ Elided t u around.id group op operands := by
  have hw := h.wellFormed
  have hord : t.Orderly := h.edits.orderly orderly_start
  obtain ⟨left, right, up, outer, first, rest, ht, rfl, rfl, rfl, rfl⟩ :=
    exists_spine_of_group hw.nodup hg hp hc hop
  have hbrace : item.kind.brace? = some ⟨.round, .closing⟩ := by
    rw [hitem]
    rfl
  have hopening : n.kind.brace? = some ⟨.round, .opening⟩ := by
    rw [hk]
    rfl
  have hcloses := insert_closing hw.nodup ht hbrace rfl
  dsimp only at hcloses
  generalize t.insert n.id item = r at hcloses hok
  cases hcloses with
  | keep ho _ hgroup =>
    cases hopening.symm.trans ho
    cases hgroup
  | elide _ _ _ he =>
    obtain ⟨rfl, -, rfl⟩ := Forest.node.inj he
    have hedit := Edit.elide hg hopening rfl (by rw [hp]; rfl) (elide_node hw.nodup ht)
    have hfinish := finish_elided hw ht up.node.id
    dsimp only at hok hfinish
    rw [hok] at hfinish
    cases hfinish with
    | ok hset => exact ⟨rfl, elided_of_setup hord ht (hedit.orderly hord) hset⟩
  | refuse _ => cases hok

/-- The group stands in a block between two leaves. It holds an operator, a leaf and a command, which
keeps its own fragment. -/
theorem elided_of_insert_between :
    let leaf : Item := ⟨.identifier, "ID", none⟩
    let block : Item := ⟨.block, "\x7b", none⟩
    let group : Item := ⟨.brace ⟨.round, .opening⟩, "(", none⟩
    let close : Item := ⟨.brace ⟨.round, .closing⟩, ")", none⟩
    let t := ((((((((start.insert 0 block).1.insert 1 leaf).1.insert 1 group).1.insert 3
      ⟨.operator, "PLUS", none⟩).1.insert 3 leaf).1.insert 3 ⟨.command, "[", none⟩).1.insert 6
      ⟨.fragment, "cmd", some "x"⟩).1.insert 1 leaf).1
    Reachable t ∧ t.children 1 = [2, 3, 8] ∧ t.children 3 = [4, 5, 6] ∧ t.children 4 = [] ∧
      ∃ u, t.insert 3 close = (u, .ok 1) ∧ Elided t u 1 3 4 [5, 6] := by
  intro leaf block group close t
  have h : Reachable t := .tail (.tail (.tail (.tail (.tail (.tail (.tail (.tail .refl
    (.insert 0 block)) (.insert 1 leaf)) (.insert 1 group)) (.insert 3 _)) (.insert 3 leaf))
    (.insert 3 _)) (.insert 6 _)) (.insert 1 leaf)
  let opened : Node := ⟨group, 3, none, some 0, ⟨true, false, false, false⟩⟩
  let around : Node := ⟨block, 1, some 0, none, ⟨true, false, false, false⟩⟩
  have hg : t.get? 3 = some opened := by decide +kernel
  have hp : t.parent? 3 = some around := by decide +kernel
  have hc : t.children 3 = [4, 5, 6] := by decide +kernel
  have hop : t.children 4 = [] := by decide +kernel
  have hok : (t.insert 3 close).2 = .ok 1 := by decide +kernel
  rcases hins : t.insert 3 close with ⟨u, r⟩
  rw [hins] at hok
  obtain rfl : r = .ok 1 := hok
  have hresult := elided_of_insert h hg rfl hp hc hop rfl hins
  exact ⟨h, by decide +kernel, hc, hop, u, rfl, hresult.2⟩

end Tree
end BracketTree
