import BracketTree.Proofs.Tree.Edit
import Mathlib.Data.List.Chain
import Mathlib.Data.List.Nodup

/-! The trees that the public operations can make, in any order, at any node, failing or not. Main
statement: all of them are coherent, that is, parents and lists of children agree and every live
node hangs under the root. -/

namespace BracketTree.Tree
open Forest
set_option autoImplicit false

/-! ## Edits keep a tree well formed -/

theorem WellFormed.modify {t : Tree} (hw : t.WellFormed) {f : Node → Node} (id : NodeId)
    (hid : ∀ n, (f n).id = n.id) (hkind : ∀ n, (f n).kind = n.kind) :
    (t.modify id f).WellFormed := by
  have hmem : ∀ m ∈ (t.modify id f).nodes.preorder,
      ∃ n ∈ t.nodes.preorder, m.id = n.id ∧ m.kind = n.kind := by
    intro m hm
    rw [Tree.modify, preorder_map] at hm
    obtain ⟨n, hn, rfl⟩ := List.mem_map.mp hm
    refine ⟨n, hn, ?_⟩
    split
    · exact ⟨hid n, hkind n⟩
    · exact ⟨rfl, rfl⟩
  refine ⟨(ids_modify hid t id).symm ▸ hw.nodup, ?_, ?_, ?_⟩
  · intro m hm
    obtain ⟨n, hn, he, -⟩ := hmem m hm
    exact he ▸ hw.bounded n hn
  · obtain ⟨r, c, hr, hrid, hrkind⟩ := hw.rooted
    refine ⟨_, _, by rw [Tree.modify, hr, map_node, map_nil], ?_, ?_⟩
    · split
      · exact (hid r).trans hrid
      · exact hrid
    · split
      · exact (hkind r).trans hrkind
      · exact hrkind
  · intro m hm b hb
    obtain ⟨n, hn, -, he⟩ := hmem m hm
    exact hw.opening n hn b (he ▸ hb)

theorem WellFormed.enterScope {t : Tree} (hw : t.WellFormed) (id : NodeId) (kind : Kind)
    (inherited : Option ScopeId) : (t.enterScope id kind inherited).WellFormed := by
  rw [Tree.enterScope]
  split
  · have hm := hw.modify (f := fun n =>
      { n with inherited := inherited, scope := some t.scopes.size }.markInitialized) id
      (fun _ => rfl) (fun _ => rfl)
    exact ⟨hm.nodup, hm.bounded, hm.rooted, hm.opening⟩
  · exact hw.modify id (fun _ => rfl) (fun _ => rfl)

theorem WellFormed.append {t : Tree} (hw : t.WellFormed) {n : Node} (hn : t.get? n.id = some n)
    {item : Item} (hitem : ∀ b, item.kind.brace? = some b → b.isOpening = true) :
    (t.append n.id item).WellFormed := by
  obtain ⟨left, right, outer, c, he, -⟩ := exists_spine_of_get? hn
  have hids := hw.nodup
  rw [nodup_ids_plug he, List.map_append, List.nodup_append] at hids
  refine hw.replace he (nodes_append_focus hw.nodup he item) (by simp) (Nat.le_succ _) ?_ ?_
  · rw [preorder_append, preorder_leaf, List.map_append, List.nodup_append]
    refine ⟨hids.1, by simp, ?_⟩
    intro i hi j hj hij
    obtain ⟨m, hm, rfl⟩ := List.mem_map.mp hi
    have hlt := hw.bounded m (by
      rw [he, (preorder_plug_perm _ _).mem_iff]
      exact List.mem_append.mpr (.inl hm))
    have hnew : j = t.nextId := List.mem_singleton.mp hj
    exact absurd hlt (by rw [hij, hnew]; exact Nat.lt_irrefl _)
  · intro m hm
    rw [preorder_append, preorder_leaf] at hm
    rcases List.mem_append.mp hm with hm | hm
    · exact .inl hm
    · obtain rfl := List.mem_singleton.mp hm
      exact .inr ⟨Nat.le_refl _, Nat.lt_succ_self _, hitem⟩

theorem preorder_takeUntil_sublist (p : Node → Bool) (f : Forest Node) :
    (f.takeUntil p).preorder.Sublist f.preorder := by
  induction f with
  | nil => exact .slnil
  | node a c s _ hs =>
    rw [takeUntil]
    split
    · exact List.nil_sublist _
    · exact .cons_cons a ((List.Sublist.refl _).append hs)

theorem WellFormed.removeFrom {t u : Tree} (hw : t.WellFormed) {parent child : NodeId}
    (h : t.removeFrom parent child = .ok u) : u.WellFormed := by
  rw [Tree.removeFrom] at h
  split at h
  · next hlive =>
    obtain ⟨n, hn⟩ := Option.isSome_iff_exists.mp hlive
    obtain rfl := id_of_get? hn
    obtain ⟨left, right, outer, c, he, -⟩ := exists_spine_of_get? hn
    have hids := hw.nodup
    rw [nodup_ids_plug he, List.map_append, List.nodup_append] at hids
    split at h
    · cases h
      have hsub := preorder_takeUntil_sublist (Node.hasId child) c
      refine hw.replace he ?_ (by simp) (Nat.le_refl _) (hids.1.sublist (hsub.map _)) ?_
      · dsimp only
        rw [he, (selects hw.nodup he).mapChildren]
      · intro m hm
        exact .inl (hsub.subset hm)
    · cases h
  · cases h

theorem WellFormed.elide {t u : Tree} (hw : t.WellFormed) {group first : NodeId} {n : Node}
    (hn : t.get? group = some n) (hp : (t.parent? group).isSome = true)
    (h : t.elide group = .ok (u, first)) : u.WellFormed := by
  obtain ⟨left, right, outer, c, he, rfl⟩ := exists_spine_of_get? hn
  rw [parent?_focus hw.nodup he] at hp
  have hne : outer ≠ [] := by
    rintro rfl
    cases hp
  cases c with
  | nil => simp [elide_nil hw.nodup he] at h
  | node m inner rest =>
    cases inner with
    | node a d s => simp [elide_of_children hw.nodup he (by simp)] at h
    | nil =>
      simp only [elide_node hw.nodup he, Except.ok.injEq, Prod.mk.injEq] at h
      obtain ⟨rfl, rfl⟩ := h
      have hsub : (left ++ node m rest right).preorder.Sublist
          (left ++ node n (node m .nil rest) right).preorder := by
        simp
      have he' : t.nodes = plug outer (left ++ node n (node m .nil rest) right) := he
      have hids := hw.nodup
      rw [ids, he', ((preorder_plug_perm _ _).map _).nodup_iff, List.map_append,
        List.nodup_append] at hids
      exact hw.replace he' rfl hne (Nat.le_refl _) (hids.1.sublist (hsub.map _))
        fun m hm => .inl (hsub.subset hm)

theorem Edit.wellFormed {t u : Tree} (h : Edit t u) (hw : t.WellFormed) : u.WellFormed := by
  cases h with
  | enter => exact hw.enterScope _ _ _
  | setUp => exact hw.modify _ (fun _ => rfl) (fun _ => rfl)
  | analyse => exact hw.modify _ (fun _ => rfl) (fun _ => rfl)
  | evaluate => exact hw.modify _ (fun _ => rfl) (fun _ => rfl)
  | attach hn hitem => exact (hw.append hn hitem).enterScope _ _ _
  | remove h => exact hw.removeFrom h
  | elide hn _ _ hp h => exact hw.elide hn hp h

theorem Edits.wellFormed {t u : Tree} (h : Edits t u) (hw : t.WellFormed) : u.WellFormed := by
  induction h with
  | refl => exact hw
  | tail _ he ih => exact he.wellFormed ih

/-! ## The operations -/

/-- One public operation, at any node, whatever comes of it. -/
inductive Step (t : Tree) : Tree → Prop where
  | insert (focus : NodeId) (item : Item) : Step t (t.insert focus item).1
  | initNode {id : NodeId} {u : Tree} : t.initNode id = .ok u → Step t u
  | setupNode (id : NodeId) : Step t (t.setupNode id).1
  | setupAsParent (id : NodeId) : Step t (t.setupAsParent id).1
  | evaluateNode {σ : Type} (ev : Evaluator σ) (id : NodeId) (s : σ) :
      Step t (t.evaluateNode ev id s).tree
  | evaluateProgram {σ : Type} (ev : Evaluator σ) (s : σ) : Step t (t.evaluateProgram ev s).tree
  | removeFrom {parent child : NodeId} {u : Tree} : t.removeFrom parent child = .ok u → Step t u
  | recover (e : TreeError) (problem : NodeId) : Step t (t.recover e problem).1

def Reachable (t : Tree) : Prop := Relation.ReflTransGen Step start t

theorem Step.edits {t u : Tree} (h : Step t u) (hw : t.WellFormed) : Edits t u := by
  cases h with
  | insert focus item => exact insert_edits t focus item
  | initNode h => exact (initNode_edit h).edits
  | setupNode id => exact setupNode_edits t id
  | setupAsParent id => exact setupAsParent_edits t id
  | evaluateNode ev id s => exact evaluateNode_edits hw.nodup ev id s
  | evaluateProgram ev s => exact evaluateProgram_edits hw ev s
  | removeFrom h => exact (Edit.remove h).edits
  | recover e problem => exact recover_edits t e problem

theorem Reachable.wellFormed {t : Tree} (h : Reachable t) : t.WellFormed := by
  induction h with
  | refl => exact wellFormed_start
  | tail _ hs ih => exact (hs.edits ih).wellFormed ih

theorem Reachable.edits {t : Tree} (h : Reachable t) : Edits start t := by
  induction h with
  | refl => exact .refl
  | tail hr hs ih => exact ih.trans (hs.edits (Reachable.wellFormed hr))

/-! ## Parents and children -/

theorem parent?_eq_some_iff {t : Tree} (hn : t.ids.Nodup) (id : NodeId) (p : Node) :
    t.parent? id = some p ↔ t.get? p.id = some p ∧ id ∈ t.children p.id := by
  constructor
  · intro h
    cases hg : t.get? id with
    | none =>
      rw [parent?, lineage_eq_nil hg] at h
      cases h
    | some n =>
      obtain ⟨left, right, outer, c, he, rfl⟩ := exists_spine_of_get? hg
      rw [parent?_focus hn he] at h
      obtain ⟨fr, hfr, rfl⟩ := Option.map_eq_some_iff.mp h
      obtain ⟨outer, rfl⟩ := List.head?_eq_some_iff.mp hfr
      have he' : t.nodes = plug (fr :: outer) (left ++ .node n c right) := he
      refine ⟨get?_focus hn he', ?_⟩
      rw [children_focus hn he']
      simp
  · rintro ⟨hg, hmem⟩
    obtain ⟨left, right, outer, c, he, -⟩ := exists_spine_of_get? hg
    rw [children_focus hn he] at hmem
    obtain ⟨n, hroot, rfl⟩ := List.mem_map.mp hmem
    obtain ⟨l, d, r, rfl⟩ := exists_append_of_mem_roots hroot
    have he' : t.nodes = plug (⟨l, n, r⟩ :: ⟨left, p, right⟩ :: outer) d := he
    exact parent?_focus hn he'

theorem nodup_children {t : Tree} (hn : t.ids.Nodup) (id : NodeId) : (t.children id).Nodup :=
  (nodup_below hn id).of_cons.sublist ((roots_sublist_preorder _).map _)

/-- Along a spine each node is the parent of the one before it. -/
theorem isChain_spine {t : Tree} {fr : Frame Node} {outer : List (Frame Node)} {c : Forest Node}
    (hn : t.ids.Nodup) (h : t.nodes = plug (fr :: outer) c) :
    ((fr :: outer).map fun g => g.node.id).IsChain
      fun a b => (t.parent? a).map Node.id = some b := by
  induction outer generalizing fr c with
  | nil => exact .singleton _
  | cons g outer ih =>
    have h' : t.nodes = plug (g :: outer) (fr.left ++ .node fr.node c fr.right) := h
    refine .cons_cons ?_ (ih h')
    rw [parent?_focus hn h]
    rfl

theorem spine_nodup {t : Tree} {fr : Frame Node} {outer : List (Frame Node)} {c : Forest Node}
    (hn : t.ids.Nodup) (h : t.nodes = plug (fr :: outer) c) :
    ((fr :: outer).map fun g => g.node.id).Nodup := by
  rw [nodup_ids_plug h, List.map_append, List.nodup_append] at hn
  have hsub := (nodes_sublist_beside (fr :: outer)).map Node.id
  rw [List.map_map] at hsub
  exact hn.2.1.sublist hsub

theorem contains_iff_mem_ids {t : Tree} (hn : t.ids.Nodup) (id : NodeId) :
    t.contains id = true ↔ id ∈ t.ids := by
  rw [contains, Option.isSome_iff_exists]
  constructor
  · rintro ⟨n, hg⟩
    exact id_of_get? hg ▸ List.mem_map_of_mem (mem_of_get? hg)
  · intro hid
    obtain ⟨n, hm, rfl⟩ := List.mem_map.mp hid
    exact ⟨n, get?_of_mem hn hm⟩

theorem contains_of_mem_children {t : Tree} (hn : t.ids.Nodup) {id child : NodeId}
    (h : child ∈ t.children id) : t.contains child = true := by
  obtain ⟨n, hm, rfl⟩ := List.mem_map.mp h
  rw [contains, get?_of_mem hn (mem_of_mem_below (mem_preorder_of_mem_roots hm))]
  rfl

theorem parent?_of_mem_children {t : Tree} (hn : t.ids.Nodup) {id q : NodeId}
    (h : id ∈ t.children q) : (t.parent? id).map Node.id = some q := by
  cases hg : t.get? q with
  | none =>
    rw [children, below_eq_nil hg] at h
    cases h
  | some m =>
    obtain rfl := id_of_get? hg
    rw [(parent?_eq_some_iff hn id m).mpr ⟨hg, h⟩]
    rfl

theorem map_id_parent?_eq_some_iff {t : Tree} (hn : t.ids.Nodup) (id q : NodeId) :
    (t.parent? id).map Node.id = some q ↔ id ∈ t.children q := by
  refine ⟨fun h => ?_, parent?_of_mem_children hn⟩
  obtain ⟨p, hp, rfl⟩ := Option.map_eq_some_iff.mp h
  exact ((parent?_eq_some_iff hn id p).mp hp).2

/-- The spine of a live node of a well-formed tree ends at the root. -/
theorem WellFormed.exists_spine {t : Tree} (hw : t.WellFormed) {id : NodeId} {n : Node}
    (h : t.get? id = some n) : ∃ left right outer c,
      t.nodes = plug (⟨left, n, right⟩ :: outer) c ∧
      ((⟨left, n, right⟩ :: outer).map fun g => g.node.id).getLast? = some rootId := by
  obtain ⟨left, right, outer, c, he, -⟩ := exists_spine_of_get? h
  obtain ⟨r, d, hroot, hrid, -⟩ := hw.rooted
  obtain ⟨inner, hi, -⟩ := exists_spine_below (he.symm.trans hroot) (by simp)
  refine ⟨left, right, outer, c, he, ?_⟩
  rw [hi]
  simp [hrid]

/-- What a reader of the tree relies on: every node but the root is the child of exactly one node,
and the way up from it ends at the root. -/
structure Coherent (t : Tree) : Prop where
  root_live : t.contains rootId = true
  root_parent : t.parent? rootId = none
  parent_live : ∀ id, t.contains id = true → id ≠ rootId → ∃ p, t.parent? id = some p ∧
    t.contains p.id = true ∧ (t.children p.id).count id = 1 ∧
    ∀ q, id ∈ t.children q → q = p.id
  children_live : ∀ id, ∀ child ∈ t.children id, t.contains child = true
  way_up : ∀ id, t.contains id = true → ∃ way : List NodeId, way.head? = some id ∧
    way.getLast? = some rootId ∧ way.Nodup ∧
    way.IsChain fun a b => (t.parent? a).map Node.id = some b
  no_closing : ∀ id n, t.get? id = some n → ∀ b, n.kind.brace? = some b → b.isOpening = true
  descendants_nodup : (t.descendants rootId).Nodup
  mem_descendants : ∀ id, id ∈ t.descendants rootId ↔ t.contains id = true
  size_eq : t.size = (t.descendants rootId).length

theorem WellFormed.coherent {t : Tree} (hw : t.WellFormed) : t.Coherent := by
  have hn := hw.nodup
  obtain ⟨r, c, hroot, hrid, -⟩ := hw.rooted
  have hspine : t.nodes = plug [⟨.nil, r, .nil⟩] c := hroot
  have hdesc : t.descendants rootId = t.ids := by
    rw [← hrid, descendants_focus hn hspine, ids, hroot]
    simp
  refine ⟨?_, ?_, ?_, fun id child => contains_of_mem_children hn, ?_, ?_, hdesc ▸ hn,
    fun id => hdesc ▸ (contains_iff_mem_ids hn id).symm, ?_⟩
  · rw [contains, ← hrid, get?_focus hn hspine]
    rfl
  · rw [← hrid, parent?_focus hn hspine]
    rfl
  · intro id hid hne
    obtain ⟨n, hg⟩ := Option.isSome_iff_exists.mp hid
    obtain rfl := id_of_get? hg
    obtain ⟨left, right, outer, d, he, hlast⟩ := hw.exists_spine hg
    cases outer with
    | nil => exact absurd (Option.some.inj hlast) hne
    | cons fr outer =>
      have hp : t.parent? n.id = some fr.node := parent?_focus hn he
      obtain ⟨hpg, hmem⟩ := (parent?_eq_some_iff hn _ _).mp hp
      refine ⟨fr.node, hp, by rw [contains, hpg]; rfl,
        List.count_eq_one_of_mem (nodup_children hn _) hmem, ?_⟩
      intro q hq
      have hpq := parent?_of_mem_children hn hq
      rw [hp] at hpq
      exact (Option.some.inj hpq).symm
  · intro id hid
    obtain ⟨n, hg⟩ := Option.isSome_iff_exists.mp hid
    obtain rfl := id_of_get? hg
    obtain ⟨left, right, outer, d, he, hlast⟩ := hw.exists_spine hg
    exact ⟨_, rfl, hlast, spine_nodup hn he, isChain_spine hn he⟩
  · intro id n hg b hb
    exact hw.opening n (mem_of_get? hg) b hb
  · rw [hdesc, size, ids, List.length_map, length_preorder]

theorem coherent_of_reachable {t : Tree} (h : Reachable t) : t.Coherent := h.wellFormed.coherent

/-- A group is closed in the middle of its siblings: node 3 enters after it, node 2 replaces it. -/
theorem coherent_after_elision :
    let group : Item := ⟨.brace ⟨.round, .opening⟩, "(", none⟩
    let close : Item := ⟨.brace ⟨.round, .closing⟩, ")", none⟩
    let leaf : Item := ⟨.identifier, "ID", some "x"⟩
    let t := ((((start.insert 0 group).1.insert 1 leaf).1.insert 0 leaf).1.insert 1 close).1
    Reachable t ∧ t.children rootId = [2, 3] ∧ t.Coherent := by
  intro group close leaf t
  have h : Reachable t := .tail (.tail (.tail (.tail .refl (.insert 0 group)) (.insert 1 leaf))
    (.insert 0 leaf)) (.insert 1 close)
  exact ⟨h, by decide, coherent_of_reachable h⟩

end BracketTree.Tree
