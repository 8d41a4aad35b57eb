import BracketTree.Proofs.Tree.Insert

/-! The scopes that the nodes of a tree record. A block has a scope of its own, and the table knows
the block and the scope around it; every edit keeps this. -/

namespace BracketTree
open Forest
set_option autoImplicit false

namespace ScopeTable

/-- The scope given and the scopes around it, from the inside out. -/
def around (t : ScopeTable) : Option ScopeId → List ScopeId
  | none => []
  | some id => t.chain id

variable {t u : ScopeTable}

theorem lt_size_of_get? {id : ScopeId} {s : Scope} (h : t.get? id = some s) : id < t.size :=
  (Array.getElem?_eq_some_iff.mp h).1

theorem chain_of_get? {id : ScopeId} {s : Scope} (h : t.get? id = some s)
    (houter : ∀ outer ∈ s.parent, outer < id) : t.chain id = id :: t.around s.parent := by
  rw [chain, parent?, h, Option.bind_some]
  cases hs : s.parent with
  | none => rfl
  | some outer =>
    dsimp only
    rw [if_pos (houter outer hs)]
    rfl

/-- The table `u` has all that `t` has. -/
def Extends (t u : ScopeTable) : Prop := ∀ id s, t.get? id = some s → u.get? id = some s

theorem Extends.refl (t : ScopeTable) : Extends t t := fun _ _ h => h

theorem extends_add (t : ScopeTable) (s : Scope) : Extends t (t.add s) := by
  intro id r h
  rw [get?_add, if_neg (Nat.ne_of_lt (lt_size_of_get? h)), h]

theorem Extends.size_le (h : Extends t u) : t.size ≤ u.size := by
  by_contra hlt
  obtain ⟨s, hs⟩ : ∃ s, t.get? u.size = some s :=
    ⟨_, Array.getElem?_eq_getElem (Nat.not_le.mp hlt)⟩
  exact Nat.lt_irrefl _ (lt_size_of_get? (h _ s hs))

end ScopeTable

namespace Node

/-- What the node records agrees with the table. -/
structure InScopes (table : ScopeTable) (n : Node) : Prop where
  block : n.scope.isSome = n.kind.isBlock
  inherited : ∀ s ∈ n.inherited, s < table.size
  own : ∀ s ∈ n.scope, table.get? s = some ⟨n.id, n.inherited⟩ ∧ ∀ r ∈ n.inherited, r < s

variable {table table' : ScopeTable} {n m : Node}

theorem InScopes.extends (h : n.InScopes table) (ht : ScopeTable.Extends table table') :
    n.InScopes table' := by
  refine ⟨h.block, fun s hs => Nat.lt_of_lt_of_le (h.inherited s hs) ht.size_le, fun s hs => ?_⟩
  obtain ⟨hget, hlt⟩ := h.own s hs
  exact ⟨ht _ _ hget, hlt⟩

theorem InScopes.remark (h : n.InScopes table) (hm : m = { n with marks := m.marks }) :
    m.InScopes table := by
  rw [hm]
  exact ⟨h.block, h.inherited, h.own⟩

theorem InScopes.scope_eq_none (h : n.InScopes table) (hk : n.kind ≠ .block) : n.scope = none := by
  have hb := h.block
  rw [Bool.eq_false_iff.mpr fun hblock => hk ((Kind.isBlock_iff _).mp hblock)] at hb
  exact Option.isSome_eq_false_iff.mp hb |> Option.isNone_iff_eq_none.mp

theorem InScopes.enclosing_eq (h : n.InScopes table) (hk : n.kind ≠ .block) :
    n.enclosing = n.inherited := by
  rw [enclosing, h.scope_eq_none hk]
  rfl

theorem InScopes.enclosing_lt (h : n.InScopes table) : ∀ s ∈ n.enclosing, s < table.size := by
  intro s hs
  rw [enclosing] at hs
  cases hscope : n.scope with
  | none =>
    rw [hscope] at hs
    exact h.inherited s hs
  | some r =>
    rw [hscope] at hs
    cases hs
    exact ScopeTable.lt_size_of_get? (h.own s hscope).1

theorem InScopes.around_enclosing (h : n.InScopes table) :
    table.around n.enclosing = n.scope.toList ++ table.around n.inherited := by
  rw [enclosing]
  cases hscope : n.scope with
  | none => rfl
  | some s =>
    obtain ⟨hget, hlt⟩ := h.own s hscope
    exact ScopeTable.chain_of_get? hget hlt

/-- A node that enters a tree, with the next scope of the table if it is a block. -/
theorem inScopes_enter {inherited : Option ScopeId} (hin : ∀ s ∈ inherited, s < table.size)
    (hn : n.scope = if n.kind.isBlock then some table.size else none)
    (hi : n.inherited = inherited) :
    n.InScopes (if n.kind.isBlock then table.add ⟨n.id, inherited⟩ else table) := by
  subst hi
  cases hk : n.kind.isBlock with
  | false =>
    rw [hk] at hn
    exact ⟨by rw [hn, hk]; rfl, hin, fun s hs => by simp [hn] at hs⟩
  | true =>
    rw [hk] at hn
    refine ⟨by rw [hn, hk]; rfl, fun s hs => ?_, fun s hs => ?_⟩
    · rw [if_pos rfl, ScopeTable.size_add]
      exact Nat.lt_succ_of_lt (hin s hs)
    · rw [hn] at hs
      cases hs
      exact ⟨by rw [if_pos rfl, ScopeTable.get?_add, if_pos rfl], hin⟩

end Node

namespace Tree

/-- Every node agrees with the table of scopes, and the root stands in none. -/
structure Scoped (t : Tree) : Prop where
  nodes : ∀ n ∈ t.nodes.preorder, n.InScopes t.scopes
  root : ∀ n ∈ t.nodes.preorder, n.id = rootId → n.inherited = none

theorem scoped_start : start.Scoped where
  nodes := by
    intro n hn
    obtain rfl := List.mem_singleton.mp hn
    refine ⟨rfl, ?_, ?_⟩ <;>
    · intro s hs
      cases hs
  root := by
    intro n hn _
    obtain rfl := List.mem_singleton.mp hn
    rfl

section Edit
variable {t u : Tree}

theorem Scoped.of_subset (h : t.Scoped) (hsub : u.nodes.preorder ⊆ t.nodes.preorder)
    (hu : u = { t with nodes := u.nodes }) : u.Scoped where
  nodes := by
    intro n hn
    rw [hu]
    exact h.nodes n (hsub hn)
  root := fun n hn => h.root n (hsub hn)

theorem Scoped.remark (h : t.Scoped) (id : NodeId) {f : Node → Node} (hf : Remarks f) :
    (t.modify id f).Scoped := by
  have hold : ∀ m ∈ (t.modify id f).nodes.preorder,
      ∃ n ∈ t.nodes.preorder, m = { n with marks := m.marks } := by
    intro m hm
    rw [Tree.modify, preorder_map] at hm
    obtain ⟨n, hn, rfl⟩ := List.mem_map.mp hm
    refine ⟨n, hn, ?_⟩
    split
    · exact hf n
    · rfl
  refine ⟨fun m hm => ?_, fun m hm hid => ?_⟩
  · obtain ⟨n, hn, he⟩ := hold m hm
    exact (h.nodes n hn).remark he
  · obtain ⟨n, hn, he⟩ := hold m hm
    rw [he] at hid ⊢
    exact h.root n hn hid

theorem enterScope_scopes (t : Tree) (id : NodeId) (kind : Kind) (inherited : Option ScopeId) :
    (t.enterScope id kind inherited).scopes =
      if kind.isBlock then t.scopes.add ⟨id, inherited⟩ else t.scopes := by
  rw [enterScope]
  split <;> rfl

theorem extends_enterScope (t : Tree) (id : NodeId) (kind : Kind) (inherited : Option ScopeId) :
    ScopeTable.Extends t.scopes (t.enterScope id kind inherited).scopes := by
  rw [enterScope_scopes]
  split
  · exact ScopeTable.extends_add _ _
  · exact .refl _

theorem mem_enterScope {id : NodeId} {kind : Kind} {inherited : Option ScopeId} {m : Node}
    (hm : m ∈ (t.enterScope id kind inherited).nodes.preorder) :
    m ∈ t.nodes.preorder ∨ ∃ n ∈ t.nodes.preorder, n.id = id ∧ m.toItem = n.toItem ∧ m.id = id ∧
      m.inherited = inherited ∧ m.scope = if kind.isBlock then some t.scopes.size else n.scope := by
  rw [enterScope] at hm
  split at hm <;>
  · dsimp only [Tree.modify] at hm
    rw [preorder_map] at hm
    obtain ⟨n, hn, rfl⟩ := List.mem_map.mp hm
    split
    · next hid => exact .inr ⟨n, hn, hid, rfl, hid, rfl, by simp [Node.markInitialized, *]⟩
    · exact .inl hn

theorem Scoped.enterScope (h : t.Scoped) (hn : t.ids.Nodup) {id : NodeId} {n outer : Node}
    (hg : t.get? id = some n) (hp : t.parent? id = some outer) (hroot : id ≠ rootId) :
    (t.enterScope id n.kind outer.enclosing).Scoped := by
  have hext := extends_enterScope t id n.kind outer.enclosing
  have hlive := ((parent?_eq_some_iff hn id outer).mp hp).1
  have houter := (h.nodes outer (mem_of_get? hlive)).enclosing_lt
  refine ⟨fun m hm => ?_, fun m hm hid => ?_⟩
  · rcases mem_enterScope hm with hold | ⟨k, hk, hkid, hitem, hmid, hin, hscope⟩
    · exact (h.nodes m hold).extends hext
    · obtain rfl : k = n := Option.some.inj ((hkid ▸ get?_of_mem hn hk).symm.trans hg)
      have hkind : m.kind = k.kind := congrArg Item.kind hitem
      rw [enterScope_scopes, ← hkind, ← hmid]
      refine Node.inScopes_enter houter ?_ hin
      rw [hscope, hkind]
      split
      · rfl
      · next hb => exact (h.nodes k hk).scope_eq_none fun he => hb ((Kind.isBlock_iff _).mpr he)
  · rcases mem_enterScope hm with hold | ⟨k, -, -, -, hmid, -⟩
    · exact h.root m hold hid
    · exact absurd (hmid.symm.trans hid) hroot

theorem mem_attach (hw : t.WellFormed) {n m : Node} (hn : t.get? n.id = some n) {item : Item}
    (hitem : ∀ b, item.kind.brace? = some b → b.isOpening = true)
    (hm : m ∈ (t.attach n item).nodes.preorder) :
    m ∈ t.nodes.preorder ∨ m = t.entrant n item := by
  obtain ⟨left, right, outer, c, he, -⟩ := exists_spine_of_get? hn
  have hu : (t.attach n item).nodes = _ := @attach_focus _ ⟨left, n, right⟩ _ _ hw he _ hitem
  rw [hu, (preorder_plug_perm _ _).mem_iff, preorder_append] at hm
  rw [he, (preorder_plug_perm _ _).mem_iff]
  simp only [List.mem_append, preorder_leaf, List.mem_singleton] at hm ⊢
  rcases hm with (hm | hm) | hm
  · exact .inl (.inl hm)
  · exact .inr hm
  · exact .inl (.inr hm)

theorem extends_attach (t : Tree) (n : Node) (item : Item) :
    ScopeTable.Extends t.scopes (t.attach n item).scopes :=
  extends_enterScope (t.append n.id item) t.nextId item.kind n.enclosing

theorem Scoped.attach (h : t.Scoped) (hw : t.WellFormed) {n : Node} (hn : t.get? n.id = some n)
    {item : Item} (hitem : ∀ b, item.kind.brace? = some b → b.isOpening = true) :
    (t.attach n item).Scoped := by
  refine ⟨fun m hm => ?_, fun m hm hid => ?_⟩
  · rcases mem_attach hw hn hitem hm with hold | rfl
    · exact (h.nodes m hold).extends (extends_attach t n item)
    · rw [Tree.attach, enterScope_scopes]
      exact Node.inScopes_enter (n := t.entrant n item) (h.nodes n (mem_of_get? hn)).enclosing_lt
        rfl rfl
  · rcases mem_attach hw hn hitem hm with hold | rfl
    · exact h.root m hold hid
    · obtain ⟨r, d, hr, hrid, -⟩ := hw.rooted
      have hlt := hw.bounded r (by simp [hr])
      rw [hrid, ← show t.nextId = rootId from hid] at hlt
      exact absurd hlt (Nat.lt_irrefl _)

theorem removeFrom_subset {parent child : NodeId} (hn : t.ids.Nodup)
    (hu : t.removeFrom parent child = .ok u) :
    u.nodes.preorder ⊆ t.nodes.preorder ∧ u = { t with nodes := u.nodes } := by
  rw [removeFrom] at hu
  split at hu
  · next hlive =>
    split at hu
    · cases hu
      obtain ⟨n, hg⟩ := Option.isSome_iff_exists.mp hlive
      obtain ⟨left, right, outer, c, he, rfl⟩ := exists_spine_of_get? hg
      refine ⟨fun m hm => ?_, rfl⟩
      dsimp only at hm
      rw [he, (selects hn he).mapChildren, (preorder_plug_perm _ _).mem_iff] at hm
      rw [he, (preorder_plug_perm _ _).mem_iff]
      rcases List.mem_append.mp hm with hm | hm
      · exact List.mem_append_left _ ((preorder_takeUntil_sublist _ c).subset hm)
      · exact List.mem_append_right _ hm
    · cases hu
  · cases hu

theorem elide_subset {group first : NodeId} {n : Node} (hn : t.ids.Nodup)
    (hg : t.get? group = some n) (hu : t.elide group = .ok (u, first)) :
    u.nodes.preorder ⊆ t.nodes.preorder ∧ u = { t with nodes := u.nodes } := by
  obtain ⟨left, right, outer, c, he, rfl⟩ := exists_spine_of_get? hg
  rcases c with _ | ⟨m, _ | _, rest⟩
  · simp [elide_nil hn he] at hu
  · simp only [elide_node hn he, Except.ok.injEq, Prod.mk.injEq] at hu
    obtain ⟨rfl, -⟩ := hu
    refine ⟨fun k hk => ?_, rfl⟩
    dsimp only at hk
    rw [(preorder_plug_perm _ _).mem_iff] at hk
    rw [he, (preorder_plug_perm _ _).mem_iff]
    simp only [beside, preorder_node, List.mem_append, List.mem_cons] at hk ⊢
    tauto
  · simp [elide_of_children hn he (by simp)] at hu

theorem Edit.scoped (he : Edit t u) (hw : t.WellFormed) (h : t.Scoped) : u.Scoped := by
  cases he with
  | @enter id n outer hg hp =>
    refine h.enterScope hw.nodup hg hp ?_
    rintro rfl
    rw [(hw.coherent).root_parent] at hp
    cases hp
  | setUp => exact h.remark _ fun _ => rfl
  | analyse => exact h.remark _ fun _ => rfl
  | evaluate => exact h.remark _ fun _ => rfl
  | attach hn hitem => exact h.attach hw hn hitem
  | remove hu =>
    obtain ⟨hsub, he⟩ := removeFrom_subset hw.nodup hu
    exact h.of_subset hsub he
  | elide hn _ _ _ hu =>
    obtain ⟨hsub, he⟩ := elide_subset hw.nodup hn hu
    exact h.of_subset hsub he

theorem Edits.scoped (he : Edits t u) (hw : t.WellFormed) (h : t.Scoped) : u.Scoped := by
  induction he with
  | refl => exact h
  | tail hbefore hlast ih => exact hlast.scoped (Edits.wellFormed hbefore hw) ih

end Edit

end Tree
end BracketTree
