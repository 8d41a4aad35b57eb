import BracketTree.Proofs.Tree.Reachable
import BracketTree.Proofs.Tree.Scopes
import Mathlib.Data.List.Perm.Subperm

/-! The table of scopes is well founded under any use: a scope stands only in scopes made before it, so
the way outwards from a scope ends. A block that is initialized again gets a new scope, and the former
one stays in the table without a node. -/

namespace BracketTree
open Forest
set_option autoImplicit false

namespace ScopeTable

/-- The way outwards from the scope `id`: each scope is the one around the scope before it, and around
the last there is none. -/
structure Outwards (t : ScopeTable) (id : ScopeId) (way : List ScopeId) : Prop where
  head : way.head? = some id
  steps : way.IsChain fun inner outer => t.parent? inner = some outer
  ends : ∃ last s, way.getLast? = some last ∧ t.get? last = some s ∧ s.parent = none
  nodup : way.Nodup
  made : ∀ a ∈ way, ∃ s, t.get? a = some s

/-- Every scope stands in one that was made before it. -/
def Grounded (t : ScopeTable) : Prop := ∀ id s, t.get? id = some s → ∀ outer ∈ s.parent, outer < id

variable {t : ScopeTable} {id : ScopeId} {s : Scope}

theorem exists_get?_of_lt_size (h : id < t.size) : ∃ s, t.get? id = some s :=
  ⟨_, Array.getElem?_eq_getElem h⟩

theorem grounded_empty : empty.Grounded := by
  intro id s h
  exact absurd (lt_size_of_get? h) (Nat.not_lt_zero id)

theorem Grounded.add (h : t.Grounded) (hs : ∀ outer ∈ s.parent, outer < t.size) :
    (t.add s).Grounded := by
  intro id r hr
  rw [get?_add] at hr
  split at hr
  · next hid =>
    cases hr
    rw [hid]
    exact hs
  · exact h id r hr

theorem Grounded.exists_outer (h : t.Grounded) (hs : t.get? id = some s) {outer : ScopeId}
    (houter : s.parent = some outer) : ∃ r, t.get? outer = some r := by
  have hlt := h id s hs outer houter
  exact exists_get?_of_lt_size (Nat.lt_trans hlt (lt_size_of_get? hs))

theorem Grounded.chain_of_none (h : t.Grounded) (hs : t.get? id = some s) (hp : s.parent = none) :
    t.chain id = [id] := by
  rw [chain_of_get? hs (h id s hs), hp]
  rfl

theorem Grounded.chain_of_some (h : t.Grounded) (hs : t.get? id = some s) {outer : ScopeId}
    (hp : s.parent = some outer) : t.chain id = id :: t.chain outer := by
  rw [chain_of_get? hs (h id s hs), hp]
  rfl

/-- Induction from the outermost scope inwards. -/
theorem Grounded.induct {motive : ScopeId → Prop} (h : t.Grounded)
    (outermost : ∀ id s, t.get? id = some s → s.parent = none → motive id)
    (inner : ∀ id s outer, t.get? id = some s → s.parent = some outer → outer < id → motive outer →
      motive id) : ∀ id s, t.get? id = some s → motive id := by
  intro id
  induction id using Nat.strong_induction_on with
  | _ id ih =>
    intro s hs
    cases hp : s.parent with
    | none => exact outermost id s hs hp
    | some outer =>
      obtain ⟨r, hr⟩ := h.exists_outer hs hp
      have hlt := h id s hs outer hp
      exact inner id s outer hs hp hlt (ih outer hlt r hr)

theorem Grounded.le_of_mem_chain (h : t.Grounded) :
    ∀ id s, t.get? id = some s → ∀ a ∈ t.chain id, a ≤ id := by
  refine h.induct (motive := fun id => ∀ a ∈ t.chain id, a ≤ id) ?_ ?_
  · intro id s hs hp a ha
    rw [h.chain_of_none hs hp] at ha
    exact Nat.le_of_eq (List.mem_singleton.mp ha)
  · intro id s outer hs hp hlt ih a ha
    rw [h.chain_of_some hs hp] at ha
    rcases List.mem_cons.mp ha with rfl | ha
    · exact Nat.le_refl _
    · exact Nat.le_trans (ih a ha) (Nat.le_of_lt hlt)

/-- `chain` would stop at a scope that is not earlier; here none is, so it is the whole way. -/
theorem Grounded.outwards (h : t.Grounded) :
    ∀ id s, t.get? id = some s → t.Outwards id (t.chain id) := by
  refine h.induct (motive := fun id => t.Outwards id (t.chain id)) ?_ ?_
  · intro id s hs hp
    rw [h.chain_of_none hs hp]
    exact ⟨rfl, .singleton id, ⟨id, s, rfl, hs, hp⟩, List.nodup_singleton id, by simp [hs]⟩
  · intro id s outer hs hp hlt hway
    rw [h.chain_of_some hs hp]
    refine ⟨rfl, ?_, ?_, ?_, ?_⟩
    · refine List.isChain_cons.mpr ⟨?_, hway.steps⟩
      intro a ha
      rw [hway.head] at ha
      cases ha
      rw [parent?, hs, Option.bind_some, hp]
    · obtain ⟨last, q, hlast, hq⟩ := hway.ends
      refine ⟨last, q, ?_, hq⟩
      rw [List.getLast?_cons, hlast]
      rfl
    · refine List.nodup_cons.mpr ⟨?_, hway.nodup⟩
      intro hid
      obtain ⟨r, hr⟩ := h.exists_outer hs hp
      exact Nat.lt_irrefl _ (Nat.lt_of_le_of_lt (h.le_of_mem_chain outer r hr id hid) hlt)
    · intro a ha
      rcases List.mem_cons.mp ha with rfl | ha
      · exact ⟨s, hs⟩
      · exact hway.made a ha

/-- A way that repeats no scope is not longer than the table. -/
theorem Outwards.length_le {way : List ScopeId} (h : t.Outwards id way) : way.length ≤ t.size := by
  have hsub : way ⊆ List.range t.size := by
    intro a ha
    obtain ⟨s, hs⟩ := h.made a ha
    exact List.mem_range.mpr (lt_size_of_get? hs)
  have hle := (List.Nodup.subperm h.nodup hsub).length_le
  rwa [List.length_range] at hle

end ScopeTable

namespace Tree

variable {t u : Tree}

theorem grounded_enterScope (h : t.scopes.Grounded) {outer : Option ScopeId}
    (houter : ∀ s ∈ outer, s < t.scopes.size) (id : NodeId) (kind : Kind) :
    (t.enterScope id kind outer).scopes.Grounded := by
  rw [enterScope_scopes]
  split
  · exact h.add houter
  · exact h

/-- An edit adds at most one scope, in the scope of a live node. -/
theorem Edit.grounded (he : Edit t u) (hw : t.WellFormed) (hs : t.Scoped)
    (h : t.scopes.Grounded) : u.scopes.Grounded := by
  have hlive : ∀ {n : Node}, t.get? n.id = some n → ∀ s ∈ n.enclosing, s < t.scopes.size :=
    fun hn => (hs.nodes _ (mem_of_get? hn)).enclosing_lt
  cases he with
  | enter hn hp =>
    have houter := ((parent?_eq_some_iff hw.nodup _ _).mp hp).1
    exact grounded_enterScope h (hlive houter) _ _
  | setUp => exact h
  | analyse => exact h
  | evaluate => exact h
  | @attach n item hn hitem =>
    exact grounded_enterScope (t := t.append n.id item) h (hlive hn) _ _
  | remove hu =>
    rw [congrArg Tree.scopes (removeFrom_subset hw.nodup hu).2]
    exact h
  | elide hn _ _ _ hu =>
    rw [congrArg Tree.scopes (elide_subset hw.nodup hn hu).2]
    exact h

theorem Edits.grounded (he : Edits t u) (hw : t.WellFormed) (hs : t.Scoped)
    (h : t.scopes.Grounded) : u.scopes.Grounded := by
  induction he with
  | refl => exact h
  | tail hbefore hlast ih =>
    exact hlast.grounded (Edits.wellFormed hbefore hw) (Edits.scoped hbefore hw hs) ih

/-- What a reader of the scopes relies on: the way outwards from every scope ends, and every block has
a scope that no other node has. -/
structure ScopesSound (t : Tree) : Prop where
  earlier : ∀ id s, t.scopes.get? id = some s → ∀ outer ∈ s.parent,
    outer < id ∧ ∃ r, t.scopes.get? outer = some r
  outwards : ∀ id s, t.scopes.get? id = some s → t.scopes.Outwards id (t.scopes.chain id)
  depth_outermost : ∀ id s, t.scopes.get? id = some s → s.parent = none → t.scopes.depth id = 1
  depth_inner : ∀ id s outer, t.scopes.get? id = some s → s.parent = some outer →
    t.scopes.depth id = 1 + t.scopes.depth outer
  depth_le : ∀ id s, t.scopes.get? id = some s → t.scopes.depth id ≤ t.scopes.size
  block : ∀ id n, t.get? id = some n → (n.scope.isSome = true ↔ n.kind = .block)
  own : ∀ id n s, t.get? id = some n → n.scope = some s → t.scopes.get? s = some ⟨id, n.inherited⟩
  apart : ∀ id n id' n' s, t.get? id = some n → t.get? id' = some n' → n.scope = some s →
    n'.scope = some s → id = id'

theorem Scoped.sound (hs : t.Scoped) (h : t.scopes.Grounded) : t.ScopesSound := by
  have hown : ∀ id n s, t.get? id = some n → n.scope = some s →
      t.scopes.get? s = some ⟨id, n.inherited⟩ := by
    intro id n s hn hscope
    rw [← id_of_get? hn]
    exact ((hs.nodes n (mem_of_get? hn)).own s hscope).1
  refine ⟨?_, h.outwards, ?_, ?_, ?_, ?_, hown, ?_⟩
  · intro id s hget outer houter
    exact ⟨h id s hget outer houter, h.exists_outer hget houter⟩
  · intro id s hget hp
    rw [ScopeTable.depth, h.chain_of_none hget hp]
    rfl
  · intro id s outer hget hp
    rw [ScopeTable.depth, h.chain_of_some hget hp, List.length_cons, Nat.add_comm]
    rfl
  · intro id s hget
    exact (h.outwards id s hget).length_le
  · intro id n hn
    rw [(hs.nodes n (mem_of_get? hn)).block]
    exact Kind.isBlock_iff n.kind
  · intro id n id' n' s hn hn' hscope hscope'
    have heq := (hown id n s hn hscope).symm.trans (hown id' n' s hn' hscope')
    exact congrArg Scope.owner (Option.some.inj heq)

/-- However a tree has been made, its scopes are sound. -/
theorem scopesSound_of_reachable (h : Reachable t) : t.ScopesSound :=
  (h.edits.scoped wellFormed_start scoped_start).sound
    (h.edits.grounded wellFormed_start scoped_start ScopeTable.grounded_empty)

/-- A block in a block, and both initialized again, the outer one first: the inner one stands in the new
scope of the outer one, and the two former scopes belong to no node. -/
theorem scopesSound_after_initNode :
    let block : Item := ⟨.block, "\x7b", none⟩
    let t := ((start.insert 0 block).1.insert 1 block).1
    ∃ u v, t.initNode 1 = .ok u ∧ u.initNode 2 = .ok v ∧ v.scopes.size = 4 ∧
      (v.get? 1).bind Node.scope = some 2 ∧ (v.get? 2).bind Node.scope = some 3 ∧
      v.scopes.depth 3 = 2 ∧ v.ScopesSound := by
  intro block t
  have ht : Reachable t := .tail (.tail .refl (.insert 0 block)) (.insert 1 block)
  let u := t.enterScope 1 .block none
  let v := u.enterScope 2 .block (some 2)
  have hu : t.initNode 1 = .ok u := rfl
  have hv : u.initNode 2 = .ok v := rfl
  have hsound := scopesSound_of_reachable ((ht.tail (.initNode hu)).tail (.initNode hv))
  have hdepth : v.scopes.depth 3 = 1 + v.scopes.depth 2 := hsound.depth_inner 3 ⟨2, some 2⟩ 2 rfl rfl
  rw [hsound.depth_outermost 2 ⟨1, none⟩ rfl rfl] at hdepth
  exact ⟨u, v, hu, hv, rfl, rfl, rfl, hdepth, hsound⟩

end Tree
end BracketTree
