import BracketTree.Proofs.Forest.Everywhere
import BracketTree.Proofs.Tree.View
import BracketTree.Tree.Evaluate

/-! What a run of an evaluator marks, and when it succeeds. A run marks a first part of the postorder
and nothing else; with an evaluator that refuses no node it marks all of it exactly when every node is
ready and none is evaluated. To be lenient is to leave out top nodes that are not ready. -/

namespace BracketTree
open Forest
set_option autoImplicit false

universe u
variable {σ : Type}

namespace Forest
variable {α : Type u}

def filterRoots (p : α → Bool) : Forest α → Forest α
  | nil => nil
  | node a c s => if p a then node a c (s.filterRoots p) else s.filterRoots p

theorem postorder_perm (f : Forest α) : f.postorder.Perm f.preorder := by
  induction f with
  | nil => exact .nil
  | node a c s hc hs => exact List.perm_middle.trans ((hc.append hs).cons a)

theorem mem_postorder_iff (f : Forest α) (a : α) : a ∈ f.postorder ↔ a ∈ f.preorder :=
  (postorder_perm f).mem_iff

theorem everywhere_filterRoots {P : α → Forest α → Prop} (p : α → Bool) (f : Forest α) :
    (f.filterRoots p).Everywhere P ↔ f.Tops fun a c => p a = true → P a c ∧ c.Everywhere P := by
  induction f with
  | nil => rfl
  | node a c s _ hs =>
    rw [filterRoots, Tops, ← hs]
    cases ha : p a <;> simp [Everywhere, and_assoc]

theorem filterRoots_sublist (p : α → Bool) (f : Forest α) :
    (f.filterRoots p).preorder.Sublist f.preorder := by
  induction f with
  | nil => exact .slnil
  | node a c s _ hs =>
    rw [filterRoots]
    split
    · exact .cons_cons a ((List.Sublist.refl _).append hs)
    · exact .cons a (hs.trans (List.sublist_append_right _ _))

theorem roots_filterRoots (p : α → Bool) (f : Forest α) :
    (f.filterRoots p).roots = f.roots.filter p := by
  induction f with
  | nil => rfl
  | node a c s _ hs =>
    rw [filterRoots, roots_node, List.filter_cons]
    split <;> simp [hs]

theorem filterRoots_append (p : α → Bool) (f g : Forest α) :
    (f ++ g).filterRoots p = f.filterRoots p ++ g.filterRoots p := by
  induction f with
  | nil => rfl
  | node a c s _ hs =>
    rw [node_append, filterRoots, filterRoots, hs]
    split <;> rfl

/-- What stands under a top node that is left out is left out with it. -/
theorem not_mem_filterRoots {β : Type u} {g : α → β} {p : α → Bool} {left c right : Forest α}
    {a b : α} (hn : ((left ++ node a c right).preorder.map g).Nodup) (hp : p a = false)
    (hb : b ∈ (node a c nil).preorder) :
    g b ∉ ((left ++ node a c right).filterRoots p).preorder.map g := by
  have hsub : ∀ s : Forest α, (s.filterRoots p).preorder.map g ⊆ s.preorder.map g :=
    fun s => ((filterRoots_sublist p s).map g).subset
  have hsplit : (left ++ node a c right).preorder =
      left.preorder ++ ((node a c nil).preorder ++ right.preorder) := by simp
  have hmid := List.mem_map_of_mem (f := g) hb
  rw [hsplit, List.map_append, List.map_append, List.nodup_append, List.nodup_append] at hn
  obtain ⟨-, ⟨-, -, hright⟩, hleft⟩ := hn
  rw [filterRoots_append, filterRoots, hp, if_neg Bool.false_ne_true, preorder_append,
    List.map_append, List.mem_append]
  rintro (hm | hm)
  · exact hleft _ (hsub left hm) _ (List.mem_append_left _ hmid) rfl
  · exact hright _ hmid _ (hsub right hm) rfl

end Forest

/-- The evaluator refuses no node. -/
def Evaluator.Accepts (ev : Evaluator σ) : Prop := ∀ t id s, (ev.hook t id s).2 = .ok ()

theorem Evaluator.accepts_idle : idle.Accepts := fun _ _ _ => rfl

namespace Node

/-- A run stops at such a node or evaluates it. -/
def stands (n : Node) : Bool := n.marks.evaluated || n.marks.ready

end Node

namespace Tree

def markAll (t : Tree) (ids : List NodeId) : Tree :=
  ids.foldl (fun t id => t.modify id .markEvaluated) t

theorem markAll_append (t : Tree) (ids ids' : List NodeId) :
    t.markAll (ids ++ ids') = (t.markAll ids).markAll ids' :=
  List.foldl_append

theorem get?_markAll (t : Tree) (ids : List NodeId) (j : NodeId) :
    (t.markAll ids).get? j =
      (t.get? j).map fun n => if j ∈ ids then n.markEvaluated else n := by
  induction ids generalizing t with
  | nil => simp [markAll]
  | cons id ids ih =>
    have hstep := get?_modify (f := .markEvaluated) (fun _ => rfl) t id j
    have hcons : t.markAll (id :: ids) = (t.modify id .markEvaluated).markAll ids := rfl
    rw [hcons, ih, hstep, Option.map_map]
    cases hg : t.get? j with
    | none => rfl
    | some n =>
      obtain rfl := id_of_get? hg
      by_cases hj : n.id = id <;> by_cases hm : n.id ∈ ids <;>
        simp [hj, hm, Node.markEvaluated]

theorem evaluateForest_lenient (ev : Evaluator σ) (f : Forest Node) (t : Tree) (s : σ) :
    evaluateForest ev true f t s = evaluateForest ev false (f.filterRoots Node.stands) t s := by
  induction f generalizing t s with
  | nil => rfl
  | node n c rest _ ih =>
    rw [evaluateForest, filterRoots]
    cases he : n.marks.evaluated with
    | true => simp [evaluateForest, Node.stands, he]
    | false =>
      cases hr : n.marks.ready with
      | false => simp [Node.stands, he, hr, ih]
      | true =>
        simp only [Node.stands, he, hr, Bool.or_true, Bool.not_true, Bool.false_eq_true, if_true,
          if_false, evaluateForest, ih]

/-- The nodes that a run marks are a first part of the postorder, and all of it if the run
succeeds. -/
theorem evaluateForest_marks (ev : Evaluator σ) (f : Forest Node) (t : Tree) (s : σ) :
    ∃ ids rest, f.postorder.map Node.id = ids ++ rest ∧
      (evaluateForest ev false f t s).tree = t.markAll ids ∧
      ((evaluateForest ev false f t s).result = .ok () → rest = []) := by
  induction f generalizing t s with
  | nil => exact ⟨[], [], rfl, rfl, fun _ => rfl⟩
  | node n c siblings hc hs =>
    rw [evaluateForest]
    split
    · exact ⟨[], _, rfl, rfl, fun h => by cases h⟩
    split
    · exact ⟨[], _, rfl, rfl, fun h => by cases h⟩
    obtain ⟨ids, rest, hids, htree, hall⟩ := hc t s
    rw [postorder, List.map_append, hids]
    generalize evaluateForest ev false c t s = r at htree hall ⊢
    obtain ⟨u, s', e | _⟩ := r
    · exact ⟨ids, _, List.append_assoc _ _ _, htree, fun h => by cases h⟩
    · obtain rfl : u = t.markAll ids := htree
      obtain rfl := hall rfl
      dsimp only
      rcases ev.hook (t.markAll ids) n.id s' with ⟨s'', e | _⟩
      · exact ⟨ids, _, List.append_assoc _ _ _, rfl, fun h => by cases h⟩
      · obtain ⟨ids', rest', hids', htree', hall'⟩ :=
          hs ((t.markAll ids).modify n.id .markEvaluated) s''
        refine ⟨ids ++ n.id :: ids', rest', ?_, ?_, hall'⟩
        · rw [List.map_cons, hids']
          simp
        · rw [markAll_append]
          exact htree'

theorem evaluateForest_eq_ok_iff {ev : Evaluator σ} (hev : ev.Accepts) (f : Forest Node) (t : Tree)
    (s : σ) : (evaluateForest ev false f t s).result = .ok () ↔
      f.Everywhere fun n _ => n.marks.evaluated = false ∧ n.marks.ready = true := by
  induction f generalizing t s with
  | nil => exact ⟨fun _ => trivial, fun _ => rfl⟩
  | node n c siblings hc hs =>
    rw [evaluateForest, Everywhere]
    cases he : n.marks.evaluated with
    | true => simp
    | false =>
      cases hr : n.marks.ready with
      | false => simp
      | true =>
        have hbelow := hc t s
        simp only [Bool.false_eq_true, if_false, Bool.not_true, true_and, ← hbelow]
        generalize evaluateForest ev false c t s = r
        obtain ⟨u, s', e | _⟩ := r
        · simp
        · have hok := hev u n.id s'
          dsimp only
          generalize ev.hook u n.id s' = r at hok ⊢
          obtain ⟨s'', e | _⟩ := r
          · cases hok
          · simp [hs]

theorem evaluateForest_error {ev : Evaluator σ} (hev : ev.Accepts) {f : Forest Node} {t : Tree}
    {s : σ} {e : TreeError} (hf : f.Everywhere fun n _ => n.marks.evaluated = false)
    (h : (evaluateForest ev false f t s).result = .error e) :
    ∃ node, e = .stage (.evaluateBeforeSetup node) := by
  induction f generalizing t s with
  | nil => cases h
  | node n c siblings hc hs =>
    obtain ⟨hn, hfc, hfs⟩ := hf
    rw [evaluateForest, if_neg (by rw [hn]; exact Bool.false_ne_true)] at h
    split at h
    · cases h
      exact ⟨_, rfl⟩
    rcases hr : evaluateForest ev false c t s with ⟨u, s', e' | _⟩
    · rw [hr] at h
      exact hc hfc (by rw [hr]; exact h)
    · have hok := hev u n.id s'
      rw [hr] at h
      dsimp only at h
      rcases hh : ev.hook u n.id s' with ⟨s'', e' | _⟩
      · rw [hh] at hok
        cases hok
      · rw [hh] at h
        exact hs hfs h

end Tree
end BracketTree
