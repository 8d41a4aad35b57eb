import BracketTree.Proofs.Builder.Evaluation

/-! What an evaluator that writes a trace writes: when a run succeeds, the labels of the statements that
are ready, each with what stands under it, in postorder. -/

namespace BracketTree
open Forest
set_option autoImplicit false

universe u v
variable {σ : Type}

namespace Forest
variable {α : Type u} {β : Type v}

theorem postorder_append (f g : Forest α) : (f ++ g).postorder = f.postorder ++ g.postorder := by
  induction f with
  | nil => rfl
  | node a c s _ hs => rw [node_append, postorder, postorder, hs, List.append_assoc, List.cons_append]

theorem postorder_map (g : α → β) (f : Forest α) : (f.map g).postorder = f.postorder.map g := by
  induction f with
  | nil => rfl
  | node a c s hc hs => rw [map_node, postorder, postorder, hc, hs, List.map_append, List.map_cons]

theorem filterRoots_map (g : α → β) (p : β → Bool) (f : Forest α) :
    (f.map g).filterRoots p = (f.filterRoots (p ∘ g)).map g := by
  induction f with
  | nil => rfl
  | node a c s _ hs =>
    rw [map_node, filterRoots, filterRoots, hs, Function.comp_apply]
    split <;> rfl

theorem everywhere_map (g : α → β) (P : β → Forest β → Prop) (f : Forest α) :
    (f.map g).Everywhere P ↔ f.Everywhere fun a c => P (g a) (c.map g) := by
  induction f with
  | nil => rfl
  | node a c s hc hs => simp only [map_node, Everywhere, hc, hs]

end Forest

namespace Tree

/-- A run stops at every node that was evaluated before or is not ready. -/
theorem everywhere_of_evaluateForest {ev : Evaluator σ} {f : Forest Node} {t : Tree} {s : σ}
    (h : (evaluateForest ev false f t s).result = .ok ()) :
    f.Everywhere fun n _ => n.marks.evaluated = false ∧ n.marks.ready = true := by
  induction f generalizing t s with
  | nil => trivial
  | node n c siblings hc hs =>
    rw [evaluateForest] at h
    split at h
    · cases h
    next he =>
    split at h
    · cases h
    next hr =>
    rcases hrun : evaluateForest ev false c t s with ⟨u, s', e | _⟩
    · rw [hrun] at h
      cases h
    · rw [hrun] at h
      dsimp only at h
      rcases hh : ev.hook u n.id s' with ⟨s'', e | _⟩
      · rw [hh] at h
        cases h
      · rw [hh] at h
        exact ⟨⟨by simpa using he, by simpa using hr⟩, hc (by rw [hrun]), hs h⟩

/-- Every node of the forest is live, and its label is known. -/
def Shows (t : Tree) (f : Forest Node) : Prop :=
  ∀ n ∈ f.preorder, (t.get? n.id).map (fun m => m.label) = some n.label

theorem Shows.markAll {t : Tree} {f : Forest Node} (h : t.Shows f) (ids : List NodeId) :
    (t.markAll ids).Shows f := by
  intro n hn
  have hlabel := h n hn
  rw [get?_markAll, Option.map_map]
  cases hg : t.get? n.id with
  | none =>
    rw [hg] at hlabel
    exact hlabel
  | some m =>
    rw [hg] at hlabel
    rw [Option.map_some, ← hlabel, Option.map_some, Function.comp_apply]
    split <;> rfl

theorem evaluateForest_tracing {f : Forest Node} {t : Tree} (h : t.Shows f)
    (hf : f.Everywhere fun n _ => n.marks.evaluated = false ∧ n.marks.ready = true)
    (trace : Array String) : evaluateForest .tracing false f t trace =
      ⟨t.markAll (f.postorder.map Node.id), trace ++ (f.postorder.map fun n => n.label).toArray,
        .ok ()⟩ := by
  induction f generalizing t trace with
  | nil => simp [evaluateForest, Forest.postorder, markAll]
  | node n c siblings hc hs =>
    obtain ⟨⟨hn, hready⟩, hfc, hfs⟩ := hf
    have hbelow : t.Shows c := fun m hm => h m (by simp [hm])
    have hrest : t.Shows siblings := fun m hm => h m (by simp [hm])
    have hlabel := h.markAll (c.postorder.map Node.id) n (by simp)
    obtain ⟨m, hm, hml⟩ := Option.map_eq_some_iff.mp hlabel
    have hhook : ∀ trace, Evaluator.tracing.hook (t.markAll (c.postorder.map Node.id)) n.id trace =
        (trace.push n.label, .ok ()) := by
      intro trace
      dsimp only [Evaluator.tracing]
      rw [hm, ← hml]
    have hcons : (t.markAll (c.postorder.map Node.id)).modify n.id .markEvaluated =
        t.markAll (c.postorder.map Node.id ++ [n.id]) := by
      rw [markAll_append]
      rfl
    rw [evaluateForest, hn, hready, hc hbelow hfc, if_neg Bool.false_ne_true, if_neg (by simp)]
    dsimp only
    rw [hhook]
    dsimp only
    rw [hcons, hs (hrest.markAll _) hfs, ← markAll_append, Forest.postorder]
    simp

end Tree

namespace Built

theorem Settled.due_shown {built : Built} (h : built.Settled) : built.tree.Shows built.due := by
  intro n hn
  have hbelow := (filterRoots_sublist _ _).subset hn
  rw [Tree.get?_of_mem h.wellFormed.nodup (Tree.mem_of_mem_below hbelow)]
  rfl

/-- When a trace is complete, and what it holds then. -/
theorem Settled.tracing {built : Built} (h : built.Settled) :
    ((built.tree.evaluateProgram .tracing #[]).result = .ok () ↔
      built.due.Everywhere fun n _ => n.marks.evaluated = false ∧ n.marks.ready = true) ∧
    ((built.tree.evaluateProgram .tracing #[]).result = .ok () →
      (built.tree.evaluateProgram .tracing #[]).state.toList =
        built.due.postorder.map fun n => n.label) := by
  have hall : (built.tree.evaluateProgram .tracing #[]).result = .ok () →
      built.due.Everywhere fun n _ => n.marks.evaluated = false ∧ n.marks.ready = true := by
    intro hok
    rw [h.result] at hok
    exact Tree.everywhere_of_evaluateForest hok
  refine ⟨⟨hall, fun hdue => ?_⟩, fun hok => ?_⟩
  · rw [h.result, Tree.evaluateForest_tracing h.due_shown hdue]
  · rw [h.evaluateProgram, Tree.evaluateForest_tracing h.due_shown (hall hok)]
    simp

end Built
end BracketTree
