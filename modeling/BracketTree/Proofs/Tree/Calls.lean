import BracketTree.Proofs.Tree.Evaluate
import BracketTree.Proofs.Tree.Lifecycle

/-! The calls that evaluators get over whole runs of the public operations. Every call is on a node that
is due: ready, not evaluated, over children that are. No node is accepted twice, also when an evaluation
fails midway and is tried again, and once the program is evaluated nobody is called for it any more. -/

namespace BracketTree
open Forest
set_option autoImplicit false

/-- A call of an evaluator: the tree it was shown, the node, and whether it accepted the node. -/
structure HookCall where
  tree : Tree
  node : NodeId
  accepted : Bool

namespace HookCall

def acceptedNodes (calls : List HookCall) : List NodeId :=
  (calls.filter HookCall.accepted).map HookCall.node

theorem acceptedNodes_append (calls calls' : List HookCall) :
    acceptedNodes (calls ++ calls') = acceptedNodes calls ++ acceptedNodes calls' := by
  rw [acceptedNodes, List.filter_append, List.map_append]
  rfl

end HookCall

variable {σ : Type}

/-- The same evaluator, with a list of its calls next to its state. -/
def Evaluator.recorded (ev : Evaluator σ) : Evaluator (List HookCall × σ) :=
  ⟨fun t id s =>
    let (next, result) := ev.hook t id s.2
    ((s.1 ++ [⟨t, id, result.isOk⟩], next), result)⟩

theorem Evaluator.recorded_hook (ev : Evaluator σ) (t : Tree) (id : NodeId) (s : List HookCall × σ) :
    ev.recorded.hook t id s = ((s.1 ++ [⟨t, id, (ev.hook t id s.2).2.isOk⟩], (ev.hook t id s.2).1),
      (ev.hook t id s.2).2) := rfl

def Evaluation.unrecorded (r : Evaluation (List HookCall × σ)) : Evaluation σ :=
  ⟨r.tree, r.state.2, r.result⟩

namespace Tree

/-! ## Recording changes nothing -/

theorem evaluateForest_recorded (ev : Evaluator σ) (lenient : Bool) (f : Forest Node) (t : Tree)
    (s : List HookCall × σ) : (evaluateForest ev.recorded lenient f t s).unrecorded =
      evaluateForest ev lenient f t s.2 := by
  induction f generalizing lenient t s with
  | nil => rfl
  | node n c rest hc hrest =>
    rw [evaluateForest, evaluateForest]
    split
    · rfl
    split
    · split
      · exact hrest lenient t s
      · rfl
    have hbelow := hc false t s
    rw [← hbelow]
    rcases evaluateForest ev.recorded false c t s with ⟨u, s', e | _⟩
    · rfl
    · dsimp only [Evaluation.unrecorded]
      rw [Evaluator.recorded_hook]
      rcases ev.hook u n.id s'.2 with ⟨s'', e | _⟩
      · rfl
      · exact hrest lenient _ _

theorem evaluateNode_recorded (t : Tree) (ev : Evaluator σ) (id : NodeId) (s : List HookCall × σ) :
    (t.evaluateNode ev.recorded id s).unrecorded = t.evaluateNode ev id s.2 := by
  rw [evaluateNode, evaluateNode]
  split
  · rfl
  · exact evaluateForest_recorded ev _ _ t s

theorem evaluateProgram_recorded (t : Tree) (ev : Evaluator σ) (s : List HookCall × σ) :
    (t.evaluateProgram ev.recorded s).unrecorded = t.evaluateProgram ev s.2 := by
  rw [evaluateProgram, evaluateProgram]
  split
  · rfl
  · rw [← evaluateForest_recorded]
    rcases evaluateForest ev.recorded true (t.below rootId) t s with ⟨u, s', e | _⟩ <;> rfl

/-! ## Calls on nodes that are due -/

/-- The node is next to be evaluated. -/
structure Due (t : Tree) (id : NodeId) : Prop where
  pending : ∃ n, t.get? id = some n ∧ n.marks.ready = true ∧ n.marks.evaluated = false
  children : ∀ child ∈ t.children id, ∃ m, t.get? child = some m ∧ m.marks.evaluated = true

/-- The calls lead from one tree to the other: each is on a node that is due in the tree it is shown,
and marks the node when it is accepted. -/
inductive Calls : Tree → List HookCall → Tree → Prop where
  | nil (t : Tree) : Calls t [] t
  | refused {t u : Tree} {calls : List HookCall} {id : NodeId} : Calls t calls u → u.Due id →
      Calls t (calls ++ [⟨u, id, false⟩]) u
  | accepted {t u : Tree} {calls : List HookCall} {id : NodeId} : Calls t calls u → u.Due id →
      Calls t (calls ++ [⟨u, id, true⟩]) (u.modify id .markEvaluated)

variable {t u v : Tree} {calls calls' : List HookCall} {id : NodeId}

theorem Calls.trans (h : Calls t calls u) (h' : Calls u calls' v) : Calls t (calls ++ calls') v := by
  induction h' with
  | nil => rwa [List.append_nil]
  | refused _ hdue ih =>
    rw [← List.append_assoc]
    exact .refused ih hdue
  | accepted _ hdue ih =>
    rw [← List.append_assoc]
    exact .accepted ih hdue

theorem Calls.due (h : Calls t calls u) : ∀ call ∈ calls, call.tree.Due call.node := by
  induction h with
  | nil => simp
  | refused _ hdue ih => simpa [or_imp, forall_and] using ⟨ih, hdue⟩
  | accepted _ hdue ih => simpa [or_imp, forall_and] using ⟨ih, hdue⟩

theorem Calls.edits (h : Calls t calls u) : Edits t u := by
  induction h with
  | nil => exact .refl
  | refused _ _ ih => exact ih
  | accepted _ hdue ih =>
    obtain ⟨n, hn, hready, -⟩ := hdue.pending
    exact ih.tail (.evaluate hn (.inl hready))

theorem Calls.children (h : Calls t calls u) (j : NodeId) : u.children j = t.children j := by
  induction h with
  | nil => rfl
  | refused _ _ ih => exact ih
  | accepted _ _ ih => rw [children_modify (f := .markEvaluated) fun _ => rfl, ih]

/-! ## A run over a part of the tree -/

/-- What stands in a tree as the forest has it. -/
def Standing (t : Tree) (f : Forest Node) : Prop :=
  f.Everywhere fun n c => t.get? n.id = some n ∧ t.children n.id = c.roots.map Node.id

theorem Standing.of_same {f : Forest Node} (h : t.Standing f)
    (hget : ∀ n ∈ f.preorder, u.get? n.id = t.get? n.id)
    (hchildren : ∀ j, u.children j = t.children j) : u.Standing f := by
  induction f with
  | nil => trivial
  | node n c rest hc hrest =>
    obtain ⟨hn, hbelow, hnext⟩ := h
    simp only [preorder_node, List.mem_cons, List.mem_append] at hget
    refine ⟨⟨(hget n (.inl rfl)).trans hn.1, (hchildren n.id).trans hn.2⟩, ?_, ?_⟩
    · exact hc hbelow fun m hm => hget m (.inr (.inl hm))
    · exact hrest hnext fun m hm => hget m (.inr (.inr hm))

theorem standing_of_plug (hn : t.ids.Nodup) {f : Forest Node} (spine : List (Frame Node))
    (left : Forest Node) (h : t.nodes = plug spine (left ++ f)) : t.Standing f := by
  induction f generalizing spine left with
  | nil => trivial
  | node n c rest hc hrest =>
    have hnodes : t.nodes = plug (⟨left, n, rest⟩ :: spine) c := h
    have hnext : t.nodes = plug spine (left ++ .node n c .nil ++ rest) := by
      rw [h, append_assoc]
      rfl
    exact ⟨⟨get?_focus hn hnodes, children_focus hn hnodes⟩,
      hc (⟨left, n, rest⟩ :: spine) .nil hnodes, hrest spine _ hnext⟩

theorem standing_below (hn : t.ids.Nodup) (id : NodeId) : t.Standing (t.below id) := by
  rw [below]
  split
  · trivial
  · next n c hs =>
    obtain ⟨left, right, outer, hnodes, -⟩ := exists_spine hs
    exact standing_of_plug hn (⟨left, n, right⟩ :: outer) .nil hnodes

theorem standing_subtree (hn : t.ids.Nodup) {n : Node} {c : Forest Node}
    (hs : t.subtree? id = some (n, c)) :
    n.id = id ∧ t.Standing (.node n c .nil) ∧
      ((Forest.node n c .nil).preorder.map Node.id).Nodup := by
  have hget : t.get? id = some n := by rw [get?, hs]; rfl
  have hbelow : t.below id = c := by rw [below, hs]
  have hid := id_of_get? hget
  refine ⟨hid, ⟨⟨hid ▸ hget, ?_⟩, hbelow ▸ standing_below hn id, trivial⟩, ?_⟩
  · rw [hid, children, hbelow]
  · simpa [hid, hbelow] using nodup_below hn id

/-- What a recorded run over `f` has done. -/
structure Sweep (t : Tree) (f : Forest Node) (lenient : Bool) (log : List HookCall)
    (r : Evaluation (List HookCall × σ)) : Prop where
  calls : ∃ calls, r.state.1 = log ++ calls ∧ Calls t calls r.tree
  beside : ∀ j, j ∉ f.preorder.map Node.id → r.tree.get? j = t.get? j
  roots : r.result = .ok () → ∀ n ∈ f.roots, lenient = false ∨ n.marks.ready = true →
    ∃ m, r.tree.get? n.id = some m ∧ m.marks.evaluated = true

section Sweep
variable {f c rest : Forest Node} {n : Node} {lenient : Bool} {log : List HookCall}
  {s : List HookCall × σ} {r : Evaluation (List HookCall × σ)} {e : TreeError}

theorem sweep_stop : Sweep t f lenient s.1 ⟨t, s, .error e⟩ where
  calls := ⟨[], (List.append_nil _).symm, .nil t⟩
  beside := fun _ _ => rfl
  roots := fun hok => by cases hok

theorem Sweep.skip (h : Sweep t rest true log r) (hready : n.marks.ready = false) :
    Sweep t (.node n c rest) true log r where
  calls := h.calls
  beside := fun j hj => h.beside j fun hm => hj (by simp [hm])
  roots := by
    intro hok m hm hm'
    rcases List.mem_cons.mp hm with rfl | hm
    · rw [hready] at hm'
      simp at hm'
    · exact h.roots hok m hm hm'

theorem Sweep.inner (h : Sweep t c false log ⟨u, s, .error e⟩) :
    Sweep t (.node n c rest) lenient log ⟨u, s, .error e⟩ where
  calls := h.calls
  beside := fun j hj => h.beside j fun hm => hj (by simp [hm])
  roots := fun hok => by cases hok

/-- After the children comes the node itself. -/
theorem Sweep.due (h : Sweep t c false log ⟨u, s, .ok ()⟩) (hstanding : t.Standing (.node n c rest))
    (hn : n.id ∉ c.preorder.map Node.id) (hready : n.marks.ready = true)
    (hun : n.marks.evaluated = false) : u.Due n.id := by
  obtain ⟨⟨hget, hchildren⟩, -, -⟩ := hstanding
  obtain ⟨calls, -, hcalls⟩ := h.calls
  refine ⟨⟨n, (h.beside n.id hn).trans hget, hready, hun⟩, fun child hchild => ?_⟩
  rw [hcalls.children, hchildren] at hchild
  obtain ⟨m, hm, rfl⟩ := List.mem_map.mp hchild
  exact h.roots rfl m hm (.inl rfl)

theorem Sweep.refused (h : Sweep t c false log ⟨u, s, .ok ()⟩) (hdue : u.Due n.id) {s' : σ} :
    Sweep t (.node n c rest) lenient log ⟨u, (s.1 ++ [⟨u, n.id, false⟩], s'), .error e⟩ where
  calls := by
    obtain ⟨calls, hlog, hcalls⟩ := h.calls
    exact ⟨_, by rw [hlog, List.append_assoc], hcalls.refused hdue⟩
  beside := fun j hj => h.beside j fun hm => hj (by simp [hm])
  roots := fun hok => by cases hok

theorem Sweep.accepted (h : Sweep t c false log ⟨u, s, .ok ()⟩) (hdue : u.Due n.id)
    (hn : n.id ∉ rest.preorder.map Node.id)
    (hrest : Sweep (u.modify n.id .markEvaluated) rest lenient (s.1 ++ [⟨u, n.id, true⟩]) r) :
    Sweep t (.node n c rest) lenient log r where
  calls := by
    obtain ⟨calls, (hlog : s.1 = log ++ calls), hcalls⟩ := h.calls
    obtain ⟨calls', hlog', hcalls'⟩ := hrest.calls
    exact ⟨_, by rw [hlog', hlog, List.append_assoc, List.append_assoc, ← List.append_assoc calls],
      (hcalls.accepted hdue).trans hcalls'⟩
  beside := by
    intro j hj
    simp only [preorder_node, List.map_cons, List.map_append, List.mem_cons, List.mem_append,
      not_or] at hj
    have hmark := get?_modify_of_ne (f := .markEvaluated) (fun _ => rfl) u (Ne.symm hj.1)
    exact (hrest.beside j hj.2.2).trans (hmark.trans (h.beside j hj.2.1))
  roots := by
    intro hok m hm hm'
    rcases List.mem_cons.mp hm with rfl | hm
    · obtain ⟨k, hk, -, -⟩ := hdue.pending
      refine ⟨k.markEvaluated, ?_, rfl⟩
      rw [hrest.beside _ hn, get?_modify (f := .markEvaluated) (fun _ => rfl), hk, Option.map_some,
        if_pos (id_of_get? hk)]
    · exact hrest.roots hok m hm hm'

end Sweep

theorem evaluateForest_sweep (ev : Evaluator σ) (lenient : Bool) {f : Forest Node} {t : Tree}
    (s : List HookCall × σ) (hf : t.Standing f) (hn : (f.preorder.map Node.id).Nodup) :
    Sweep t f lenient s.1 (evaluateForest ev.recorded lenient f t s) := by
  induction f generalizing lenient t s with
  | nil => exact ⟨⟨[], (List.append_nil _).symm, .nil t⟩, fun _ _ => rfl, fun _ n hn => by cases hn⟩
  | node n c rest hc hrest =>
    simp only [preorder_node, List.map_cons, List.map_append, List.nodup_cons, List.mem_append,
      not_or, List.nodup_append] at hn
    obtain ⟨⟨hnc, hnrest⟩, hcn, hrestn, hapart⟩ := hn
    rw [evaluateForest]
    split
    · exact sweep_stop
    next hun =>
    split
    · next hready =>
      split
      · next hl =>
        subst hl
        exact (hrest true s hf.2.2 hrestn).skip (by simpa using hready)
      · exact sweep_stop
    next hready =>
    have hbelow := hc false s hf.2.1 hcn
    rcases hrun : evaluateForest ev.recorded false c t s with ⟨u, s', e | _⟩
    · rw [hrun] at hbelow
      exact hbelow.inner
    · rw [hrun] at hbelow
      have hdue := hbelow.due hf hnc (by simpa using hready) (by simpa using hun)
      dsimp only
      rw [Evaluator.recorded_hook]
      rcases ev.hook u n.id s'.2 with ⟨s'', e | _⟩
      · exact hbelow.refused hdue
      · -- The siblings stand as before: they are neither under the node nor the node itself.
        obtain ⟨calls, -, hcalls⟩ := hbelow.calls
        have hstanding : (u.modify n.id .markEvaluated).Standing rest := by
          refine Standing.of_same hf.2.2 (fun m hm => ?_) (hcalls.accepted hdue).children
          have hid := List.mem_map_of_mem (f := Node.id) hm
          have hne : n.id ≠ m.id := fun he => hnrest (he ▸ hid)
          rw [get?_modify_of_ne (f := .markEvaluated) (fun _ => rfl) u hne]
          exact hbelow.beside m.id fun hmc => hapart _ hmc _ hid rfl
        exact hbelow.accepted hdue hnrest (hrest lenient (_, s'') hstanding hrestn)

/-! ## One operation -/

/-- The calls that an operation makes. Only evaluation calls anybody. -/
def callsOf (t : Tree) : Operation → List HookCall
  | .evaluateNode ev id s => (t.evaluateNode ev.recorded id ([], s)).state.1
  | .evaluateProgram ev s => (t.evaluateProgram ev.recorded ([], s)).state.1
  | _ => []

theorem callsOf_evaluateNode (hn : t.ids.Nodup) (ev : Evaluator σ) (id : NodeId) (s : σ) :
    Calls t (t.callsOf (.evaluateNode ev id s)) (t.evaluateNode ev id s).tree := by
  have hplain := congrArg Evaluation.tree (t.evaluateNode_recorded ev id ([], s))
  rw [callsOf, ← hplain, evaluateNode]
  split
  · exact .nil t
  next n c hs =>
  obtain ⟨-, hstanding, hnodup⟩ := standing_subtree hn hs
  obtain ⟨calls, hlog, hcalls⟩ := (evaluateForest_sweep ev _ ([], s) hstanding hnodup).calls
  rw [hlog]
  exact hcalls

theorem callsOf_evaluateProgram (hn : t.ids.Nodup) (ev : Evaluator σ) (s : σ) :
    ∃ u, Calls t (t.callsOf (.evaluateProgram ev s)) u ∧
      ((t.evaluateProgram ev s).tree = u ∨
        (t.evaluateProgram ev s).tree = u.modify rootId .markEvaluated) := by
  have hplain := congrArg Evaluation.tree (t.evaluateProgram_recorded ev ([], s))
  rw [callsOf, ← hplain, evaluateProgram]
  split
  · exact ⟨t, .nil t, .inl rfl⟩
  have hsweep := evaluateForest_sweep ev true ([], s) (standing_below hn rootId)
    (nodup_below hn rootId).of_cons
  obtain ⟨calls, hlog, hcalls⟩ := hsweep.calls
  rcases hrun : evaluateForest ev.recorded true (t.below rootId) t ([], s) with ⟨u, ⟨log, s'⟩, e | _⟩
  · rw [hrun] at hlog hcalls
    obtain rfl : log = calls := hlog
    exact ⟨u, hcalls, .inl rfl⟩
  · rw [hrun] at hlog hcalls
    obtain rfl : log = calls := hlog
    exact ⟨u, hcalls, .inr rfl⟩

/-- An operation makes its calls, then other edits. -/
theorem callsOf_apply (hw : t.WellFormed) (op : Operation) :
    ∃ u, Calls t (t.callsOf op) u ∧ Edits u (t.apply op).1 := by
  cases op with
  | evaluateNode ev id s => exact ⟨_, callsOf_evaluateNode hw.nodup ev id s, .refl⟩
  | evaluateProgram ev s =>
    obtain ⟨u, hcalls, hu⟩ := callsOf_evaluateProgram hw.nodup ev s
    refine ⟨u, hcalls, ?_⟩
    rw [apply]
    rcases hu with hu | hu
    · rw [hu]
    · obtain ⟨r, c, hr, hid, -⟩ := (hcalls.edits.wellFormed hw).rooted
      have hroot : u.get? rootId = some r :=
        hid ▸ get?_of_mem (hcalls.edits.wellFormed hw).nodup (by simp [hr])
      rw [hu]
      exact .single (.evaluate hroot (.inr rfl))
  | insert | initNode | setupNode | setupAsParent | removeFrom | recover =>
    exact ⟨t, .nil t, apply_edits hw _⟩

/-! ## Whole runs -/

/-- All calls of a run, one operation after the other, whether they succeed or not. -/
def history (t : Tree) : List Operation → List HookCall
  | [] => []
  | op :: ops => t.callsOf op ++ (t.apply op).1.history ops

theorem due_of_mem_history (hw : t.WellFormed) (ops : List Operation) :
    ∀ call ∈ t.history ops, call.tree.Due call.node := by
  induction ops generalizing t with
  | nil => simp [history]
  | cons op ops ih =>
    obtain ⟨u, hcalls, -⟩ := callsOf_apply hw op
    intro call hcall
    rw [history, List.mem_append] at hcall
    rcases hcall with hnow | hlater
    · exact hcalls.due call hnow
    · exact ih ((apply_edits hw op).wellFormed hw) call hlater

/-- The id belongs to a node that is evaluated, or to one that was removed. -/
structure Spent (t : Tree) (id : NodeId) : Prop where
  used : id < t.nextId
  evaluated : ∀ n, t.get? id = some n → n.marks.evaluated = true

theorem Spent.later (h : t.Spent id) (hw : t.WellFormed) (he : Edits t u) : u.Spent id := by
  refine ⟨Nat.lt_of_lt_of_le h.used (Edits.later he hw).nextId, fun m hm => ?_⟩
  have hid := id_of_get? hm
  rcases Edits.ages he hw m (mem_of_get? hm) with hnew | ⟨n, hn, hage⟩
  · exact absurd h.used (Nat.not_lt.mpr (hid ▸ hnew))
  · have hget := get?_of_mem hw.nodup hn
    rw [← hage.id, hid] at hget
    exact hage.marks.evaluated (h.evaluated n hget)

/-- The nodes accepted so far: none of them twice, and none that could be called again. -/
structure OneShot (t : Tree) (done : List NodeId) : Prop where
  nodup : done.Nodup
  spent : ∀ id ∈ done, t.Spent id

theorem OneShot.later {done : List NodeId} (h : t.OneShot done) (hw : t.WellFormed)
    (he : Edits t u) : u.OneShot done :=
  ⟨h.nodup, fun id hid => (h.spent id hid).later hw he⟩

theorem Due.spent (h : t.Due id) (hw : t.WellFormed) : (t.modify id .markEvaluated).Spent id := by
  obtain ⟨n, hn, -, -⟩ := h.pending
  refine ⟨id_of_get? hn ▸ hw.bounded n (mem_of_get? hn), fun m hm => ?_⟩
  rw [get?_modify (f := .markEvaluated) (fun _ => rfl), hn, Option.map_some,
    if_pos (id_of_get? hn)] at hm
  cases hm
  rfl

theorem OneShot.accept {done : List NodeId} (h : t.OneShot done) (hw : t.WellFormed)
    (hdue : t.Due id) : (t.modify id .markEvaluated).OneShot (done ++ [id]) := by
  obtain ⟨n, hn, hready, hun⟩ := hdue.pending
  have hlater := h.later hw (.single (.evaluate hn (.inl hready)))
  refine ⟨List.nodup_append.mpr ⟨h.nodup, List.nodup_singleton id, ?_⟩, fun j hj => ?_⟩
  · intro j hj k hk he
    obtain rfl := List.mem_singleton.mp hk
    subst he
    rw [(h.spent j hj).evaluated n hn] at hun
    cases hun
  · rcases List.mem_append.mp hj with hold | hnew
    · exact hlater.spent j hold
    · obtain rfl := List.mem_singleton.mp hnew
      exact hdue.spent hw

theorem OneShot.of_calls {done : List NodeId} (h : t.OneShot done) (hw : t.WellFormed)
    (hcalls : Calls t calls u) : u.OneShot (done ++ HookCall.acceptedNodes calls) := by
  induction hcalls with
  | nil => exact (List.append_nil done).symm ▸ h
  | refused _ _ ih =>
    rw [HookCall.acceptedNodes_append]
    simpa [HookCall.acceptedNodes] using ih
  | accepted hbefore hdue ih =>
    rw [HookCall.acceptedNodes_append, ← List.append_assoc]
    exact ih.accept (hbefore.edits.wellFormed hw) hdue

theorem OneShot.history {done : List NodeId} (h : t.OneShot done) (hw : t.WellFormed)
    (ops : List Operation) :
    (t.after ops).OneShot (done ++ HookCall.acceptedNodes (t.history ops)) := by
  induction ops generalizing t done with
  | nil => simpa [Tree.history, Tree.after, HookCall.acceptedNodes] using h
  | cons op ops ih =>
    obtain ⟨u, hcalls, hedits⟩ := callsOf_apply hw op
    have hop := (h.of_calls hw hcalls).later (hcalls.edits.wellFormed hw) hedits
    rw [Tree.history, HookCall.acceptedNodes_append, ← List.append_assoc]
    exact ih hop ((apply_edits hw op).wellFormed hw)

/-! ## After the program has been evaluated -/

theorem evaluateProgram_of_evaluated {r : Node} (hr : t.get? rootId = some r)
    (he : r.marks.evaluated = true) (ev : Evaluator σ) (s : σ) : t.evaluateProgram ev s =
      ⟨t, s, .error (.stage (.alreadyEvaluated (t.print rootId)))⟩ := by
  rw [evaluateProgram, if_pos (by rw [hr, Option.any_some, he])]

/-- The root stays, so it stays evaluated. -/
theorem evaluated_root_after (h : t.Orderly) {ev : Evaluator σ} {s : σ}
    (hok : (t.evaluateProgram ev s).result = .ok ()) (more : List Operation) :
    ∃ r, ((t.evaluateProgram ev s).tree.after more).get? rootId = some r ∧
      r.marks.evaluated = true := by
  have hu := (evaluateProgram_edits h.wellFormed ev s).orderly h
  obtain ⟨r, -, hr, -⟩ := h.rootMarks
  obtain ⟨r', -, hr', -⟩ := (after_orderly hu more).rootMarks
  have hmarked := (root_evaluateProgram h ev s).2 hok
  rw [hr, Option.map_some] at hmarked
  have hages := (after_edits hu.wellFormed more).ages hu.wellFormed
  exact ⟨r', hr', (hages.of_get? hu.wellFormed hmarked hr').marks.evaluated rfl⟩

theorem oneShot_start : start.OneShot [] := ⟨.nil, by simp⟩

/-- In every run, whatever fails in it, each node is accepted at most once, and each call is on a node
that is due. Once the program has been evaluated, its evaluation is refused and calls nobody. -/
theorem one_shot_evaluation (ops : List Operation) :
    (HookCall.acceptedNodes (start.history ops)).Nodup ∧
    (∀ call ∈ start.history ops, call.tree.Due call.node) ∧
    ∀ {σ σ' : Type} (ev : Evaluator σ) (s : σ) (more : List Operation) (ev' : Evaluator σ') (s' : σ'),
      ((start.after ops).evaluateProgram ev s).result = .ok () →
      let u := start.after (ops ++ .evaluateProgram ev s :: more)
      u.evaluateProgram ev' s' = ⟨u, s', .error (.stage (.alreadyEvaluated (u.print rootId)))⟩ ∧
        u.callsOf (.evaluateProgram ev' s') = [] := by
  have hdone := oneShot_start.history wellFormed_start ops
  refine ⟨hdone.nodup, due_of_mem_history wellFormed_start ops, ?_⟩
  intro σ σ' ev s more ev' s' hok u
  have hu : u = ((start.after ops).evaluateProgram ev s).tree.after more := by
    simp only [u, after, List.foldl_append, List.foldl_cons]
    rfl
  obtain ⟨r, hr, he⟩ := evaluated_root_after (after_orderly orderly_start ops) hok more
  rw [← hu] at hr
  refine ⟨evaluateProgram_of_evaluated hr he ev' s', ?_⟩
  rw [callsOf, evaluateProgram_of_evaluated hr he]

/-- The evaluation of a command fails at its second part. The part is evaluated after that, the command
is not: it is removed, and another one is evaluated with the program. -/
theorem one_shot_evaluation_retried :
    let command : Item := ⟨.command, "[", none⟩
    let part (name : String) : Item := ⟨.fragment, "cmd", some name⟩
    let close : Item := ⟨.brace ⟨.square, .closing⟩, "]", none⟩
    let ops : List Operation := [.insert 0 command, .insert 1 (part "a"), .insert 1 (part "b"),
      .insert 1 close, .evaluateProgram (.refusing "cmd:b" "" .idle) (), .evaluateProgram .idle (),
      .evaluateNode .idle 3 (), .removeFrom 0 1, .insert 0 command, .insert 4 (part "c"),
      .insert 4 close]
    let u := start.after (ops ++ [.evaluateProgram .idle ()])
    (start.history (ops ++ [.evaluateProgram .idle ()])).map (fun call => (call.node, call.accepted)) =
        [(2, true), (3, false), (3, true), (5, true), (4, true)] ∧
      u.evaluateProgram .tracing #[] =
        ⟨u, #[], .error (.stage (.alreadyEvaluated (u.print rootId)))⟩ ∧
      u.callsOf (.evaluateProgram .tracing #[]) = [] := by
  intro command part close ops u
  have hok : ((start.after ops).evaluateProgram .idle ()).result = .ok () := by
    decide +kernel
  refine ⟨by decide +kernel, ?_⟩
  exact (one_shot_evaluation ops).2.2 .idle () [] .tracing #[] hok

end Tree
end BracketTree
