import BracketTree.Proofs.Tree.Calls

/-! One evaluation, call by call. The calls go through the subtree in postorder, up to the node where the
evaluation stops; it stops nowhere exactly when every node is ready, none is evaluated and no call
fails. The accepted nodes are marked, and nothing else changes. -/

namespace BracketTree
open Forest
set_option autoImplicit false

namespace Tree

/-- A node and what stands under it, children before their parent. -/
def postorder (t : Tree) (id : NodeId) : List Node :=
  match t.subtree? id with
  | none => []
  | some (n, c) => (Forest.node n c .nil).postorder

/-- What a recorded run over `f` has done: it made the calls, left the tree `u` and gave the result. -/
structure Trail (t : Tree) (f : Forest Node) (calls : List HookCall) (u : Tree)
    (result : Except TreeError Unit) : Prop where
  postorder : calls.map HookCall.node <+: f.postorder.map Node.id
  tree : u = t.markAll (HookCall.acceptedNodes calls)
  pending : ∀ call ∈ calls, ∃ m ∈ f.preorder, m.id = call.node ∧ m.marks.evaluated = false
  complete : result = .ok () → calls.map HookCall.node = f.postorder.map Node.id
  ok_iff : result = .ok () ↔
    (f.Everywhere fun n _ => n.marks.evaluated = false ∧ n.marks.ready = true) ∧
      ∀ call ∈ calls, call.accepted = true

variable {σ : Type} {t u v : Tree} {f c rest : Forest Node} {n : Node} {calls calls' : List HookCall}
  {result : Except TreeError Unit} {e : TreeError}

/-! ## The subtree in postorder -/

theorem postorder_of_subtree? {id : NodeId} (h : t.subtree? id = some (n, c)) :
    t.postorder id = c.postorder ++ [n] := by
  rw [postorder, h]
  rfl

theorem flatMap_postorder (h : f.Tops fun n c => t.subtree? n.id = some (n, c)) :
    (f.roots.map Node.id).flatMap t.postorder = f.postorder := by
  induction f with
  | nil => rfl
  | node n c rest _ ih =>
    rw [roots_node, List.map_cons, List.flatMap_cons, postorder_of_subtree? h.1, ih h.2]
    simp [Forest.postorder]

/-- First the subtrees of the children in order, then the node. -/
theorem postorder_eq (hn : t.ids.Nodup) {id : NodeId} (h : t.get? id = some n) :
    t.postorder id = (t.children id).flatMap t.postorder ++ [n] := by
  obtain ⟨⟨n, c⟩, hs, rfl⟩ := Option.map_eq_some_iff.mp h
  rw [postorder_of_subtree? hs, children, flatMap_postorder (tops_below hn id), below, hs]

/-! ## Runs -/

theorem trail_stop (h : ¬(f.Everywhere fun n _ => n.marks.evaluated = false ∧ n.marks.ready = true)) :
    Trail t f [] t (.error e) where
  postorder := List.nil_prefix
  tree := rfl
  pending := by simp
  complete := fun hok => by cases hok
  ok_iff := ⟨fun hok => (by cases hok), fun hall => absurd hall.1 h⟩

/-- The evaluation stops under the node. -/
theorem Trail.inner (h : Trail t c calls u (.error e)) :
    Trail t (.node n c rest) calls u (.error e) where
  postorder := by
    rw [Forest.postorder, List.map_append]
    exact h.postorder.trans (List.prefix_append _ _)
  tree := h.tree
  pending := by
    intro call hcall
    obtain ⟨m, hm, hpending⟩ := h.pending call hcall
    exact ⟨m, by simp [hm], hpending⟩
  complete := fun hok => by cases hok
  ok_iff := by
    refine ⟨fun hok => (by cases hok), ?_⟩
    rintro ⟨hall, hcalls⟩
    cases h.ok_iff.mpr ⟨hall.2.1, hcalls⟩

/-- The call for the node itself fails. -/
theorem Trail.refused (h : Trail t c calls u (.ok ())) (hn : n.marks.evaluated = false) :
    Trail t (.node n c rest) (calls ++ [⟨u, n.id, false⟩]) u (.error e) where
  postorder := by
    rw [List.map_append, h.complete rfl, Forest.postorder, List.map_append, List.map_cons]
    exact (List.prefix_append_right_inj _).mpr (List.cons_prefix_cons.mpr ⟨rfl, List.nil_prefix⟩)
  tree := by
    rw [HookCall.acceptedNodes_append, h.tree]
    simp [HookCall.acceptedNodes]
  pending := by
    intro call hcall
    rcases List.mem_append.mp hcall with hcall | hcall
    · obtain ⟨m, hm, hpending⟩ := h.pending call hcall
      exact ⟨m, by simp [hm], hpending⟩
    · rw [List.mem_singleton.mp hcall]
      exact ⟨n, by simp, rfl, hn⟩
  complete := fun hok => by cases hok
  ok_iff := by
    refine ⟨fun hok => (by cases hok), ?_⟩
    rintro ⟨-, hcalls⟩
    cases hcalls ⟨u, n.id, false⟩ (by simp)

/-- After the node has been accepted come its siblings. -/
theorem Trail.accepted (h : Trail t c calls u (.ok ()))
    (hn : n.marks.evaluated = false ∧ n.marks.ready = true)
    (hrest : Trail (u.modify n.id .markEvaluated) rest calls' v result) :
    Trail t (.node n c rest) (calls ++ ⟨u, n.id, true⟩ :: calls') v result where
  postorder := by
    rw [List.map_append, h.complete rfl, Forest.postorder, List.map_append, List.map_cons,
      List.map_cons]
    exact (List.prefix_append_right_inj _).mpr (List.cons_prefix_cons.mpr ⟨rfl, hrest.postorder⟩)
  tree := by
    rw [HookCall.acceptedNodes_append, markAll_append, ← h.tree, hrest.tree]
    rfl
  pending := by
    intro call hcall
    rcases List.mem_append.mp hcall with hcall | hcall
    · obtain ⟨m, hm, hpending⟩ := h.pending call hcall
      exact ⟨m, by simp [hm], hpending⟩
    rcases List.mem_cons.mp hcall with rfl | hcall
    · exact ⟨n, by simp, rfl, hn.1⟩
    · obtain ⟨m, hm, hpending⟩ := hrest.pending call hcall
      exact ⟨m, by simp [hm], hpending⟩
  complete := by
    intro hok
    rw [List.map_append, h.complete rfl, Forest.postorder, List.map_append, List.map_cons,
      List.map_cons, hrest.complete hok]
  ok_iff := by
    obtain ⟨hc, hcalls⟩ := h.ok_iff.mp rfl
    have hsplit : (∀ call ∈ calls ++ ⟨u, n.id, true⟩ :: calls', call.accepted = true) ↔
        ∀ call ∈ calls', call.accepted = true := by
      rw [List.forall_mem_append, List.forall_mem_cons]
      exact ⟨fun h => h.2.2, fun h => ⟨hcalls, rfl, h⟩⟩
    rw [hrest.ok_iff, Everywhere, hsplit]
    exact and_congr_left fun _ => ⟨fun h => ⟨hn, hc, h⟩, fun h => h.2.2⟩

theorem evaluateForest_trail (ev : Evaluator σ) (f : Forest Node) (t : Tree)
    (s : List HookCall × σ) :
    ∃ calls, (evaluateForest ev.recorded false f t s).state.1 = s.1 ++ calls ∧
      Trail t f calls (evaluateForest ev.recorded false f t s).tree
        (evaluateForest ev.recorded false f t s).result := by
  induction f generalizing t s with
  | nil =>
    exact ⟨[], (List.append_nil _).symm, List.nil_prefix, rfl, by simp, fun _ => rfl,
      fun _ => ⟨trivial, by simp⟩, fun _ => rfl⟩
  | node n c rest hc hrest =>
    rw [evaluateForest]
    split
    · next he =>
      exact ⟨[], (List.append_nil _).symm, trail_stop fun h => by simp [h.1.1] at he⟩
    next he =>
    split
    · next hr =>
      exact ⟨[], (List.append_nil _).symm, trail_stop fun h => by simp [h.1.2] at hr⟩
    next hr =>
    obtain ⟨calls, hlog, hcalls⟩ := hc t s
    rcases hrun : evaluateForest ev.recorded false c t s with ⟨u, s', e | _⟩
    · rw [hrun] at hlog hcalls
      exact ⟨calls, hlog, hcalls.inner⟩
    · rw [hrun] at hlog hcalls
      dsimp only at hlog hcalls ⊢
      rw [Evaluator.recorded_hook]
      rcases ev.hook u n.id s'.2 with ⟨s'', e | _⟩
      · exact ⟨_, by rw [← List.append_assoc, ← hlog]; rfl, hcalls.refused (by simpa using he)⟩
      · obtain ⟨calls', hlog', hcalls'⟩ := hrest (u.modify n.id .markEvaluated)
          (s'.1 ++ [⟨u, n.id, true⟩], s'')
        refine ⟨calls ++ ⟨u, n.id, true⟩ :: calls', ?_, hcalls.accepted ?_ hcalls'⟩
        · exact hlog'.trans (by simp [hlog])
        · exact ⟨by simpa using he, by simpa using hr⟩

theorem markAll_eq_map (t : Tree) (ids : List NodeId) :
    t.markAll ids =
      { t with nodes := t.nodes.map fun n => if n.id ∈ ids then n.markEvaluated else n } := by
  induction ids generalizing t with
  | nil =>
    simp only [List.not_mem_nil, if_false]
    rw [map_of_forall_eq fun _ _ => rfl]
    rfl
  | cons id ids ih =>
    have hcons : t.markAll (id :: ids) = (t.modify id .markEvaluated).markAll ids := rfl
    rw [hcons, ih, modify]
    simp only [map_map]
    congr 2
    funext n
    by_cases hid : n.id = id <;> by_cases hm : n.id ∈ ids <;>
      simp [hid, hm, Node.markEvaluated]

/-! ## The evaluation of a node -/

/-- A child of the root that is neither ready nor evaluated. -/
def PassedOver (t : Tree) (id : NodeId) : Prop :=
  (t.parent? id).map Node.id = some rootId ∧
    ∃ n, t.get? id = some n ∧ n.marks.ready = false ∧ n.marks.evaluated = false

/-- All nodes in the subtree are ready and none is evaluated. -/
def FullyReady (t : Tree) (id : NodeId) : Prop :=
  ∀ j ∈ t.descendants id, ∃ n, t.get? j = some n ∧ n.marks.ready = true ∧ n.marks.evaluated = false

theorem passedOver_iff {id : NodeId} (hs : t.subtree? id = some (n, c)) :
    t.PassedOver id ↔ (t.parent? id).any (Node.hasId rootId) = true ∧ n.stands = false := by
  have hget : t.get? id = some n := by rw [get?, hs]; rfl
  rw [PassedOver, hget]
  refine and_congr ?_ ?_
  · cases t.parent? id <;> simp
  · simp [Node.stands, and_comm]

theorem get?_of_mem_subtree (hn : t.ids.Nodup) {id : NodeId} (hs : t.subtree? id = some (n, c))
    {m : Node} (hm : m ∈ (Forest.node n c .nil).preorder) : t.get? m.id = some m := by
  have hget : t.get? id = some n := by rw [get?, hs]; rfl
  have hbelow : t.below id = c := by rw [below, hs]
  rw [preorder_node, preorder_nil, List.append_nil] at hm
  rcases List.mem_cons.mp hm with rfl | hm
  · rw [id_of_get? hget, hget]
  · exact get?_of_mem hn (mem_of_mem_below (hbelow ▸ hm))

theorem fullyReady_iff (hn : t.ids.Nodup) {id : NodeId} (hs : t.subtree? id = some (n, c)) :
    t.FullyReady id ↔ (Forest.node n c .nil).Everywhere fun n _ =>
      n.marks.evaluated = false ∧ n.marks.ready = true := by
  have hdesc : t.descendants id = (Forest.node n c .nil).preorder.map Node.id := by
    simp [descendants_of_subtree? hs]
  rw [FullyReady, hdesc, List.forall_mem_map, everywhere_iff_preorder]
  refine forall₂_congr fun m hm => ?_
  rw [get?_of_mem_subtree hn hs hm]
  simp [and_comm]

/-- Only the node that an evaluation starts at may be passed over, and then nothing is done. -/
theorem evaluateNode_trail (ev : Evaluator σ) (s : σ) {id : NodeId}
    (hs : t.subtree? id = some (n, c)) :
    t.PassedOver id ∧ t.evaluateNode ev id s = ⟨t, s, .ok ()⟩ ∧
      t.callsOf (.evaluateNode ev id s) = [] ∨
    ¬t.PassedOver id ∧ Trail t (.node n c .nil) (t.callsOf (.evaluateNode ev id s))
      (t.evaluateNode ev id s).tree (t.evaluateNode ev id s).result := by
  have hplain := t.evaluateNode_recorded ev id ([], s)
  rw [callsOf, ← hplain, evaluateNode, hs, passedOver_iff hs]
  dsimp only
  obtain ⟨calls, hlog, hcalls⟩ := evaluateForest_trail ev (.node n c .nil) t ([], s)
  cases (t.parent? id).any (Node.hasId rootId) with
  | false => exact .inr ⟨by simp, hlog ▸ hcalls⟩
  | true =>
    rw [evaluateForest_lenient, filterRoots]
    cases hstands : n.stands with
    | false => exact .inl ⟨⟨rfl, rfl⟩, rfl, rfl⟩
    | true => exact .inr ⟨by simp, hlog ▸ hcalls⟩

/-- The evaluation of a live node, whatever the evaluator and however much was evaluated before. -/
theorem evaluation_exact {t : Tree} (h : Reachable t) {id : NodeId} (hid : t.contains id = true)
    (ev : Evaluator σ) (s : σ) :
    let calls := t.callsOf (.evaluateNode ev id s)
    let r := t.evaluateNode ev id s
    calls.map HookCall.node <+: (t.postorder id).map Node.id ∧
    (r.result = .ok () ∧ calls.map HookCall.node = (t.postorder id).map Node.id ↔
      t.FullyReady id ∧ ∀ call ∈ calls, call.accepted = true) ∧
    (t.PassedOver id → r = ⟨t, s, .ok ()⟩ ∧ calls = []) ∧
    (r.result = .ok () → t.PassedOver id ∨ calls.map HookCall.node = (t.postorder id).map Node.id) ∧
    (∀ j ∈ HookCall.acceptedNodes calls, ∃ m, t.get? j = some m ∧ m.marks.evaluated = false) ∧
    r.tree =
      { t with nodes := t.nodes.map fun m =>
          if m.id ∈ HookCall.acceptedNodes calls then m.markEvaluated else m } := by
  intro calls r
  have hn := h.wellFormed.nodup
  obtain ⟨n, hget⟩ := Option.isSome_iff_exists.mp hid
  obtain ⟨⟨n, c⟩, hs, rfl⟩ := Option.map_eq_some_iff.mp hget
  have hpost : t.postorder id = (Forest.node n c .nil).postorder := by
    rw [postorder, hs]
  rw [← markAll_eq_map, hpost, fullyReady_iff hn hs]
  rcases evaluateNode_trail ev s hs with ⟨hover, hr, hcalls⟩ | ⟨hover, htrail⟩
  · obtain ⟨-, hstands⟩ := (passedOver_iff hs).mp hover
    have hr : r = ⟨t, s, .ok ()⟩ := hr
    have hcalls : calls = [] := hcalls
    rw [hr, hcalls]
    refine ⟨List.nil_prefix, ?_, fun _ => ⟨rfl, rfl⟩, fun _ => .inl hover, ?_, rfl⟩
    case refine_2 => simp [HookCall.acceptedNodes]
    -- There is a call to make, and the node at which the evaluation starts is not ready.
    constructor
    · simp [Forest.postorder]
    · rintro ⟨hall, -⟩
      simp [Node.stands, hall.1.2] at hstands
  · refine ⟨htrail.postorder, ?_, fun h => absurd h hover, fun hok => .inr (htrail.complete hok), ?_,
      htrail.tree⟩
    · rw [← htrail.ok_iff]
      exact ⟨And.left, fun hok => ⟨hok, htrail.complete hok⟩⟩
    · intro j hj
      obtain ⟨call, hcall, rfl⟩ := List.mem_map.mp hj
      obtain ⟨m, hm, hmid, hpending⟩ := htrail.pending call (List.mem_of_mem_filter hcall)
      exact ⟨m, hmid ▸ get?_of_mem_subtree hn hs hm, hpending⟩

/-- A command with two parts, and another one that is still open. The second part is refused, so only the
first is marked; with nobody refusing, the command is evaluated; the open command is passed over. -/
theorem evaluation_exact_of_commands :
    let command : Item := ⟨.command, "[", none⟩
    let part (name : String) : Item := ⟨.fragment, "cmd", some name⟩
    let t := (((((start.insert 0 command).1.insert 1 (part "a")).1.insert 1 (part "b")).1.insert 1
      ⟨.brace ⟨.square, .closing⟩, "]", none⟩).1.insert 0 command).1
    let refusing := Evaluator.refusing "cmd:b" "" .idle
    Reachable t ∧ (t.postorder 1).map Node.id = [2, 3, 1] ∧
      (t.callsOf (.evaluateNode refusing 1 ())).map (fun call => (call.node, call.accepted)) =
        [(2, true), (3, false)] ∧
      (t.evaluateNode refusing 1 ()).tree =
        { t with nodes := t.nodes.map fun m => if m.id ∈ [2] then m.markEvaluated else m } ∧
      (t.evaluateNode .idle 1 ()).result = .ok () ∧ t.FullyReady 1 ∧
      t.PassedOver 4 ∧ t.evaluateNode .idle 4 () = ⟨t, (), .ok ()⟩ := by
  intro command part t refusing
  have h : Reachable t := .tail (.tail (.tail (.tail (.tail .refl (.insert 0 command)) (.insert 1 _))
    (.insert 1 _)) (.insert 1 _)) (.insert 0 command)
  have hpost : (t.postorder 1).map Node.id = [2, 3, 1] := by decide +kernel
  have hcalls : HookCall.acceptedNodes (t.callsOf (.evaluateNode refusing 1 ())) = [2] := by
    decide +kernel
  have hok : (t.evaluateNode .idle 1 ()).result = .ok () := by decide +kernel
  have hall : (t.callsOf (.evaluateNode .idle 1 ())).map HookCall.node =
      (t.postorder 1).map Node.id := by
    decide +kernel
  have hover : t.PassedOver 4 :=
    ⟨by decide +kernel, ⟨command, 4, none, none, ⟨true, false, false, false⟩⟩, by decide +kernel⟩
  have hlive : t.contains 1 = true ∧ t.contains 4 = true := by decide +kernel
  obtain ⟨-, -, -, -, -, htree⟩ := evaluation_exact h hlive.1 refusing ()
  obtain ⟨-, hready, -⟩ := evaluation_exact h hlive.1 .idle ()
  obtain ⟨-, -, hskip, -⟩ := evaluation_exact h hlive.2 .idle ()
  rw [hcalls] at htree
  exact ⟨h, hpost, by decide +kernel, htree, hok, (hready.mp ⟨hok, hall⟩).1, hover, (hskip hover).1⟩

end Tree
end BracketTree
