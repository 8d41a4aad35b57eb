import BracketTree.Proofs.Tree.Orderly

/-! The life of a node under all public operations, in any order and at any node. What is left to show
is what becomes of the root: it stays as it is until the program has been evaluated. -/

namespace BracketTree
open Forest
set_option autoImplicit false

namespace Tree

variable {t u : Tree} {id : NodeId} {n : Node} {e : TreeError}

/-! ## The root -/

theorem root_eq_of_mem (hw : t.WellFormed) (hwu : u.WellFormed)
    (h : ∀ m ∈ u.nodes.preorder, m.id = rootId → m ∈ t.nodes.preorder) :
    u.get? rootId = t.get? rootId := by
  obtain ⟨r, c, hr, hid, -⟩ := hwu.rooted
  have hmem : r ∈ u.nodes.preorder := by simp [hr]
  rw [← hid, get?_of_mem hwu.nodup hmem, get?_of_mem hw.nodup (h r hmem hid)]

theorem root_initNode (hw : t.WellFormed) (hwu : u.WellFormed) (hu : t.initNode id = .ok u) :
    u.get? rootId = t.get? rootId := by
  apply root_eq_of_mem hw hwu
  intro m hm hroot
  rw [initNode] at hu
  split at hu
  · cases hu
  split at hu
  · cases hu
  next n _ outer hp =>
  cases hu
  rcases mem_enterScope hm with hold | ⟨-, -, -, -, hid, -⟩
  · exact hold
  · rw [← hid, hroot, hw.coherent.root_parent] at hp
    cases hp

theorem Remarked.mem_of_not_mem {ids : List NodeId} (h : Remarked ids t u) {m : Node}
    (hm : m ∈ u.nodes.preorder) (hid : m.id ∉ ids) : m ∈ t.nodes.preorder := by
  obtain ⟨g, hg, hfix, rfl⟩ := h
  rw [preorder_map] at hm
  obtain ⟨k, hk, rfl⟩ := List.mem_map.mp hm
  rw [hg.id] at hid
  rw [hfix k hid]
  exact hk

theorem root_setupNode (h : t.Orderly) (id : NodeId) :
    (t.setupNode id).1.get? rootId = t.get? rootId := by
  by_cases hid : id = rootId
  · rw [hid, setupNode_rootId h]
  · have hu := (setupNode_edits t id).orderly h
    apply root_eq_of_mem h.wellFormed hu.wellFormed
    intro m hm hroot
    apply (setupNode_remarked t id).mem_of_not_mem hm
    rw [hroot]
    exact fun hmem => hid (List.mem_singleton.mp hmem).symm

theorem root_setupAll (h : t.Orderly) (ids : List NodeId) :
    (t.setupAll ids).1.get? rootId = t.get? rootId := by
  induction ids generalizing t with
  | nil => rfl
  | cons id rest ih =>
    have hnode := root_setupNode h id
    have hu := (setupNode_edits t id).orderly h
    rw [setupAll]
    rcases hs : t.setupNode id with ⟨u, x | _⟩
    · rw [hs] at hnode
      exact hnode
    · rw [hs] at hnode hu
      exact (ih hu).trans hnode

theorem recover_subset (hn : t.ids.Nodup) (e : TreeError) (problem : NodeId) :
    (t.recover e problem).1.nodes.preorder ⊆ t.nodes.preorder := by
  rw [recover]
  cases t.lineage problem with
  | nil => exact List.Subset.refl _
  | cons inner outwards =>
    dsimp only
    induction outwards generalizing inner with
    | nil =>
      rw [recoverAlong]
      split <;> exact List.Subset.refl _
    | cons outer rest ih =>
      rw [recoverAlong]
      split
      · split
        · exact List.Subset.refl _
        · next u hu => exact (removeFrom_subset hn hu).1
      · exact ih outer

/-- The root is the outermost level of every spine, and insertion works further in. -/
theorem root_insert (hw : t.WellFormed) (focus : NodeId) (item : Item) :
    (t.insert focus item).1.get? rootId = t.get? rootId := by
  cases hg : t.get? focus with
  | none => rw [insert, hg]
  | some n =>
    obtain ⟨left, right, outer, c, hnodes, rfl⟩ := exists_spine_of_get? hg
    obtain ⟨inner, r, hspine, hid, -⟩ := hw.spine_eq hnodes (by simp)
    have hlast : (⟨left, n, right⟩ :: outer).getLast? = some ⟨.nil, r, .nil⟩ := by
      rw [hspine]
      simp
    have hroot : ∀ (v : Tree) spine d, v.WellFormed → v.nodes = plug spine d →
        spine.getLast? = some ⟨.nil, r, .nil⟩ → v.get? rootId = some r := by
      intro v spine d hv hv' hs
      rw [← hid]
      apply get?_of_mem hv.nodup
      rw [hv']
      exact mem_preorder_plug (List.mem_of_getLast? hs) d
    have hwu := (insert_edits t n.id item).wellFormed hw
    have hins := insert_focus hw hnodes item
    dsimp only at hins
    rw [hroot t _ _ hw hnodes hlast]
    generalize t.insert n.id item = res at hins hwu ⊢
    cases hins with
    | stay _ hu => exact hroot _ _ _ hwu hu hlast
    | descend _ _ hu => exact hroot _ _ _ hwu hu (by rwa [List.getLast?_cons_cons])
    | ascend _ _ hs hu =>
      subst hs
      exact hroot _ _ _ hwu hu (by rwa [List.getLast?_cons_cons] at hlast)
    | @resume _ _ skipped rest resumed _ _ _ _ hs hu =>
      subst hs
      refine hroot _ _ _ hwu hu ?_
      rwa [← List.cons_append, List.getLast?_append_cons] at hlast
    | refuse _ _ => exact hroot t _ _ hw hnodes hlast

section Evaluation
variable {σ : Type}

theorem root_evaluateForest (ev : Evaluator σ) (lenient : Bool) {f : Forest Node} (s : σ)
    (hf : ∀ n ∈ f.preorder, n.marks.ready = true → n.id ≠ rootId) :
    (evaluateForest ev lenient f t s).tree.get? rootId = t.get? rootId := by
  induction f generalizing lenient t s with
  | nil => rfl
  | node n c rest hc hrest =>
    simp only [preorder_node, List.mem_cons, List.mem_append] at hf
    rw [evaluateForest]
    split
    · rfl
    split
    · split
      · exact hrest lenient s fun m hm => hf m (.inr (.inr hm))
      · rfl
    next hready =>
    have hne : n.id ≠ rootId := hf n (.inl rfl) (by simpa using hready)
    have hbelow := hc (t := t) false s fun m hm => hf m (.inr (.inl hm))
    rcases hrun : evaluateForest ev false c t s with ⟨u, s', x | _⟩
    · rw [hrun] at hbelow
      exact hbelow
    · rw [hrun] at hbelow
      dsimp only at hbelow ⊢
      rcases ev.hook u n.id s' with ⟨s'', x | _⟩
      · exact hbelow
      · have hmark := get?_modify_of_ne (f := .markEvaluated) (fun _ => rfl) u hne
        exact (hrest lenient s'' fun m hm => hf m (.inr (.inr hm))).trans (hmark.trans hbelow)

theorem Orderly.ne_rootId_of_ready (h : t.Orderly) (hm : n ∈ t.nodes.preorder)
    (hr : n.marks.ready = true) : n.id ≠ rootId := by
  simp only [Marks.ready, Bool.and_eq_true] at hr
  exact (h.nodes n hm).ne_rootId hr.1.1

theorem root_evaluateNode (h : t.Orderly) (ev : Evaluator σ) (id : NodeId) (s : σ) :
    (t.evaluateNode ev id s).tree.get? rootId = t.get? rootId := by
  rw [evaluateNode]
  split
  · rfl
  next n c hs =>
  apply root_evaluateForest
  intro m hm
  apply h.ne_rootId_of_ready
  obtain ⟨left, right, outer, hnodes, -⟩ := exists_spine hs
  have hm' : m = n ∨ m ∈ c.preorder := by simpa using hm
  rw [hnodes, (preorder_plug_perm _ _).mem_iff, List.mem_append, beside, List.mem_cons]
  exact hm'.elim (fun he => .inr (.inl he)) .inl

theorem root_evaluateProgram (h : t.Orderly) (ev : Evaluator σ) (s : σ) :
    ((t.evaluateProgram ev s).result ≠ .ok () →
      (t.evaluateProgram ev s).tree.get? rootId = t.get? rootId) ∧
    ((t.evaluateProgram ev s).result = .ok () →
      (t.evaluateProgram ev s).tree.get? rootId = (t.get? rootId).map Node.markEvaluated) := by
  have hbelow := root_evaluateForest (t := t) ev true (f := t.below rootId) s fun m hm =>
    h.ne_rootId_of_ready (mem_of_mem_below hm)
  obtain ⟨r, -, hr, -⟩ := h.rootMarks
  have hid : r.id = rootId := id_of_get? hr
  rw [evaluateProgram]
  split
  · exact ⟨fun _ => rfl, fun hok => by cases hok⟩
  rcases hrun : evaluateForest ev true (t.below rootId) t s with ⟨u, s', x | _⟩
  · rw [hrun] at hbelow
    exact ⟨fun _ => hbelow, fun hok => by cases hok⟩
  · rw [hrun] at hbelow
    refine ⟨fun hne => absurd rfl hne, fun _ => ?_⟩
    dsimp only at hbelow ⊢
    rw [get?_modify (f := .markEvaluated) fun _ => rfl, hbelow, hr, Option.map_some, if_pos hid,
      Option.map_some]

end Evaluation

theorem root_apply (h : t.Orderly) {op : Operation}
    (hop : op.isProgram = false ∨ (t.apply op).2 ≠ .ok ()) :
    (t.apply op).1.get? rootId = t.get? rootId := by
  have hw := h.wellFormed
  have hwu := ((apply_edits hw op).orderly h).wellFormed
  cases op with
  | insert focus item =>
    rw [fst_apply_insert]
    exact root_insert hw focus item
  | initNode id =>
    rw [apply] at hwu ⊢
    cases hu : t.initNode id with
    | error x => rfl
    | ok u =>
      rw [hu] at hwu
      exact root_initNode hw hwu hu
  | setupNode id => exact root_setupNode h id
  | setupAsParent id =>
    rw [apply, setupAsParent]
    split
    · exact root_setupAll h _
    · rfl
  | evaluateNode ev id s => exact root_evaluateNode h ev id s
  | evaluateProgram ev s =>
    rcases hop with hno | herr
    · cases hno
    · exact (root_evaluateProgram h ev s).1 herr
  | removeFrom parent child =>
    rw [apply] at hwu ⊢
    cases hu : t.removeFrom parent child with
    | error x => rfl
    | ok u =>
      rw [hu] at hwu
      exact root_eq_of_mem hw hwu fun m hm _ => (removeFrom_subset hw.nodup hu).1 hm
  | recover e problem => exact root_eq_of_mem hw hwu fun m hm _ => recover_subset hw.nodup e problem hm

/-! ## Runs -/

theorem contains_eq_false_iff (hn : t.ids.Nodup) (id : NodeId) :
    t.contains id = false ↔ id ∉ t.ids := by
  rw [← contains_iff_mem_ids hn, Bool.not_eq_true]

/-- What holds of the nodes of a tree, whatever is done to it from now on. -/
structure Lifecycle (t : Tree) : Prop where
  inOrder : ∀ id n, t.get? id = some n → id ≠ rootId → n.marks.InOrder
  root_marks : ∃ r evaluated, t.get? rootId = some r ∧ r.marks = ⟨false, false, false, evaluated⟩
  root_kept : ∀ op, op.isProgram = false ∨ (t.apply op).2 ≠ .ok () →
    (t.apply op).1.get? rootId = t.get? rootId
  root_evaluated : ∀ {σ : Type} (ev : Evaluator σ) (s : σ),
    (t.apply (.evaluateProgram ev s)).2 = .ok () →
    (t.apply (.evaluateProgram ev s)).1.get? rootId = (t.get? rootId).map Node.markEvaluated
  ages : ∀ ops id n m, t.get? id = some n → (t.after ops).get? id = some m →
    n.marks.Grow m.marks ∧ m.toItem = n.toItem
  not_revived : ∀ ops more id, t.contains id = true → (t.after ops).contains id = false →
    ((t.after ops).after more).contains id = false
  errors : ∀ op e, (t.apply op).2 = .error e → e.InTurn ∨
    (op = .setupNode rootId ∨ op = .setupAsParent rootId) ∧
      e = .stage (.setupBeforeInit ((t.apply op).1.print rootId)) ∨
    ∃ given problem, op = .recover given problem ∧
      (e = given ∨ ∃ reason, e = .unrecoverable given reason)

theorem Orderly.lifecycle (h : t.Orderly) : t.Lifecycle := by
  have hw := h.wellFormed
  refine ⟨?_, h.rootMarks, fun _ => root_apply h, fun ev s => (root_evaluateProgram h ev s).2, ?_, ?_,
    fun _ _ => error_of_apply h⟩
  · intro id n hg hne
    rw [← id_of_get? hg] at hne
    exact (h.nodes n (mem_of_get? hg)).inOrder hne
  · intro ops id n m hn hm
    have hage := ((after_edits hw ops).ages hw).of_get? hw hn hm
    exact ⟨hage.marks, hage.item⟩
  · intro ops more id hlive hgone
    have hwu := after_wellFormed hw ops
    have hwv := after_wellFormed hwu more
    rw [contains_iff_mem_ids hw.nodup] at hlive
    rw [contains_eq_false_iff hwu.nodup] at hgone
    rw [contains_eq_false_iff hwv.nodup]
    have hlater := (after_edits hw ops).later hw
    exact hlater.not_revived ((after_edits hwu more).later hwu) hw hlive hgone

/-- Every tree that the public operations can make, failing or not, has had its nodes pass their stages
in order, and keeps to that. -/
theorem lifecycle_after (ops : List Operation) : (start.after ops).Lifecycle :=
  (after_orderly orderly_start ops).lifecycle

/-- A command is evaluated with the program. After that the root is as little set up as before. -/
theorem lifecycle_after_evaluation :
    let command : Item := ⟨.command, "[", none⟩
    let close : Item := ⟨.brace ⟨.square, .closing⟩, "]", none⟩
    let t := start.after [.insert 0 command, .insert 1 ⟨.fragment, "cmd", some "x"⟩, .insert 1 close,
      .evaluateProgram .idle ()]
    (∃ n, t.get? 1 = some n ∧ n.marks = ⟨true, true, true, true⟩ ∧ n.marks.InOrder) ∧
      (∃ r, t.get? 0 = some r ∧ r.marks = ⟨false, false, false, true⟩) ∧
      (t.apply (.setupNode 0)).2 = .error (.stage (.setupBeforeInit "root([(cmd:x))")) ∧
      (t.apply (.setupNode 0)).1.get? 0 = t.get? 0 := by
  intro command close t
  have h : t.Lifecycle := lifecycle_after _
  have hcommand : (t.get? 1).map Node.marks = some ⟨true, true, true, true⟩ := by decide
  have hroot : (t.get? 0).map Node.marks = some ⟨false, false, false, true⟩ := by decide
  obtain ⟨n, hn, hm⟩ := Option.map_eq_some_iff.mp hcommand
  obtain ⟨r, hr, hrm⟩ := Option.map_eq_some_iff.mp hroot
  refine ⟨⟨n, hn, hm, h.inOrder 1 n hn Nat.one_ne_zero⟩, ⟨r, hr, hrm⟩, ?_,
    h.root_kept (.setupNode 0) (.inl rfl)⟩
  decide

end Tree
end BracketTree
