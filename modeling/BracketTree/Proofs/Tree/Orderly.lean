import BracketTree.Proofs.Tree.Operation

/-! The order of the stages in a node's life. Every edit keeps it: a node that is not the root is
initialised and passes the further stages in turn, and the root enters none of them. So no operation
asks for a stage out of turn, except when the root is to be set up. -/

namespace BracketTree
open Forest
set_option autoImplicit false

namespace Node

/-- What a node of a tree can have behind it. -/
structure Orderly (n : Node) : Prop where
  inOrder : n.id ≠ Tree.rootId → n.marks.InOrder
  root : n.id = Tree.rootId → ∃ e, n.marks = ⟨false, false, false, e⟩

variable {n : Node}

theorem Orderly.ne_rootId (h : n.Orderly) (hi : n.marks.initialized = true) :
    n.id ≠ Tree.rootId := by
  intro hid
  obtain ⟨e, hm⟩ := h.root hid
  rw [hm] at hi
  cases hi

theorem orderly_of_inOrder (hne : n.id ≠ Tree.rootId) (h : n.marks.InOrder) : n.Orderly :=
  ⟨fun _ => h, fun hid => absurd hid hne⟩

theorem Orderly.enter (h : n.Orderly) (hne : n.id ≠ Tree.rootId) (scope inherited : Option ScopeId) :
    { n with scope := scope, inherited := inherited }.markInitialized.Orderly := by
  have hord := h.inOrder hne
  exact orderly_of_inOrder hne ⟨rfl, hord.setup_of_analyzed, hord.analyzed_of_evaluated⟩

theorem Orderly.markSetup (h : n.Orderly) (hi : n.marks.initialized = true) :
    n.markSetup.Orderly := by
  have hne := h.ne_rootId hi
  exact orderly_of_inOrder hne ⟨hi, fun _ => rfl, (h.inOrder hne).analyzed_of_evaluated⟩

theorem Orderly.markAnalyzed (h : n.Orderly) (hi : n.marks.initialized = true)
    (hs : n.marks.setup = true) : n.markAnalyzed.Orderly :=
  orderly_of_inOrder (n := n.markAnalyzed) (h.ne_rootId hi) ⟨hi, fun _ => hs, fun _ => rfl⟩

theorem Orderly.markEvaluated (h : n.Orderly) (hr : n.marks.ready = true ∨ n.id = Tree.rootId) :
    n.markEvaluated.Orderly := by
  refine ⟨fun hne => ?_, fun hid => ?_⟩
  · have hord := h.inOrder hne
    have hready := hr.resolve_right hne
    simp only [Marks.ready, Bool.and_eq_true] at hready
    exact ⟨hord.initialized, hord.setup_of_analyzed, fun _ => hready.2⟩
  · obtain ⟨e, hm⟩ := h.root hid
    exact ⟨true, by rw [Node.markEvaluated, hm]⟩

end Node

/-- Neither the error of a setup or an analysis that comes too early, nor that of a recovery that finds
no place. -/
def TreeError.InTurn : TreeError → Prop
  | .stage (.setupBeforeInit _) => False
  | .stage (.setupWithoutParent _) => False
  | .stage (.analyzeBeforeSetup _) => False
  | .unrecoverable _ _ => False
  | _ => True

namespace Tree

structure Orderly (t : Tree) : Prop where
  wellFormed : t.WellFormed
  nodes : ∀ n ∈ t.nodes.preorder, n.Orderly

theorem orderly_start : start.Orderly := by
  refine ⟨wellFormed_start, fun n hn => ?_⟩
  obtain rfl := List.mem_singleton.mp hn
  exact ⟨fun hne => absurd rfl hne, fun _ => ⟨false, rfl⟩⟩

variable {t u : Tree} {id : NodeId} {n : Node} {e : TreeError}

/-! ## Edits keep the order -/

theorem orderly_of_mem_modify (h : t.Orderly) (hg : t.get? id = some n) {f : Node → Node}
    (hf : (f n).Orderly) {m : Node} (hm : m ∈ (t.modify id f).nodes.preorder) : m.Orderly := by
  rw [modify, preorder_map] at hm
  obtain ⟨k, hk, rfl⟩ := List.mem_map.mp hm
  split
  · next hid =>
    have hget := get?_of_mem h.wellFormed.nodup hk
    rw [hid, hg] at hget
    exact Option.some.inj hget ▸ hf
  · exact h.nodes k hk

theorem WellFormed.rootId_lt_nextId (hw : t.WellFormed) : rootId < t.nextId := by
  obtain ⟨r, c, hr, hid, -⟩ := hw.rooted
  exact hid ▸ hw.bounded r (by simp [hr])

theorem Edit.orderly (he : Edit t u) (h : t.Orderly) : u.Orderly := by
  refine ⟨he.wellFormed h.wellFormed, ?_⟩
  intro m hm
  cases he with
  | @enter id n outer hg hp =>
    have hne : n.id ≠ rootId := by
      intro hid
      rw [← id_of_get? hg, hid, h.wellFormed.coherent.root_parent] at hp
      cases hp
    have hin := (h.nodes n (mem_of_get? hg)).enter hne
    rw [enterScope] at hm
    split at hm
    · refine orderly_of_mem_modify h hg ?_ hm
      exact hin _ _
    · refine orderly_of_mem_modify h hg ?_ hm
      exact hin _ _
  | setUp hg hi _ _ =>
    exact orderly_of_mem_modify h hg ((h.nodes _ (mem_of_get? hg)).markSetup hi) hm
  | analyse hg hi hs =>
    exact orderly_of_mem_modify h hg ((h.nodes _ (mem_of_get? hg)).markAnalyzed hi hs) hm
  | evaluate hg hr =>
    rw [← id_of_get? hg] at hr
    exact orderly_of_mem_modify h hg ((h.nodes _ (mem_of_get? hg)).markEvaluated hr) hm
  | attach hg hitem =>
    rcases mem_attach h.wellFormed hg hitem hm with hold | rfl
    · exact h.nodes m hold
    · apply Node.orderly_of_inOrder (Nat.ne_of_gt h.wellFormed.rootId_lt_nextId)
      exact ⟨rfl, fun ha => absurd ha Bool.false_ne_true, fun he => absurd he Bool.false_ne_true⟩
  | remove hu => exact h.nodes m ((removeFrom_subset h.wellFormed.nodup hu).1 hm)
  | elide hg _ _ _ hu => exact h.nodes m ((elide_subset h.wellFormed.nodup hg hu).1 hm)

theorem Edits.orderly (he : Edits t u) (h : t.Orderly) : u.Orderly := by
  induction he with
  | refl => exact h
  | tail _ hlast ih => exact hlast.orderly ih

theorem after_orderly (h : t.Orderly) (ops : List Operation) : (t.after ops).Orderly :=
  (after_edits h.wellFormed ops).orderly h

theorem Orderly.rootMarks (h : t.Orderly) :
    ∃ r e, t.get? rootId = some r ∧ r.marks = ⟨false, false, false, e⟩ := by
  obtain ⟨r, c, hr, hid, -⟩ := h.wellFormed.rooted
  have hmem : r ∈ t.nodes.preorder := by simp [hr]
  obtain ⟨e, he⟩ := (h.nodes r hmem).root hid
  exact ⟨r, e, hid ▸ get?_of_mem h.wellFormed.nodup hmem, he⟩

/-! ## Errors of setup -/

theorem exists_shape_of_attempt {m : Node} {c : Forest Node} (h : n.attempt c = (m, .error e)) :
    ∃ x, e = .shape x := by
  rw [Node.attempt] at h
  split at h
  · cases h
  · split at h <;> cases h <;> exact ⟨_, rfl⟩

theorem setupNode_rootId (h : t.Orderly) : t.setupNode rootId =
    (t, .error (.stage (.setupBeforeInit (t.print rootId)))) := by
  obtain ⟨r, e, hr, hm⟩ := h.rootMarks
  rw [setupNode, hr]
  simp [hm]

theorem inTurn_of_setupNode (h : t.Orderly) (hne : id ≠ rootId)
    (he : (t.setupNode id).2 = .error e) : e.InTurn := by
  cases hg : t.get? id with
  | none =>
    rw [setupNode, hg] at he
    cases he
    trivial
  | some n =>
    obtain ⟨left, right, outer, c, hnodes, rfl⟩ := exists_spine_of_get? hg
    cases outer with
    | nil => exact absurd ((h.wellFormed.id_eq_rootId_iff hnodes).mpr rfl) hne
    | cons up outer =>
      have hord := (h.nodes n (mem_of_get? hg)).inOrder hne
      have hset := setupNode_focus h.wellFormed.nodup hnodes hord
      dsimp only at hset
      rw [hset] at he
      obtain ⟨x, rfl⟩ := exists_shape_of_attempt (Prod.ext rfl he)
      trivial

theorem inTurn_of_setupAll {ids : List NodeId} (h : t.Orderly) (hne : rootId ∉ ids)
    (he : (t.setupAll ids).2 = .error e) : e.InTurn := by
  induction ids generalizing t with
  | nil => cases he
  | cons id rest ih =>
    obtain ⟨hid, hrest⟩ := List.ne_and_not_mem_of_not_mem_cons hne
    have hnode := (setupNode_edits t id).orderly h
    rw [setupAll] at he
    rcases hs : t.setupNode id with ⟨u, x | _⟩
    · rw [hs] at he
      cases he
      exact inTurn_of_setupNode h (Ne.symm hid) (by rw [hs])
    · rw [hs] at he hnode
      exact ih hnode hrest he

theorem rootId_notMem_children (hw : t.WellFormed) (id : NodeId) : rootId ∉ t.children id := by
  intro hm
  have hp := parent?_of_mem_children hw.nodup hm
  rw [hw.coherent.root_parent] at hp
  cases hp

theorem inTurn_of_setupAsParent (h : t.Orderly) (hne : id ≠ rootId)
    (he : (t.setupAsParent id).2 = .error e) : e.InTurn := by
  rw [setupAsParent] at he
  split at he
  · refine inTurn_of_setupAll h ?_ he
    simp [rootId_notMem_children h.wellFormed, Ne.symm hne]
  · cases he
    trivial

/-- The root is set up last, after its children, and is refused then. -/
theorem error_of_setupAsParent_rootId (h : t.Orderly)
    (he : (t.setupAsParent rootId).2 = .error e) : e.InTurn ∨
      e = .stage (.setupBeforeInit ((t.setupAsParent rootId).1.print rootId)) := by
  rw [setupAsParent, if_pos h.wellFormed.coherent.root_live, setupAll_append] at he ⊢
  have hall := (setupAll_edits t (t.children rootId)).orderly h
  rcases hs : t.setupAll (t.children rootId) with ⟨u, x | _⟩
  · rw [hs] at he
    cases he
    exact .inl (inTurn_of_setupAll h (rootId_notMem_children h.wellFormed rootId) (by rw [hs]))
  · rw [hs] at he hall
    dsimp only at he ⊢
    rw [setupAll, setupNode_rootId hall] at he ⊢
    cases he
    exact .inr rfl

/-! ## Errors of insertion and of the other operations -/

section Insert
variable {fr up : Frame Node} {outer : List (Frame Node)} {c : Forest Node} {item : Item}
  {x : InsertError}

theorem Finishes.setup_error {next : NodeId} (hf : Finishes t fr outer c next (u, .error x)) :
    (t.setupAsParent fr.node.id).2 = .error x.cause := by
  cases hf with
  | atRoot _ hs _ => rw [hs]; rfl
  | atBlock hs _ => rw [hs]; rfl

theorem inTurn_of_finish (h : t.Orderly) (hnodes : t.nodes = plug (fr :: up :: outer) c)
    {next : NodeId} (hf : t.finish fr.node.id next = (u, .error x)) : x.cause.InTurn := by
  have hne : fr.node.id ≠ rootId := by
    intro hid
    cases (h.wellFormed.id_eq_rootId_iff hnodes).mp hid
  have hfin := finish_focus h.wellFormed hnodes next
  rw [hf] at hfin
  exact inTurn_of_setupAsParent h hne hfin.setup_error

theorem inTurn_of_insert (h : t.Orderly) {focus : NodeId}
    (hins : t.insert focus item = (u, .error x)) : x.cause.InTurn := by
  cases hg : t.get? focus with
  | none =>
    rw [insert, hg] at hins
    cases hins
    trivial
  | some n =>
    obtain ⟨b, hb, hside, hclose⟩ := closing_of_insert_error hg hins
    obtain ⟨left, right, outer, c, hnodes, rfl⟩ := exists_spine_of_get? hg
    have hn := h.wellFormed.nodup
    cases outer with
    | nil =>
      have hp : t.parent? n.id = none := parent?_focus hn hnodes
      rw [close, hp] at hclose
      cases hclose
      trivial
    | cons up outer =>
      have hc := insert_closing hn hnodes hb hside
      dsimp only at hc
      generalize hr : t.insert n.id item = r at hc
      rw [hins] at hr
      cases hc with
      | keep _ _ _ => exact inTurn_of_finish h hnodes hr.symm
      | @elide opening first rest ho _ hgroup he =>
        subst he
        have hp : (t.parent? n.id).isSome = true := by
          rw [parent?_focus hn hnodes]
          rfl
        have hel := elide_node hn hnodes
        have hedit := Edit.elide hg ho hgroup hp hel
        let fr : Frame Node := ⟨left, first, right⟩
        exact @inTurn_of_finish _ _ fr up outer rest _ (hedit.orderly h) rfl _ hr.symm
      | refuse _ =>
        cases hr
        trivial

end Insert

section Evaluation
variable {σ : Type}

theorem inTurn_of_evaluateForest (ev : Evaluator σ) (lenient : Bool) {f : Forest Node} {s : σ}
    (he : (evaluateForest ev lenient f t s).result = .error e) : e.InTurn := by
  induction f generalizing lenient t s with
  | nil => cases he
  | node n c rest hc hrest =>
    rw [evaluateForest] at he
    split at he
    · cases he
      trivial
    split at he
    · split at he
      · exact hrest lenient he
      · cases he
        trivial
    rcases hbelow : evaluateForest ev false c t s with ⟨u, s', x | _⟩
    · rw [hbelow] at he
      cases he
      exact hc false (by rw [hbelow])
    · rw [hbelow] at he
      dsimp only at he
      rcases hhook : ev.hook u n.id s' with ⟨s'', x | _⟩
      · rw [hhook] at he
        cases he
        trivial
      · rw [hhook] at he
        exact hrest lenient he

theorem inTurn_of_evaluateNode (ev : Evaluator σ) {s : σ}
    (he : (t.evaluateNode ev id s).result = .error e) : e.InTurn := by
  rw [evaluateNode] at he
  split at he
  · cases he
    trivial
  · exact inTurn_of_evaluateForest ev _ he

theorem inTurn_of_evaluateProgram (ev : Evaluator σ) {s : σ}
    (he : (t.evaluateProgram ev s).result = .error e) : e.InTurn := by
  rw [evaluateProgram] at he
  split at he
  · cases he
    trivial
  rcases hrun : evaluateForest ev true (t.below rootId) t s with ⟨u, s', x | _⟩
  · rw [hrun] at he
    cases he
    exact inTurn_of_evaluateForest ev true (by rw [hrun])
  · rw [hrun] at he
    cases he

end Evaluation

/-- Recovery hands back the error that it was given. -/
theorem cause_of_recover (t : Tree) (e : TreeError) (problem : NodeId) :
    (t.recover e problem).2.cause = e ∨
      ∃ reason, (t.recover e problem).2.cause = .unrecoverable e reason := by
  rw [recover]
  cases t.lineage problem with
  | nil => exact .inr ⟨_, rfl⟩
  | cons inner outwards =>
    dsimp only
    induction outwards generalizing inner with
    | nil =>
      rw [recoverAlong]
      split
      · exact .inl rfl
      · exact .inr ⟨_, rfl⟩
    | cons outer rest ih =>
      rw [recoverAlong]
      split
      · split
        · exact .inr ⟨_, rfl⟩
        · exact .inl rfl
      · exact ih outer

theorem error_of_apply (h : t.Orderly) {op : Operation} (he : (t.apply op).2 = .error e) :
    e.InTurn ∨
    (op = .setupNode rootId ∨ op = .setupAsParent rootId) ∧
      e = .stage (.setupBeforeInit ((t.apply op).1.print rootId)) ∨
    ∃ given problem, op = .recover given problem ∧
      (e = given ∨ ∃ reason, e = .unrecoverable given reason) := by
  cases op with
  | insert focus item =>
    rw [apply] at he
    rcases hins : t.insert focus item with ⟨u, x | next⟩
    · rw [hins] at he
      cases he
      exact .inl (inTurn_of_insert h hins)
    · rw [hins] at he
      cases he
  | initNode id =>
    rw [apply] at he
    cases hinit : t.initNode id with
    | ok u =>
      rw [hinit] at he
      cases he
    | error x =>
      rw [hinit] at he
      cases he
      rw [initNode] at hinit
      split at hinit
      · cases hinit
        exact .inl trivial
      · split at hinit <;> cases hinit
        exact .inl trivial
  | setupNode id =>
    by_cases hid : id = rootId
    · subst hid
      rw [apply, setupNode_rootId h] at he ⊢
      cases he
      exact .inr (.inl ⟨.inl rfl, rfl⟩)
    · exact .inl (inTurn_of_setupNode h hid he)
  | setupAsParent id =>
    by_cases hid : id = rootId
    · subst hid
      rcases error_of_setupAsParent_rootId h he with hin | hroot
      · exact .inl hin
      · exact .inr (.inl ⟨.inr rfl, hroot⟩)
    · exact .inl (inTurn_of_setupAsParent h hid he)
  | evaluateNode ev id s => exact .inl (inTurn_of_evaluateNode ev he)
  | evaluateProgram ev s => exact .inl (inTurn_of_evaluateProgram ev he)
  | removeFrom parent child =>
    rw [apply] at he
    cases hrem : t.removeFrom parent child with
    | ok u =>
      rw [hrem] at he
      cases he
    | error x =>
      rw [hrem] at he
      cases he
      rw [removeFrom] at hrem
      split at hrem
      · split at hrem <;> cases hrem
        exact .inl trivial
      · cases hrem
        exact .inl trivial
  | recover given problem =>
    cases he
    exact .inr (.inr ⟨given, problem, rfl, cause_of_recover t given problem⟩)

end Tree
end BracketTree
