import BracketTree.Proofs.Tree.WellFormed
import BracketTree.Tree.Evaluate
import BracketTree.Tree.Insert
import Mathlib.Logic.Relation

/-! All operations on a tree are made of a few edits. Each edit comes with what the operation has
checked before it, so that an invariant is proved once for the edits and then holds of every tree
that the operations can reach, also after an operation that fails midway. -/

namespace BracketTree.Tree
open Forest
set_option autoImplicit false

inductive Edit (t : Tree) : Tree → Prop where
  | enter {id : NodeId} {n outer : Node} : t.get? id = some n → t.parent? id = some outer →
      Edit t (t.enterScope id n.kind outer.enclosing)
  | setUp {id : NodeId} {n : Node} : t.get? id = some n → n.marks.initialized = true →
      n.marks.setup = false → (t.parent? id).isSome = true → Edit t (t.modify id .markSetup)
  | analyse {id : NodeId} {n : Node} : t.get? id = some n → n.marks.initialized = true →
      n.marks.setup = true → Edit t (t.modify id .markAnalyzed)
  | evaluate {id : NodeId} {n : Node} : t.get? id = some n →
      (n.marks.ready = true ∨ id = rootId) → Edit t (t.modify id .markEvaluated)
  | attach {n : Node} {item : Item} : t.get? n.id = some n →
      (∀ b, item.kind.brace? = some b → b.isOpening = true) → Edit t (t.attach n item)
  | remove {parent child : NodeId} {u : Tree} :
      t.removeFrom parent child = .ok u → Edit t u
  | elide {group first : NodeId} {n : Node} {b : Brace} {u : Tree} : t.get? group = some n →
      n.kind.brace? = some b → b.isGrouping = true → (t.parent? group).isSome = true →
      t.elide group = .ok (u, first) → Edit t u

/-- Any number of edits, one after the other. -/
abbrev Edits : Tree → Tree → Prop := Relation.ReflTransGen Edit

theorem Edit.edits {t u : Tree} (h : Edit t u) : Edits t u := .single h

/-! ## Each operation as edits -/

theorem initNode_edit {t u : Tree} {id : NodeId} (h : t.initNode id = .ok u) : Edit t u := by
  rw [initNode] at h
  cases hg : t.get? id with
  | none => simp [hg] at h
  | some n =>
    cases hp : t.parent? id with
    | none => simp [hg, hp] at h
    | some outer =>
      simp only [hg, hp, Except.ok.injEq] at h
      exact h ▸ .enter hg hp

theorem setupNode_edits (t : Tree) (id : NodeId) : Edits t (t.setupNode id).1 := by
  rw [setupNode]
  cases hg : t.get? id with
  | none => exact .refl
  | some n =>
    dsimp only
    split
    · exact .refl
    next hs =>
    split
    · exact .refl
    next hi =>
    split
    · exact .refl
    next hp =>
    have hinit : n.marks.initialized = true := by simpa using hi
    cases n.setupCheck (t.below id) with
    | error e => exact .refl
    | ok =>
      have hsetup : Edit t (t.modify id .markSetup) :=
        .setUp hg hinit (by simpa using hs) (Option.isSome_iff_ne_none.mpr (by simpa using hp))
      have hgu : (t.modify id .markSetup).get? id = some n.markSetup := by
        rw [get?_modify (f := .markSetup) (fun _ => rfl), hg, Option.map_some, if_pos (id_of_get? hg)]
      dsimp only
      cases (t.modify id .markSetup).analyzeNode id with
      | error e => exact hsetup.edits
      | ok => exact hsetup.edits.tail (.analyse hgu hinit rfl)

theorem setupAll_edits (t : Tree) (ids : List NodeId) : Edits t (t.setupAll ids).1 := by
  induction ids generalizing t with
  | nil => exact .refl
  | cons id rest ih =>
    have hid := setupNode_edits t id
    rw [setupAll]
    split
    · next u e he => exact he ▸ hid
    · next u he =>
      rw [he] at hid
      exact hid.trans (ih u)

theorem setupAsParent_edits (t : Tree) (id : NodeId) : Edits t (t.setupAsParent id).1 := by
  rw [setupAsParent]
  split
  · exact setupAll_edits t _
  · exact .refl

theorem recoverAlong_edits (t : Tree) (e : TreeError) (inner : Node) (outwards : List Node) :
    Edits t (t.recoverAlong e inner outwards).1 := by
  induction outwards generalizing inner with
  | nil =>
    rw [recoverAlong]
    split <;> exact .refl
  | cons outer rest ih =>
    rw [recoverAlong]
    split
    · split
      · exact .refl
      · next u hu => exact (Edit.remove hu).edits
    · exact ih outer

theorem recover_edits (t : Tree) (e : TreeError) (problem : NodeId) :
    Edits t (t.recover e problem).1 := by
  rw [recover]
  split
  · exact .refl
  · next n outwards _ => exact recoverAlong_edits t e n outwards

theorem finish_edits (t : Tree) (closed next : NodeId) : Edits t (t.finish closed next).1 := by
  have hs := setupAsParent_edits t closed
  rw [finish]
  split
  · next u he =>
    rw [he] at hs
    exact hs
  · next u e he =>
    rw [he] at hs
    exact hs.trans (recover_edits u e closed)

theorem close_edits {t : Tree} {n : Node} (hn : t.get? n.id = some n) (item : Item) (b : Brace) :
    Edits t (t.close n item b).1 := by
  rw [close]
  cases hp : t.parent? n.id with
  | none => exact .refl
  | some outer =>
    cases ho : n.kind.brace?.filter Brace.isOpening with
    | none => exact .refl
    | some opening =>
      dsimp only
      split
      · exact .refl
      split
      · next hg =>
        cases he : t.elide n.id with
        | error e => exact .refl
        | ok r =>
          obtain ⟨u, first⟩ := r
          have hedit : Edit t u :=
            .elide hn (Option.filter_eq_some_iff.mp ho).1 hg (by rw [hp]; rfl) he
          exact hedit.edits.trans (finish_edits u first outer.id)
      · exact finish_edits t n.id outer.id

theorem insert_edits (t : Tree) (focus : NodeId) (item : Item) :
    Edits t (t.insert focus item).1 := by
  rw [insert]
  cases hn : t.get? focus with
  | none => exact .refl
  | some n =>
    obtain rfl := id_of_get? hn
    cases hb : item.kind.brace? with
    | none => exact (Edit.attach hn (by simp [hb])).edits
    | some b =>
      dsimp only
      split
      · next ho => exact (Edit.attach hn (by simpa [hb] using ho)).edits
      · exact close_edits hn item b

section Evaluation
variable {σ : Type}

def ready? (t : Tree) (id : NodeId) : Option Bool := (t.get? id).map fun n => n.marks.ready

theorem ready?_evaluate (t : Tree) (id j : NodeId) :
    (t.modify id .markEvaluated).ready? j = t.ready? j := by
  rw [ready?, get?_modify (f := .markEvaluated) (fun _ => rfl), Option.map_map]
  refine congrArg (fun g => (t.get? j).map g) (funext fun n => ?_)
  dsimp only [Function.comp_apply]
  split <;> rfl

/-- The nodes of `f` are looked at as they were at the start; evaluation leaves them ready. -/
theorem evaluateForest_edits (ev : Evaluator σ) (lenient : Bool) (f : Forest Node) (t : Tree)
    (s : σ) (hf : ∀ n ∈ f.preorder, t.ready? n.id = some n.marks.ready) :
    Edits t (evaluateForest ev lenient f t s).tree ∧
      ∀ j, (evaluateForest ev lenient f t s).tree.ready? j = t.ready? j := by
  induction f generalizing lenient t s with
  | nil => exact ⟨.refl, fun _ => rfl⟩
  | node n c rest hc hrest =>
    simp only [preorder_node, List.mem_cons, List.mem_append] at hf
    rw [evaluateForest]
    split
    · exact ⟨.refl, fun _ => rfl⟩
    split
    · split
      · exact hrest lenient t s fun m hm => hf m (.inr (.inr hm))
      · exact ⟨.refl, fun _ => rfl⟩
    next hready =>
    obtain ⟨hedits, hsame⟩ := hc false t s fun m hm => hf m (.inr (.inl hm))
    rcases he : evaluateForest ev false c t s with ⟨u, s', e | _⟩
    · rw [he] at hedits hsame
      exact ⟨hedits, hsame⟩
    · rw [he] at hedits hsame
      dsimp only at hedits hsame ⊢
      rcases ev.hook u n.id s' with ⟨s'', e | _⟩
      · exact ⟨hedits, hsame⟩
      · have hn : u.ready? n.id = some true := by
          rw [hsame, hf n (.inl rfl)]
          simpa using hready
        obtain ⟨m, hm, hmr⟩ := Option.map_eq_some_iff.mp hn
        have hmark : Edit u (u.modify n.id .markEvaluated) := .evaluate hm (.inl hmr)
        have hkeep : ∀ j, (u.modify n.id .markEvaluated).ready? j = t.ready? j :=
          fun j => (ready?_evaluate u n.id j).trans (hsame j)
        obtain ⟨hedits', hsame'⟩ := hrest lenient (u.modify n.id .markEvaluated) s'' fun m hm =>
          (hkeep m.id).trans (hf m (.inr (.inr hm)))
        exact ⟨(hedits.tail hmark).trans hedits', fun j => (hsame' j).trans (hkeep j)⟩

theorem ready?_of_mem {t : Tree} (hn : t.ids.Nodup) {n : Node} (h : n ∈ t.nodes.preorder) :
    t.ready? n.id = some n.marks.ready := by
  rw [ready?, get?_of_mem hn h]
  rfl

theorem evaluateNode_edits {t : Tree} (hn : t.ids.Nodup) (ev : Evaluator σ) (id : NodeId) (s : σ) :
    Edits t (t.evaluateNode ev id s).tree := by
  rw [evaluateNode]
  split
  · exact .refl
  · next n c hs =>
    obtain ⟨left, right, outer, he, -⟩ := exists_spine hs
    refine (evaluateForest_edits ev _ _ t s ?_).1
    intro m hm
    refine ready?_of_mem hn ?_
    rw [he, (preorder_plug_perm _ _).mem_iff]
    simp only [preorder_node, preorder_nil, List.append_nil, List.mem_cons] at hm
    rcases hm with rfl | hm <;> simp [*, beside]

theorem evaluateProgram_edits {t : Tree} (hw : t.WellFormed) (ev : Evaluator σ) (s : σ) :
    Edits t (t.evaluateProgram ev s).tree := by
  rw [evaluateProgram]
  split
  · exact .refl
  obtain ⟨hedits, hsame⟩ := evaluateForest_edits ev true (t.below rootId) t s fun n hm =>
    ready?_of_mem hw.nodup (mem_of_mem_below hm)
  rcases he : evaluateForest ev true (t.below rootId) t s with ⟨u, s', e | _⟩
  · rw [he] at hedits
    exact hedits
  · rw [he] at hedits hsame
    dsimp only at hedits hsame ⊢
    obtain ⟨r, c, hr, hid, -⟩ := hw.rooted
    have hroot : t.ready? rootId = some r.marks.ready :=
      hid ▸ ready?_of_mem hw.nodup (by simp [hr])
    obtain ⟨m, hm, -⟩ := Option.map_eq_some_iff.mp ((hsame rootId).trans hroot)
    exact hedits.tail (.evaluate hm (.inr rfl))

end Evaluation

end BracketTree.Tree
