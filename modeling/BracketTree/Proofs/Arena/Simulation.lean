import BracketTree.Proofs.Arena.Evaluate
import BracketTree.Proofs.Arena.Insert

/-! The public operations on a table. Started on the table of a tree, each of them answers as the operation
on the tree does, and leaves the table of the tree that is left; so does every run of operations from the
start. In the tables that are met the links agree, and an insertion never comes to an empty slot. -/

namespace BracketTree
open Forest
set_option autoImplicit false

namespace Arena

/-- A public operation on a table, with all that it is given. -/
inductive Operation : Type 1 where
  | insert (focus : NodeId) (item : Item)
  | initNode (id : NodeId)
  | setupNode (id : NodeId)
  | setupAsParent (id : NodeId)
  | evaluateNode {σ : Type} (ev : Evaluator σ) (id : NodeId) (s : σ)
  | evaluateProgram {σ : Type} (ev : Evaluator σ) (s : σ)
  | removeFrom (parent child : NodeId)
  | recover (e : TreeError) (problem : NodeId)

/-- A course with a first state of the evaluator; the last one is forgotten. -/
def withState {σ : Type} (x : Course σ Unit) (s : σ) : Action TreeError Unit := ExceptT.mk fun a => do
  let (r, (a, _)) ← x.run.run (a, s)
  return (r, a)

namespace Operation

/-- What the operation does, and the error with which it fails, if it does. -/
def action : Operation → Action TreeError Unit
  | .insert focus item => ExceptT.adapt InsertError.cause do
    let _ ← Arena.insert focus item
  | .initNode id => Arena.initNode id
  | .setupNode id => Arena.setupNode id
  | .setupAsParent id => Arena.setupAsParent id
  | .evaluateNode ev id s => withState (Arena.evaluateNode ev id) s
  | .evaluateProgram ev s => withState (Arena.evaluateProgram ev) s
  | .removeFrom parent child => Arena.removeFrom parent child
  | .recover e problem => do throw (← Arena.recover e problem).cause

def onTree : Operation → BracketTree.Operation
  | .insert focus item => .insert focus item
  | .initNode id => .initNode id
  | .setupNode id => .setupNode id
  | .setupAsParent id => .setupAsParent id
  | .evaluateNode ev id s => .evaluateNode ev.onTree id s
  | .evaluateProgram ev s => .evaluateProgram ev.onTree s
  | .removeFrom parent child => .removeFrom parent child
  | .recover e problem => .recover e problem

end Operation

/-- Some operations, whether they succeed or not, with their answers. -/
def answers (ops : List Operation) : StateT Arena Option (List (Except TreeError Unit)) :=
  ops.mapM fun op => op.action.run

theorem Runs.withState {σ : Type} {x : Course σ Unit} {a b : Arena} {s s' : σ}
    {r : Except TreeError Unit} (h : Runs x (a, s) r (b, s')) : Runs (withState x s) a r b := by
  change (x.run.run (a, s)).bind (fun p => some (p.1, p.2.1)) = _
  rw [h]
  rfl

/-- All that can be read off the table is what the tree says. -/
structure Shows (a : Arena) (t : Tree) : Prop where
  contains : ∀ id, a.contains id = t.contains id
  children : ∀ id, a.children id = t.children id
  parent : ∀ id, a.parent? id = (t.parent? id).map Node.id
  label : ∀ id, a.label id = t.label id
  print : ∀ id, a.print id = some (t.print id)
  visit : ∀ w : Tree.Walk,
    a.visit (w.pending, w.visited) = (w.turn t).map fun v => (v.pending, v.visited)
  size : a.size = t.size
  isEmpty : a.isEmpty = t.isEmpty
  scopes : a.scopes = t.scopes

/-- The links to parents and the lists of children agree, and every way up ends at the root. -/
structure Linked (a : Arena) : Prop where
  root_live : a.contains Tree.rootId = true
  root_parent : a.parent? Tree.rootId = none
  parent_iff : ∀ id p, a.parent? id = some p ↔ id ∈ a.children p
  children_nodup : ∀ id, (a.children id).Nodup
  way_up : ∀ id, a.contains id = true → ∃ way : List NodeId, way.head? = some id ∧
    way.getLast? = some Tree.rootId ∧ way.Nodup ∧ way.IsChain fun b c => a.parent? b = some c

end Arena

namespace Tree
open Arena

/-- The answers of some operations, one after the other. -/
def answers (t : Tree) : List BracketTree.Operation → List (Except TreeError Unit)
  | [] => []
  | op :: ops => (t.apply op).2 :: (t.apply op).1.answers ops

variable {t u : Tree}

/-! ## The simulation -/

/-- One operation answers on the table as on the tree, and leaves the table of the tree that is left. -/
theorem runs_apply (h : t.Orderly) (op : Arena.Operation) :
    Runs op.action t.arena (t.apply op.onTree).2 (t.apply op.onTree).1.arena := by
  have hw := h.wellFormed
  cases op with
  | insert focus item =>
    have hrun := runs_insert hw focus item
    rw [Arena.Operation.onTree, apply]
    rcases hi : t.insert focus item with ⟨u, e | next⟩
    · rw [hi] at hrun
      exact hrun.bind_error.adapt _
    · rw [hi] at hrun
      have hdone : Runs (do let _ ← Arena.insert focus item : Action InsertError Unit) t.arena (.ok ())
        u.arena := hrun.bind (runs_pure _ _)
      exact hdone.adapt _
  | initNode id =>
    have hrun := runs_initNode hw id
    rw [Arena.Operation.onTree, apply]
    rcases hi : t.initNode id with e | u
    · rw [hi] at hrun
      exact hrun.stage
    · rw [hi] at hrun
      exact hrun.stage
  | setupNode id => exact runs_setupNode hw id
  | setupAsParent id => exact runs_setupAsParent hw id
  | evaluateNode ev id s => exact (runs_evaluateNode ev h id s).withState
  | evaluateProgram ev s => exact (runs_evaluateProgram ev h s).withState
  | removeFrom parent child =>
    have hrun := runs_removeFrom hw parent child
    rw [Arena.Operation.onTree, apply]
    rcases hr : t.removeFrom parent child with e | u
    · rw [hr] at hrun
      exact hrun.stage
    · rw [hr] at hrun
      exact hrun.stage
  | recover e problem => exact (runs_recover hw e problem).bind (runs_throw _ _)

theorem answers_run (h : t.Orderly) (ops : List Arena.Operation) :
    (Arena.answers ops).run t.arena =
      some (t.answers (ops.map (·.onTree)), (t.after (ops.map (·.onTree))).arena) := by
  induction ops generalizing t with
  | nil => rfl
  | cons op ops ih =>
    have hop : op.action.run.run t.arena = _ := runs_apply h op
    have hrest := ih ((apply_edits h.wellFormed op.onTree).orderly h)
    rw [Arena.answers] at hrest
    rw [Arena.answers, List.map_cons, List.mapM_cons, StateT.run_bind, hop, Option.bind_eq_bind,
      Option.bind_some, StateT.run_bind, hrest]
    rfl

/-! ## The tables of the runs -/

theorem shows_arena (hw : t.WellFormed) : t.arena.Shows t where
  contains := contains_arena hw
  children := children_arena hw
  parent := parent?_arena hw
  label := label_arena hw
  print := print_arena hw
  visit := visit_arena hw
  size := size_arena hw
  isEmpty := isEmpty_arena hw
  scopes := rfl

theorem linked_arena (hw : t.WellFormed) : t.arena.Linked := by
  have hc := hw.coherent
  have hshows := shows_arena hw
  refine ⟨?_, ?_, fun id p => ?_, fun id => ?_, fun id hid => ?_⟩
  · rw [hshows.contains, hc.root_live]
  · rw [hshows.parent, hc.root_parent, Option.map_none]
  · rw [hshows.parent, hshows.children, map_id_parent?_eq_some_iff hw.nodup]
  · rw [hshows.children]
    exact nodup_children hw.nodup id
  · rw [hshows.contains] at hid
    simp only [hshows.parent]
    exact hc.way_up id hid

/-- Every run of operations has a result: the answers are those of the same operations on the tree, and
the table shows the tree that they make. -/
theorem answers_start (ops : List Arena.Operation) : ∃ a,
    (Arena.answers ops).run .start = some (start.answers (ops.map (·.onTree)), a) ∧
      a.Shows (start.after (ops.map (·.onTree))) ∧ a.Linked := by
  have hw := after_wellFormed wellFormed_start (ops.map (·.onTree))
  refine ⟨_, ?_, shows_arena hw, linked_arena hw⟩
  rw [← arena_start]
  exact answers_run orderly_start ops

/-- An insertion at a node that is there fails for good only over the form of the notation, before it has
changed anything: it never comes to an empty slot or to a link that is missing. -/
theorem shape_of_runs_insert (hw : t.WellFormed) {focus : NodeId} {item : Item} {e : TreeError}
    {b : Arena} (hlive : t.arena.contains focus = true)
    (hrun : Runs (Arena.insert focus item) t.arena (.error (.fatal e)) b) :
    (∃ x, e = .shape x) ∧ b = t.arena := by
  obtain ⟨hresult, rfl⟩ := hrun.result_unique (runs_insert hw focus item)
  rw [contains_arena hw] at hlive
  obtain ⟨n, hn⟩ := Option.isSome_iff_exists.mp hlive
  obtain ⟨left, right, outer, c, h, rfl⟩ := exists_spine_of_get? hn
  rcases hi : t.insert n.id item with ⟨u, r⟩
  rw [hi] at hresult
  obtain rfl : .error (.fatal e) = r := hresult
  obtain ⟨closing, -, -, hclose⟩ := closing_of_insert_error hn hi
  cases outer with
  | nil =>
    have hp := parent?_focus hw.nodup h
    dsimp only at hp
    rw [close, hp] at hclose
    cases hclose
    exact ⟨⟨_, rfl⟩, rfl⟩
  | cons up outer =>
    have hcloses := close_focus hw.nodup h item closing
    dsimp only at hcloses
    rw [hclose] at hcloses
    generalize hr : (u, Except.error (InsertError.fatal e)) = r at hcloses
    cases hcloses with
    | refuse _ =>
      cases hr
      exact ⟨⟨_, rfl⟩, rfl⟩
    | keep _ _ _ =>
      have hf := finish_focus hw h up.node.id
      dsimp only at hf
      rw [← hr] at hf
      cases hf
    | elide _ _ _ he =>
      subst he
      have hf := finish_elided hw h up.node.id
      dsimp only at hf
      rw [← hr] at hf
      cases hf

end Tree
end BracketTree
