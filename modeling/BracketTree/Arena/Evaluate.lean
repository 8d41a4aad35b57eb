import BracketTree.Arena.Setup
import BracketTree.Tree.Evaluate

/-!
# Evaluation on a table

The nodes are visited along the lists of children, each slot read when its turn comes. The evaluator
is given the table as it stands.
-/

namespace BracketTree.Arena
set_option autoImplicit false

structure Evaluator (σ : Type) where
  hook : Arena → NodeId → σ → σ × Except HookError Unit

/-- What an evaluation does to a table and to the state of the evaluator. -/
abbrev Course (σ α : Type) := Process (Arena × σ) TreeError α

variable {σ : Type}

/-- An action on the table alone. -/
def onTable {α : Type} (x : Action TreeError α) : Course σ α := ExceptT.mk fun (a, s) => do
  let (r, a) ← x.run.run a
  return (r, (a, s))

def callHook (ev : Evaluator σ) (id : NodeId) : Course σ Unit := ExceptT.mk fun (a, s) =>
  let (s, answer) := ev.hook a id s
  return (answer.mapError .hook, (a, s))

/-- Evaluates the children of a node that is ready, then the node. A child of the root that is not
ready is passed over. -/
def evaluateWithin (ev : Evaluator σ) : Nat → NodeId → Course σ Unit
  | 0, _ => noResult
  | depth + 1, id => do
    let c ← onTable (cell id)
    if c.marks.evaluated then onTable (refuse .alreadyEvaluated id)
    else if !c.marks.ready then
      if c.parent = some Tree.rootId then return ()
      else onTable (refuse .evaluateBeforeSetup id)
    else
      c.children.forM (evaluateWithin ev depth)
      callHook ev id
      onTable (update id fun c => { c with marks.evaluated := true })

def evaluateNode (ev : Evaluator σ) (id : NodeId) : Course σ Unit := do
  let a ← onTable get
  evaluateWithin ev (a.slots.size + 1) id

def evaluateProgram (ev : Evaluator σ) : Course σ Unit := do
  let c ← onTable (cell Tree.rootId)
  if c.marks.evaluated then onTable (refuse .alreadyEvaluated Tree.rootId)
  else
    let a ← onTable get
    (a.children Tree.rootId).forM (evaluateWithin ev (a.slots.size + 1))
    onTable (update Tree.rootId fun c => { c with marks.evaluated := true })

end BracketTree.Arena
