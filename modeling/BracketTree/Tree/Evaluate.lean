import BracketTree.Tree

/-!
# Evaluation

An evaluator is called on each node once, children before their parent. A node must be ready before
it is evaluated; only a child of the root that is not ready is passed over. The evaluator has a
state of its own and may refuse a node, which ends the evaluation; the marks made so far stay.
-/

namespace BracketTree
set_option autoImplicit false

structure Evaluator (σ : Type) where
  /-- Called with the tree as it stands, the node, and the evaluator's state. -/
  hook : Tree → NodeId → σ → σ × Except HookError Unit

namespace Evaluator

def idle : Evaluator Unit := ⟨fun _ _ s => (s, .ok ())⟩

def tracing : Evaluator (Array String) :=
  ⟨fun t id trace =>
    match t.get? id with
    | none => (trace, .error ⟨nodeRef id, "节点不存在"⟩)
    | some n => (trace.push n.label, .ok ())⟩

/-- Refuses the nodes with the given label, and hands all others on. A node that is not live counts
as having the empty label. -/
def refusing {σ : Type} (target reason : String) (e : Evaluator σ) : Evaluator σ :=
  ⟨fun t id s =>
    let label := ((t.get? id).map fun n => n.label).getD ""
    if label = target then (s, .error ⟨label, reason⟩) else e.hook t id s⟩

end Evaluator

structure Evaluation (σ : Type) where
  tree : Tree
  state : σ
  result : Except TreeError Unit

namespace Tree
variable {σ : Type}

/-- Evaluates the nodes of `f`, which is a part of the tree as it was at the start. When `lenient`,
top nodes of `f` that are not ready are passed over. -/
def evaluateForest (ev : Evaluator σ) (lenient : Bool) :
    Forest Node → Tree → σ → Evaluation σ
  | .nil, t, s => ⟨t, s, .ok ()⟩
  | .node n c rest, t, s =>
    if n.marks.evaluated then ⟨t, s, .error (.stage (.alreadyEvaluated (t.print n.id)))⟩
    else if !n.marks.ready then
      if lenient then evaluateForest ev lenient rest t s
      else ⟨t, s, .error (.stage (.evaluateBeforeSetup (t.print n.id)))⟩
    else
      match evaluateForest ev false c t s with
      | ⟨t, s, .error e⟩ => ⟨t, s, .error e⟩
      | ⟨t, s, .ok ()⟩ =>
        match ev.hook t n.id s with
        | (s, .error e) => ⟨t, s, .error (.hook e)⟩
        | (s, .ok ()) => evaluateForest ev lenient rest (t.modify n.id .markEvaluated) s

def evaluateNode (t : Tree) (ev : Evaluator σ) (id : NodeId) (s : σ) : Evaluation σ :=
  match t.subtree? id with
  | none => ⟨t, s, .error (.stage (.noSuchNode id))⟩
  | some (n, c) =>
    let underRoot := (t.parent? id).any (Node.hasId rootId)
    evaluateForest ev underRoot (.node n c .nil) t s

def evaluateProgram (t : Tree) (ev : Evaluator σ) (s : σ) : Evaluation σ :=
  if (t.get? rootId).any (·.marks.evaluated) then
    ⟨t, s, .error (.stage (.alreadyEvaluated (t.print rootId)))⟩
  else
    match evaluateForest ev true (t.below rootId) t s with
    | ⟨t, s, .error e⟩ => ⟨t, s, .error e⟩
    | ⟨t, s, .ok ()⟩ => ⟨t.modify rootId .markEvaluated, s, .ok ()⟩

end Tree
end BracketTree
