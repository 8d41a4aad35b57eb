import BracketTree.Arena.Setup
import BracketTree.Tree.Insert

/-!
# Insertion and recovery on a table

An insertion follows the link of the focus to its parent and rewrites the links around it; a failed
setup is recovered along the links to the parents.
-/

namespace BracketTree.Arena
set_option autoImplicit false

/-- Outside recovery a failure is for good. -/
instance (priority := low) : MonadLift (Action TreeError) (Action InsertError) :=
  ⟨ExceptT.adapt .fatal⟩

/-- The outcome of an action, failed or not. -/
def outcome {ε ε' α : Type} (x : Action ε α) : Action ε' (Except ε α) := ExceptT.lift x.run

/-- Cuts off, in the block `block`, the child `child` and those after it. -/
def truncate {ε : Type} (e : TreeError) (block child : NodeId) : Action ε InsertError := do
  match ← outcome (removeFrom block child) with
  | .error cause => return .fatal (.unrecoverable e cause.message)
  | .ok () => return .recovered e block

/-- Follows the links outwards from a node, for a number of turns at most. -/
def recoverWithin {ε : Type} (e : TreeError) : Nat → NodeId → Action ε InsertError
  | 0, _ => noResult
  | turns + 1, id => do
    match (← get).cell? id with
    | none => return .fatal (.unrecoverable e (StageError.noSuchNode id).message)
    | some c =>
      match c.parent with
      | none =>
        if id = Tree.rootId ∧ c.kind = .root then return .recovered e id
        else return .fatal (.unrecoverable e "unknown error")
      | some parent =>
        match (← get).cell? parent with
        | none => return .fatal (.unrecoverable e s!"父节点 {nodeRef parent} 不存在")
        | some outer =>
          if outer.kind.isBlock then truncate e parent id else recoverWithin e turns parent

def recover {ε : Type} (e : TreeError) (id : NodeId) : Action ε InsertError := do
  recoverWithin e ((← get).slots.size + 1) id

/-- Removes a grouping node: its first child takes its place and receives the other children. -/
def elide (group parent : NodeId) : Action TreeError NodeId := do
  match (← cell group).children with
  | [] => throw (.shape .emptyParens)
  | first :: _ =>
    let c ← cell first
    if !c.children.isEmpty then
      throw (.shape (.promotedWithChildren c.label c.children.length))
    else
      let taken ← takeChildren group
      adopt first taken.tail
      replaceChild parent group first
      modify fun a => a.destroy [group]
      return first

def finish (closed next : NodeId) : Action InsertError NodeId := do
  match ← outcome (setupAsParent closed) with
  | .ok () => return next
  | .error e => throw (← recover e closed)

def close (focus : NodeId) (item : Item) (closing : Brace) : Action InsertError NodeId := do
  let c ← cell focus
  match c.parent with
  | none => throw (.fatal (.shape (.aboveRoot c.label)))
  | some parent =>
    match c.kind.brace?.filter Brace.isOpening with
    | none => throw (.fatal (.shape (.notOpening item.label c.label)))
    | some opening =>
      if !opening.closedBy closing then
        throw (.fatal (.shape (.mismatch c.label item.label)))
      else if opening.isGrouping then
        let first ← elide focus parent
        finish first parent
      else finish focus parent

/-- A new node comes under `focus` and is initialised. -/
def attach (focus : NodeId) (item : Item) : Action InsertError NodeId := do
  let id ← appendChild focus item
  initNode id
  return id

/-- Inserts an item at the node `focus`; gives the next focus. -/
def insert (focus : NodeId) (item : Item) : Action InsertError NodeId := do
  if !(← get).contains focus then throw (.fatal (.stage (.noSuchNode focus)))
  else
    match item.kind.brace? with
    | none =>
      let _ ← attach focus item
      return focus
    | some b => if b.isOpening then attach focus item else close focus item b

end BracketTree.Arena
