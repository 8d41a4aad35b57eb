import BracketTree.Error
import BracketTree.Forest
import BracketTree.Node

/-!
# The syntax tree

A tree is a forest of nodes under one root. Nodes are known by ids: the root has id zero, each
node that enters takes the next id, and the id of a node that has been removed is never used again.
The operations here change where nodes stand; their marks are changed by the modules on their life.
-/

namespace BracketTree
set_option autoImplicit false

structure Tree where
  nodes : Forest Node
  nextId : NodeId
  scopes : ScopeTable

def Node.hasId (id : NodeId) (n : Node) : Bool := n.id == id

namespace Tree

def rootId : NodeId := 0

def start : Tree := ⟨.leaf (.fresh rootId ⟨.root, "root", none⟩), 1, .empty⟩

def subtree? (t : Tree) (id : NodeId) : Option (Node × Forest Node) :=
  t.nodes.find? (Node.hasId id)

def get? (t : Tree) (id : NodeId) : Option Node := (t.subtree? id).map Prod.fst

def contains (t : Tree) (id : NodeId) : Bool := (t.get? id).isSome

def below (t : Tree) (id : NodeId) : Forest Node :=
  match t.subtree? id with
  | none => .nil
  | some (_, c) => c

def children (t : Tree) (id : NodeId) : List NodeId := (t.below id).roots.map Node.id

/-- A live node, then its ancestors outwards to the root. -/
def lineage (t : Tree) (id : NodeId) : List Node := t.nodes.path (Node.hasId id)

def parent? (t : Tree) (id : NodeId) : Option Node := (t.lineage id).tail.head?

def ids (t : Tree) : List NodeId := t.nodes.preorder.map Node.id

def size (t : Tree) : Nat := t.nodes.size

def isEmpty (t : Tree) : Bool := (t.below rootId).isEmpty

def descendants (t : Tree) (id : NodeId) : List NodeId :=
  match t.subtree? id with
  | none => []
  | some (n, c) => (Forest.walk [.node n c .nil]).map Node.id

def label (t : Tree) (id : NodeId) : String :=
  match t.get? id with
  | none => nodeRef id
  | some n => n.label

/-- The label of a node and, in parentheses, its children as printed. -/
def print (t : Tree) (id : NodeId) : String :=
  match t.subtree? id with
  | none => nodeRef id
  | some (n, c) => Forest.wrap n.label (c.render fun m => m.label)

def modify (t : Tree) (id : NodeId) (f : Node → Node) : Tree :=
  { t with nodes := t.nodes.map fun n => if n.id = id then f n else n }

def append (t : Tree) (parent : NodeId) (item : Item) : Tree :=
  { t with
    nodes := t.nodes.mapChildren (Node.hasId parent) (· ++ .leaf (.fresh t.nextId item))
    nextId := t.nextId + 1 }

/-- Removes the children of `parent` from `child` on, and everything under them. -/
def removeFrom (t : Tree) (parent child : NodeId) : Except StageError Tree :=
  if t.contains parent then
    if child ∈ t.children parent then
      .ok { t with
        nodes := t.nodes.mapChildren (Node.hasId parent) (.takeUntil (Node.hasId child)) }
    else .error (.notAChild (t.label parent) (t.label child))
  else .error (.noSuchNode parent)

/-- Removes a grouping node: its first child takes its place and receives the other children.
Gives the tree and the id of that child. -/
def elide (t : Tree) (group : NodeId) : Except StructureError (Tree × NodeId) :=
  match t.below group with
  | .nil => .error .emptyParens
  | .node first inner _ =>
    if inner.isEmpty then
      .ok ({ t with nodes := t.nodes.promote (Node.hasId group) }, first.id)
    else .error (.promotedWithChildren first.label inner.roots.length)

end Tree
end BracketTree
