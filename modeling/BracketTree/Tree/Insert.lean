import BracketTree.Tree.Recover
import BracketTree.Tree.Setup

/-!
# Insertion at a focus

An item that is no bracket becomes the last child of the focus, which stays. An opening bracket
becomes the last child and the new focus. A closing bracket never enters the tree: it must match the
focus, which is then set up, and the focus moves outwards. A grouping bracket is elided when it
closes. A setup that fails is handed to recovery; every other failure changes nothing.
-/

namespace BracketTree
set_option autoImplicit false

def Item.ofToken? (token : Token) : Except StructureError Item :=
  match Kind.ofTag? token.name with
  | some kind => .ok (.ofToken kind token)
  | none => .error (.unsupported token.text)

namespace Tree

def attach (t : Tree) (focus : Node) (item : Item) : Tree :=
  (t.append focus.id item).enterScope t.nextId item.kind focus.enclosing

def finish (t : Tree) (closed next : NodeId) : Tree × Except InsertError NodeId :=
  match t.setupAsParent closed with
  | (u, .ok ()) => (u, .ok next)
  | (u, .error e) =>
    let (v, failure) := u.recover e closed
    (v, .error failure)

def close (t : Tree) (focus : Node) (item : Item) (closing : Brace) :
    Tree × Except InsertError NodeId :=
  let fail (e : StructureError) := (t, .error (.fatal (.shape e)))
  match t.parent? focus.id with
  | none => fail (.aboveRoot focus.label)
  | some outer =>
    match focus.kind.brace?.filter Brace.isOpening with
    | none => fail (.notOpening item.label focus.label)
    | some opening =>
      if !opening.closedBy closing then fail (.mismatch focus.label item.label)
      else if opening.isGrouping then
        match t.elide focus.id with
        | .error e => fail e
        | .ok (u, first) => u.finish first outer.id
      else t.finish focus.id outer.id

/-- Inserts an item at the node `focus`; gives the next focus. -/
def insert (t : Tree) (focus : NodeId) (item : Item) : Tree × Except InsertError NodeId :=
  match t.get? focus with
  | none => (t, .error (.fatal (.stage (.noSuchNode focus))))
  | some n =>
    match item.kind.brace? with
    | none => (t.attach n item, .ok focus)
    | some b => if b.isOpening then (t.attach n item, .ok t.nextId) else t.close n item b

end Tree
end BracketTree
