import BracketTree.Tree

/-!
# Recovery

When the setup of a closed node fails, the nearest block around the node gives up the statement in
which the node stands, with everything after it, and work goes on in that block. Outside every block
the statement stays where it is and work goes on at the root.
-/

namespace BracketTree
set_option autoImplicit false

namespace Tree

/-- Looks outwards for a block, from the node `inner` whose ancestors are given. -/
def recoverAlong (t : Tree) (e : TreeError) (inner : Node) : List Node → Tree × InsertError
  | [] =>
    if inner.id = rootId ∧ inner.kind = .root then (t, .recovered e inner.id)
    else (t, .fatal (.unrecoverable e "unknown error"))
  | outer :: rest =>
    if outer.kind.isBlock then
      match t.removeFrom outer.id inner.id with
      | .error cause => (t, .fatal (.unrecoverable e cause.message))
      | .ok u => (u, .recovered e outer.id)
    else t.recoverAlong e outer rest

def recover (t : Tree) (e : TreeError) (problem : NodeId) : Tree × InsertError :=
  match t.lineage problem with
  | [] => (t, .fatal (.unrecoverable e (StageError.noSuchNode problem).message))
  | n :: outwards => t.recoverAlong e n outwards

end Tree
end BracketTree
