import BracketTree.Builder

/-!
Checking a source without evaluating it: which top-level statements would be passed over, and
whether there is a tree at all.
-/

namespace BracketTree
set_option autoImplicit false

/-- A warning for each child of the root that is not set up. -/
def Tree.analysis (t : Tree) (sourceId : String) : Report :=
  (t.below rootId).roots.filterMap fun n =>
    if n.marks.setup then none
    else some ⟨.warn, sourceId, none, s!"顶层语句 {n.label} 未完成 setup，求值时将跳过",
      some (t.print n.id)⟩

def checkSource (sourceId : String) (recovers : Bool) (source : String) : Report :=
  match buildSource sourceId recovers source with
  | .error e => [⟨.error, sourceId, none, e.message, none⟩]
  | .ok built => built.report ++ built.tree.analysis sourceId

end BracketTree
