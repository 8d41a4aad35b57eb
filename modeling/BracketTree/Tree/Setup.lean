import BracketTree.Tree

/-!
# Initialisation, setup and analysis

A node is initialised when it enters the tree, set up when the bracket around it closes, and
analysed at once after that. Initialisation records the scope around the node and gives a block a
scope of its own. Setup and analysis check what stands under a node. An analysis that fails leaves
the node set up.
-/

namespace BracketTree
set_option autoImplicit false

namespace Node

def setupCheck (n : Node) (below : Forest Node) : Except StructureError Unit :=
  match n.kind with
  | .expression | .creation | .varTest =>
    if below.isEmpty then .error (.operandCount n.label "至少 1" 0) else .ok ()
  | _ => .ok ()

def intruder? (kind : Kind) (nodes : List Node) : Option Node :=
  nodes.find? fun m => m.kind != kind

/-- Under a creation stand only initialisers; the first child of a test is an identifier. -/
def analysisCheck (n : Node) (below : Forest Node) : Except StructureError Unit :=
  let offending :=
    match n.kind with
    | .creation => intruder? .initializer below.roots
    | .varTest => intruder? .identifier (below.roots.take 1)
    | _ => none
  match offending with
  | none => .ok ()
  | some m => .error (.invalidChild n.label m.label)

end Node

namespace Tree

/-- Marks a node as initialised within the scope `inherited`; a block gets a new scope. -/
def enterScope (t : Tree) (id : NodeId) (kind : Kind) (inherited : Option ScopeId) : Tree :=
  if kind.isBlock then
    { t.modify id fun n =>
        { n with inherited := inherited, scope := some t.scopes.size }.markInitialized with
      scopes := t.scopes.add ⟨id, inherited⟩ }
  else t.modify id fun n => { n with inherited := inherited }.markInitialized

def initNode (t : Tree) (id : NodeId) : Except StageError Tree :=
  match t.get? id with
  | none => .error (.noSuchNode id)
  | some n =>
    match t.parent? id with
    | none => .error .initRoot
    | some outer => .ok (t.enterScope id n.kind outer.enclosing)

def analyzeNode (t : Tree) (id : NodeId) : Except TreeError Unit :=
  match t.get? id with
  | none => .error (.stage (.noSuchNode id))
  | some n =>
    if n.marks.analyzed then .ok ()
    else if !(n.marks.initialized && n.marks.setup) then
      .error (.stage (.analyzeBeforeSetup (t.print id)))
    else if n.kind.hasAnalysis then (n.analysisCheck (t.below id)).mapError .shape
    else .ok ()

/-- Sets up a node and analyses it; a node that is set up already is left alone. -/
def setupNode (t : Tree) (id : NodeId) : Tree × Except TreeError Unit :=
  match t.get? id with
  | none => (t, .error (.stage (.noSuchNode id)))
  | some n =>
    if n.marks.setup then (t, .ok ())
    else if !n.marks.initialized then (t, .error (.stage (.setupBeforeInit (t.print id))))
    else if (t.parent? id).isNone then (t, .error (.stage (.setupWithoutParent (t.print id))))
    else
      match n.setupCheck (t.below id) with
      | .error e => (t, .error (.shape e))
      | .ok () =>
        let u := t.modify id .markSetup
        match u.analyzeNode id with
        | .error e => (u, .error e)
        | .ok () => (u.modify id .markAnalyzed, .ok ())

def setupAll (t : Tree) : List NodeId → Tree × Except TreeError Unit
  | [] => (t, .ok ())
  | id :: rest =>
    match t.setupNode id with
    | (u, .error e) => (u, .error e)
    | (u, .ok ()) => u.setupAll rest

/-- Sets up the children of a node whose bracket has closed, then the node itself. -/
def setupAsParent (t : Tree) (id : NodeId) : Tree × Except TreeError Unit :=
  if t.contains id then t.setupAll (t.children id ++ [id])
  else (t, .error (.stage (.noSuchNode id)))

end Tree
end BracketTree
