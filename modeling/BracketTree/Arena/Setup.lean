import BracketTree.Arena

/-!
# Initialisation, setup and analysis on a table

The stages of a node's life, step by step on its slot and on the slots that it is linked to.
-/

namespace BracketTree.Arena
set_option autoImplicit false

/-- A failure of the links is a failure of the work that follows them. -/
instance (priority := low) : MonadLift (Action StageError) (Action TreeError) :=
  ⟨ExceptT.adapt .stage⟩

/-- Gives a block a scope of its own. -/
def openScope (id : NodeId) (kind : Kind) (inherited : Option ScopeId) : Action StageError Unit :=
  if kind.isBlock then do
    let scope := (← get).scopes.size
    modify fun a => { a with scopes := a.scopes.add ⟨id, inherited⟩ }
    update id fun c => { c with scope := some scope }
  else return ()

def enterScope (id : NodeId) (kind : Kind) (inherited : Option ScopeId) : Action StageError Unit := do
  update id fun c => { c with inherited := inherited }
  openScope id kind inherited
  update id fun c => { c with marks.initialized := true }

def initNode (id : NodeId) : Action StageError Unit := do
  let c ← cell id
  match c.parent with
  | none => throw .initRoot
  | some parent =>
    let outer ← cell parent
    enterScope id c.kind outer.enclosing

/-- Fails with a node printed as it stands. -/
def refuse {α : Type} (e : String → StageError) (id : NodeId) : Action TreeError α := do
  match (← get).print id with
  | none => noResult
  | some text => throw (.stage (e text))

def setupHook (id : NodeId) : Action TreeError Unit := do
  let c ← cell id
  match c.kind with
  | .expression | .creation | .varTest =>
    if c.children.isEmpty then throw (.shape (.operandCount c.label "至少 1" 0)) else return ()
  | _ => return ()

def checkChild (c : Cell) (kind : Kind) (child : NodeId) : Action TreeError Unit := do
  let d ← cell child
  if d.kind != kind then throw (.shape (.invalidChild c.label d.label)) else return ()

/-- Under a creation stand only initialisers; the first child of a test is an identifier. -/
def analyzeHook (id : NodeId) : Action TreeError Unit := do
  let c ← cell id
  match c.kind with
  | .creation => c.children.forM (checkChild c .initializer)
  | .varTest => (c.children.take 1).forM (checkChild c .identifier)
  | _ => return ()

def analyzeNode (id : NodeId) : Action TreeError Unit := do
  let c ← cell id
  if c.marks.analyzed then return ()
  else if !(c.marks.initialized && c.marks.setup) then refuse .analyzeBeforeSetup id
  else if c.kind.hasAnalysis then analyzeHook id
  else return ()

/-- Sets up a node and analyses it; a node that is set up already is left alone. -/
def setupNode (id : NodeId) : Action TreeError Unit := do
  let c ← cell id
  if c.marks.setup then return ()
  else if !c.marks.initialized then refuse .setupBeforeInit id
  else if c.parent.isNone then refuse .setupWithoutParent id
  else
    setupHook id
    update id fun c => { c with marks.setup := true }
    analyzeNode id
    update id fun c => { c with marks.analyzed := true }

/-- Sets up the children of a node whose bracket has closed, then the node itself. -/
def setupAsParent (id : NodeId) : Action TreeError Unit := do
  let c ← cell id
  c.children.forM setupNode
  setupNode id

end BracketTree.Arena
