import BracketTree.Tree

/-!
# The tree as a table of slots

Each node is kept in the slot of its id, with the ids of its children and the id of its parent. The
slot of a node that has been destroyed is empty, and its id is never used again. Nothing in a table
makes these links agree: every operation follows and changes them one by one, and fails where it
comes to an empty slot.
-/

namespace BracketTree
set_option autoImplicit false

structure Cell extends Item where
  children : List NodeId
  parent : Option NodeId
  /-- The scope that the node itself made. -/
  scope : Option ScopeId
  /-- The scope around the node when it was initialised. -/
  inherited : Option ScopeId
  marks : Marks
  deriving DecidableEq

namespace Cell

def fresh (item : Item) (parent : Option NodeId) : Cell := ⟨item, [], parent, none, none, .unmarked⟩

def enclosing (c : Cell) : Option ScopeId := c.scope.or c.inherited

end Cell

structure Arena where
  slots : Array (Option Cell)
  scopes : ScopeTable

namespace Arena

def start : Arena := ⟨#[some (.fresh ⟨.root, "root", none⟩ none)], .empty⟩

def cell? (a : Arena) (id : NodeId) : Option Cell := a.slots[id]?.join

def contains (a : Arena) (id : NodeId) : Bool := (a.cell? id).isSome

def children (a : Arena) (id : NodeId) : List NodeId := (a.cell? id).elim [] Cell.children

def parent? (a : Arena) (id : NodeId) : Option NodeId := (a.cell? id).bind Cell.parent

def size (a : Arena) : Nat := a.slots.countP Option.isSome

def isEmpty (a : Arena) : Bool := (a.children Tree.rootId).isEmpty

def label (a : Arena) (id : NodeId) : String := (a.cell? id).elim (nodeRef id) fun c => c.label

/-- Fills or empties a slot of the table; an id beyond the table has no slot. -/
def put (a : Arena) (id : NodeId) (c : Option Cell) : Arena :=
  { a with slots := a.slots.setIfInBounds id c }

theorem size_put_lt {a : Arena} {id : NodeId} {c : Cell} (h : a.cell? id = some c) :
    (a.put id none).size < a.size := by
  obtain ⟨hlt, hc⟩ := Array.getElem?_eq_some_iff.mp (Option.join_eq_some_iff.mp h)
  have hpos : 0 < a.size := Array.countP_pos_iff.mpr ⟨some c, hc ▸ Array.getElem_mem hlt, rfl⟩
  rw [size, put, Array.setIfInBounds, dif_pos hlt, Array.countP_set, hc, ← size]
  exact Nat.sub_lt hpos Nat.zero_lt_one

/-- Empties the slots of some nodes and of all that stands under them, a node before its children.
The links to these nodes stay. -/
def destroy (a : Arena) : List NodeId → Arena
  | [] => a
  | id :: rest =>
    match _h : a.cell? id with
    | none => a.destroy rest
    | some c => (a.put id none).destroy (c.children ++ rest)
termination_by ids => (a.size, ids.length)
decreasing_by
  · exact .right _ (Nat.lt_succ_self _)
  · exact .left _ _ (size_put_lt ‹_›)

/-! ## Walks

Links could lead round in a circle. A way without a circle meets every slot once at most, so a walk
that goes deeper than the table is long has no result. -/

def printWithin (a : Arena) : Nat → NodeId → Option String
  | 0, _ => none
  | depth + 1, id =>
    match a.cell? id with
    | none => some (nodeRef id)
    | some c => (c.children.mapM (a.printWithin depth)).map (Forest.wrap c.label)

def print (a : Arena) (id : NodeId) : Option String := a.printWithin (a.slots.size + 1) id

/-- One turn of a listing with a stack of ids: the next id is dropped if its slot is empty; else it is
listed, and its children come next. -/
def visit (a : Arena) : List NodeId × List NodeId → Option (List NodeId × List NodeId)
  | ([], _) => none
  | (id :: stack, listed) =>
    if a.contains id then some (a.children id ++ stack, listed ++ [id]) else some (stack, listed)

/-! ## Actions -/

/-- What is done to a state. It may fail, and leaves a state also then; it may have no result. -/
abbrev Process (σ ε α : Type) := ExceptT ε (StateT σ Option) α

abbrev Action (ε α : Type) := Process Arena ε α

def noResult {σ ε α : Type} : Process σ ε α := ExceptT.lift (StateT.lift none)

def cell (id : NodeId) : Action StageError Cell := do
  match (← get).cell? id with
  | none => throw (.noSuchNode id)
  | some c => return c

def update (id : NodeId) (f : Cell → Cell) : Action StageError Unit := do
  let c ← cell id
  modify fun a => a.put id (some (f c))

def appendChild (parent : NodeId) (item : Item) : Action StageError NodeId := do
  let id := (← get).slots.size
  update parent fun c => { c with children := c.children ++ [id] }
  modify fun a => { a with slots := a.slots.push (some (.fresh item (some parent))) }
  return id

/-- Takes the list of children away from a node; the children keep their links to it. -/
def takeChildren (id : NodeId) : Action StageError (List NodeId) := do
  let c ← cell id
  update id fun c => { c with children := [] }
  return c.children

def adopt (parent : NodeId) (children : List NodeId) : Action StageError Unit := do
  children.forM fun child => update child fun c => { c with parent := some parent }
  update parent fun c => { c with children := c.children ++ children }

def position (parent child : NodeId) : Action StageError Nat := do
  match (← cell parent).children.idxOf? child with
  | none =>
    let a ← get
    throw (.notAChild (a.label parent) (a.label child))
  | some i => return i

def replaceChild (parent old new : NodeId) : Action StageError Unit := do
  let i ← position parent old
  update parent fun c => { c with children := c.children.set i new }
  update new fun c => { c with parent := some parent }

/-- Removes the children of `parent` from `child` on, and everything under them. -/
def removeFrom (parent child : NodeId) : Action StageError Unit := do
  let i ← position parent child
  let c ← cell parent
  update parent fun c => { c with children := c.children.take i }
  modify fun a => a.destroy (c.children.drop i)

end Arena
end BracketTree
