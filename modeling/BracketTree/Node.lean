import BracketTree.Kind
import BracketTree.Scope
import BracketTree.Token

/-!
What a node of the tree holds. An `Item` is what the notation says about it; a `Node` adds its id,
its scopes and how far it has come in its life.
-/

namespace BracketTree
set_option autoImplicit false

structure Item where
  kind : Kind
  name : String
  value : Option String
  deriving DecidableEq

namespace Item

def ofToken (kind : Kind) (t : Token) : Item := ⟨kind, t.name, t.value⟩

/-- `name`, or `name:value` when the value is not empty. -/
def label (i : Item) : String :=
  match i.value with
  | none => i.name
  | some v => if v.isEmpty then i.name else i.name ++ ":" ++ v

end Item

structure Marks where
  initialized : Bool
  setup : Bool
  analyzed : Bool
  evaluated : Bool
  deriving DecidableEq

namespace Marks

def unmarked : Marks := ⟨false, false, false, false⟩

def ready (m : Marks) : Bool := m.initialized && m.setup && m.analyzed

end Marks

structure Node extends Item where
  id : NodeId
  /-- The scope that the node itself made. -/
  scope : Option ScopeId
  /-- The scope around the node when it was initialised. -/
  inherited : Option ScopeId
  marks : Marks
  deriving DecidableEq

namespace Node

def fresh (id : NodeId) (item : Item) : Node := ⟨item, id, none, none, .unmarked⟩

def enclosing (n : Node) : Option ScopeId := n.scope.or n.inherited

def markInitialized (n : Node) : Node := { n with marks := { n.marks with initialized := true } }

def markSetup (n : Node) : Node := { n with marks := { n.marks with setup := true } }

def markAnalyzed (n : Node) : Node := { n with marks := { n.marks with analyzed := true } }

def markEvaluated (n : Node) : Node := { n with marks := { n.marks with evaluated := true } }

end Node
end BracketTree
