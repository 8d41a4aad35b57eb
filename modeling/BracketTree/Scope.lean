/-!
Lexical scopes. The table only grows; a scope is known by its position. `chain` lists a scope and
the scopes around it: since an outer scope is made earlier, every step goes to a smaller position.
-/

namespace BracketTree
set_option autoImplicit false

abbrev NodeId := Nat

abbrev ScopeId := Nat

structure Scope where
  owner : NodeId
  parent : Option ScopeId
  deriving DecidableEq

structure ScopeTable where
  scopes : Array Scope

namespace ScopeTable

def empty : ScopeTable := ⟨#[]⟩

def size (t : ScopeTable) : Nat := t.scopes.size

def isEmpty (t : ScopeTable) : Bool := t.scopes.isEmpty

def get? (t : ScopeTable) (id : ScopeId) : Option Scope := t.scopes[id]?

/-- Adds a scope; its id is the former size. -/
def add (t : ScopeTable) (s : Scope) : ScopeTable := ⟨t.scopes.push s⟩

def parent? (t : ScopeTable) (id : ScopeId) : Option ScopeId := (t.get? id).bind Scope.parent

/-- The scope `id` and then the scopes around it, from the inside out. -/
def chain (t : ScopeTable) (id : ScopeId) : List ScopeId :=
  id :: match t.parent? id with
    | none => []
    | some outer => if outer < id then t.chain outer else []
termination_by id

def depth (t : ScopeTable) (id : ScopeId) : Nat := (t.chain id).length

@[simp] theorem size_add (t : ScopeTable) (s : Scope) : (t.add s).size = t.size + 1 := by
  simp [add, size]

theorem get?_add (t : ScopeTable) (s : Scope) (id : ScopeId) :
    (t.add s).get? id = if id = t.size then some s else t.get? id := by
  simp only [add, get?, size, Array.getElem?_push]
  rfl

end ScopeTable
end BracketTree
