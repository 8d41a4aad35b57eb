/-!
Ordered forests in first-child, next-sibling form. A forest is empty, or a node with its children
and the siblings after it, so recursion on a forest is recursion on one inductive type.
`walk` visits the nodes with an explicit stack; `preorder` is the same listing by recursion.
-/

namespace BracketTree
set_option autoImplicit false

universe u v

inductive Forest (α : Type u) where
  | nil
  | node (a : α) (children siblings : Forest α)

namespace Forest
variable {α : Type u} {β : Type v}

def leaf (a : α) : Forest α := .node a .nil .nil

def isEmpty : Forest α → Bool
  | nil => true
  | node _ _ _ => false

def roots : Forest α → List α
  | nil => []
  | node a _ s => a :: s.roots

def map (f : α → β) : Forest α → Forest β
  | nil => nil
  | node a c s => node (f a) (c.map f) (s.map f)

protected def append : Forest α → Forest α → Forest α
  | nil, g => g
  | node a c s, g => node a c (s.append g)

instance : Append (Forest α) := ⟨Forest.append⟩

def size : Forest α → Nat
  | nil => 0
  | node _ c s => c.size + s.size + 1

def preorder : Forest α → List α
  | nil => []
  | node a c s => a :: (c.preorder ++ s.preorder)

def postorder : Forest α → List α
  | nil => []
  | node a c s => c.postorder ++ a :: s.postorder

def weight : Forest α → Nat
  | nil => 1
  | node _ c s => c.weight + s.weight + 1

def stackWeight : List (Forest α) → Nat
  | [] => 0
  | f :: stack => f.weight + stackWeight stack

/-- Lists the nodes of a stack of forests: the next forest gives its first node, then the node's
children and siblings are the next to visit. -/
def walk : List (Forest α) → List α
  | [] => []
  | nil :: stack => walk stack
  | node a c s :: stack => a :: walk (c :: s :: stack)
termination_by stack => stackWeight stack
decreasing_by all_goals simp only [stackWeight, weight]; omega

def find? (p : α → Bool) : Forest α → Option (α × Forest α)
  | nil => none
  | node a c s =>
    if p a then some (a, c)
    else match c.find? p with
      | some r => some r
      | none => s.find? p

/-- The first node in preorder that satisfies `p`, then its ancestors outwards; the forest stands
under the nodes `above`. -/
def pathUnder (p : α → Bool) (above : List α) : Forest α → List α
  | nil => []
  | node a c s =>
    if p a then a :: above
    else match c.pathUnder p (a :: above) with
      | [] => s.pathUnder p above
      | up => up

def path (p : α → Bool) (f : Forest α) : List α := f.pathUnder p []

def mapChildren (p : α → Bool) (g : Forest α → Forest α) : Forest α → Forest α
  | nil => nil
  | node a c s => node a (if p a then g c else c.mapChildren p g) (s.mapChildren p g)

def takeUntil (p : α → Bool) : Forest α → Forest α
  | nil => nil
  | node a c s => if p a then nil else node a c (s.takeUntil p)

/-- Replaces every topmost node that satisfies `p` by its first child, which keeps the place and
receives the other children in order. The first child is taken to have no children. -/
def promote (p : α → Bool) : Forest α → Forest α
  | nil => nil
  | node a c s =>
    if p a then
      match c with
      | nil => node a nil (s.promote p)
      | node b d rest => node b (d ++ rest) (s.promote p)
    else node a (c.promote p) (s.promote p)

/-- A label, followed in parentheses by the texts of what it holds, if it holds anything. -/
def wrap (label : String) : List String → String
  | [] => label
  | inner => label ++ "(" ++ " ".intercalate inner ++ ")"

def render (label : α → String) : Forest α → List String
  | nil => []
  | node a c s => wrap (label a) (c.render label) :: s.render label

theorem walk_eq (stack : List (Forest α)) : walk stack = stack.flatMap preorder := by
  fun_induction walk stack with
  | case1 => rfl
  | case2 stack ih => simp [ih, preorder]
  | case3 a c s stack ih => simp [ih, preorder, List.append_assoc]

@[simp] theorem size_map (f : α → β) (g : Forest α) : (g.map f).size = g.size := by
  induction g with
  | nil => rfl
  | node a c s hc hs => simp [map, size, hc, hs]

theorem length_preorder (g : Forest α) : g.preorder.length = g.size := by
  induction g with
  | nil => rfl
  | node a c s hc hs => simp [preorder, size, hc, hs]

end Forest
end BracketTree
