import BracketTree.Proofs.Tree.Intake

/-! Nodes without their ids and scopes. Setup looks at items and marks alone, so what closing a bracket
comes to can be read off the tree without ids; it is given here as a function of the bracket and what
stands under it. -/

namespace BracketTree
open Forest
set_option autoImplicit false

universe u v

namespace Forest
variable {α : Type u} {β : Type v}

theorem render_append (label : α → String) (f g : Forest α) :
    (f ++ g).render label = f.render label ++ g.render label := by
  induction f with
  | nil => rfl
  | node a c s _ hs => rw [node_append, render, render, hs, List.cons_append]

theorem render_map (label : β → String) (g : α → β) (f : Forest α) :
    (f.map g).render label = f.render fun a => label (g a) := by
  induction f with
  | nil => rfl
  | node a c s hc hs => rw [map_node, render, render, hc, hs]

theorem isEmpty_map (g : α → β) (f : Forest α) : (f.map g).isEmpty = f.isEmpty := by
  cases f <;> rfl

end Forest

namespace Node

/-- The node without its id and its scopes. -/
def nameless (n : Node) : Node := { n with id := 0, scope := none, inherited := none }

theorem toItem_eq_of_nameless {n n' : Node} (h : n'.nameless = n.nameless) :
    n'.toItem = n.toItem := by
  have hitem := congrArg Node.toItem h
  exact hitem

theorem kind_eq_of_nameless {n n' : Node} (h : n'.nameless = n.nameless) : n'.kind = n.kind :=
  congrArg Item.kind (toItem_eq_of_nameless h)

theorem render_nameless (f : Forest Node) :
    (f.map nameless).render (fun n => n.label) = f.render fun n => n.label :=
  render_map _ _ f

/-! ## Setup looks at items and marks alone -/

theorem setupCheck_nameless (n : Node) (c : Forest Node) :
    n.nameless.setupCheck (c.map nameless) = n.setupCheck c := by
  rw [setupCheck, setupCheck, isEmpty_map]
  rfl

theorem intruder?_nameless (kind : Kind) (nodes : List Node) :
    intruder? kind (nodes.map nameless) = (intruder? kind nodes).map nameless :=
  List.find?_map ..

theorem analysisCheck_nameless (n : Node) (c : Forest Node) :
    n.nameless.analysisCheck (c.map nameless) = n.analysisCheck c := by
  rw [analysisCheck, analysisCheck, roots_map, ← List.map_take, intruder?_nameless,
    intruder?_nameless]
  cases hk : n.kind with
  | creation =>
    simp only [nameless, hk]
    cases intruder? .initializer c.roots <;> rfl
  | varTest =>
    simp only [nameless, hk]
    cases intruder? .identifier (c.roots.take 1) <;> rfl
  | _ => simp only [nameless, hk]

theorem attempt_nameless (n : Node) (c : Forest Node) :
    n.nameless.attempt (c.map nameless) = ((n.attempt c).1.nameless, (n.attempt c).2) := by
  have hmarks : n.nameless.marks = n.marks := rfl
  cases hs : n.marks.setup with
  | true => rw [attempt_of_setup hs, attempt_of_setup (hmarks ▸ hs)]
  | false =>
    rw [attempt, attempt, setupCheck_nameless, analysisCheck_nameless, hmarks, hs]
    cases n.setupCheck c with
    | error e => rfl
    | ok => cases n.analysisCheck c <;> rfl

theorem attemptAll_nameless (c : Forest Node) :
    attemptAll (c.map nameless) = ((attemptAll c).1.map nameless, (attemptAll c).2) := by
  induction c with
  | nil => rfl
  | node n e s _ ih =>
    rw [map_node, attemptAll, attemptAll, attempt_nameless, ih]
    rcases n.attempt e with ⟨m, x | _⟩ <;> rfl

theorem attemptWith_nameless (n : Node) (c : Forest Node) :
    n.nameless.attemptWith (c.map nameless) =
      (((n.attemptWith c).1.1.nameless, (n.attemptWith c).1.2.map nameless),
        (n.attemptWith c).2) := by
  rw [attemptWith, attemptWith, attemptAll_nameless]
  rcases attemptAll c with ⟨d, x | _⟩
  · rfl
  · dsimp only
    rw [attempt_nameless]

/-! ## What closing a bracket makes of it -/

/-- What is to be set up in the place of the bracket `n` over `c` when `item` closes it. -/
def yield (n : Node) (c : Forest Node) (item : Item) (closing : Brace) :
    Except StructureError (Node × Forest Node) :=
  match n.kind.brace?.filter Brace.isOpening with
  | none => .error (.notOpening item.label n.label)
  | some opening =>
    if !opening.closedBy closing then .error (.mismatch n.label item.label)
    else if opening.isGrouping then
      match c with
      | .nil => .error .emptyParens
      | .node first inner rest =>
        if inner.isEmpty then .ok (first, rest)
        else .error (.promotedWithChildren first.label inner.roots.length)
    else .ok (n, c)

/-- What stands in the place of the bracket `n` over `c` after `item` has closed it, and what came of
the setup. -/
def close (n : Node) (c : Forest Node) (item : Item) (closing : Brace) :
    Except StructureError ((Node × Forest Node) × Except TreeError Unit) :=
  (n.yield c item closing).map fun r => r.1.attemptWith r.2

theorem yield_nameless (n : Node) (c : Forest Node) (item : Item) (closing : Brace) :
    n.nameless.yield (c.map nameless) item closing =
      (n.yield c item closing).map fun r => (r.1.nameless, r.2.map nameless) := by
  have hkind : n.nameless.kind = n.kind := rfl
  unfold yield
  rw [hkind]
  cases n.kind.brace?.filter Brace.isOpening with
  | none => rfl
  | some opening =>
    dsimp only
    split
    · rfl
    split
    · cases c with
      | nil => rfl
      | node first inner rest =>
        rw [map_node]
        dsimp only
        rw [isEmpty_map, roots_map, List.length_map]
        split <;> rfl
    · rfl

theorem close_nameless (n : Node) (c : Forest Node) (item : Item) (closing : Brace) :
    n.nameless.close (c.map nameless) item closing =
      (n.close c item closing).map fun r => ((r.1.1.nameless, r.1.2.map nameless), r.2) := by
  rw [close, close, yield_nameless]
  cases n.yield c item closing with
  | error e => rfl
  | ok r => exact congrArg Except.ok (attemptWith_nameless r.1 r.2)

end Node

end BracketTree
