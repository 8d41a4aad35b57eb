import BracketTree.Proofs.Tree.Growth

/-! Runs of the public operations, with what each of them answers. Whatever is done to a tree, its nodes
only age: marks are set and never taken back, what a node holds stays, and no id is used again. -/

namespace BracketTree
open Forest
set_option autoImplicit false

/-- Each mark of the first is one of the second. -/
structure Marks.Grow (m m' : Marks) : Prop where
  initialized : m.initialized = true → m'.initialized = true
  setup : m.setup = true → m'.setup = true
  analyzed : m.analyzed = true → m'.analyzed = true
  evaluated : m.evaluated = true → m'.evaluated = true

theorem Marks.Grow.refl (m : Marks) : m.Grow m := ⟨id, id, id, id⟩

theorem Marks.Grow.trans {m m' m'' : Marks} (h : m.Grow m') (h' : m'.Grow m'') : m.Grow m'' :=
  ⟨h'.initialized ∘ h.initialized, h'.setup ∘ h.setup, h'.analyzed ∘ h.analyzed,
    h'.evaluated ∘ h.evaluated⟩

/-- The same node, later: it holds the same and has at least the same marks. -/
structure Node.Ages (n m : Node) : Prop where
  id : m.id = n.id
  item : m.toItem = n.toItem
  marks : n.marks.Grow m.marks

theorem Node.Ages.refl (n : Node) : n.Ages n := ⟨rfl, rfl, .refl _⟩

theorem Node.Ages.trans {n m k : Node} (h : n.Ages m) (h' : m.Ages k) : n.Ages k :=
  ⟨h'.id.trans h.id, h'.item.trans h.item, h.marks.trans h'.marks⟩

def InsertError.cause : InsertError → TreeError
  | .fatal e => e
  | .recovered e _ => e

/-- A public operation on a tree, with all that it is given. -/
inductive Operation : Type 1 where
  | insert (focus : NodeId) (item : Item)
  | initNode (id : NodeId)
  | setupNode (id : NodeId)
  | setupAsParent (id : NodeId)
  | evaluateNode {σ : Type} (ev : Evaluator σ) (id : NodeId) (s : σ)
  | evaluateProgram {σ : Type} (ev : Evaluator σ) (s : σ)
  | removeFrom (parent child : NodeId)
  | recover (e : TreeError) (problem : NodeId)

def Operation.isProgram : Operation → Bool
  | .evaluateProgram _ _ => true
  | _ => false

namespace Tree

/-- The tree after the operation, and the error with which it failed, if it did. -/
def apply (t : Tree) : Operation → Tree × Except TreeError Unit
  | .insert focus item =>
    match t.insert focus item with
    | (u, .ok _) => (u, .ok ())
    | (u, .error e) => (u, .error e.cause)
  | .initNode id =>
    match t.initNode id with
    | .ok u => (u, .ok ())
    | .error e => (t, .error (.stage e))
  | .setupNode id => t.setupNode id
  | .setupAsParent id => t.setupAsParent id
  | .evaluateNode ev id s => ((t.evaluateNode ev id s).tree, (t.evaluateNode ev id s).result)
  | .evaluateProgram ev s => ((t.evaluateProgram ev s).tree, (t.evaluateProgram ev s).result)
  | .removeFrom parent child =>
    match t.removeFrom parent child with
    | .ok u => (u, .ok ())
    | .error e => (t, .error (.stage e))
  | .recover e problem => ((t.recover e problem).1, .error (t.recover e problem).2.cause)

/-- The tree after some operations, whether they succeed or not. -/
def after (t : Tree) (ops : List Operation) : Tree := ops.foldl (fun u op => (u.apply op).1) t

theorem fst_apply_insert (t : Tree) (focus : NodeId) (item : Item) :
    (t.apply (.insert focus item)).1 = (t.insert focus item).1 := by
  rw [apply]
  rcases t.insert focus item with ⟨u, e | id⟩ <;> rfl

/-- An operation either is a step or changes nothing. -/
theorem step_apply (t : Tree) (op : Operation) : (t.apply op).1 = t ∨ Step t (t.apply op).1 := by
  cases op with
  | insert focus item =>
    rw [fst_apply_insert]
    exact .inr (.insert focus item)
  | initNode id =>
    rw [apply]
    cases hu : t.initNode id with
    | error e => exact .inl rfl
    | ok u => exact .inr (.initNode hu)
  | setupNode id => exact .inr (.setupNode id)
  | setupAsParent id => exact .inr (.setupAsParent id)
  | evaluateNode ev id s => exact .inr (.evaluateNode ev id s)
  | evaluateProgram ev s => exact .inr (.evaluateProgram ev s)
  | removeFrom parent child =>
    rw [apply]
    cases hu : t.removeFrom parent child with
    | error e => exact .inl rfl
    | ok u => exact .inr (.removeFrom hu)
  | recover e problem => exact .inr (.recover e problem)

variable {t u v : Tree}

theorem apply_edits (hw : t.WellFormed) (op : Operation) : Edits t (t.apply op).1 := by
  rcases t.step_apply op with h | h
  · rw [h]
  · exact h.edits hw

theorem after_edits (hw : t.WellFormed) (ops : List Operation) : Edits t (t.after ops) := by
  induction ops generalizing t with
  | nil => exact .refl
  | cons op ops ih =>
    have hop := apply_edits hw op
    exact hop.trans (ih (hop.wellFormed hw))

theorem after_wellFormed (hw : t.WellFormed) (ops : List Operation) : (t.after ops).WellFormed :=
  (after_edits hw ops).wellFormed hw

/-! ## Nodes age -/

/-- Every node of `u` is new or a node of `t`, older. -/
def Ages (t u : Tree) : Prop :=
  ∀ m ∈ u.nodes.preorder, t.nextId ≤ m.id ∨ ∃ n ∈ t.nodes.preorder, n.Ages m

theorem Ages.refl (t : Tree) : Ages t t := fun m hm => .inr ⟨m, hm, .refl m⟩

theorem Ages.trans (h : Ages t u) (h' : Ages u v) (hnext : t.nextId ≤ u.nextId) : Ages t v := by
  intro m hm
  rcases h' m hm with hnew | ⟨n, hn, hage⟩
  · exact .inl (hnext.trans hnew)
  · rcases h n hn with hnew | ⟨k, hk, hage'⟩
    · exact .inl (hage.id ▸ hnew)
    · exact .inr ⟨k, hk, hage'.trans hage⟩

theorem ages_modify (t : Tree) (id : NodeId) {f : Node → Node} (hf : ∀ n : Node, n.Ages (f n)) :
    Ages t (t.modify id f) := by
  intro m hm
  rw [modify, preorder_map] at hm
  obtain ⟨n, hn, rfl⟩ := List.mem_map.mp hm
  refine .inr ⟨n, hn, ?_⟩
  split
  · exact hf n
  · exact .refl n

theorem ages_of_subset (hsub : u.nodes.preorder ⊆ t.nodes.preorder) : Ages t u :=
  fun m hm => .inr ⟨m, hsub hm, .refl m⟩

theorem ages_enterScope (t : Tree) (id : NodeId) (kind : Kind) (inherited : Option ScopeId) :
    Ages t (t.enterScope id kind inherited) := by
  rw [enterScope]
  split
  · exact ages_modify t id fun n => ⟨rfl, rfl, fun _ => rfl, fun h => h, fun h => h, fun h => h⟩
  · exact ages_modify t id fun n => ⟨rfl, rfl, fun _ => rfl, fun h => h, fun h => h, fun h => h⟩

theorem Edit.ages (h : Edit t u) (hw : t.WellFormed) : Ages t u := by
  cases h with
  | enter _ _ => exact ages_enterScope t _ _ _
  | setUp => exact ages_modify _ _ fun n => ⟨rfl, rfl, id, fun _ => rfl, id, id⟩
  | analyse => exact ages_modify _ _ fun n => ⟨rfl, rfl, id, id, fun _ => rfl, id⟩
  | evaluate => exact ages_modify _ _ fun n => ⟨rfl, rfl, id, id, id, fun _ => rfl⟩
  | attach hn hitem =>
    intro m hm
    rcases mem_attach hw hn hitem hm with hold | rfl
    · exact .inr ⟨m, hold, .refl m⟩
    · exact .inl (Nat.le_refl _)
  | remove hu => exact ages_of_subset (removeFrom_subset hw.nodup hu).1
  | elide hn _ _ _ hu => exact ages_of_subset (elide_subset hw.nodup hn hu).1

theorem Edits.ages (h : Edits t u) (hw : t.WellFormed) : Ages t u := by
  induction h with
  | refl => exact .refl t
  | tail hbefore hlast ih =>
    have hlater := Edits.later hbefore hw
    exact ih.trans (hlast.ages (Edits.wellFormed hbefore hw)) hlater.nextId

/-- A node that is live before and after holds the same, and its marks have only grown. -/
theorem Ages.of_get? (h : Ages t u) (hw : t.WellFormed) {id : NodeId} {n m : Node}
    (hn : t.get? id = some n) (hm : u.get? id = some m) : n.Ages m := by
  obtain rfl := id_of_get? hm
  have hid : n.id = m.id := id_of_get? hn
  rcases h m (mem_of_get? hm) with hnew | ⟨k, hk, hage⟩
  · have hlt := hw.bounded n (mem_of_get? hn)
    exact absurd (hid ▸ hlt) (Nat.not_lt.mpr hnew)
  · have hget := get?_of_mem hw.nodup hk
    rw [← hage.id, hn] at hget
    exact Option.some.inj hget ▸ hage

/-- An id whose node is gone stays unused. -/
theorem Later.not_revived (h : Later t u) (h' : Later u v) (hw : t.WellFormed) {id : NodeId}
    (hlive : id ∈ t.ids) (hgone : id ∉ u.ids) : id ∉ v.ids := by
  intro hid
  rcases h'.ids id hid with hold | hnew
  · exact hgone hold
  · obtain ⟨n, hn, rfl⟩ := List.mem_map.mp hlive
    have hlt := hw.bounded n hn
    exact absurd hlt (Nat.not_lt.mpr (h.nextId.trans hnew))

end Tree
end BracketTree
