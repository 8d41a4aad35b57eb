import BracketTree.Proofs.Arena.Run
import BracketTree.Proofs.Arena.View

/-! Initialisation, setup and analysis on the table of a tree: each gives the outcome that it has on the
tree, and leaves the table of the tree that it leaves. -/

namespace BracketTree
open Forest Arena
set_option autoImplicit false

namespace Node

def inherit (scope : Option ScopeId) (n : Node) : Node := { n with inherited := scope }

def own (scope : ScopeId) (n : Node) : Node := { n with scope := some scope }

end Node

namespace Tree

/-- The change `g` of a slot is the change `f` of the node that stands in it. -/
structure Mirrors (f : Node → Node) (g : Cell → Cell) : Prop where
  id : ∀ n, (f n).id = n.id
  kind : ∀ n, (f n).kind = n.kind
  cell : ∀ n children parent, g (.ofNode n children parent) = .ofNode (f n) children parent

theorem mirrors_marks (m : Marks → Marks) : Mirrors (fun n => { n with marks := m n.marks })
    (fun c => { c with marks := m c.marks }) :=
  ⟨fun _ => rfl, fun _ => rfl, fun _ _ _ => rfl⟩

variable {t : Tree} {id : NodeId} {n : Node} {f : Node → Node} {g : Cell → Cell}

/-! ## One slot -/

theorem map_id_parent?_modify (hn : t.ids.Nodup) (hf : ∀ n, (f n).id = n.id) (j : NodeId) :
    ((t.modify id f).parent? j).map Node.id = (t.parent? j).map Node.id := by
  have hnf : (t.modify id f).ids.Nodup := (ids_modify hf t id).symm ▸ hn
  apply Option.ext
  intro q
  rw [map_id_parent?_eq_some_iff hnf, map_id_parent?_eq_some_iff hn, children_modify hf]

theorem cell?_modify (hn : t.ids.Nodup) (hm : Mirrors f g) (j : NodeId) :
    (t.modify id f).cell? j = if j = id then (t.cell? j).map g else t.cell? j := by
  rw [cell?, get?_modify hm.id, children_modify hm.id, map_id_parent?_modify hn hm.id, cell?]
  cases hj : t.get? j with
  | none => simp
  | some n =>
    have hid := id_of_get? hj
    rw [Option.map_some, Option.map_some, Option.map_some, Option.map_some, hid, hm.cell]
    split <;> rfl

theorem alter_arena (hw : t.WellFormed) (hm : Mirrors f g) (id : NodeId) :
    t.arena.alter id g = (t.modify id f).arena := by
  have hwu := hw.modify id hm.id hm.kind
  refine ext_cell (by rw [size_alter, size_slots_arena, size_slots_arena, modify]) (fun j => ?_) rfl
  rw [cell?_alter, cell?_arena hw, cell?_arena hwu, cell?_modify hw.nodup hm]

theorem runs_update_modify (hw : t.WellFormed) (hm : Mirrors f g) (h : t.contains id = true) :
    Runs (update id g) t.arena (.ok ()) (t.modify id f).arena := by
  obtain ⟨n, hn⟩ := Option.isSome_iff_exists.mp h
  rw [← alter_arena hw hm id]
  exact runs_update (cell?_live hw hn) g

theorem runs_cell_node (hw : t.WellFormed) (h : t.get? id = some n) :
    Runs (cell id) t.arena (.ok (.ofNode n (t.children id) ((t.parent? id).map Node.id))) t.arena :=
  runs_cell (cell?_live hw h)

theorem runs_cell_dead (hw : t.WellFormed) (h : t.get? id = none) :
    Runs (cell id) t.arena (.error (.noSuchNode id)) t.arena :=
  runs_cell_none ((cell?_arena hw id).trans (cell?_eq_none h))

theorem runs_refuse (hw : t.WellFormed) (e : String → StageError) (id : NodeId) :
    Runs (refuse e id : Action TreeError Unit) t.arena (.error (.stage (e (t.print id)))) t.arena := by
  refine (runs_get _).bind ?_
  rw [print_arena hw]
  exact runs_throw _ _

/-! ## Initialisation -/

theorem modify_modify (t : Tree) (id : NodeId) {f : Node → Node} (hf : ∀ n, (f n).id = n.id)
    (f' : Node → Node) : (t.modify id f).modify id f' = t.modify id (f' ∘ f) := by
  have hcomp : ((fun n : Node => if n.id = id then f' n else n) ∘
      fun n : Node => if n.id = id then f n else n) = fun n => if n.id = id then (f' ∘ f) n else n := by
    funext n
    by_cases hn : n.id = id <;> simp [hn, hf]
  rw [modify, modify, modify, map_map, hcomp]

theorem contains_modify (hf : ∀ n, (f n).id = n.id) (t : Tree) (id j : NodeId) :
    (t.modify id f).contains j = t.contains j := by
  rw [contains, get?_modify hf, Option.isSome_map, contains]

/-- A block gets a scope of its own. -/
def openScope (t : Tree) (id : NodeId) (kind : Kind) (inherited : Option ScopeId) : Tree :=
  if kind.isBlock then
    { t with scopes := t.scopes.add ⟨id, inherited⟩ }.modify id (.own t.scopes.size)
  else t

/-- The change that initialisation makes, in three steps. -/
theorem enterScope_eq (t : Tree) (id : NodeId) (kind : Kind) (inherited : Option ScopeId) :
    t.enterScope id kind inherited =
      ((t.modify id (.inherit inherited)).openScope id kind inherited).modify id .markInitialized := by
  rw [enterScope, openScope]
  split
  · have hnodes := (modify_modify (t.modify id (.inherit inherited)) id (f := .own t.scopes.size)
      (fun _ => rfl) .markInitialized).trans (modify_modify t id (f := .inherit inherited) (fun _ => rfl) _)
    exact congrArg (fun u : Tree => { u with scopes := t.scopes.add ⟨id, inherited⟩ }) hnodes.symm
  · rw [modify_modify t id (f := .inherit inherited) fun _ => rfl]
    rfl

theorem WellFormed.setScopes (hw : t.WellFormed) (scopes : ScopeTable) :
    { t with scopes := scopes }.WellFormed :=
  ⟨hw.nodup, hw.bounded, hw.rooted, hw.opening⟩

theorem WellFormed.openScope (hw : t.WellFormed) (id : NodeId) (kind : Kind)
    (inherited : Option ScopeId) : (t.openScope id kind inherited).WellFormed := by
  rw [Tree.openScope]
  split
  · exact (hw.setScopes _).modify id (fun _ => rfl) fun _ => rfl
  · exact hw

theorem contains_openScope (t : Tree) (id : NodeId) (kind : Kind) (inherited : Option ScopeId)
    (j : NodeId) : (t.openScope id kind inherited).contains j = t.contains j := by
  rw [openScope]
  split
  · exact contains_modify (f := .own t.scopes.size) (fun _ => rfl) _ id j
  · rfl

theorem runs_openScope (hw : t.WellFormed) (h : t.contains id = true) (kind : Kind)
    (inherited : Option ScopeId) :
    Runs (Arena.openScope id kind inherited) t.arena (.ok ())
      (t.openScope id kind inherited).arena := by
  have hown : Mirrors (.own t.scopes.size) (fun c => { c with scope := some t.scopes.size }) :=
    ⟨fun _ => rfl, fun _ => rfl, fun _ _ _ => rfl⟩
  have hscoped := hw.setScopes (t.scopes.add ⟨id, inherited⟩)
  rw [Arena.openScope, openScope]
  split
  · exact (runs_get _).bind ((runs_modify _ _).bind (runs_update_modify hscoped hown h))
  · exact runs_pure _ _

theorem runs_enterScope (hw : t.WellFormed) (h : t.contains id = true) (kind : Kind)
    (inherited : Option ScopeId) :
    Runs (Arena.enterScope id kind inherited) t.arena (.ok ())
      (t.enterScope id kind inherited).arena := by
  have hinherit : Mirrors (.inherit inherited) (fun c => { c with inherited := inherited }) :=
    ⟨fun _ => rfl, fun _ => rfl, fun _ _ _ => rfl⟩
  have hmark : Mirrors .markInitialized (fun c => { c with marks.initialized := true }) :=
    mirrors_marks fun m => { m with initialized := true }
  have hwu := hw.modify id hinherit.id hinherit.kind
  have hlive := (contains_modify hinherit.id t id id).trans h
  rw [enterScope_eq]
  refine (runs_update_modify hw hinherit h).bind ((runs_openScope hwu hlive kind inherited).bind ?_)
  refine runs_update_modify (hwu.openScope id kind inherited) hmark ?_
  rwa [contains_openScope]

theorem runs_initNode (hw : t.WellFormed) (id : NodeId) :
    match t.initNode id with
    | .ok u => Runs (Arena.initNode id) t.arena (.ok ()) u.arena
    | .error e => Runs (Arena.initNode id) t.arena (.error e) t.arena := by
  rw [initNode]
  cases hg : t.get? id with
  | none => exact (runs_cell_dead hw hg).bind_error
  | some n =>
    dsimp only
    cases hp : t.parent? id with
    | none =>
      refine (runs_cell_node hw hg).bind ?_
      rw [hp]
      exact runs_throw _ _
    | some outer =>
      have hlive : t.contains id = true := Option.isSome_of_eq_some hg
      refine (runs_cell_node hw hg).bind ?_
      rw [hp]
      have houter := ((parent?_eq_some_iff hw.nodup id outer).mp hp).1
      exact (runs_cell_node hw houter).bind (runs_enterScope hw hlive n.kind outer.enclosing)

/-! ## Setup and analysis -/

theorem isEmpty_children (t : Tree) (id : NodeId) :
    (t.children id).isEmpty = (t.below id).isEmpty := by
  rw [children]
  cases t.below id <;> rfl

theorem runs_setupHook (hw : t.WellFormed) (h : t.get? id = some n) :
    Runs (setupHook id) t.arena ((n.setupCheck (t.below id)).mapError .shape) t.arena := by
  have hcheck (e : StructureError) :
      Runs (if (t.below id).isEmpty then throw (.shape e) else pure () : Action TreeError Unit) t.arena
        ((if (t.below id).isEmpty then Except.error e else .ok ()).mapError .shape) t.arena := by
    split
    · exact runs_throw _ _
    · exact runs_pure _ _
  refine (runs_cell_node hw h).stage.bind ?_
  dsimp only [Cell.ofNode]
  rw [isEmpty_children, Node.setupCheck]
  cases n.kind with
  | expression | creation | varTest => exact hcheck _
  | _ => exact runs_pure _ _

/-- The nodes are looked at in order, up to the first of another kind. -/
theorem runs_checkChildren (hw : t.WellFormed) (c : Cell) (kind : Kind) {nodes : List Node}
    (h : ∀ m ∈ nodes, t.get? m.id = some m) :
    Runs ((nodes.map Node.id).forM (checkChild c kind)) t.arena
      ((match Node.intruder? kind nodes with
        | none => Except.ok ()
        | some m => .error (StructureError.invalidChild c.label m.label)).mapError .shape) t.arena := by
  induction nodes with
  | nil => exact runs_pure _ _
  | cons m rest ih =>
    have hm := (runs_cell_node hw (h m List.mem_cons_self)).stage
    have hrest := ih fun k hk => h k (List.mem_cons_of_mem m hk)
    rw [List.map_cons, Node.intruder?, List.find?_cons]
    cases hk : m.kind != kind with
    | true =>
      refine runs_forM_cons_error (hm.bind ?_)
      dsimp only [Cell.ofNode]
      rw [if_pos hk]
      exact runs_throw _ _
    | false =>
      refine runs_forM_cons (hm.bind ?_) hrest
      dsimp only [Cell.ofNode]
      rw [if_neg (Bool.eq_false_iff.mp hk)]
      exact runs_pure _ _

theorem runs_analyzeHook (hw : t.WellFormed) (h : t.get? id = some n) :
    Runs (analyzeHook id) t.arena ((n.analysisCheck (t.below id)).mapError .shape) t.arena := by
  have hbelow : ∀ m ∈ (t.below id).roots, t.get? m.id = some m := fun m hm =>
    get?_of_mem hw.nodup (mem_of_mem_below (mem_preorder_of_mem_roots hm))
  refine (runs_cell_node hw h).stage.bind ?_
  generalize hc : Cell.ofNode n (t.children id) ((t.parent? id).map Node.id) = c
  have hchildren : c.children = (t.below id).roots.map Node.id := by rw [← hc]; rfl
  have hlabel : c.label = n.label := by rw [← hc]; rfl
  have hkind : c.kind = n.kind := by rw [← hc]; rfl
  rw [hkind, Node.analysisCheck, ← hlabel, hchildren]
  cases n.kind with
  | creation => exact runs_checkChildren hw c .initializer hbelow
  | varTest =>
    rw [← List.map_take]
    exact runs_checkChildren hw c .identifier fun m hm => hbelow m (List.mem_of_mem_take hm)
  | _ => exact runs_pure _ _

theorem runs_analyzeNode (hw : t.WellFormed) (id : NodeId) :
    Runs (Arena.analyzeNode id) t.arena (t.analyzeNode id) t.arena := by
  rw [analyzeNode]
  cases hg : t.get? id with
  | none => exact (runs_cell_dead hw hg).stage.bind_error
  | some n =>
    refine (runs_cell_node hw hg).stage.bind ?_
    dsimp only [Cell.ofNode]
    split
    · exact runs_pure _ _
    split
    · exact runs_refuse hw _ id
    split
    · exact runs_analyzeHook hw hg
    · exact runs_pure _ _

theorem runs_setupNode (hw : t.WellFormed) (id : NodeId) :
    Runs (Arena.setupNode id) t.arena (t.setupNode id).2 (t.setupNode id).1.arena := by
  rw [setupNode]
  cases hg : t.get? id with
  | none => exact (runs_cell_dead hw hg).stage.bind_error
  | some n =>
    refine (runs_cell_node hw hg).stage.bind ?_
    dsimp only [Cell.ofNode]
    rw [Option.isNone_map]
    split
    · exact runs_pure _ _
    split
    · exact runs_refuse hw _ id
    split
    · exact runs_refuse hw _ id
    have hlive : t.contains id = true := Option.isSome_of_eq_some hg
    have hhook := runs_setupHook hw hg
    have hsetup : Mirrors .markSetup (fun c => { c with marks.setup := true }) :=
      mirrors_marks fun m => { m with setup := true }
    have hanalyzed : Mirrors .markAnalyzed (fun c => { c with marks.analyzed := true }) :=
      mirrors_marks fun m => { m with analyzed := true }
    have hwu := hw.modify id hsetup.id hsetup.kind
    rcases hc : n.setupCheck (t.below id) with e | _
    · rw [hc] at hhook
      exact hhook.bind_error
    · rw [hc] at hhook
      refine hhook.bind ((runs_update_modify hw hsetup hlive).stage.bind ?_)
      have han := runs_analyzeNode hwu id
      dsimp only
      rcases ha : (t.modify id .markSetup).analyzeNode id with e | _
      · rw [ha] at han
        exact han.bind_error
      · rw [ha] at han
        refine han.bind (runs_update_modify hwu hanalyzed ?_).stage
        rwa [contains_modify hsetup.id]

theorem runs_setupAll (hw : t.WellFormed) (ids : List NodeId) :
    Runs (ids.forM Arena.setupNode) t.arena (t.setupAll ids).2 (t.setupAll ids).1.arena := by
  induction ids generalizing t with
  | nil => exact runs_pure _ _
  | cons id rest ih =>
    have hid := runs_setupNode hw id
    have hwu := (setupNode_edits t id).wellFormed hw
    rw [setupAll]
    rcases hs : t.setupNode id with ⟨u, e | _⟩
    · rw [hs] at hid
      exact runs_forM_cons_error hid
    · rw [hs] at hid hwu
      exact runs_forM_cons hid (ih hwu)

theorem setupAll_singleton (t : Tree) (id : NodeId) : t.setupAll [id] = t.setupNode id := by
  rw [setupAll]
  rcases t.setupNode id with ⟨u, e | _⟩ <;> rfl

theorem runs_setupAsParent (hw : t.WellFormed) (id : NodeId) :
    Runs (Arena.setupAsParent id) t.arena (t.setupAsParent id).2 (t.setupAsParent id).1.arena := by
  rw [setupAsParent]
  cases hg : t.get? id with
  | none =>
    rw [contains, hg]
    exact (runs_cell_dead hw hg).stage.bind_error
  | some n =>
    have hchildren := runs_setupAll hw (t.children id)
    have hwu := (setupAll_edits t (t.children id)).wellFormed hw
    rw [contains, hg, if_pos Option.isSome_some, setupAll_append]
    refine (runs_cell_node hw hg).stage.bind ?_
    rcases hs : t.setupAll (t.children id) with ⟨u, e | _⟩
    · rw [hs] at hchildren
      exact hchildren.bind_error
    · rw [hs] at hchildren hwu
      refine hchildren.bind ?_
      dsimp only
      rw [setupAll_singleton]
      exact runs_setupNode hwu id

end Tree
end BracketTree
