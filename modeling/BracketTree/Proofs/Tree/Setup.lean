import BracketTree.Proofs.Forest.Everywhere
import BracketTree.Proofs.Tree.Edit

/-! The setup of a bracket that closes: it changes marks and nothing else. Which marks, and what comes
of it, is read off the bracket and what stands under it; it succeeds exactly when the bracket and
every child that is not set up yet fit what stands under them. -/

namespace BracketTree
open Forest
set_option autoImplicit false

/-- What an item may have under it. -/
def Item.Fits (i : Item) (below : Forest Item) : Prop :=
  match i.kind with
  | .expression => below.roots ≠ []
  | .creation => below.roots ≠ [] ∧ ∀ j ∈ below.roots, j.kind = .initializer
  | .varTest => ∃ j ∈ below.roots.head?, j.kind = .identifier
  | _ => True

theorem Item.Fits.of_nil {i : Item} (h : i.Fits .nil) (below : Forest Item) : i.Fits below := by
  rw [Fits] at h ⊢
  split at h
  · exact absurd rfl h
  · exact absurd rfl h.1
  · obtain ⟨j, hj, -⟩ := h
    cases hj
  · trivial

theorem Item.fits_of_brace {i : Item} {b : Brace} (h : i.kind.brace? = some b)
    (below : Forest Item) : i.Fits below := by
  rw [Fits]
  split <;> first | trivial | simp_all [Kind.brace?]

/-- The stages were passed in their order, the first at least. -/
structure Marks.InOrder (m : Marks) : Prop where
  initialized : m.initialized = true
  setup_of_analyzed : m.analyzed = true → m.setup = true
  analyzed_of_evaluated : m.evaluated = true → m.analyzed = true

theorem Marks.InOrder.analyzed_eq_false {m : Marks} (h : m.InOrder) (hs : m.setup = false) :
    m.analyzed = false := by
  apply Bool.eq_false_iff.mpr
  intro ha
  rw [h.setup_of_analyzed ha] at hs
  cases hs

namespace Node

/-- A node that is set up and analysed; one that was set up before stays as it is. -/
def settle (n : Node) : Node := if n.marks.setup then n else n.markSetup.markAnalyzed

def Passes (n : Node) (below : Forest Node) : Prop :=
  n.marks.setup = true ∨ n.toItem.Fits (below.map Node.toItem)

@[simp] theorem settle_toItem (n : Node) : n.settle.toItem = n.toItem := by
  rw [settle]
  split <;> rfl

theorem intruder?_eq_none (kind : Kind) (nodes : List Node) :
    intruder? kind nodes = none ↔ ∀ n ∈ nodes, n.kind = kind := by
  simp [intruder?, List.find?_eq_none]

theorem analysisCheck_of_not_hasAnalysis {n : Node} (h : n.kind.hasAnalysis = false)
    (below : Forest Node) : n.analysisCheck below = .ok () := by
  rw [analysisCheck]
  cases hk : n.kind <;> simp_all [Kind.hasAnalysis]

theorem fits_iff (n : Node) (below : Forest Node) : n.toItem.Fits (below.map Node.toItem) ↔
    n.setupCheck below = .ok () ∧ n.analysisCheck below = .ok () := by
  rw [Item.Fits, setupCheck, analysisCheck, roots_map]
  cases hk : n.kind with
  | expression => cases below <;> simp [Forest.isEmpty]
  | creation =>
    cases hi : intruder? .initializer below.roots with
    | none =>
      have hall := (intruder?_eq_none _ _).mp hi
      cases below with
      | nil => simp [Forest.isEmpty]
      | node a c s => simpa [Forest.isEmpty] using hall
    | some m =>
      have hnot : ¬∀ k ∈ below.roots, k.kind = .initializer := by
        rw [← intruder?_eq_none, hi]
        simp
      simpa using fun _ => hnot
  | varTest =>
    cases below with
    | nil => simp [Forest.isEmpty]
    | node a c s =>
      cases ha : a.kind != .identifier <;> simp_all [Forest.isEmpty, intruder?]
  | _ => simp

theorem passes_iff {n : Node} {below : Forest Node} (hs : n.marks.setup = false) :
    n.Passes below ↔ n.setupCheck below = .ok () ∧ n.analysisCheck below = .ok () := by
  rw [← fits_iff, Passes, hs]
  simp

/-- What setup makes of a node that is initialised, given what stands under it. -/
def attempt (n : Node) (below : Forest Node) : Node × Except TreeError Unit :=
  if n.marks.setup then (n, .ok ())
  else
    match n.setupCheck below, n.analysisCheck below with
    | .error e, _ => (n, .error (.shape e))
    | .ok (), .error e => (n.markSetup, .error (.shape e))
    | .ok (), .ok () => (n.markSetup.markAnalyzed, .ok ())

/-- The top nodes are set up in order, up to the first that fails. -/
def attemptAll : Forest Node → Forest Node × Except TreeError Unit
  | .nil => (.nil, .ok ())
  | .node n c s =>
    match n.attempt c with
    | (m, .error e) => (.node m c s, .error e)
    | (m, .ok ()) => (.node m c (attemptAll s).1, (attemptAll s).2)

/-- What stands under a node is set up, then the node itself. -/
def attemptWith (n : Node) (below : Forest Node) : (Node × Forest Node) × Except TreeError Unit :=
  match attemptAll below with
  | (d, .error e) => ((n, d), .error e)
  | (d, .ok ()) => (((n.attempt d).1, d), (n.attempt d).2)

theorem attempt_of_setup {n : Node} (hs : n.marks.setup = true) (below : Forest Node) :
    n.attempt below = (n, .ok ()) :=
  if_pos hs

theorem attempt_eq (n : Node) (c : Forest Node) :
    (n.attempt c).1 = n ∨ (n.attempt c).1 = n.markSetup ∨
      (n.attempt c).1 = n.markSetup.markAnalyzed := by
  rw [attempt]
  split
  · exact .inl rfl
  · cases n.setupCheck c with
    | error e => exact .inl rfl
    | ok => cases n.analysisCheck c <;> simp

theorem attempt_eq_ok_iff (n m : Node) (below : Forest Node) :
    n.attempt below = (m, .ok ()) ↔ n.Passes below ∧ m = n.settle := by
  cases hs : n.marks.setup with
  | true => simp [attempt, settle, Passes, hs, eq_comm]
  | false =>
    rw [passes_iff hs, attempt, settle, hs]
    cases n.setupCheck below with
    | error e => simp
    | ok => cases n.analysisCheck below <;> simp [eq_comm]

theorem attemptAll_eq_ok_iff (c d : Forest Node) :
    attemptAll c = (d, .ok ()) ↔ c.Tops Passes ∧ d = c.mapRoots settle := by
  induction c generalizing d with
  | nil => simp [attemptAll, Tops, mapRoots, eq_comm]
  | node n e s _ ih =>
    have hn := fun m => attempt_eq_ok_iff n m e
    rw [attemptAll, Tops, mapRoots]
    rcases hr : n.attempt e with ⟨m, x | _⟩
    · have hp : ¬n.Passes e := by
        intro hp
        cases hr.symm.trans ((hn _).mpr ⟨hp, rfl⟩)
      simp [hp]
    · obtain ⟨hp, rfl⟩ := (hn m).mp hr
      rcases hs : attemptAll s with ⟨s', x | _⟩
      · have ht : ¬s.Tops Passes := by
          intro ht
          cases hs.symm.trans ((ih _).mpr ⟨ht, rfl⟩)
        simp [ht]
      · obtain ⟨ht, rfl⟩ := (ih s').mp hs
        simp [hp, ht, eq_comm]

theorem attemptWith_eq_ok_iff (n m : Node) (c d : Forest Node) :
    attemptWith n c = ((m, d), .ok ()) ↔
      c.Tops Passes ∧ n.Passes c ∧ m = n.settle ∧ d = c.mapRoots settle := by
  have hc := attemptAll_eq_ok_iff c
  have hsame : n.Passes (c.mapRoots settle) ↔ n.Passes c := by
    rw [Passes, map_mapRoots settle_toItem, Passes]
  rw [attemptWith]
  rcases hr : attemptAll c with ⟨d', x | _⟩
  · have ht : ¬c.Tops Passes := by
      intro ht
      cases hr.symm.trans ((hc _).mpr ⟨ht, rfl⟩)
    simp [ht]
  · obtain ⟨ht, rfl⟩ := (hc d').mp hr
    have hn := attempt_eq_ok_iff n m (c.mapRoots settle)
    rw [hsame] at hn
    simp only [ht, true_and, Prod.mk.injEq, ← and_assoc, ← hn]
    rcases n.attempt (c.mapRoots settle) with ⟨m', x | _⟩ <;> simp [eq_comm]

end Node

namespace Tree

/-! ## Only marks change -/

def Remarks (g : Node → Node) : Prop := ∀ n, g n = { n with marks := (g n).marks }

theorem Remarks.toItem {g : Node → Node} (hg : Remarks g) (n : Node) :
    (g n).toItem = n.toItem := by
  rw [hg n]

theorem Remarks.id {g : Node → Node} (hg : Remarks g) (n : Node) : (g n).id = n.id := by
  rw [hg n]

/-- `u` is `t` with other marks on the nodes `ids`. -/
def Remarked (ids : List NodeId) (t u : Tree) : Prop :=
  ∃ g, Remarks g ∧ (∀ n, n.id ∉ ids → g n = n) ∧ u = { t with nodes := t.nodes.map g }

theorem Remarked.refl (ids : List NodeId) (t : Tree) : Remarked ids t t :=
  ⟨fun n => n, fun _ => rfl, fun _ _ => rfl, by rw [map_of_forall_eq fun _ _ => rfl]⟩

theorem Remarked.trans {ids : List NodeId} {t u v : Tree} (h : Remarked ids t u)
    (h' : Remarked ids u v) : Remarked ids t v := by
  obtain ⟨g, hg, hfix, rfl⟩ := h
  obtain ⟨g', hg', hfix', rfl⟩ := h'
  refine ⟨g' ∘ g, ?_, ?_, ?_⟩
  · intro n
    rw [Function.comp_apply, hg' (g n), hg n]
  · intro n hn
    rw [Function.comp_apply, hfix n hn, hfix' n hn]
  · simp only [map_map]

theorem Remarked.mono {ids ids' : List NodeId} {t u : Tree} (h : Remarked ids t u)
    (hsub : ids ⊆ ids') : Remarked ids' t u := by
  obtain ⟨g, hg, hfix, hu⟩ := h
  exact ⟨g, hg, fun n hn => hfix n fun hm => hn (hsub hm), hu⟩

theorem Remarked.modify (t : Tree) (id : NodeId) {f : Node → Node} (hf : Remarks f) :
    Remarked [id] t (t.modify id f) := by
  refine ⟨fun n => if n.id = id then f n else n, ?_, ?_, rfl⟩
  · intro n
    dsimp only
    split
    · exact hf n
    · rfl
  · intro n hn
    exact if_neg fun he => hn (List.mem_singleton.mpr he)

theorem Remarked.ids {ids : List NodeId} {t u : Tree} (h : Remarked ids t u) : u.ids = t.ids := by
  obtain ⟨g, hg, -, rfl⟩ := h
  exact ids_map hg.id t

theorem setupNode_remarked (t : Tree) (id : NodeId) : Remarked [id] t (t.setupNode id).1 := by
  have hsetup : Remarked [id] t (t.modify id .markSetup) := .modify t id fun _ => rfl
  rw [setupNode]
  split
  · exact .refl _ t
  split
  · exact .refl _ t
  split
  · exact .refl _ t
  split
  · exact .refl _ t
  split
  · exact .refl _ t
  dsimp only
  split
  · exact hsetup
  · exact hsetup.trans (.modify _ id fun _ => rfl)

theorem setupAll_remarked (t : Tree) (ids : List NodeId) : Remarked ids t (t.setupAll ids).1 := by
  induction ids generalizing t with
  | nil => exact .refl _ t
  | cons id rest ih =>
    have hid : Remarked (id :: rest) t (t.setupNode id).1 :=
      (setupNode_remarked t id).mono (by simp)
    rw [setupAll]
    split
    · next u e he => exact he ▸ hid
    · next u he =>
      rw [he] at hid
      exact hid.trans ((ih u).mono (List.subset_cons_self id rest))

theorem setupAsParent_remarked (t : Tree) (id : NodeId) :
    Remarked (t.children id ++ [id]) t (t.setupAsParent id).1 := by
  rw [setupAsParent]
  split
  · exact setupAll_remarked t _
  · exact .refl _ t

section Spine
variable {t u : Tree} {fr up : Frame Node} {outer : List (Frame Node)} {c : Forest Node}

/-- Whether it succeeds or not, the setup of a closed bracket touches that bracket and what stands
under it, and there the marks alone. -/
theorem setupAsParent_focus (hn : t.ids.Nodup) (h : t.nodes = plug (fr :: outer) c) :
    ∃ g, Remarks g ∧ (t.setupAsParent fr.node.id).1 =
      { t with nodes := plug (⟨fr.left, g fr.node, fr.right⟩ :: outer) (c.map g) } := by
  obtain ⟨g, hg, hfix, hu⟩ := setupAsParent_remarked t fr.node.id
  rw [children_focus hn h] at hfix
  -- the marks that change are those of the bracket and its children, which stand elsewhere
  have hbeside : ∀ n ∈ fr.left.preorder ++ fr.right.preorder ++ beside outer, g n = n := by
    intro n hm
    apply hfix
    intro hid
    rcases List.mem_append.mp hid with hid | hid
    · obtain ⟨m, hmc, he⟩ := List.mem_map.mp hid
      rw [nodup_ids_plug h, List.map_append, List.nodup_append] at hn
      refine hn.2.2 _ (List.mem_map_of_mem (mem_preorder_of_mem_roots hmc)) n.id ?_ he
      exact List.mem_map_of_mem (List.mem_cons_of_mem _ hm)
    · exact id_ne_of_mem hn h (List.mem_append_right _ hm) (List.mem_singleton.mp hid)
  refine ⟨g, hg, ?_⟩
  rw [hu, h, map_plug, List.map_cons, Frame.map,
    map_of_forall_eq fun n hm => hbeside n (by simp [hm]),
    map_of_forall_eq fun n hm => hbeside n (by simp [hm]),
    map_spine_eq_self fun n hm => hbeside n (by simp [hm])]

/-! ## What a setup does -/

theorem analyzeNode_markSetup (hn : t.ids.Nodup) (h : t.nodes = plug (fr :: outer) c)
    (hi : fr.node.marks.initialized = true) (ha : fr.node.marks.analyzed = false) :
    (t.modify fr.node.id .markSetup).analyzeNode fr.node.id =
      (fr.node.analysisCheck c).mapError .shape := by
  have hids : (t.modify fr.node.id .markSetup).ids.Nodup :=
    ids_modify (f := .markSetup) (fun _ => rfl) t _ ▸ hn
  let fr' : Frame Node := ⟨fr.left, fr.node.markSetup, fr.right⟩
  have hm : (t.modify fr.node.id .markSetup).nodes = plug (fr' :: outer) c :=
    nodes_modify_focus hn h .markSetup
  have hget : (t.modify fr.node.id .markSetup).get? fr.node.id = some fr.node.markSetup :=
    get?_focus hids hm
  have hbelow : (t.modify fr.node.id .markSetup).below fr.node.id = c :=
    @below_focus _ fr' outer c hids hm
  have hmarks : fr.node.markSetup.marks = ⟨true, true, false, fr.node.marks.evaluated⟩ := by
    simp only [Node.markSetup, hi, ha]
  rw [analyzeNode, hget, hbelow]
  simp only [hmarks, Bool.false_eq_true, if_false, Bool.and_self, Bool.not_true]
  split
  · rfl
  · next hk =>
    have hk' : fr.node.kind.hasAnalysis = false := Bool.eq_false_iff.mpr hk
    rw [Node.analysisCheck_of_not_hasAnalysis hk']
    rfl

theorem modify_settle (hn : t.ids.Nodup) (h : t.nodes = plug (fr :: outer) c)
    (hs : fr.node.marks.setup = false) :
    (t.modify fr.node.id .markSetup).modify fr.node.id .markAnalyzed =
      { t with nodes := plug (⟨fr.left, fr.node.settle, fr.right⟩ :: outer) c } := by
  have hids : (t.modify fr.node.id .markSetup).ids.Nodup :=
    ids_modify (f := .markSetup) (fun _ => rfl) t _ ▸ hn
  let fr' : Frame Node := ⟨fr.left, fr.node.markSetup, fr.right⟩
  have hm : (t.modify fr.node.id .markSetup).nodes = plug (fr' :: outer) c :=
    nodes_modify_focus hn h .markSetup
  have hnodes := @nodes_modify_focus _ fr' outer c hids hm .markAnalyzed
  have hsettle : fr.node.settle = fr.node.markSetup.markAnalyzed := if_neg (by simp [hs])
  rw [hsettle, ← hnodes]
  rfl

theorem setupNode_focus (hn : t.ids.Nodup) (h : t.nodes = plug (fr :: up :: outer) c)
    (hm : fr.node.marks.InOrder) : t.setupNode fr.node.id =
      ({ t with nodes := plug (⟨fr.left, (fr.node.attempt c).1, fr.right⟩ :: up :: outer) c },
        (fr.node.attempt c).2) := by
  rw [setupNode, get?_focus hn h]
  cases hs : fr.node.marks.setup with
  | true =>
    rw [Node.attempt_of_setup hs, ← h]
    simp [hs]
  | false =>
    have hpar : t.parent? fr.node.id = some up.node := parent?_focus hn h
    have hset := nodes_modify_focus hn h .markSetup
    have hdone := modify_settle hn h hs
    rw [Node.settle, hs] at hdone
    rw [Node.attempt]
    simp only [hs, hm.initialized, hpar, below_focus hn h, hdone,
      analyzeNode_markSetup hn h hm.initialized (hm.analyzed_eq_false hs), Bool.false_eq_true,
      if_false, Bool.not_true, Option.isNone_some]
    cases fr.node.setupCheck c with
    | error e =>
      dsimp only
      rw [← h]
    | ok =>
      cases fr.node.analysisCheck c with
      | error e =>
        dsimp only [Except.mapError]
        rw [← hset]
        rfl
      | ok => rfl

/-- Of the children of a node, `done` have been set up and `todo` are next. -/
theorem setupAll_focus {done todo : Forest Node} (hn : t.ids.Nodup)
    (h : t.nodes = plug (fr :: outer) (done ++ todo))
    (hm : todo.Tops fun n _ => n.marks.InOrder) : t.setupAll (todo.roots.map Node.id) =
      ({ t with nodes := plug (fr :: outer) (done ++ (Node.attemptAll todo).1) },
        (Node.attemptAll todo).2) := by
  -- on the children still to be set up; `done` is what the tree holds of those before them
  induction todo generalizing t done with
  | nil =>
    rw [Node.attemptAll, ← h]
    rfl
  | node n d s _ ih =>
    have h' : t.nodes = plug (⟨done, n, s⟩ :: fr :: outer) d := h
    have hnode := setupNode_focus hn h' hm.1
    have hrem := setupNode_remarked t n.id
    dsimp only at hnode
    rw [hnode] at hrem
    rw [roots_node, List.map_cons, setupAll, Node.attemptAll, hnode]
    generalize n.attempt d = r at hrem ⊢
    obtain ⟨m, e | _⟩ := r
    · rfl
    · have hplug : ∀ g, done ++ .node m d .nil ++ g = done ++ .node m d g :=
        fun g => append_assoc _ _ _
      have hnext : plug (⟨done, m, s⟩ :: fr :: outer) d =
          plug (fr :: outer) (done ++ .node m d .nil ++ s) := by
        rw [hplug]
        rfl
      have hrest := ih (t := { t with nodes := plug (⟨done, m, s⟩ :: fr :: outer) d })
        (hrem.ids ▸ hn) hnext hm.2
      dsimp only
      rw [hrest, hplug]

theorem setupAll_append (t : Tree) (ids ids' : List NodeId) :
    t.setupAll (ids ++ ids') = match t.setupAll ids with
      | (u, .error e) => (u, .error e)
      | (u, .ok ()) => u.setupAll ids' := by
  induction ids generalizing t with
  | nil => rfl
  | cons id rest ih =>
    rw [List.cons_append, setupAll, setupAll]
    rcases t.setupNode id with ⟨u, e | _⟩
    · rfl
    · exact ih u

theorem setupAsParent_attempt (hn : t.ids.Nodup) (h : t.nodes = plug (fr :: up :: outer) c)
    (hm : fr.node.marks.InOrder) (hc : c.Tops fun n _ => n.marks.InOrder) :
    t.setupAsParent fr.node.id =
      ({ t with
          nodes := plug (⟨fr.left, (fr.node.attemptWith c).1.1, fr.right⟩ :: up :: outer)
            (fr.node.attemptWith c).1.2 },
        (fr.node.attemptWith c).2) := by
  have hnil : t.nodes = plug (fr :: up :: outer) (.nil ++ c) := h
  have hall := setupAll_focus hn hnil hc
  have hrem := setupAll_remarked t (c.roots.map Node.id)
  rw [hall] at hrem
  rw [setupAsParent, contains, get?_focus hn h, if_pos Option.isSome_some, children_focus hn h,
    setupAll_append, hall, Node.attemptWith]
  generalize Node.attemptAll c = r at hrem ⊢
  obtain ⟨d, e | _⟩ := r
  · rfl
  · have hself := setupNode_focus (t := { t with nodes := plug (fr :: up :: outer) d })
      (hrem.ids ▸ hn) rfl hm
    dsimp only [nil_append]
    rw [setupAll, hself]
    rcases fr.node.attempt d with ⟨m, e | _⟩ <;> rfl

theorem setupAsParent_eq_ok_iff (hn : t.ids.Nodup) (h : t.nodes = plug (fr :: up :: outer) c)
    (hm : fr.node.marks.InOrder) (hc : c.Tops fun n _ => n.marks.InOrder) :
    t.setupAsParent fr.node.id = (u, .ok ()) ↔ c.Tops Node.Passes ∧ fr.node.Passes c ∧
      u = { t with
        nodes := plug (⟨fr.left, fr.node.settle, fr.right⟩ :: up :: outer) (c.mapRoots .settle) } := by
  have hok := Node.attemptWith_eq_ok_iff fr.node
  rw [setupAsParent_attempt hn h hm hc]
  constructor
  · intro hu
    obtain ⟨rfl, hr⟩ := Prod.mk.inj hu
    obtain ⟨htops, hself, hm', hd⟩ := (hok _ c _).mp (Prod.ext rfl hr)
    exact ⟨htops, hself, by rw [hm', hd]⟩
  · rintro ⟨htops, hself, rfl⟩
    rw [(hok _ c _).mpr ⟨htops, hself, rfl, rfl⟩]

end Spine

end Tree
end BracketTree
