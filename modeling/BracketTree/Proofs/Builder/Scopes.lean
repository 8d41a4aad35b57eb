import BracketTree.Proofs.Builder.Progress
import BracketTree.Proofs.Tree.Scopes
import BracketTree.Proofs.Tree.Statement
import Mathlib.Data.List.Infix

/-! The scopes of the nodes that a builder makes. A node stands in the scope of its parent, also after
a group has been elided, with one exception: an empty block that takes the place of a group receives
the group's other nodes, and these go on standing in the scope around the block. Main statement: the
scopes around a node are those of the blocks on the way outwards, save the blocks that received the
node before them on that way. -/

namespace BracketTree
open Forest
set_option autoImplicit false

namespace Node

/-- The block `p` received `n` from a group: `n` stands in the scope around `p`. -/
def AdoptedBy (n p : Node) : Prop := p.kind = .block ∧ n.inherited = p.inherited

instance (n p : Node) : Decidable (n.AdoptedBy p) := inferInstanceAs (Decidable (_ ∧ _))

/-- The scopes that the top nodes record as those around them. -/
def recorded (c : Forest Node) : List (Option ScopeId) := c.roots.map Node.inherited

def Lexical (p : Node) (c : Forest Node) : Prop := ∀ s ∈ recorded c, s = p.enclosing

/-- A node and what stands under it: either all of it is in the scope of the node, or, if that is
allowed at all, the node is a block, closed before it received all of it. -/
def Links (loose : Prop) (p : Node) (c : Forest Node) : Prop :=
  p.Lexical c ∨
    (loose ∧ p.kind = .block ∧ p.marks.setup = true ∧ ∀ s ∈ recorded c, s = p.inherited)

variable {loose : Prop} {n m p : Node} {c d : Forest Node}

theorem Links.mono (h : Links loose p c) (hsub : recorded d ⊆ recorded c) : Links loose p d := by
  rcases h with h | ⟨hl, hk, hs, h⟩
  · exact .inl fun s hm => h s (hsub hm)
  · exact .inr ⟨hl, hk, hs, fun s hm => h s (hsub hm)⟩

theorem links_nil (p : Node) : Links loose p .nil := .inl fun _ hs => by cases hs

theorem Links.lexical (h : Links loose p c) (hs : p.marks.setup = false) : p.Lexical c := by
  rcases h with h | ⟨-, -, hs', -⟩
  · exact h
  · rw [hs] at hs'
    cases hs'

/-- The scope of a block is not the scope around it. -/
theorem InScopes.not_adoptedBy {table : ScopeTable} (hp : p.InScopes table)
    (h : n.inherited = p.enclosing) : ¬n.AdoptedBy p := by
  rintro ⟨hk, hin⟩
  obtain ⟨s, hs⟩ : ∃ s, p.scope = some s := by
    rw [← Option.isSome_iff_exists, hp.block, hk]
    rfl
  have hinner : p.inherited = some s := by
    rw [← hin, h, enclosing, hs]
    rfl
  exact Nat.lt_irrefl s ((hp.own s hs).2 s hinner)

theorem Links.cases (h : Links loose p c) :
    (∀ n ∈ c.roots, n.inherited = p.enclosing) ∨ ∀ n ∈ c.roots, n.AdoptedBy p :=
  h.imp (fun hl _ hn => hl _ (List.mem_map_of_mem hn))
    fun hb _ hn => ⟨hb.2.1, hb.2.2.2 _ (List.mem_map_of_mem hn)⟩

theorem Links.inherited_eq_iff {table : ScopeTable} (h : Links loose p c) (hp : p.InScopes table)
    (hn : n ∈ c.roots) : n.inherited = p.enclosing ↔ ¬n.AdoptedBy p := by
  refine ⟨hp.not_adoptedBy, fun hno => ?_⟩
  rcases h.cases with hall | hall
  · exact hall n hn
  · exact absurd (hall n hn) hno

/-- The node is a group that starts with an empty block and goes on after it. -/
def promotesBlock (n : Node) : Forest Node → Bool
  | .node first .nil (.node _ _ _) => n.kind == .brace ⟨.round, .opening⟩ && first.kind.isBlock
  | _ => false

theorem promotesBlock_of_group (hn : n.kind = .brace ⟨.round, .opening⟩) (hk : m.kind = .block)
    (hd : d ≠ .nil) : n.promotesBlock (.node m .nil d) = true := by
  cases d with
  | nil => exact absurd rfl hd
  | node a c s => simp [promotesBlock, hn, hk, Kind.isBlock]

/-! ## Setups change no scope -/

theorem inherited_attempt (n : Node) (c : Forest Node) :
    (n.attempt c).1.inherited = n.inherited := by
  rcases n.attempt_eq c with h | h | h <;> rw [h] <;> rfl

theorem recorded_attemptAll (c : Forest Node) : recorded (attemptAll c).1 = recorded c := by
  induction c with
  | nil => rfl
  | node n d s _ ih =>
    have hn := inherited_attempt n d
    rw [attemptAll]
    generalize n.attempt d = r at hn
    obtain ⟨m, e | _⟩ := r
    · exact congrArg (· :: recorded s) hn
    · exact congrArg₂ (· :: ·) hn ih

theorem Links.attempt (h : Links loose n c) (d : Forest Node) :
    Links loose (n.attempt d).1 c := by
  rcases n.attempt_eq d with he | he | he
  · rwa [he]
  all_goals
    rw [he]
    exact h.imp_right fun hb => ⟨hb.1, hb.2.1, rfl, hb.2.2.2⟩

theorem everywhere_attemptAll (h : c.Everywhere (Links loose)) :
    (attemptAll c).1.Everywhere (Links loose) := by
  rw [everywhere_iff_tops] at h ⊢
  refine attemptAll_tops (fun n e hn => ?_) h
  exact ⟨hn, hn.1.attempt e, hn.2⟩

theorem attemptWith_links (hn : Links loose n c) (hc : c.Everywhere (Links loose)) :
    Links loose (n.attemptWith c).1.1 (n.attemptWith c).1.2 ∧
      (n.attemptWith c).1.2.Everywhere (Links loose) ∧
      (n.attemptWith c).1.1.inherited = n.inherited := by
  have hd := everywhere_attemptAll hc
  have hrec := recorded_attemptAll c
  rw [attemptWith]
  generalize attemptAll c = r at hd hrec
  obtain ⟨d, e | _⟩ := r
  · exact ⟨hn.mono (fun _ hs => hrec ▸ hs), hd, rfl⟩
  · exact ⟨(hn.attempt d).mono (fun _ hs => hrec ▸ hs), hd, inherited_attempt n d⟩

end Node

/-! ## Insertions keep the links -/

namespace Tree
open Node

/-- New contents under a spine whose top nodes stand in no other scopes than those of the old. -/
theorem links_plug {loose : Prop} (spine : List (Frame Node)) {f g : Forest Node}
    (hsub : recorded g ⊆ recorded f) (hfg : f.Everywhere (Links loose) → g.Everywhere (Links loose))
    (h : (plug spine f).Everywhere (Links loose)) : (plug spine g).Everywhere (Links loose) := by
  induction spine generalizing f g with
  | nil => exact hfg h
  | cons fr outer ih =>
    refine ih ?_ (fun hf => ?_) h
    · simp [recorded]
    · rw [everywhere_append] at hf ⊢
      exact ⟨hf.1, hf.2.1.mono hsub, hfg hf.2.2.1, hf.2.2.2⟩

theorem links_nearestBlock {loose : Prop} {outer rest : List (Frame Node)} {left kept f : Forest Node}
    {block : Frame Node} (hb : nearestBlock left outer = some (kept, block, rest))
    (h : (plug outer (left ++ f)).Everywhere (Links loose)) :
    (plug (block :: rest) kept).Everywhere (Links loose) := by
  induction outer generalizing left f with
  | nil => cases hb
  | cons up outer ih =>
    rw [nearestBlock] at hb
    split at hb
    · cases hb
      refine links_plug (block :: rest) ?_ (fun hf => ((everywhere_append _ _).mp hf).1) h
      simp [recorded]
    · exact ih hb h

variable {loose : Prop} {P : Node → Forest Node → Prop} {t : Tree} {fr up : Frame Node}
  {outer : List (Frame Node)} {c d e : Forest Node} {n m : Node} {b : Brace}

theorem Underway.isOpen (h : Underway P (fr :: outer) c) : fr.node.marks.setup = false := by
  cases h with
  | top hr _ =>
    rw [hr]
    rfl
  | @inside n _ _ _ _ _ ha _ => rw [show n.marks = _ from ha.entered]

theorem focus_links (h : t.nodes = plug (fr :: outer) c) (hl : t.nodes.Everywhere (Links loose)) :
    Links loose fr.node c ∧ c.Everywhere (Links loose) := by
  rw [h] at hl
  have hf := ((everywhere_append _ _).mp (Everywhere.of_plug outer hl)).2
  exact ⟨hf.1, hf.2.1⟩

theorem links_attach (hw : t.WellFormed) (h : t.nodes = plug (fr :: outer) c)
    (hu : Underway P (fr :: outer) c) (hl : t.nodes.Everywhere (Links loose)) {item : Item}
    (hitem : ∀ b, item.kind.brace? = some b → b.isOpening = true) :
    (t.attach fr.node item).nodes.Everywhere (Links loose) := by
  have hlex := (focus_links h hl).1.lexical hu.isOpen
  rw [attach_focus hw h hitem]
  rw [h] at hl
  refine links_plug outer ?_ (fun hf => ?_) hl
  · simp [recorded]
  · rw [everywhere_append] at hf ⊢
    refine ⟨hf.1, .inl ?_, (everywhere_append _ _).mpr ⟨hf.2.2.1, links_nil _, trivial, trivial⟩,
      hf.2.2.2⟩
    intro s hs
    rw [recorded, roots_append, List.map_append, List.mem_append] at hs
    rcases hs with hs | hs
    · exact hlex s hs
    · exact List.mem_singleton.mp hs

/-- Closing a bracket leaves a node with its links in the place of the bracket. -/
theorem Yields.links (hy : Yields fr.node c b n d) (hloose : fr.node.promotesBlock c = true → loose)
    (hs : t.Scoped) (h : t.nodes = plug (fr :: up :: outer) c)
    (hu : Underway P (fr :: up :: outer) c) (hl : t.nodes.Everywhere (Links loose)) :
    Links loose n d ∧ d.Everywhere (Links loose) ∧ n.inherited = fr.node.inherited := by
  obtain ⟨hn, hc⟩ := focus_links h hl
  cases hy with
  | keep _ _ _ => exact ⟨hn, hc, rfl⟩
  | @elide opening _ _ hb hcl hg he =>
    subst he
    have hmem : ∀ k, k = fr.node ∨ k = n → k ∈ t.nodes.preorder := by
      rintro k (rfl | rfl) <;>
      · rw [h, (preorder_plug_perm _ _).mem_iff]
        simp [beside]
    have hround := Kind.eq_of_isGrouping hb hg
    -- a group has no scope, so the group and all that stands in it stand in one scope
    have hgroup : fr.node.enclosing = fr.node.inherited := by
      refine (hs.nodes _ (hmem _ (.inl rfl))).enclosing_eq ?_
      rw [hround]
      exact Kind.noConfusion
    have hin : ∀ s ∈ recorded (.node n .nil d), s = fr.node.inherited :=
      fun s hm => (hn.lexical hu.isOpen s hm).trans hgroup
    have hfirst : n.inherited = fr.node.inherited := hin _ (List.mem_cons_self ..)
    have hrest : ∀ s ∈ recorded d, s = n.inherited :=
      fun s hm => (hin s (List.mem_cons_of_mem _ hm)).trans hfirst.symm
    refine ⟨?_, hc.2.2, hfirst⟩
    by_cases hnil : d = .nil
    · rw [hnil]
      exact links_nil n
    by_cases hk : n.kind = .block
    · refine .inr ⟨hloose (promotesBlock_of_group hround hk hnil), hk, ?_, hrest⟩
      have hop := hu.around.2.2.2.1
      cases hop with
      | bare _ hnone =>
        rw [hk] at hnone
        cases hnone
      | complete hcomp _ => rw [hcomp.marks]
    · refine .inl fun s hm => ?_
      rw [hrest s hm, (hs.nodes _ (hmem _ (.inr rfl))).enclosing_eq hk]

theorem links_attempt (hy : Yields fr.node c b n d) (hloose : fr.node.promotesBlock c = true → loose)
    (hs : t.Scoped) (h : t.nodes = plug (fr :: up :: outer) c)
    (hu : Underway P (fr :: up :: outer) c) (hl : t.nodes.Everywhere (Links loose))
    {r : Except TreeError Unit} (ha : n.attemptWith d = ((m, e), r)) :
    (plug (⟨fr.left, m, fr.right⟩ :: up :: outer) e).Everywhere (Links loose) := by
  obtain ⟨hn, hd, hin⟩ := hy.links hloose hs h hu hl
  have hw := attemptWith_links hn hd
  rw [ha] at hw
  obtain ⟨hm, he, hmin⟩ := hw
  replace hmin : m.inherited = fr.node.inherited := hmin.trans hin
  rw [h] at hl
  refine links_plug (up :: outer) ?_ (fun hf => ?_) hl
  · simp [recorded, hmin]
  · rw [everywhere_append] at hf ⊢
    exact ⟨hf.1, hm, he, hf.2.2.2⟩

theorem Takes.links {item : Item} {r : Tree × Except InsertError NodeId}
    (ht : Takes t fr outer c item r) (hloose : fr.node.promotesBlock c = true → loose)
    (hw : t.WellFormed) (hs : t.Scoped) (h : t.nodes = plug (fr :: outer) c)
    (hu : Underway P (fr :: outer) c) (hl : t.nodes.Everywhere (Links loose)) :
    r.1.nodes.Everywhere (Links loose) := by
  cases ht with
  | leaf hi => exact links_attach hw h hu hl (by simp [hi])
  | enter hi hb => exact links_attach hw h hu hl (by simpa [hi] using hb)
  | close _ _ ho hy ha =>
    subst ho
    exact links_attempt hy hloose hs h hu hl ha
  | cut _ _ ho _ _ hk =>
    subst ho
    rw [h] at hl
    exact links_nearestBlock hk hl
  | abandon _ _ ho hy ha _ =>
    subst ho
    exact links_attempt hy hloose hs h hu hl ha
  | refuse _ _ _ => exact hl

/-! ## Reading the scopes off the tree -/

/-- The scopes of the blocks around the first of the nodes, given with its ancestors outwards, save
those of the blocks that received the node before them. -/
def scopesAround : List Node → List ScopeId
  | n :: p :: rest => (if n.AdoptedBy p then [] else p.scope.toList) ++ scopesAround (p :: rest)
  | _ => []

/-- What the scopes recorded in a tree say about it. -/
structure LexicalScopes (t : Tree) : Prop where
  scope_isSome : ∀ id n, t.get? id = some n → (n.scope.isSome = true ↔ n.kind = .block)
  inherited_eq : ∀ id n p, t.get? id = some n → t.parent? id = some p →
    (n.inherited = p.enclosing ↔ ¬n.AdoptedBy p)
  adopted : ∀ id p, t.get? id = some p →
    (∀ n ∈ (t.below id).roots, ¬n.AdoptedBy p) ∨ ∀ n ∈ (t.below id).roots, n.AdoptedBy p
  around : ∀ id n, t.get? id = some n →
    t.scopes.around n.enclosing = n.scope.toList ++ scopesAround (t.lineage id)
  around_lexical : ∀ id n, t.get? id = some n →
    (t.lineage id).IsChain (fun n p => ¬n.AdoptedBy p) →
      t.scopes.around n.enclosing = (t.lineage id).filterMap Node.scope

theorem filterMap_scope {n : Node} {outwards : List Node}
    (h : (n :: outwards).IsChain fun n p => ¬n.AdoptedBy p) :
    (n :: outwards).filterMap Node.scope = n.scope.toList ++ scopesAround (n :: outwards) := by
  induction outwards generalizing n with
  | nil => cases hs : n.scope <;> simp [hs, scopesAround]
  | cons p rest ih =>
    obtain ⟨hnp, hrest⟩ := List.isChain_cons_cons.mp h
    rw [List.filterMap_cons, ih hrest, scopesAround, if_neg hnp]
    cases n.scope <;> rfl

theorem around_spine (hw : t.WellFormed) (hs : t.Scoped) (hl : t.nodes.Everywhere (Links loose))
    (h : t.nodes = plug (fr :: outer) c) :
    t.scopes.around fr.node.inherited = scopesAround (fr.node :: outer.map Frame.node) := by
  have hmem : fr.node ∈ t.nodes.preorder := by
    rw [h, (preorder_plug_perm _ _).mem_iff]
    simp [beside]
  induction outer generalizing fr c with
  | nil =>
    rw [hs.root _ hmem ((hw.id_eq_rootId_iff h).mpr rfl)]
    rfl
  | cons up outer ih =>
    have hup : up.node ∈ t.nodes.preorder := by
      rw [h, (preorder_plug_perm _ _).mem_iff]
      simp [beside]
    have h' : t.nodes = plug (up :: outer) (fr.left ++ .node fr.node c fr.right) := h
    have hiff := (focus_links h' hl).1.inherited_eq_iff (n := fr.node) (hs.nodes _ hup) (by simp)
    rw [List.map_cons, scopesAround, ← ih h' hup]
    split
    · next ha =>
      rw [ha.2]
      rfl
    · next ha => rw [hiff.mpr ha, (hs.nodes _ hup).around_enclosing]

theorem links_parent (hw : t.WellFormed) (hl : t.nodes.Everywhere (Links loose)) {id : NodeId}
    {p : Node} (hg : t.get? id = some n) (hp : t.parent? id = some p) :
    t.get? p.id = some p ∧ n ∈ (t.below p.id).roots ∧ Links loose p (t.below p.id) := by
  obtain ⟨left, right, outer, c, he, rfl⟩ := exists_spine_of_get? hg
  rw [parent?_focus hw.nodup he] at hp
  obtain ⟨up, hup, rfl⟩ := Option.map_eq_some_iff.mp hp
  obtain ⟨outer, rfl⟩ := List.head?_eq_some_iff.mp hup
  have he' : t.nodes = plug (up :: outer) (left ++ .node n c right) := he
  rw [get?_focus hw.nodup he', below_focus hw.nodup he']
  exact ⟨rfl, by simp, (focus_links he' hl).1⟩

theorem lexicalScopes (hw : t.WellFormed) (hs : t.Scoped) (hl : t.nodes.Everywhere (Links loose)) :
    t.LexicalScopes := by
  have hmem : ∀ {id n}, t.get? id = some n → n.InScopes t.scopes :=
    fun hg => hs.nodes _ (mem_of_get? hg)
  have haround : ∀ id n, t.get? id = some n →
      t.scopes.around n.enclosing = n.scope.toList ++ scopesAround (t.lineage id) := by
    intro id n hg
    obtain ⟨left, right, outer, c, he, rfl⟩ := exists_spine_of_get? hg
    rw [(hmem hg).around_enclosing, lineage_focus hw.nodup he]
    exact congrArg _ (around_spine hw hs hl he)
  refine ⟨fun id n hg => ?_, fun id n p hg hp => ?_, fun id p hg => ?_, haround, ?_⟩
  · rw [(hmem hg).block, Kind.isBlock_iff]
  · obtain ⟨hpg, hn, hlinks⟩ := links_parent hw hl hg hp
    exact hlinks.inherited_eq_iff (hmem hpg) hn
  · obtain ⟨left, right, outer, c, he, rfl⟩ := exists_spine_of_get? hg
    rw [below_focus hw.nodup he]
    exact (focus_links he hl).1.cases.imp_left fun hall n hn => (hmem hg).not_adoptedBy (hall n hn)
  · intro id n hg hchain
    obtain ⟨left, right, outer, c, he, rfl⟩ := exists_spine_of_get? hg
    have hlineage : t.lineage n.id = n :: outer.map Frame.node := lineage_focus hw.nodup he
    rw [haround _ _ hg, hlineage]
    exact (filterMap_scope (hlineage ▸ hchain)).symm

/-- Without blocks that take the place of a group every node stands in the scope of its parent. -/
theorem inherited_eq_enclosing (hw : t.WellFormed) (hl : t.nodes.Everywhere (Links False))
    {id : NodeId} {p : Node} (hg : t.get? id = some n) (hp : t.parent? id = some p) :
    n.inherited = p.enclosing := by
  obtain ⟨-, hn, hlinks⟩ := links_parent hw hl hg hp
  exact (hlinks.resolve_right fun h => h.1) _ (List.mem_map_of_mem hn)

theorem isChain_not_adoptedBy (hw : t.WellFormed) (hs : t.Scoped)
    (hl : t.nodes.Everywhere (Links False)) (h : t.nodes = plug (fr :: outer) c) :
    (fr.node :: outer.map Frame.node).IsChain fun n p => ¬n.AdoptedBy p := by
  induction outer generalizing fr c with
  | nil => exact .singleton _
  | cons up outer ih =>
    have h' : t.nodes = plug (up :: outer) (fr.left ++ .node fr.node c fr.right) := h
    have hup := get?_focus hw.nodup h'
    refine .cons_cons ((hs.nodes _ (mem_of_get? hup)).not_adoptedBy ?_) (ih h')
    exact inherited_eq_enclosing hw hl (get?_focus hw.nodup h) (parent?_focus hw.nodup h)

end Tree

/-! ## The trees of a builder -/

namespace Builder

/-- The focus is a group that starts with an empty block and goes on after it. -/
def promotesBlock (b : Builder) : Bool :=
  (b.tree.subtree? b.focus).any fun r => r.1.promotesBlock r.2

variable {loose : Prop}

theorem Steady.links {b : Builder} (h : b.Steady) (hloose : b.promotesBlock = true → loose)
    (token : Token) (hs : b.tree.Scoped) (hl : b.tree.nodes.Everywhere (Node.Links loose)) :
    (b.feed token).1.tree.nodes.Everywhere (Node.Links loose) := by
  rcases b.feed_tree token with he | ⟨item, he⟩
  · rw [he]
    exact hl
  · rw [he]
    obtain ⟨fr, outer, c, hnodes, hid, hu, ht⟩ := h.insert_takes item
    refine ht.links (fun hp => hloose ?_) h.wellFormed hs hnodes hu hl
    rw [promotesBlock, ← hid, Tree.subtree?_focus h.wellFormed.nodup hnodes]
    exact hp

theorem Steady.links_feedEach {b : Builder} (h : b.Steady) (hr : b.recovers = true)
    (hs : b.tree.Scoped) (hl : b.tree.nodes.Everywhere (Node.Links loose)) (tokens : List Token)
    (hloose : ∀ before, before <+: tokens → (b.feedEach before).1.promotesBlock = true → loose) :
    (b.feedEach tokens).1.tree.WellFormed ∧ (b.feedEach tokens).1.tree.Scoped ∧
      (b.feedEach tokens).1.tree.nodes.Everywhere (Node.Links loose) := by
  induction tokens generalizing b with
  | nil => exact ⟨h.wellFormed, hs, hl⟩
  | cons token rest ih =>
    have hf := h.feeds token (.inl hr)
    have hs' := (feed_edits b token).scoped h.wellFormed hs
    have hl' := h.links (hloose [] (List.nil_prefix ..)) token hs hl
    have hrest : ∀ before, before <+: rest →
        (b.feedEach (token :: before)).1.promotesBlock = true → loose :=
      fun before hb => hloose _ ((List.prefix_cons_inj token).mpr hb)
    simp only [Builder.feedEach] at hrest ⊢
    generalize b.feed token = r at hf hs' hl' hrest ⊢
    obtain ⟨b', e | _⟩ := r <;> exact ih (hf.steady h) (hf.recovers.trans hr) hs' hl' hrest

/-- Whatever a builder is fed, a node stands in the scope of its parent unless its parent is a block
that received it from a group, and the scopes around a node are those of the blocks on the way
outwards that did not receive the node before them. No node is received so unless a group starts with
an empty block at some moment and goes on after it. -/
theorem lexicalScopes_of_feedEach (sourceId : String) (tokens : List Token) :
    let t := ((start sourceId true).feedEach tokens).1.tree
    t.LexicalScopes ∧
      ((∀ before, before <+: tokens →
          ((start sourceId true).feedEach before).1.promotesBlock = false) →
        ∀ id n, t.get? id = some n → (∀ p, t.parent? id = some p → n.inherited = p.enclosing) ∧
          t.scopes.around n.enclosing = (t.lineage id).filterMap Node.scope) := by
  intro t
  have hlinks : ∀ loose : Prop, (∀ before, before <+: tokens →
      ((start sourceId true).feedEach before).1.promotesBlock = true → loose) →
      t.WellFormed ∧ t.Scoped ∧ t.nodes.Everywhere (Node.Links loose) :=
    fun loose => (steady_start sourceId true).links_feedEach rfl Tree.scoped_start
      ⟨Node.links_nil _, trivial, trivial⟩ tokens
  obtain ⟨hw, hs, hl⟩ := hlinks True fun _ _ _ => trivial
  have hlex := Tree.lexicalScopes hw hs hl
  refine ⟨hlex, fun hno id n hg => ?_⟩
  obtain ⟨-, -, hstrict⟩ := hlinks False fun before hb hp => by simp [hno before hb] at hp
  refine ⟨fun p hp => Tree.inherited_eq_enclosing hw hstrict hg hp, hlex.around_lexical id n hg ?_⟩
  obtain ⟨left, right, outer, c, he, rfl⟩ := Tree.exists_spine_of_get? hg
  have hlineage : t.lineage n.id = n :: outer.map Frame.node := Tree.lineage_focus hw.nodup he
  rw [hlineage]
  exact Tree.isChain_not_adoptedBy hw hs hstrict he

/-- The operator takes the place of the group around it and stands in the inner of the two blocks. -/
theorem scopes_of_promoted_operator :
    let tokens : List Token := [.bare "\x7b", .bare "\x7b", .bare "(", .bare "PLUS",
      .valued "ID" "a", .bare ")"]
    let t := ((start "" true).feedEach tokens).1.tree
    ∃ n p, t.get? 5 = some n ∧ t.parent? 5 = some p ∧ p.id = 4 ∧ n.inherited = p.enclosing ∧
      t.scopes.around n.enclosing = [1, 0] := by
  intro tokens t
  obtain ⟨n, hn⟩ : ∃ n, t.get? 5 = some n := ⟨_, rfl⟩
  obtain ⟨p, hp⟩ : ∃ p, t.parent? 5 = some p := ⟨_, rfl⟩
  have hno : ∀ before ∈ tokens.inits, ((start "" true).feedEach before).1.promotesBlock = false := by
    decide
  obtain ⟨hinherited, haround⟩ := (lexicalScopes_of_feedEach "" tokens).2
    (fun before hb => hno before ((List.mem_inits ..).mpr hb)) 5 n hn
  refine ⟨n, p, hn, hp, ?_, hinherited p hp, ?_⟩
  · cases hp
    rfl
  · rw [haround]
    decide

/-- An empty block takes the place of a group and receives the identifier after it. -/
theorem scopes_of_promoted_block : ¬∀ tokens id n p,
    ((start "" true).feedEach tokens).1.tree.get? id = some n →
    ((start "" true).feedEach tokens).1.tree.parent? id = some p → n.inherited = p.enclosing := by
  intro h
  let tokens : List Token := [.bare "(", .bare "\x7b", .bare "\x7d", .valued "ID" "a", .bare ")"]
  cases h tokens 3 _ _ rfl rfl

end Builder
end BracketTree
