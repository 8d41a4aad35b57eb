import BracketTree.Proofs.Builder.Nesting

/-! The marks of the nodes after an input that leaves no warning. A bracket that closes sets up itself and
what stands in it, so at the end a node is not set up only if it is no bracket and was fed when no bracket
was open. -/

namespace BracketTree
open Forest
set_option autoImplicit false

/-- The token that a node was made from. -/
def Node.token (n : Node) : Token := ⟨n.name, n.value⟩

theorem Token.eq_of_item {t : Token} {item : Item} (h : Item.ofToken? t = .ok item) :
    t = ⟨item.name, item.value⟩ := by
  rw [Item.ofToken?] at h
  cases hk : Kind.ofTag? t.name with
  | none => simp [hk] at h
  | some kind =>
    simp only [hk, Except.ok.injEq] at h
    rw [← h]
    rfl

namespace Tree

/-- The ids and the tokens of the top nodes that are not set up. -/
def unsetTops (f : Forest Node) : List (NodeId × Token) :=
  (f.roots.filter fun n => !n.marks.setup).map fun n => (n.id, n.token)

/-- What stands under the root beside the bracket that is open there. -/
def besideOpen : List (Frame Node) → Forest Node → Forest Node
  | fr :: up :: outer, _ => besideOpen (up :: outer) fr.left
  | _, c => c

variable {P : Node → Forest Node → Prop} {t u : Tree} {fr : Frame Node} {outer : List (Frame Node)}
  {c f : Forest Node} {n : Node} {item : Item} {id : NodeId}

theorem unsetTops_append (f g : Forest Node) : unsetTops (f ++ g) = unsetTops f ++ unsetTops g := by
  simp only [unsetTops, roots_append, List.filter_append, List.map_append]

theorem unsetTops_node (n : Node) (d : Forest Node) :
    unsetTops (.node n d .nil) = if n.marks.setup then [] else [(n.id, n.token)] := by
  cases hs : n.marks.setup <;> simp [unsetTops, hs]

theorem unsetTops_besideOpen_snoc (outer : List (Frame Node)) (c d : Forest Node) (n : Node) :
    unsetTops (besideOpen (fr :: outer) (c ++ .node n d .nil)) =
      unsetTops (besideOpen (fr :: outer) c) ++
        if outer = [] ∧ n.marks.setup = false then [(n.id, n.token)] else [] := by
  cases outer with
  | nil =>
    rw [show besideOpen [fr] (c ++ .node n d .nil) = c ++ .node n d .nil from rfl,
      show besideOpen [fr] c = c from rfl, unsetTops_append, unsetTops_node]
    cases n.marks.setup <;> simp
  | cons up outer => simp [besideOpen]

theorem mem_unsetTops {r : NodeId × Token} (h : r ∈ unsetTops f) :
    ∃ n ∈ f.roots, n.marks.setup = false ∧ r = (n.id, n.token) := by
  obtain ⟨n, hn, rfl⟩ := List.mem_map.mp h
  obtain ⟨hroot, hs⟩ := List.mem_filter.mp hn
  exact ⟨n, hroot, by simpa using hs, rfl⟩

theorem mem_unsetTops_of_root (hn : n ∈ f.roots) (hs : n.marks.setup = false) :
    (n.id, n.token) ∈ unsetTops f :=
  List.mem_map_of_mem (List.mem_filter.mpr ⟨hn, by simp [hs]⟩)

/-- An insertion that succeeds leaves a node right under the root not set up only if the item is no
bracket and no bracket is open. -/
theorem Takes.unsetTops (ht : Takes t fr outer c item (u, .ok id)) (hw : t.WellFormed)
    (h : t.nodes = plug (fr :: outer) c) (hu : Underway P (fr :: outer) c) :
    ∃ fr' outer' c', u.nodes = plug (fr' :: outer') c' ∧ fr'.node.id = id ∧
      Tree.unsetTops (besideOpen (fr' :: outer') c') = Tree.unsetTops (besideOpen (fr :: outer) c) ++
        if outer = [] ∧ item.kind.brace? = none then [(t.nextId, ⟨item.name, item.value⟩)] else [] := by
  cases ht with
  | leaf hi =>
    refine ⟨fr, outer, _, attach_focus hw h (by simp [hi]), rfl, ?_⟩
    have hunset : (t.entrant fr.node item).marks.setup = false := rfl
    rw [Forest.leaf, unsetTops_besideOpen_snoc, hunset, hi]
    simp only [and_true]
    rfl
  | enter hi hb =>
    refine ⟨⟨c, t.entrant fr.node item, .nil⟩, fr :: outer, .nil,
      attach_focus hw h (by simpa [hi] using hb), rfl, ?_⟩
    simp [hi, besideOpen]
  | @close b up around n m d e hi hb hs hy ha =>
    subst hs
    obtain ⟨-, hawaits, hright, hc⟩ := hu.around
    obtain ⟨hn, hd⟩ := hy.closing hawaits hc
    have hset : m.marks.setup = true := by rw [(hn.complete hd ha).1.marks]
    -- what closed stands right under the root only if it was the outermost, and it is set up
    refine ⟨up, around, fr.left ++ .node m e fr.right, rfl, rfl, ?_⟩
    rw [hright, unsetTops_besideOpen_snoc, hset, hi]
    simp [besideOpen]

end Tree

namespace Builder
open BracketTree.Tree

/-- The id and the token of the node that a token becomes directly under the root, if it is no bracket
and no bracket is open. -/
def looseAt (b : Builder) (token : Token) : List (NodeId × Token) :=
  if b.focus = rootId ∧ b.pending = 0 ∧ token.brace? = none then [(b.tree.nextId, token)] else []

/-- The tokens of an input that are no brackets and are fed at the root, with the ids of their nodes. -/
def loose (b : Builder) : List Token → List (NodeId × Token)
  | [] => []
  | token :: rest => b.looseAt token ++ (b.feed token).1.loose rest

/-- The nodes right under the root that are not set up, the open bracket apart, are those of `tops`. -/
def Unset (b : Builder) (tops : List (NodeId × Token)) : Prop :=
  ∃ fr outer c, b.tree.nodes = plug (fr :: outer) c ∧ fr.node.id = b.focus ∧
    unsetTops (besideOpen (fr :: outer) c) = tops

variable {b v : Builder} {token : Token} {tokens : List Token} {tops : List (NodeId × Token)}

theorem unset_start (sourceId : String) (recovers : Bool) : (start sourceId recovers).Unset [] :=
  ⟨⟨.nil, _, .nil⟩, [], .nil, rfl, rfl, rfl⟩

theorem Unset.feed (h : b.Unset tops) (hs : b.Steady) (hf : b.feed token = (v, .ok ()))
    (hr : v.report = []) : v.Unset (tops ++ b.looseAt token) := by
  obtain ⟨fr, outer, c, hnodes, hid, htops⟩ := h
  rw [looseAt]
  cases hs.feeds_of_ok hf with
  | passed _ hp =>
    refine ⟨fr, outer, c, ?_, ?_, ?_⟩
    · rw [discard_tree]
      exact hnodes
    · rw [discard_focus]
      exact hid
    · rw [htops, if_neg (by omega), List.append_nil]
  | @taken item u id hi hzero hins =>
    have ht := hs.takes hnodes hid item
    rw [hins] at ht
    obtain ⟨fr', outer', c', hnodes', hid', htops'⟩ :=
      ht.unsetTops hs.wellFormed hnodes (hs.underway_focus hnodes hid)
    refine ⟨fr', outer', c', hnodes', hid', ?_⟩
    have hroot : b.focus = rootId ↔ outer = [] := by
      rw [← hid]
      exact hs.wellFormed.id_eq_rootId_iff hnodes
    rw [htops', htops, Token.brace?_of_item hi, ← Token.eq_of_item hi]
    simp only [hroot, hzero, true_and]
  | givenUp _ _ _ => simp at hr

theorem Unset.feedAll (h : b.Unset tops) (hs : b.Steady) (hf : b.feedAll tokens = (v, .ok ()))
    (hr : v.report = []) : v.Unset (tops ++ b.loose tokens) := by
  induction tokens generalizing b tops with
  | nil =>
    cases hf
    rw [loose, List.append_nil]
    exact h
  | cons token rest ih =>
    obtain ⟨w, hw, hrest⟩ := feedAll_cons_eq_ok_iff.mp hf
    have hsw := hs.of_feed hw
    have hquiet := (report_of_feedAll hsw hrest hr).1
    have hall := ih (h.feed hs hw hquiet) hsw hrest
    rw [loose, hw, ← List.append_assoc]
    exact hall

theorem Unset.at_root (h : b.Unset tops) (hw : b.tree.WellFormed) (hf : b.focus = rootId) :
    unsetTops (b.tree.below rootId) = tops := by
  obtain ⟨fr, outer, c, hnodes, hid, htops⟩ := h
  have hroot := hid.trans hf
  obtain rfl := (hw.id_eq_rootId_iff hnodes).mp hroot
  rw [← hroot, below_focus hw.nodup hnodes]
  exact htops

end Builder

namespace Built
open Node

variable {built : Built}

/-- A node of a clean tree is complete, or it is a top node that is not set up. -/
theorem Settled.ready_or_loose (h : built.Settled) (hr : built.report = []) {id : NodeId} {n : Node}
    (hn : built.tree.get? id = some n) (hid : id ≠ Tree.rootId) :
    n.marks = ⟨true, true, true, false⟩ ∨
      (id, n.token) ∈ Tree.unsetTops (built.tree.below Tree.rootId) := by
  obtain rfl := Tree.id_of_get? hn
  have hbelow : n ∈ (built.tree.below Tree.rootId).preorder :=
    (h.wellFormed.root_or_mem_below (Tree.mem_of_get? hn)).resolve_left fun hroot => hid hroot.1
  obtain ⟨left, m, c, right, he, hm⟩ := exists_append_of_mem_preorder hbelow
  simp only [preorder_node, preorder_nil, List.append_nil, List.mem_cons] at hm
  cases (tops_iff_split _).mp (h.clean hr) left m c right he with
  | bare hent _ =>
    obtain rfl : n = m := by simpa using hm
    refine .inr (Tree.mem_unsetTops_of_root ?_ (by rw [show n.marks = _ from hent]))
    rw [he]
    simp
  | complete hc hall =>
    left
    rcases hm with rfl | hm
    · exact hc.marks
    · have hmarks := hall.imp fun k _ hk => hk.marks
      exact (everywhere_iff_preorder (fun k => k.marks = ⟨true, true, true, false⟩) _).mp hmarks n hm

theorem Settled.loose_leaf (h : built.Settled) (hr : built.report = []) {r : NodeId × Token}
    (hmem : r ∈ Tree.unsetTops (built.tree.below Tree.rootId)) :
    r.1 ∈ built.tree.children Tree.rootId ∧ built.tree.children r.1 = [] ∧
      ∃ n, built.tree.get? r.1 = some n ∧ n.token = r.2 ∧ n.marks = ⟨true, false, false, false⟩ := by
  obtain ⟨n, hroot, hs, rfl⟩ := Tree.mem_unsetTops hmem
  obtain ⟨left, c, right, he⟩ := exists_append_of_mem_roots hroot
  have hsub := Tree.below_of_split h.wellFormed.nodup he
  cases (tops_iff_split _).mp (h.clean hr) left n c right he with
  | bare hent _ =>
    refine ⟨List.mem_map_of_mem hroot, ?_, n, ?_, rfl, hent⟩
    · rw [Tree.children, Tree.below, hsub]
      rfl
    · rw [Tree.get?, hsub]
      rfl
  | complete hc _ =>
    rw [hc.marks] at hs
    cases hs

end Built

/-- After an input that leaves no warning every node under the root is ready and not evaluated, except
the tokens that are no brackets and were fed at the root: these have no children and are initialized and
nothing more. -/
theorem marks_of_clean_build {sourceId : String} {recovers : Bool} {tokens : List Token} {built : Built}
    (h : build sourceId recovers tokens = .ok built) (hr : built.report = []) :
    let loose := (Builder.start sourceId recovers).loose tokens
    (∀ id n, built.tree.get? id = some n → id ≠ Tree.rootId → id ∉ loose.map Prod.fst →
      n.marks = ⟨true, true, true, false⟩) ∧
    ∀ r ∈ loose, r.1 ∈ built.tree.children Tree.rootId ∧ built.tree.children r.1 = [] ∧
      ∃ n, built.tree.get? r.1 = some n ∧ n.token = r.2 ∧ n.marks = ⟨true, false, false, false⟩ := by
  intro loose
  have hsettled := settled_of_build h
  obtain ⟨b, hfeed, hfinish⟩ := build_eq_ok_iff.mp h
  obtain ⟨hend, rfl⟩ := Builder.finish_eq_ok_iff.mp hfinish
  have hunset := (Builder.unset_start sourceId recovers).feedAll
    (Builder.steady_start sourceId recovers) hfeed hr
  have htops : Tree.unsetTops (b.tree.below Tree.rootId) = loose :=
    hunset.at_root hsettled.wellFormed hend.1
  refine ⟨?_, ?_⟩
  · intro id n hn hid hnot
    rcases hsettled.ready_or_loose hr hn hid with hmarks | hmem
    · exact hmarks
    · rw [htops] at hmem
      exact absurd (List.mem_map_of_mem hmem) hnot
  · intro r hmem
    rw [← htops] at hmem
    exact hsettled.loose_leaf hr hmem

/-- The first operator is fed at the root and stays as it is. The second takes the place of its group and
is ready with its operand. -/
theorem marks_of_clean_sum :
    let tokens : List Token := [.bare "PLUS", .bare "(", .bare "PLUS", .valued "ID" "x", .bare ")"]
    ∃ built n m, build "" true tokens = .ok built ∧ built.report = [] ∧
      (Builder.start "" true).loose tokens = [(1, .bare "PLUS")] ∧
      built.tree.children Tree.rootId = [1, 3] ∧
      built.tree.get? 1 = some n ∧ n.marks = ⟨true, false, false, false⟩ ∧
      built.tree.get? 4 = some m ∧ m.marks = ⟨true, true, true, false⟩ := by
  intro tokens
  have hloose : (Builder.start "" true).loose tokens = [(1, .bare "PLUS")] := by decide
  obtain ⟨built, h⟩ : ∃ built, build "" true tokens = .ok built := ⟨_, rfl⟩
  have hr : built.report = [] := by
    cases h
    rfl
  obtain ⟨hready, hleaf⟩ := marks_of_clean_build h hr
  rw [hloose] at hready hleaf
  obtain ⟨-, -, n, hn, -, hmarks⟩ := hleaf (1, .bare "PLUS") (by simp)
  obtain ⟨m, hm⟩ : ∃ m, built.tree.get? 4 = some m := by
    cases h
    exact ⟨_, rfl⟩
  have hchildren : built.tree.children Tree.rootId = [1, 3] := by
    cases h
    rfl
  exact ⟨built, n, m, h, hr, hloose, hchildren, hn, hmarks, hm, hready 4 m hm (by decide) (by simp)⟩

end BracketTree
