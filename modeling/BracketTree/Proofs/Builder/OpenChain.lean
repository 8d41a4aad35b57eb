import BracketTree.Proofs.Builder.Progress

/-! What a builder that recovers keeps, whatever it is fed: the nodes from the focus out to the root are
open brackets, each the last child of its parent, and beside them stand bare items and finished trees.
So a token can be refused for few reasons only. -/

namespace BracketTree
open Forest
set_option autoImplicit false

namespace Tree

/-- An item that no bracket holds yet: entered, with nothing under it. -/
def Bare (t : Tree) (id : NodeId) : Prop :=
  ∃ n, t.get? id = some n ∧ n.kind.brace? = none ∧ n.marks.initialized = true ∧
    n.marks.setup = false ∧ t.children id = []

/-- The top of a tree that is ready to be evaluated. -/
def Finished (t : Tree) (id : NodeId) : Prop :=
  t.contains id = true ∧ ∀ j ∈ t.descendants id,
    ∃ n, t.get? j = some n ∧ n.marks.ready = true ∧ n.marks.evaluated = false

/-- An open bracket on the way from the focus to the root, which is `chain`. -/
structure OpenOn (t : Tree) (chain : List NodeId) (n : Node) : Prop where
  bracket : ∃ b, n.kind.brace? = some b ∧ b.isOpening = true
  initialized : n.marks.initialized = true
  not_setup : n.marks.setup = false
  last : ∃ p, t.parent? n.id = some p ∧ (t.children p.id).getLast? = some n.id
  inside : ∀ child ∈ t.children n.id, child ∉ chain → t.Bare child ∨ t.Finished child

structure OpenChain (t : Tree) (focus : NodeId) : Prop where
  live : t.contains focus = true
  opened : ∀ n ∈ t.lineage focus, n.id ≠ rootId → t.OpenOn ((t.lineage focus).map Node.id) n

variable {P : Node → Forest Node → Prop} {t u : Tree} {fr k up : Frame Node}
  {skipped outer around : List (Frame Node)} {c d : Forest Node} {n : Node}

/-- Seen from further out, the levels inside are one more bracket that stands last. -/
theorem Underway.outwards (h : Underway P (skipped ++ k :: around) c) :
    ∃ d, Underway P (k :: around) d := by
  induction skipped generalizing c with
  | nil => exact ⟨c, h⟩
  | cons fr skipped ih =>
    cases skipped with
    | nil => exact ⟨_, h.around.1⟩
    | cons _ _ => exact ih h.around.1

/-- Inside a bracket of the spine stand operands and, last, the next bracket of the spine. -/
theorem Underway.contents (h : Underway P (skipped ++ k :: up :: around) c) :
    ∃ d, d.Tops Node.Operand ∧
      (plug skipped c = d ∨ ∃ g ∈ skipped, ∃ e, plug skipped c = d ++ .node g.node e .nil) := by
  rcases List.eq_nil_or_concat skipped with rfl | ⟨inner, g, rfl⟩
  · exact ⟨c, h.around.2.2.2, .inl rfl⟩
  · rw [List.concat_eq_append] at h ⊢
    rw [List.append_assoc] at h
    obtain ⟨e, hg⟩ := h.outwards
    obtain ⟨hk, -, hright, -⟩ := hg.around
    refine ⟨g.left, hk.around.2.2.2, .inr ⟨g, by simp, plug inner c, ?_⟩⟩
    rw [plug_append, ← hright]
    rfl

theorem bare_or_finished (hn : t.ids.Nodup) (hs : t.subtree? n.id = some (n, c))
    (h : n.Operand c) : t.Bare n.id ∨ t.Finished n.id := by
  have hget : t.get? n.id = some n := by
    rw [get?, hs]
    rfl
  cases h with
  | bare he hb =>
    refine .inl ⟨n, hget, hb, ?_, ?_, ?_⟩
    · rw [show n.marks = _ from he]
    · rw [show n.marks = _ from he]
    · rw [children, below, hs]
      rfl
  | complete hc hall =>
    refine .inr ⟨by rw [contains, hget]; rfl, fun j hj => ?_⟩
    have hmarks : (node n c .nil).Everywhere fun m _ => m.marks = ⟨true, true, true, false⟩ :=
      ⟨hc.marks, hall.imp fun _ _ hm => hm.marks, trivial⟩
    rw [descendants, hs] at hj
    obtain ⟨m, hm, rfl⟩ := List.mem_map.mp hj
    rw [walk_eq, List.flatMap_singleton] at hm
    have hmem : m ∈ t.nodes.preorder := by
      rcases List.mem_cons.mp (by simpa using hm) with rfl | hb
      · exact mem_of_get? hget
      · have hunder : m ∈ (t.below n.id).preorder := by
          rw [below, hs]
          exact hb
        exact mem_of_mem_below hunder
    have hready := (everywhere_iff_preorder (fun m : Node => m.marks = _) _).mp hmarks m hm
    exact ⟨m, get?_of_mem hn hmem, by rw [hready]; rfl, by rw [hready]⟩

theorem Underway.openOn (hw : t.WellFormed) (h : t.nodes = plug (skipped ++ k :: up :: around) c)
    (hu : Underway P (skipped ++ k :: up :: around) c) :
    t.OpenOn ((skipped ++ k :: up :: around).map fun g => g.node.id) k.node := by
  have hn := hw.nodup
  have hk : t.nodes = plug (k :: up :: around) (plug skipped c) := by rw [h, plug_append]
  obtain ⟨e, hout⟩ := hu.outwards
  obtain ⟨-, ha, hright, -⟩ := hout.around
  obtain ⟨b, hb⟩ := ha.bracket
  have hmem : k.node ∈ t.nodes.preorder := mem_of_get? (get?_focus hn hk)
  refine ⟨⟨b, hb, hw.opening _ hmem b hb⟩, ?_, ?_, ⟨up.node, parent?_focus hn hk, ?_⟩, ?_⟩
  · rw [show k.node.marks = _ from ha.entered]
  · rw [show k.node.marks = _ from ha.entered]
  · have hup : t.nodes = plug (up :: around) (k.left ++ .node k.node (plug skipped c) k.right) := hk
    rw [children_focus hn hup, hright]
    simp
  · intro child hchild hnot
    obtain ⟨d, hd, hplug⟩ := hu.contents
    rw [children_focus hn hk] at hchild
    have hroot : child ∈ d.roots.map Node.id := by
      rcases hplug with he | ⟨g, hg, e, he⟩
      · exact he ▸ hchild
      · rw [he, roots_append, List.map_append, List.mem_append] at hchild
        rcases hchild with hchild | hchild
        · exact hchild
        · obtain rfl := List.mem_singleton.mp hchild
          exact absurd (List.mem_map_of_mem (List.mem_append_left _ hg)) hnot
    obtain ⟨m, hm, rfl⟩ := List.mem_map.mp hroot
    obtain ⟨left, e, right, rfl⟩ := exists_append_of_mem_roots hm
    have hop := (tops_iff_split _).mp hd left m e right rfl
    obtain ⟨right', hbelow⟩ : ∃ right', t.below k.node.id = left ++ .node m e right' := by
      rw [below_focus hn hk]
      rcases hplug with he | ⟨g, -, e', he⟩
      · exact ⟨right, he⟩
      · exact ⟨_, he.trans (append_assoc ..)⟩
    exact bare_or_finished hn (below_of_split hn hbelow) hop

theorem UnderwayAt.openChain {focus : NodeId} (h : t.UnderwayAt P focus) (hw : t.WellFormed) :
    t.OpenChain focus := by
  obtain ⟨fr, outer, c, hnodes, rfl, hu⟩ := h
  have hlineage := lineage_focus hw.nodup hnodes
  refine ⟨by rw [contains, get?_focus hw.nodup hnodes]; rfl, fun n hmem hne => ?_⟩
  rw [hlineage] at hmem ⊢
  obtain ⟨k, hk, rfl⟩ : ∃ k ∈ fr :: outer, k.node = n := by
    rw [← List.map_cons (f := Frame.node)] at hmem
    exact List.mem_map.mp hmem
  obtain ⟨skipped, rest, hspine⟩ := List.append_of_mem hk
  have hchain : (fr.node :: outer.map Frame.node).map Node.id =
      (skipped ++ k :: rest).map fun g => g.node.id := by
    rw [← hspine]
    simp
  rw [hspine] at hnodes hu
  cases rest with
  | nil =>
    -- the outermost level is the root
    have hroot : t.nodes = plug [k] (plug skipped c) := by rw [hnodes, plug_append]
    exact absurd ((hw.id_eq_rootId_iff hroot).mpr rfl) hne
  | cons up around =>
    rw [hchain]
    exact hu.openOn hw hnodes

end Tree

/-- The reasons for which a token can be refused. -/
inductive Refusal : TreeError → Prop where
  | unsupported (token : String) : Refusal (.shape (.unsupported token))
  | aboveRoot (name : String) : Refusal (.shape (.aboveRoot name))
  | mismatch (opening close : String) : Refusal (.shape (.mismatch opening close))
  | emptyParens : Refusal (.shape .emptyParens)
  | promotedWithChildren (name : String) (count : Nat) :
      Refusal (.shape (.promotedWithChildren name count))

namespace Tree

variable {P : Node → Forest Node → Prop} {t u : Tree} {fr : Frame Node} {outer : List (Frame Node)}
  {c : Forest Node} {item : Item} {e : TreeError}

/-- A setup that fails is always recovered. -/
theorem Finishes.not_fatal {next : NodeId} (h : Finishes t fr outer c next (u, .error (.fatal e))) :
    False := by
  cases h

theorem refusal_of_close (hw : t.WellFormed) (h : t.nodes = plug (fr :: outer) c)
    (ho : outer ≠ [] → fr.node.Awaits) {b : Brace}
    (hclose : t.close fr.node item b = (u, .error (.fatal e))) : Refusal e := by
  cases outer with
  | nil =>
    rw [close, parent?_focus hw.nodup h] at hclose
    cases hclose
    exact .aboveRoot _
  | cons up outer =>
    have hp : t.parent? fr.node.id = some up.node := parent?_focus hw.nodup h
    have hget := get?_focus hw.nodup h
    obtain ⟨opening, hk⟩ := (ho (by simp)).bracket
    have hside := hw.opening _ (mem_of_get? hget) opening hk
    rw [close, hp, hk] at hclose
    simp only [Option.filter_some, hside, if_true] at hclose
    split at hclose
    · cases hclose
      exact .mismatch ..
    split at hclose
    · rcases c with _ | ⟨first, _ | _, rest⟩
      · rw [elide_nil hw.nodup h] at hclose
        cases hclose
        exact .emptyParens
      · rw [elide_node hw.nodup h] at hclose
        have hf := finish_elided hw h up.node.id
        dsimp only at hclose
        rw [hclose] at hf
        exact hf.not_fatal.elim
      · rw [elide_of_children hw.nodup h (by simp)] at hclose
        cases hclose
        exact .promotedWithChildren ..
    · have hf := finish_focus hw h up.node.id
      rw [hclose] at hf
      exact hf.not_fatal.elim

theorem refusal_of_insert (hw : t.WellFormed) (h : t.nodes = plug (fr :: outer) c)
    (hu : Underway P (fr :: outer) c)
    (hins : t.insert fr.node.id item = (u, .error (.fatal e))) : Refusal e := by
  obtain ⟨b, -, -, hclose⟩ := closing_of_insert_error (get?_focus hw.nodup h) hins
  refine refusal_of_close hw h (fun hne => ?_) hclose
  cases outer with
  | nil => exact absurd rfl hne
  | cons up outer => exact hu.around.2.1

end Tree

namespace Builder

variable {b : Builder} {token : Token} {e : TreeError}

theorem Steady.refusal (h : b.Steady) (hr : b.recovers = true)
    (he : (b.feed token).2 = .error e) : Refusal e := by
  cases hi : Item.ofToken? token with
  | error x =>
    rw [feed_of_unknown hi] at he
    cases he
    rw [Item.ofToken?] at hi
    split at hi
    · cases hi
    · cases hi
      exact .unsupported _
  | ok item =>
    by_cases hp : 0 < b.pending
    · rw [feed_of_pending hi hp] at he
      cases he
    · have hzero : b.pending = 0 := Nat.eq_zero_of_not_pos hp
      obtain ⟨fr, outer, c, hnodes, hid, hu⟩ := h.underway
      rcases hins : b.tree.insert b.focus item with ⟨u, (x | ⟨x, id⟩) | id⟩
      · rw [feed_of_refused hi hzero hins] at he
        cases he
        rw [← hid] at hins
        exact Tree.refusal_of_insert h.wellFormed hnodes hu hins
      · rw [feed_of_recovered hi hzero hr hins] at he
        cases he
      · rw [feed_of_accepted hi hzero hins] at he
        cases he

/-- A builder that recovers, whatever it was fed and however often it refused a token: the open brackets
are the way from the focus to the root, and a token is refused for one of the reasons listed. -/
theorem openChain_of_feedEach (sourceId : String) (tokens : List Token) :
    let b := ((start sourceId true).feedEach tokens).1
    b.tree.OpenChain b.focus ∧ ∀ token e, (b.feed token).2 = .error e → Refusal e := by
  intro b
  obtain ⟨hb, hr⟩ : b.Steady ∧ b.recovers = true := (steady_start sourceId true).feedEach rfl tokens
  exact ⟨hb.underway.openChain hb.wellFormed, fun _ _ he => hb.refusal hr he⟩

/-- Two brackets are open, and the inner one holds a bare item and a finished command. -/
theorem openChain_in_block :
    let b := ((start "" true).feedEach [.bare "\x7b", .bare "[", .bare "PLUS", .bare "[", .bare "]",
      .bare ")"]).1
    b.focus = 2 ∧ b.tree.children 2 = [3, 4] ∧ (b.tree.Bare 3 ∨ b.tree.Finished 3) ∧
      (b.tree.Bare 4 ∨ b.tree.Finished 4) ∧ Refusal (.shape (.mismatch "[" ")")) := by
  intro b
  obtain ⟨hchain, hrefusal⟩ := openChain_of_feedEach "" [.bare "\x7b", .bare "[", .bare "PLUS",
    .bare "[", .bare "]", .bare ")"]
  have hids : (b.tree.lineage b.focus).map Node.id = [2, 1, 0] := by decide
  obtain ⟨n, hn, hid⟩ : ∃ n ∈ b.tree.lineage b.focus, n.id = 2 :=
    List.mem_map.mp (hids ▸ List.mem_cons_self)
  have hopen := hchain.opened n hn (by rw [hid]; decide)
  have hinside : ∀ child ∈ b.tree.children 2, child ∉ [2, 1, 0] →
      b.tree.Bare child ∨ b.tree.Finished child := by
    intro child hchild hnot
    rw [← hid] at hchild
    rw [← hids] at hnot
    exact hopen.inside child hchild hnot
  exact ⟨by decide, by decide, hinside 3 (by decide) (by decide),
    hinside 4 (by decide) (by decide), hrefusal (.bare ")") _ (by decide)⟩

end Builder
end BracketTree
