import BracketTree.Proofs.Builder.Commands
import BracketTree.Proofs.Tree.Calls

/-! Grouping brackets in what a builder makes. A group that closes is elided, so none is ever set up. A
group that was given up with its statement stays in a statement that is not set up, and only where work
went on at the root. Evaluation passes over such a statement, so it calls nobody on a group. -/

namespace BracketTree
open Forest
set_option autoImplicit false

namespace Node

/-- A bracket that only groups. -/
def Grouping (n : Node) : Prop := n.kind = .brace ⟨.round, .opening⟩

/-- Set up or no bracket, over nodes that are set up. -/
structure Whole (n : Node) (below : Forest Node) : Prop where
  top : n.kind.brace? = none ∨ n.marks.setup = true
  below : below.Everywhere fun m _ => m.marks.setup = true

/-- The groups of a forest are not set up. -/
def GroupsUnset (f : Forest Node) : Prop := ∀ n ∈ f.preorder, n.Grouping → n.marks.setup = false

variable {n m : Node} {c d f g : Forest Node} {r : Except TreeError Unit}

theorem Grouping.brace? (h : n.Grouping) : n.kind.brace? = some ⟨.round, .opening⟩ := by
  rw [show n.kind = _ from h]
  rfl

theorem Grouping.of_toItem (h : n.Grouping) (he : m.toItem = n.toItem) : m.Grouping :=
  (congrArg Item.kind he).trans h

theorem GroupsUnset.mono (h : GroupsUnset f) (hsub : g.preorder ⊆ f.preorder) : GroupsUnset g :=
  fun n hn => h n (hsub hn)

theorem Operand.whole (h : Operand n c) : n.Whole c := by
  cases h with
  | bare _ hb => exact ⟨.inl hb, trivial⟩
  | complete hn hc => exact ⟨.inr (by rw [hn.marks]), hc.imp fun m _ hm => by rw [hm.marks]⟩

theorem Whole.attempt (h : n.Whole c) : (n.attempt c).1.Whole c := by
  refine ⟨?_, h.below⟩
  rcases h.top with hb | hs
  · left
    rcases n.attempt_eq c with he | he | he <;> rw [he] <;> exact hb
  · right
    rw [attempt_of_setup hs]
    exact hs

theorem no_group_of_whole (h : f.Tops Whole) (hg : GroupsUnset f) : ∀ m ∈ f.preorder, ¬m.Grouping := by
  induction f with
  | nil => simp
  | node n c rest _ ih =>
    obtain ⟨hn, hrest⟩ := h
    intro m hm hgroup
    have hunset := hg m hm hgroup
    simp only [preorder_node, List.mem_cons, List.mem_append] at hm
    rcases hm with rfl | hm | hm
    · rcases hn.top with hb | hs
      · rw [hgroup.brace?] at hb
        cases hb
      · rw [hs] at hunset
        cases hunset
    · rw [(everywhere_iff_preorder _ _).mp hn.below m hm] at hunset
      cases hunset
    · exact ih hrest (hg.mono (by simp)) m hm hgroup

/-! ## Statements -/

theorem Statement.whole (h : Statement n c) (hs : n.marks.setup = true) : c.Tops Whole := by
  cases h with
  | operand ho =>
    refine (everywhere_iff_tops _).mp ho.below |>.imp fun m e hm => ?_
    exact ⟨.inr (by rw [hm.1.marks]), hm.2.imp fun k _ hk => by rw [hk.marks]⟩
  | unclosed ha =>
    rw [show n.marks = _ from ha.entered] at hs
    cases hs
  | failed _ hc ha =>
    have hd := attemptAll_tops (fun m e hm => ⟨Operand.whole hm, hm.whole.attempt⟩) hc
    rw [← attemptWith_below, ha] at hd
    exact hd

/-- A statement that is set up holds no group. -/
theorem Statement.no_group (h : Statement n c) (hg : GroupsUnset (node n c nil))
    (hs : n.marks.setup = true) : ∀ m ∈ (node n c nil).preorder, ¬m.Grouping := by
  have hbelow := no_group_of_whole (h.whole hs) (hg.mono (by simp))
  intro m hm hgroup
  simp only [preorder_node, preorder_nil, List.append_nil, List.mem_cons] at hm
  rcases hm with rfl | hm
  · rw [hg m (by simp) hgroup] at hs
    cases hs
  · exact hbelow m hm hgroup

/-! ## Setups keep what the nodes hold -/

theorem attempt_toItem (n : Node) (c : Forest Node) : (n.attempt c).1.toItem = n.toItem := by
  rcases n.attempt_eq c with h | h | h <;> rw [h] <;> rfl

theorem attemptAll_toItem (c : Forest Node) :
    (attemptAll c).1.map Node.toItem = c.map Node.toItem := by
  induction c with
  | nil => rfl
  | node n c rest _ ih =>
    have hn := attempt_toItem n c
    rw [attemptAll]
    generalize n.attempt c = r at hn ⊢
    obtain ⟨m, e | _⟩ := r
    · rw [map_node, map_node, show m.toItem = _ from hn]
    · rw [map_node, map_node, show m.toItem = _ from hn, ih]

theorem attemptWith_toItem (n : Node) (c : Forest Node) :
    (n.attemptWith c).1.1.toItem = n.toItem := by
  rw [attemptWith]
  rcases attemptAll c with ⟨d, x | _⟩
  · rfl
  · exact attempt_toItem n d

theorem no_group_of_attemptWith (hn : ¬n.Grouping) (hc : ∀ m ∈ c.preorder, ¬m.Grouping)
    (h : n.attemptWith c = ((m, d), r)) : ∀ k ∈ (node m d nil).preorder, ¬k.Grouping := by
  have htop : m.toItem = n.toItem := by
    rw [← attemptWith_toItem n c, h]
  have hbelow : d.map Node.toItem = c.map Node.toItem := by
    rw [← attemptAll_toItem c, ← attemptWith_below, h]
  intro k hk hgroup
  simp only [preorder_node, preorder_nil, List.append_nil, List.mem_cons] at hk
  rcases hk with rfl | hk
  · exact hn (hgroup.of_toItem htop.symm)
  · have hitem : k.toItem ∈ (c.map Node.toItem).preorder := by
      rw [← hbelow, preorder_map]
      exact List.mem_map_of_mem hk
    rw [preorder_map] at hitem
    obtain ⟨k', hk', he⟩ := List.mem_map.mp hitem
    exact hc k' hk' (hgroup.of_toItem he)

end Node

/-! ## Insertion sets up no group -/

namespace Tree
open Node

variable {P : Node → Forest Node → Prop} {t u : Tree} {fr : Frame Node} {outer : List (Frame Node)}
  {c d f : Forest Node} {n : Node} {closing : Brace} {item : Item} {id : NodeId} {x : TreeError}

theorem Yields.no_group (h : Yields fr.node c closing n d) (hc : ∀ m ∈ c.preorder, ¬m.Grouping) :
    ¬n.Grouping ∧ ∀ m ∈ d.preorder, ¬m.Grouping := by
  cases h with
  | keep ho _ hgroup =>
    refine ⟨fun hn => ?_, hc⟩
    cases ho.symm.trans hn.brace?
    cases hgroup
  | elide _ _ _ he =>
    subst he
    exact ⟨hc n (by simp), fun m hm => hc m (by simp [hm])⟩

theorem nearestBlock_subset {left kept : Forest Node} {block : Frame Node} {rest : List (Frame Node)}
    (h : nearestBlock left outer = some (kept, block, rest)) (f : Forest Node) :
    (plug (block :: rest) kept).preorder ⊆ (plug outer (left ++ f)).preorder := by
  induction outer generalizing left f with
  | nil => cases h
  | cons up outer ih =>
    rw [nearestBlock] at h
    split at h
    · cases h
      intro m hm
      rw [(preorder_plug_perm _ _).mem_iff, List.mem_append] at hm ⊢
      rw [preorder_append, List.mem_append]
      exact hm.imp_left .inl
    · exact ih h _

/-- What closes holds no group, and what stands around it stays. -/
theorem groupsUnset_of_yields {m : Node} {e : Forest Node} {r : Except TreeError Unit}
    (ht : t.nodes = plug (fr :: outer) c) (hc : c.Tops Operand) (hg : GroupsUnset t.nodes)
    (hy : Yields fr.node c closing n d) (ha : n.attemptWith d = ((m, e), r)) :
    GroupsUnset (plug (⟨fr.left, m, fr.right⟩ :: outer) e) := by
  rw [ht] at hg
  have hin : GroupsUnset c := hg.mono fun k hk => by
    rw [(preorder_plug_perm _ _).mem_iff]
    exact List.mem_append_left _ hk
  obtain ⟨hn, hd⟩ := hy.no_group (no_group_of_whole (hc.imp fun _ _ ho => ho.whole) hin)
  have hno := no_group_of_attemptWith hn hd ha
  intro k hk hgroup
  rw [(preorder_plug_perm _ _).mem_iff, beside] at hk
  simp only [List.mem_append, List.mem_cons] at hk
  rcases hk with hk | rfl | hk
  · exact absurd hgroup (hno k (by simp [hk]))
  · exact absurd hgroup (hno k (by simp))
  · refine hg k ?_ hgroup
    rw [(preorder_plug_perm _ _).mem_iff, beside]
    simp only [List.mem_append, List.mem_cons]
    exact .inr (.inr hk)

theorem Takes.groupsUnset {r : Tree × Except InsertError NodeId} (ht : Takes t fr outer c item r)
    (hw : t.WellFormed) (h : t.nodes = plug (fr :: outer) c) (hu : Underway P (fr :: outer) c)
    (hg : GroupsUnset t.nodes) : GroupsUnset r.1.nodes := by
  have hattach : (∀ b, item.kind.brace? = some b → b.isOpening = true) →
      GroupsUnset (t.attach fr.node item).nodes := by
    intro hitem k hk
    rcases mem_attach hw (get?_focus hw.nodup h) hitem hk with hold | rfl
    · exact hg k hold
    · exact fun _ => rfl
  cases ht with
  | leaf hi => exact hattach (by simp [hi])
  | enter hi hb => exact hattach (by simpa [hi] using hb)
  | close _ _ hs hy ha =>
    subst hs
    exact groupsUnset_of_yields h hu.around.2.2.2 hg hy ha
  | abandon _ _ hs hy ha _ =>
    subst hs
    exact groupsUnset_of_yields h hu.around.2.2.2 hg hy ha
  | cut _ _ _ _ _ hk =>
    refine hg.mono ?_
    rw [h]
    exact nearestBlock_subset hk _
  | refuse _ _ _ => exact hg

/-- A statement that is given up in a block is gone; so the tree stays under construction. -/
theorem Takes.resumed (ht : Takes t fr outer c item (u, .error (.recovered x id)))
    (hu : Underway P (fr :: outer) c) (hne : id ≠ rootId) : UnderwayAt P u id := by
  cases ht with
  | @cut _ up around _ _ _ _ kept _ block rest _ _ hs _ _ hk =>
    subst hs
    exact ⟨block, rest, kept, rfl, rfl, hu.around.1.nearestBlock hk⟩
  | abandon => exact absurd rfl hne

end Tree

/-! ## Evaluation -/

/-- The operations that call an evaluator. -/
def Operation.evaluates : Operation → Bool
  | .evaluateNode _ _ _ => true
  | .evaluateProgram _ _ => true
  | _ => false

namespace Tree
open Node

variable {t u : Tree} {calls : List HookCall} {op : Operation} {ops : List Operation}

theorem groupsUnset_evaluate (hg : GroupsUnset t.nodes) (id : NodeId) :
    GroupsUnset (t.modify id .markEvaluated).nodes := by
  intro m hm hgroup
  rw [modify, preorder_map] at hm
  obtain ⟨n, hn, rfl⟩ := List.mem_map.mp hm
  have hunset := hg n hn
  split at hgroup
  · next hid =>
    rw [if_pos hid]
    exact hunset hgroup
  · next hid =>
    rw [if_neg hid]
    exact hunset hgroup

theorem Calls.groupsUnset (h : Calls t calls u) (hg : GroupsUnset t.nodes) :
    GroupsUnset u.nodes ∧ ∀ call ∈ calls, GroupsUnset call.tree.nodes := by
  induction h with
  | nil => exact ⟨hg, by simp⟩
  | refused _ _ ih =>
    obtain ⟨hu, hcalls⟩ := ih
    exact ⟨hu, by simpa [or_imp, forall_and] using ⟨hcalls, hu⟩⟩
  | accepted _ _ ih =>
    obtain ⟨hu, hcalls⟩ := ih
    exact ⟨groupsUnset_evaluate hu _, by simpa [or_imp, forall_and] using ⟨hcalls, hu⟩⟩

/-- An evaluation sets up nothing, so no group either. -/
theorem groupsUnset_apply (hw : t.WellFormed) (hg : GroupsUnset t.nodes) (hop : op.evaluates = true) :
    GroupsUnset (t.apply op).1.nodes := by
  cases op with
  | evaluateNode ev id s => exact ((callsOf_evaluateNode hw.nodup ev id s).groupsUnset hg).1
  | evaluateProgram ev s =>
    obtain ⟨u, hcalls, hu⟩ := callsOf_evaluateProgram hw.nodup ev s
    have hgu := (hcalls.groupsUnset hg).1
    rw [apply]
    rcases hu with hu | hu
    · rwa [hu]
    · rw [hu]
      exact groupsUnset_evaluate hgu _
  | insert | initNode | setupNode | setupAsParent | removeFrom | recover => cases hop

/-- Only nodes that are set up are called, and groups are not. -/
theorem no_group_called (hw : t.WellFormed) (hg : GroupsUnset t.nodes)
    (hops : ∀ op ∈ ops, op.evaluates = true) :
    ∀ call ∈ t.history ops, ∃ n, call.tree.get? call.node = some n ∧ ¬n.Grouping := by
  induction ops generalizing t with
  | nil => simp [history]
  | cons op ops ih =>
    intro call hcall
    rw [history, List.mem_append] at hcall
    rcases hcall with hnow | hlater
    · obtain ⟨u, hcalls, -⟩ := callsOf_apply hw op
      obtain ⟨n, hn, hready, -⟩ := (hcalls.due call hnow).pending
      refine ⟨n, hn, fun hgroup => ?_⟩
      simp only [Marks.ready, Bool.and_eq_true] at hready
      have hunset := (hcalls.groupsUnset hg).2 call hnow n (mem_of_get? hn) hgroup
      rw [hready.1.2] at hunset
      cases hunset
    · have hstep := groupsUnset_apply hw hg (hops op List.mem_cons_self)
      exact ih ((apply_edits hw op).wellFormed hw) hstep
        (fun op' hop' => hops op' (List.mem_cons_of_mem _ hop')) call hlater

end Tree

/-! ## Builders -/

namespace Builder
open Node

variable {b v : Builder} {token : Token} {tokens : List Token}

theorem Steady.groupsUnset_feed (h : b.Steady) (hg : GroupsUnset b.tree.nodes) (token : Token) :
    GroupsUnset (b.feed token).1.tree.nodes := by
  rcases b.feed_tree token with he | ⟨item, he⟩
  · rwa [he]
  · obtain ⟨fr, outer, c, hnodes, -, hu, ht⟩ := h.insert_takes item
    rw [he]
    exact ht.groupsUnset h.wellFormed hnodes hu hg

theorem Steady.groupsUnset_of_feedAll (h : b.Steady) (hg : GroupsUnset b.tree.nodes)
    (hf : b.feedAll tokens = (v, .ok ())) : GroupsUnset v.tree.nodes := by
  induction tokens generalizing b with
  | nil =>
    cases hf
    exact hg
  | cons token rest ih =>
    obtain ⟨w, hw, hrest⟩ := feedAll_cons_eq_ok_iff.mp hf
    have hstep := h.groupsUnset_feed hg token
    rw [hw] at hstep
    exact ih (h.of_feed hw) hstep hrest

/-- As long as no failure makes work go on at the root, only operands stand under it. -/
theorem Steady.operands_of_feed (h : b.Steady) (ho : Tree.UnderwayAt Operand b.tree b.focus)
    (hf : b.feed token = (v, .ok ())) (hn : b.falls token = false) :
    Tree.UnderwayAt Operand v.tree v.focus := by
  obtain ⟨fr, outer, c, hnodes, hid, hu⟩ := ho
  rw [falls_eq hf] at hn
  cases h.feeds_of_ok hf with
  | passed _ _ =>
    rw [discard_tree, discard_focus]
    exact ⟨fr, outer, c, hnodes, hid, hu⟩
  | @taken item u id _ _ hins =>
    have ht := Tree.insert_takes h.wellFormed hnodes hu item
    rw [hid, hins] at ht
    exact ht.accepted h.wellFormed hnodes hu fun _ _ ho => ho
  | @givenUp item u x id warning _ _ hins =>
    have ht := Tree.insert_takes h.wellFormed hnodes hu item
    rw [hid, hins] at ht
    refine ht.resumed hu fun hroot => ?_
    simp [hroot] at hn

theorem Steady.operands_of_feedAll (h : b.Steady) (ho : Tree.UnderwayAt Operand b.tree b.focus)
    (hf : b.feedAll tokens = (v, .ok ())) (hn : b.fallsBack tokens = false) :
    Tree.UnderwayAt Operand v.tree v.focus := by
  induction tokens generalizing b with
  | nil =>
    cases hf
    exact ho
  | cons token rest ih =>
    obtain ⟨w, hw, hrest⟩ := feedAll_cons_eq_ok_iff.mp hf
    rw [fallsBack_cons hw, Bool.or_eq_false_iff] at hn
    exact ih (h.of_feed hw) (h.operands_of_feed ho hw hn.1) hrest hn.2

theorem groupsUnset_start (sourceId : String) (recovers : Bool) :
    GroupsUnset (start sourceId recovers).tree.nodes := by
  intro n hn _
  obtain rfl := List.mem_singleton.mp hn
  rfl

end Builder

/-! ## Programs -/

namespace Built
open Node

variable {built : Built} {n : Node}

theorem Settled.mem_below_of_group (h : built.Settled) (hn : n ∈ built.tree.nodes.preorder)
    (hgroup : n.Grouping) : n ∈ (built.tree.below Tree.rootId).preorder := by
  rcases h.wellFormed.root_or_mem_below hn with ⟨-, hk⟩ | hbelow
  · cases hk.symm.trans hgroup
  · exact hbelow

theorem Settled.statements_no_group (h : built.Settled) (hg : GroupsUnset built.tree.nodes) :
    (built.tree.below Tree.rootId).Tops fun n c =>
      n.marks.setup = true → ∀ m ∈ (node n c nil).preorder, ¬m.Grouping := by
  rw [tops_iff_split]
  intro left n c right he
  refine ((tops_iff_split _).mp h.statements left n c right he).no_group (hg.mono ?_)
  intro m hm
  have hbelow : m ∈ (built.tree.below Tree.rootId).preorder := by
    rw [he, preorder_append, preorder_node]
    simp only [preorder_node, preorder_nil, List.append_nil, List.mem_cons] at hm
    exact List.mem_append_right _ (List.mem_cons.mpr (hm.imp_right (List.mem_append_left _)))
  exact Tree.mem_of_mem_below hbelow

/-- A group that is live stands in a statement that is not set up. -/
theorem Settled.exists_statement_of_group (h : built.Settled) (hg : GroupsUnset built.tree.nodes)
    (hn : n ∈ built.tree.nodes.preorder) (hgroup : n.Grouping) :
    ∃ top m, top ∈ built.tree.children Tree.rootId ∧ n.id ∈ built.tree.descendants top ∧
      built.tree.get? top = some m ∧ m.marks.setup = false := by
  obtain ⟨left, m, c, right, he, hm⟩ :=
    exists_append_of_mem_preorder (h.mem_below_of_group hn hgroup)
  have hs := Tree.below_of_split h.wellFormed.nodup he
  have hno := (tops_iff_split _).mp (h.statements_no_group hg) left m c right he
  refine ⟨m.id, m, ?_, ?_, by rw [Tree.get?, hs]; rfl, ?_⟩
  · rw [Tree.children, he]
    simp
  · rw [Tree.descendants, hs]
    simp only [walk_eq, List.flatMap_singleton]
    exact List.mem_map_of_mem hm
  · by_contra hset
    exact hno (by simpa using hset) n hm hgroup

end Built

/-- What a finished input leaves of groups: no closing bracket is live; a group is live only in a
statement that is not set up, and only if work went on at the root; no evaluation calls anybody on one,
however often it is tried. -/
theorem groups_of_build {sourceId : String} {recovers : Bool} {tokens : List Token} {built : Built}
    (h : build sourceId recovers tokens = .ok built) :
    (∀ id n b, built.tree.get? id = some n → n.kind.brace? = some b → b.isOpening = true) ∧
    (∀ id n, built.tree.get? id = some n → n.Grouping →
      ∃ top m, top ∈ built.tree.children Tree.rootId ∧ id ∈ built.tree.descendants top ∧
        built.tree.get? top = some m ∧ m.marks.setup = false) ∧
    ((Builder.start sourceId recovers).fallsBack tokens = false →
      ∀ id n, built.tree.get? id = some n → ¬n.Grouping) ∧
    ∀ ops : List Operation, (∀ op ∈ ops, op.evaluates = true) →
      ∀ call ∈ built.tree.history ops, ∃ n, call.tree.get? call.node = some n ∧ ¬n.Grouping := by
  have hsettled := settled_of_build h
  obtain ⟨b, hfeed, hfinish⟩ := build_eq_ok_iff.mp h
  obtain ⟨hend, rfl⟩ := Builder.finish_eq_ok_iff.mp hfinish
  have hstart := Builder.steady_start sourceId recovers
  have hg := hstart.groupsUnset_of_feedAll (Builder.groupsUnset_start sourceId recovers) hfeed
  refine ⟨?_, ?_, ?_, fun ops hops => Tree.no_group_called hsettled.wellFormed hg hops⟩
  · intro id n brace hn hb
    exact hsettled.wellFormed.opening n (Tree.mem_of_get? hn) brace hb
  · intro id n hn hgroup
    obtain rfl := Tree.id_of_get? hn
    exact hsettled.exists_statement_of_group hg (Tree.mem_of_get? hn) hgroup
  · intro hnot id n hn hgroup
    have hu := hstart.operands_of_feedAll (hstart.clean rfl) hfeed hnot
    have hops := (hu.root hsettled.wellFormed hend.1).2
    have hbelow : Node.GroupsUnset (b.tree.below Tree.rootId) :=
      fun m hm => hg m (Tree.mem_of_mem_below hm)
    refine Node.no_group_of_whole (hops.imp fun _ _ ho => ho.whole) hbelow n ?_ hgroup
    exact hsettled.mem_below_of_group (Tree.mem_of_get? hn) hgroup

/-- The inner group fails, and the outer one stays where it was given up: two runs over the program pass
over it, and the first calls for the command after it. Without a failure a group leaves nothing behind. -/
theorem groups_of_build_given_up :
    let givenUp : List Token := [.bare "(", .bare "(", .bare "exp", .bare ")", .bare ")", .bare "[",
      .valued "cmd" "a", .bare "]"]
    let ops : List Operation := [.evaluateProgram .idle (), .evaluateProgram .tracing #[]]
    (∃ built n, build "" true givenUp = .ok built ∧ built.tree.get? 1 = some n ∧ n.Grouping ∧
      (∃ top m, top ∈ built.tree.children Tree.rootId ∧ 1 ∈ built.tree.descendants top ∧
        built.tree.get? top = some m ∧ m.marks.setup = false) ∧
      (built.tree.history ops).length = 2 ∧
      ∀ call ∈ built.tree.history ops, ∃ n, call.tree.get? call.node = some n ∧ ¬n.Grouping) ∧
    ∃ built, build "" true [.bare "(", .bare "PLUS", .valued "ID" "x", .bare ")"] = .ok built ∧
      ∀ id n, built.tree.get? id = some n → ¬n.Grouping := by
  intro givenUp ops
  obtain ⟨built, h⟩ : ∃ built, build "" true givenUp = .ok built := ⟨_, rfl⟩
  obtain ⟨clean, hclean⟩ : ∃ clean, build "" true [.bare "(", .bare "PLUS", .valued "ID" "x",
    .bare ")"] = .ok clean := ⟨_, rfl⟩
  obtain ⟨-, hlive, -, hcalls⟩ := groups_of_build h
  have hnone := (groups_of_build hclean).2.2.1 (by decide +kernel)
  obtain ⟨n, hn, hgroup⟩ : ∃ n, built.tree.get? 1 = some n ∧ n.Grouping := by
    cases h
    exact ⟨_, rfl, rfl⟩
  have hops : ∀ op ∈ ops, op.evaluates = true := by simp [ops, Operation.evaluates]
  refine ⟨⟨built, n, h, hn, hgroup, hlive 1 n hn hgroup, ?_, hcalls ops hops⟩, clean, hclean, hnone⟩
  cases h
  decide +kernel

end BracketTree
