import BracketTree.Proofs.Builder.Alike
import BracketTree.Proofs.Builder.Trace

/-! Programs compose. After a complete input the builder is back at the root, and all that distinguishes
it from a new one stands under the root and in the report. -/

namespace BracketTree
open Forest
set_option autoImplicit false

namespace Tree

variable {t u : Tree} {fr up : Frame Node} {outer spine : List (Frame Node)} {c d : Forest Node}
  {r : Node} {item : Item} {x : Except InsertError NodeId}

/-- The outermost level of a spine is the root. -/
def EndsAt (r : Node) (spine : List (Frame Node)) : Prop := spine.getLast? = some ⟨.nil, r, .nil⟩

theorem EndsAt.exists_node (h : EndsAt r spine) (c : Forest Node) :
    ∃ e, plug spine c = .node r e .nil := by
  obtain ⟨inner, rfl⟩ := List.getLast?_eq_some_iff.mp h
  rw [plug_append]
  exact ⟨_, rfl⟩

theorem endsAt_of_nodes (h : t.nodes = plug (fr :: outer) c) (hr : t.nodes = .node r d .nil) :
    EndsAt r (fr :: outer) := by
  obtain ⟨inner, hs, -⟩ := exists_spine_below (h.symm.trans hr) (List.cons_ne_nil _ _)
  rw [EndsAt, hs, List.getLast?_concat]

/-- An insertion changes the root in no way. -/
theorem Takes.root (ht : Takes t fr outer c item (u, x)) (hw : t.WellFormed)
    (h : t.nodes = plug (fr :: outer) c) (hr : t.nodes = .node r d .nil) :
    ∃ e, u.nodes = .node r e .nil := by
  have hends := endsAt_of_nodes h hr
  cases ht with
  | leaf hi =>
    rw [attach_focus hw h (by simp [hi])]
    exact hends.exists_node _
  | enter hi hb =>
    rw [attach_focus hw h (by simpa [hi] using hb)]
    exact hends.exists_node _
  | close _ _ hs _ _ =>
    subst hs
    exact EndsAt.exists_node (by rw [EndsAt, List.getLast?_cons_cons] at hends ⊢; exact hends) _
  | abandon _ _ hs _ _ _ =>
    subst hs
    exact EndsAt.exists_node (by rw [EndsAt, List.getLast?_cons_cons] at hends ⊢; exact hends) _
  | cut _ _ hs _ _ hk =>
    subst hs
    obtain ⟨-, skipped, hspine⟩ := nearestBlock_eq_some hk
    rw [EndsAt, List.getLast?_cons_cons, hspine, List.getLast?_append_cons] at hends
    exact EndsAt.exists_node hends _
  | refuse _ _ _ => exact ⟨d, hr⟩

/-! ## What is printed of the statements -/

theorem map_print_children (hn : t.ids.Nodup) (id : NodeId) :
    (t.children id).map t.print = (t.below id).render fun n => n.label := by
  have htops := tops_below hn id
  rw [children, List.map_map]
  generalize t.below id = f at htops ⊢
  induction f with
  | nil => rfl
  | node n c s _ ih =>
    rw [roots_node, List.map_cons, ih htops.2, Forest.render, Function.comp_apply, print, htops.1]

end Tree

namespace Builder
open BracketTree.Tree

variable {b b' v : Builder} {token : Token} {tokens : List Token} {r : Node} {c : Forest Node}

theorem Feeds.root {x : Except TreeError Unit} (hf : Feeds b token (b', x)) (h : b.Steady)
    (hr : b.tree.nodes = .node r c .nil) : ∃ e, b'.tree.nodes = .node r e .nil := by
  have htakes : ∀ {item u y}, b.tree.insert b.focus item = (u, y) →
      ∃ e, u.nodes = .node r e .nil := by
    intro item u y hins
    obtain ⟨fr, outer, d, hnodes, -, -, ht⟩ := h.insert_takes item
    rw [hins] at ht
    exact ht.root h.wellFormed hnodes hr
  cases hf with
  | refused => exact ⟨c, hr⟩
  | passed _ _ =>
    rw [discard_tree]
    exact ⟨c, hr⟩
  | taken _ _ hins => exact htakes hins
  | givenUp _ _ hins => exact htakes hins

theorem Steady.root (h : b.Steady) (hf : b.feedAll tokens = (v, .ok ()))
    (hr : b.tree.nodes = .node r c .nil) : ∃ e, v.tree.nodes = .node r e .nil := by
  induction tokens generalizing b c with
  | nil =>
    cases hf
    exact ⟨c, hr⟩
  | cons token rest ih =>
    obtain ⟨w, hw, hrest⟩ := feedAll_cons_eq_ok_iff.mp hf
    obtain ⟨e, he⟩ := (h.feeds_of_ok hw).root h hr
    exact ih (h.of_feed hw) hrest he

theorem feedAll_append_of_ok (h : b.feedAll tokens = (v, .ok ())) (rest : List Token) :
    b.feedAll (tokens ++ rest) = v.feedAll rest := by
  induction tokens generalizing b with
  | nil =>
    cases h
    rfl
  | cons token tokens ih =>
    obtain ⟨w, hw, htokens⟩ := feedAll_cons_eq_ok_iff.mp h
    rw [List.cons_append, Builder.feedAll, hw]
    exact ih htokens

/-- A builder after a complete input is like a new one. -/
theorem alike_start {sourceId : String} {recovers : Bool}
    (hf : (start sourceId recovers).feedAll tokens = (b, .ok ())) (hroot : b.focus = rootId)
    (hzero : b.pending = 0) :
    Alike ((b.tree.below rootId).map Node.nameless) tokens.length (start sourceId recovers) b := by
  have hstart := steady_start sourceId recovers
  have hsteady := hstart.feedAll hf
  obtain ⟨hsource, hrec, hfed⟩ := feedAll_counts hf
  obtain ⟨e, he⟩ := hstart.root hf (r := .fresh rootId ⟨.root, "root", none⟩) (c := .nil) rfl
  have hnodes : b.tree.nodes = plug [⟨.nil, .fresh rootId ⟨.root, "root", none⟩, .nil⟩] e := he
  refine ⟨hstart, hsteady, hsource, hrec, hzero, hfed, ⟨.nil, _, .nil⟩, [], .nil, _, [], e, rfl, rfl,
    hnodes, hroot.symm, .top rfl ?_⟩
  have hbelow := below_focus hsteady.wellFormed.nodup hnodes
  rw [show b.tree.below rootId = e from hbelow, map_nil, append_nil]

end Builder

namespace Built

/-- The statements of a program as printed, in order. -/
def printed (built : Built) : List String :=
  (built.tree.children Tree.rootId).map built.tree.print

variable {first second whole : Built}

/-- The statements of `whole` are those of `first` and then those of `second`, but for ids and
scopes. -/
def Joins (first second whole : Built) : Prop :=
  (whole.tree.below Tree.rootId).map Node.nameless =
    (first.tree.below Tree.rootId).map Node.nameless ++
      (second.tree.below Tree.rootId).map Node.nameless

theorem Joins.printed (h : Joins first second whole) (hf : first.Settled) (hs : second.Settled)
    (hw : whole.Settled) : whole.printed = first.printed ++ second.printed := by
  rw [Built.printed, Built.printed, Built.printed, Tree.map_print_children hw.wellFormed.nodup,
    Tree.map_print_children hf.wellFormed.nodup, Tree.map_print_children hs.wellFormed.nodup,
    ← Node.render_nameless, h, render_append, Node.render_nameless, Node.render_nameless]

theorem Joins.due (h : Joins first second whole) : whole.due.map Node.nameless =
    first.due.map Node.nameless ++ second.due.map Node.nameless := by
  have hstands : Node.stands ∘ Node.nameless = Node.stands := rfl
  rw [Built.due, Built.due, Built.due, ← hstands, ← filterRoots_map, ← filterRoots_map,
    ← filterRoots_map, h, filterRoots_append]

/-- The trace of the whole is the trace of the one part and then that of the other. -/
theorem Joins.tracing (h : Joins first second whole) (hf : first.Settled) (hs : second.Settled)
    (hw : whole.Settled) (hokf : (first.tree.evaluateProgram .tracing #[]).result = .ok ())
    (hoks : (second.tree.evaluateProgram .tracing #[]).result = .ok ()) :
    (whole.tree.evaluateProgram .tracing #[]).result = .ok () ∧
      (whole.tree.evaluateProgram .tracing #[]).state =
        (first.tree.evaluateProgram .tracing #[]).state ++
          (second.tree.evaluateProgram .tracing #[]).state := by
  have hmarks := fun f => everywhere_map Node.nameless
    (fun n (_ : Forest Node) => n.marks.evaluated = false ∧ n.marks.ready = true) f
  have hlabels : ∀ f : Forest Node, f.postorder.map (fun n => n.label) =
      (f.map Node.nameless).postorder.map fun n => n.label := by
    intro f
    rw [postorder_map, List.map_map]
    rfl
  have hok : (whole.tree.evaluateProgram .tracing #[]).result = .ok () := by
    rw [hw.tracing.1]
    refine (hmarks whole.due).mp ?_
    rw [h.due, everywhere_append]
    exact ⟨(hmarks first.due).mpr (hf.tracing.1.mp hokf), (hmarks second.due).mpr (hs.tracing.1.mp hoks)⟩
  refine ⟨hok, Array.toList_inj.mp ?_⟩
  rw [Array.toList_append, hw.tracing.2 hok, hf.tracing.2 hokf, hs.tracing.2 hoks, hlabels, h.due,
    postorder_append, List.map_append, ← hlabels, ← hlabels]

end Built

section Append
variable {sourceId : String} {recovers : Bool} {before : List Token} {first : Built}
  (h : build sourceId recovers before = .ok first) (after : List Token)
include h

theorem build_append_cases :
    (∃ e, build sourceId recovers after = .error e ∧
      build sourceId recovers (before ++ after) = .error e) ∨
    ∃ second whole raised, build sourceId recovers after = .ok second ∧
      build sourceId recovers (before ++ after) = .ok whole ∧ first.Joins second whole ∧
      whole.report = first.report ++ raised ∧
      List.Forall₂ (Diagnostic.Echoes first.printed before.length
        ((Builder.start sourceId recovers).AtRoot after)) second.report raised := by
  have hfirst := settled_of_build h
  obtain ⟨b, hf, hend⟩ := build_eq_ok_iff.mp h
  obtain ⟨⟨hroot, hzero⟩, rfl⟩ := Builder.finish_eq_ok_iff.mp hend
  obtain ⟨hresult, hrun⟩ := (Builder.alike_start hf hroot hzero).feedAll after
  rw [build, build, Builder.feedAll_append_of_ok hf]
  generalize (Builder.start sourceId recovers).feedAll after = r at hresult hrun ⊢
  generalize b.feedAll after = r' at hresult hrun ⊢
  obtain ⟨v, e | _⟩ := r
  · obtain ⟨v', e' | _⟩ := r'
    · cases hresult
      exact .inl ⟨e, rfl, rfl⟩
    · cases hresult
  · obtain ⟨v', e' | _⟩ := r'
    · cases hresult
    have honward := hrun rfl
    have hw := honward.alike.steady.wellFormed
    have hw' := honward.alike.steady'.wellFormed
    rcases honward.alike.finish with ⟨e, he, he'⟩ | ⟨hok, hok'⟩
    · exact .inl ⟨e, he, he'⟩
    · obtain ⟨raised, raised', hraised, hraised', hall⟩ := honward.raised
      refine .inr ⟨_, _, raised', hok, hok', ?_, hraised', ?_⟩
      · have hbelow := (honward.alike.place.root hw hw').below hw hw'
        rw [if_pos rfl] at hbelow
        exact hbelow
      · rw [Node.render_nameless, ← Tree.map_print_children hfirst.wellFormed.nodup] at hall
        obtain rfl : v.report = raised := hraised
        exact hall

/-- What follows a complete program is built as on its own. It fails with the same error, or its
statements come after those of the program in front, its warnings come after the warnings of that
program, and so does its trace. Only the details of warnings after which work goes on at the root show
the statements in front. -/
theorem build_append :
    (∀ e, build sourceId recovers (before ++ after) = .error e ↔
      build sourceId recovers after = .error e) ∧
    ∀ second, build sourceId recovers after = .ok second →
      ∃ whole raised, build sourceId recovers (before ++ after) = .ok whole ∧
        whole.printed = first.printed ++ second.printed ∧
        whole.report = first.report ++ raised ∧
        List.Forall₂ (Diagnostic.Echoes first.printed before.length
          ((Builder.start sourceId recovers).AtRoot after)) second.report raised ∧
        ((first.tree.evaluateProgram .tracing #[]).result = .ok () →
          (second.tree.evaluateProgram .tracing #[]).result = .ok () →
            (whole.tree.evaluateProgram .tracing #[]).result = .ok () ∧
              (whole.tree.evaluateProgram .tracing #[]).state =
                (first.tree.evaluateProgram .tracing #[]).state ++
                  (second.tree.evaluateProgram .tracing #[]).state) := by
  rcases build_append_cases h after with ⟨e, he, he'⟩ |
    ⟨second, whole, raised, hsecond, hwhole, hjoins, hreport, hraised⟩
  · rw [he, he']
    exact ⟨fun e => Iff.rfl, fun second hok => by cases hok⟩
  · have hf := settled_of_build h
    have hs := settled_of_build hsecond
    have hw := settled_of_build hwhole
    rw [hsecond, hwhole]
    refine ⟨by simp, fun second' hok => ?_⟩
    cases hok
    exact ⟨whole, raised, rfl, hjoins.printed hf hs hw, hreport, hraised, hjoins.tracing hf hs hw⟩

end Append

/-- A command after a damaged expression, and then a damaged group after a command: in front of its
expression the tree printed with the last warning has both statements of the first program. -/
theorem build_append_damaged :
    let before : List Token := [.bare "(", .bare "exp", .bare ")", .bare "[", .valued "cmd" "a",
      .bare "]"]
    let after : List Token := [.bare "[", .valued "cmd" "b", .bare "]", .bare "(", .bare "(",
      .bare "exp", .bare ")", .bare "PLUS", .bare ")"]
    ∃ first second whole, build "" true before = .ok first ∧ build "" true after = .ok second ∧
      build "" true (before ++ after) = .ok whole ∧
      whole.printed = first.printed ++ second.printed ∧
      whole.report.map Diagnostic.detail =
        [some "root(exp)", some "root(exp [(cmd:a) [(cmd:b) ((exp))"] ∧
      (whole.tree.evaluateProgram .tracing #[]).state = #["cmd:a", "[", "cmd:b", "["] := by
  intro before after
  obtain ⟨first, hf⟩ : ∃ first, build "" true before = .ok first := ⟨_, rfl⟩
  obtain ⟨second, hs⟩ : ∃ second, build "" true after = .ok second := ⟨_, rfl⟩
  obtain ⟨whole, raised, hw, hprinted, -, -, htrace⟩ := (build_append hf after).2 second hs
  refine ⟨first, second, whole, hf, hs, hw, hprinted, ?_, ?_⟩
  · cases hw
    decide +kernel
  · have hokf : (first.tree.evaluateProgram .tracing #[]).result = .ok () := by
      cases hf
      rfl
    have hoks : (second.tree.evaluateProgram .tracing #[]).result = .ok () := by
      cases hs
      rfl
    rw [(htrace hokf hoks).2]
    cases hf
    cases hs
    decide +kernel

end BracketTree
