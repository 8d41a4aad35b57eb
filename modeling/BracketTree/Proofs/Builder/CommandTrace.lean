import BracketTree.Proofs.Builder.Commands
import BracketTree.Proofs.Tree.Postorder

/-! The evaluation of a list of commands. A run over it succeeds, and its trace lists the finished commands
in order, each in postorder; commands that were given up are left as they are. -/

namespace BracketTree
open Forest
set_option autoImplicit false

theorem Node.Outcome.stands {n : Node} {c : Forest Node} {fallen : Bool} (h : n.Outcome c fallen) :
    n.stands = !fallen := by
  cases fallen with
  | false =>
    obtain ⟨hn, -⟩ : n.Complete c ∧ c.Everywhere Node.Complete := h
    rw [Node.stands, hn.marks]
    rfl
  | true =>
    rw [Node.stands, show n.marks = _ from h]
    rfl

namespace Builder
open BracketTree.Tree

variable {entries : List (NodeId × Bool)} {f : Forest Node} {t : Tree}

theorem length_entries (b : Builder) (groups : List (List Token)) :
    (b.entries groups).length = groups.length := by
  induction groups generalizing b with
  | nil => rfl
  | cons group groups ih => rw [Builder.entries, List.length_cons, ih, List.length_cons]

theorem Listed.ids (h : Listed entries f) : f.roots.map Node.id = entries.map Prod.fst := by
  induction h with
  | nil => rfl
  | cons _ _ ih => rw [roots_node, List.map_cons, ih, List.map_cons]

theorem Listed.split (h : Listed entries f) : ∀ x ∈ entries, ∃ left n c right,
    f = left ++ .node n c right ∧ n.id = x.1 ∧ n.Outcome c x.2 := by
  induction h with
  | nil => simp
  | @cons n d f fallen entries hout _ ih =>
    intro x hx
    rcases List.mem_cons.mp hx with rfl | hx
    · exact ⟨.nil, n, d, f, rfl, rfl, hout⟩
    · obtain ⟨left, m, c, right, rfl, hm⟩ := ih x hx
      exact ⟨.node n d left, m, c, right, rfl, hm⟩

/-- Everything in a command that is finished can be evaluated. -/
theorem Listed.evaluable (h : Listed entries f) : (f.filterRoots Node.stands).Everywhere
    fun n _ => n.marks.evaluated = false ∧ n.marks.ready = true := by
  induction h with
  | nil => trivial
  | @cons n d f fallen entries hout _ ih =>
    rw [filterRoots, hout.stands]
    cases fallen with
    | true => exact ih
    | false =>
      obtain ⟨hn, hd⟩ : n.Complete d ∧ d.Everywhere Node.Complete := hout
      exact ⟨⟨by rw [hn.marks], hn.ready⟩, hd.imp fun m e hm => ⟨by rw [hm.marks], hm.ready⟩, ih⟩

theorem Listed.postorder (h : Listed entries f)
    (hf : f.Tops fun n c => t.subtree? n.id = some (n, c)) : (f.filterRoots Node.stands).postorder =
      (entries.filter fun x => !x.2).flatMap fun x => t.postorder x.1 := by
  induction h with
  | nil => rfl
  | @cons n d f fallen entries hout _ ih =>
    rw [filterRoots, hout.stands]
    cases fallen with
    | true => exact ih hf.2
    | false =>
      rw [List.filter_cons_of_pos rfl, List.flatMap_cons, postorder_of_subtree? hf.1, ← ih hf.2,
        List.append_assoc]
      rfl

end Builder

/-- A program of commands has one statement for each, in order. A run over it succeeds, and its trace
lists the commands during which no failure made work go on at the root, each in postorder and each node
once. In the others nothing changes. -/
theorem trace_of_commands {sourceId : String} {recovers : Bool} {groups : List (List Token)}
    {built : Built} (hg : ∀ group ∈ groups, Token.Command group)
    (h : build sourceId recovers groups.flatten = .ok built) :
    let entries := (Builder.start sourceId recovers).entries groups
    let visited := (entries.filter fun x => !x.2).flatMap fun x => built.tree.postorder x.1
    let after := built.tree.evaluateProgram .tracing #[]
    built.tree.children Tree.rootId = entries.map Prod.fst ∧ entries.length = groups.length ∧
      after.result = .ok () ∧ after.state.toList = visited.map (fun n => n.label) ∧
      (visited.map Node.id).Nodup ∧
      ∀ x ∈ entries, x.2 = true → ∀ m ∈ built.tree.postorder x.1, after.tree.get? m.id = some m := by
  intro entries visited after
  have hb := settled_of_build h
  have hn := hb.wellFormed.nodup
  obtain ⟨b, hf, hend⟩ := build_eq_ok_iff.mp h
  obtain ⟨⟨hroot, hzero⟩, rfl⟩ := Builder.finish_eq_ok_iff.mp hend
  have htop : Builder.AtTop (.fresh Tree.rootId ⟨.root, "root", none⟩) .nil
      (Builder.start sourceId recovers) := ⟨Builder.steady_start sourceId recovers, rfl, rfl⟩
  obtain ⟨f, hv, hlisted⟩ := htop.commands hg hf
  have hbelow : b.tree.below Tree.rootId = f := Tree.below_focus hn hv.nodes
  have hdue : Built.due ⟨b.tree, b.report⟩ = f.filterRoots Node.stands := by rw [Built.due, hbelow]
  have htops : f.Tops fun n c => b.tree.subtree? n.id = some (n, c) := by
    rw [← hbelow]
    exact (tops_iff_split _).mpr fun _ _ _ _ he => Tree.below_of_split hn he
  have hvisited : (f.filterRoots Node.stands).postorder = visited := hlisted.postorder htops
  have hevaluable := hlisted.evaluable
  rw [← hdue] at hvisited hevaluable
  have hok : after.result = .ok () := hb.tracing.1.mpr hevaluable
  refine ⟨?_, Builder.length_entries _ _, hok, ?_, ?_, ?_⟩
  · rw [Tree.children, hbelow]
    exact hlisted.ids
  · rw [← hvisited]
    exact hb.tracing.2 hok
  · rw [← hvisited, ((postorder_perm _).map _).nodup_iff]
    exact (Tree.nodup_below hn Tree.rootId).of_cons.sublist ((filterRoots_sublist _ _).map _)
  · intro x hx hfallen m hm
    obtain ⟨left, n, c, right, he, hid, hout⟩ := hlisted.split x hx
    have hsplit : b.tree.below Tree.rootId = left ++ .node n c right := hbelow.trans he
    rw [Tree.postorder, ← hid, Tree.below_of_split hn hsplit] at hm
    rw [mem_postorder_iff] at hm
    refine hb.get?_of_not_due ?_ (Built.not_mem_due hn hsplit ?_ hm)
    · rw [hsplit]
      simp at hm ⊢
      tauto
    · rw [hout.stands, hfallen]
      rfl

/-- Four commands: an expression without operands fails inside a block, which the second command keeps,
and another one makes the third be given up. -/
theorem trace_of_damaged_commands :
    let groups : List (List Token) := [[.bare "[", .valued "cmd" "a", .bare "]"],
      [.bare "[", .bare "\x7b", .bare "(", .bare "exp", .bare ")", .valued "ID" "b", .bare "\x7d",
        .bare "]"],
      [.bare "[", .bare "(", .bare "exp", .bare ")", .valued "cmd" "c", .bare "]"],
      [.bare "[", .valued "cmd" "d", .bare "]"]]
    let entries := (Builder.start "" true).entries groups
    ∃ built, build "" true groups.flatten = .ok built ∧
      built.tree.children Tree.rootId = entries.map Prod.fst ∧
      entries.map Prod.snd = [false, false, true, false] ∧
      (built.tree.evaluateProgram .tracing #[]).result = .ok () ∧
      (built.tree.evaluateProgram .tracing #[]).state.toList =
        ["cmd:a", "[", "ID:b", "\x7b", "[", "cmd:d", "["] := by
  intro groups entries
  have htext : ∀ text, Token.Nested [.valued "cmd" text] := fun _ => .leaf rfl .nil
  have hexp : Token.Nested [.bare "exp"] := .leaf rfl .nil
  have hfails : Token.Nested [.bare "(", .bare "exp", .bare ")", .valued "ID" "b"] :=
    .bracket rfl rfl rfl rfl hexp (.leaf rfl .nil)
  have hblock : Token.Nested [.bare "\x7b", .bare "(", .bare "exp", .bare ")", .valued "ID" "b",
      .bare "\x7d"] := .bracket rfl rfl rfl rfl hfails .nil
  have hfails' : Token.Nested [.bare "(", .bare "exp", .bare ")", .valued "cmd" "c"] :=
    .bracket rfl rfl rfl rfl hexp (htext "c")
  have hg : ∀ group ∈ groups, Token.Command group := by
    simp only [groups, List.forall_mem_cons]
    refine ⟨?_, ?_, ?_, ?_, by simp⟩
    · exact .mk rfl rfl rfl (htext "a")
    · exact .mk rfl rfl rfl hblock
    · exact .mk rfl rfl rfl hfails'
    · exact .mk rfl rfl rfl (htext "d")
  obtain ⟨built, h⟩ : ∃ built, build "" true groups.flatten = .ok built := ⟨_, rfl⟩
  obtain ⟨hchildren, -, hok, htrace, -⟩ := trace_of_commands hg h
  refine ⟨built, h, hchildren, by decide +kernel, hok, ?_⟩
  cases h
  decide +kernel

end BracketTree
