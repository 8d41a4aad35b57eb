import BracketTree.Proofs.Builder.Progress
import BracketTree.Proofs.Builder.Strict
import Mathlib.Data.List.Forall2

/-! What a build without recovery accepts and gives: token lists whose brackets nest, whose grouping
brackets can be elided, and whose nodes fit what they end up with. -/

namespace BracketTree
open Forest
set_option autoImplicit false

/-- The names of the tokens are in the table; these are the items that they make. -/
abbrev Item.OfTokens (tokens : List Token) (items : List Item) : Prop :=
  List.Forall₂ (fun t i => Item.ofToken? t = .ok i) tokens items

/-- The brackets of the tokens nest as in `source`, and after elision, with every node fit for what
stands under it, that is `elided`. -/
structure Denotes (tokens : List Token) (source elided : Forest Item) : Prop where
  nested : ∃ items, Item.OfTokens tokens items ∧ Item.Nested items source
  elide : Item.elide source = some elided
  fitting : Item.Fitting source elided

theorem Item.OfTokens.unique {tokens : List Token} {items items' : List Item}
    (h : OfTokens tokens items) (h' : OfTokens tokens items') : items = items' := by
  induction h generalizing items' with
  | nil =>
    cases h'
    rfl
  | cons hi _ ih =>
    cases h' with
    | cons hi' h' =>
      obtain rfl := Except.ok.inj (hi.symm.trans hi')
      rw [ih h']

theorem Denotes.unique {tokens : List Token} {source source' elided elided' : Forest Item}
    (h : Denotes tokens source elided) (h' : Denotes tokens source' elided') :
    source = source' ∧ elided = elided' := by
  obtain ⟨items, ht, hn⟩ := h.nested
  obtain ⟨items', ht', hn'⟩ := h'.nested
  obtain rfl := ht.unique ht'
  obtain rfl := hn.unique hn'
  exact ⟨rfl, Option.some.inj (h.elide.symm.trans h'.elide)⟩

namespace Builder

structure At (b : Builder) (fr : Frame Node) (outer : List (Frame Node)) (c : Forest Node) :
    Prop where
  strict : Tree.Strict b.tree (fr :: outer) c
  focus : b.focus = fr.node.id
  recovers : b.recovers = false
  pending : b.pending = 0
  report : b.report = []

variable {b b' : Builder} {fr : Frame Node} {outer : List (Frame Node)} {c : Forest Node}

theorem At.feed_eq_ok_iff (h : At b fr outer c) (token : Token) :
    b.feed token = (b', .ok ()) ↔ ∃ item u next, Item.ofToken? token = .ok item ∧
      b.tree.insert fr.node.id item = (u, .ok next) ∧
      b' = { b with fed := b.fed + 1, tree := u, focus := next } := by
  rw [feed, h.focus]
  cases Item.ofToken? token with
  | error e => simp
  | ok item =>
    dsimp only
    rw [if_neg (by rw [h.pending]; exact Nat.lt_irrefl 0)]
    rcases hins : b.tree.insert fr.node.id item with ⟨u, (e | ⟨e, at'⟩) | next⟩
    · simp [hins]
    · simp [hins, resume, h.recovers]
    · simp [hins, eq_comm]

theorem At.feed (h : At b fr outer c) {token : Token} (hf : b.feed token = (b', .ok ())) :
    ∃ item fr' outer' c', Item.ofToken? token = .ok item ∧ At b' fr' outer' c' ∧
      Item.Advance (Tree.stackOf (fr :: outer) c) item (Tree.stackOf (fr' :: outer') c') := by
  obtain ⟨item, u, next, hi, hins, rfl⟩ := (h.feed_eq_ok_iff token).mp hf
  obtain ⟨fr', outer', c', rfl, hu, ha⟩ := h.strict.advance hins
  exact ⟨item, fr', outer', c', hi, ⟨hu, rfl, h.recovers, h.pending, h.report⟩, ha⟩

theorem At.feed_of_advance (h : At b fr outer c) {token : Token} {item : Item} {q : Item.Stack}
    (hi : Item.ofToken? token = .ok item)
    (ha : Item.Advance (Tree.stackOf (fr :: outer) c) item q) : ∃ b' fr' outer' c',
      b.feed token = (b', .ok ()) ∧ At b' fr' outer' c' ∧
      Tree.stackOf (fr' :: outer') c' = q := by
  obtain ⟨u, fr', outer', c', hins, hu, hq⟩ := h.strict.insert_of_advance ha
  refine ⟨_, fr', outer', c', (h.feed_eq_ok_iff token).mpr ⟨item, u, _, hi, hins, rfl⟩, ?_, hq⟩
  exact ⟨hu, rfl, h.recovers, h.pending, h.report⟩

theorem At.feedAll (h : At b fr outer c) {tokens : List Token}
    (hf : b.feedAll tokens = (b', .ok ())) : ∃ items fr' outer' c',
      Item.OfTokens tokens items ∧ At b' fr' outer' c' ∧
      Item.Advances (Tree.stackOf (fr :: outer) c) items (Tree.stackOf (fr' :: outer') c') := by
  induction tokens generalizing b fr outer c with
  | nil =>
    cases hf
    exact ⟨[], fr, outer, c, .nil, h, .nil⟩
  | cons token rest ih =>
    rw [Builder.feedAll] at hf
    rcases hstep : b.feed token with ⟨v, e | _⟩
    · rw [hstep] at hf
      cases hf
    · rw [hstep] at hf
      obtain ⟨item, fr', outer', c', hi, hv, ha⟩ := h.feed hstep
      obtain ⟨items, fr'', outer'', c'', ht, hb', has⟩ := ih hv hf
      exact ⟨item :: items, fr'', outer'', c'', .cons hi ht, hb', .cons ha has⟩

theorem At.feedAll_of_advances (h : At b fr outer c) {tokens : List Token} {items : List Item}
    {q : Item.Stack} (ht : Item.OfTokens tokens items)
    (ha : Item.Advances (Tree.stackOf (fr :: outer) c) items q) : ∃ b' fr' outer' c',
      b.feedAll tokens = (b', .ok ()) ∧ At b' fr' outer' c' ∧
      Tree.stackOf (fr' :: outer') c' = q := by
  induction ht generalizing b fr outer c with
  | nil =>
    cases ha
    exact ⟨b, fr, outer, c, rfl, h, rfl⟩
  | @cons token item rest items hi _ ih =>
    cases ha with
    | cons hstep hrest =>
      obtain ⟨v, fr', outer', c', hf, hv, rfl⟩ := h.feed_of_advance hi hstep
      obtain ⟨b', fr'', outer'', c'', hf', hb', hq⟩ := ih hv hrest
      refine ⟨b', fr'', outer'', c'', ?_, hb', hq⟩
      rw [Builder.feedAll, hf]
      exact hf'

def rootFrame : Frame Node := ⟨.nil, .fresh Tree.rootId ⟨.root, "root", none⟩, .nil⟩

theorem at_start (sourceId : String) : At (start sourceId false) rootFrame [] .nil := by
  refine ⟨⟨Tree.wellFormed_start, rfl, ?_, trivial⟩, rfl, rfl, rfl, rfl⟩
  intro fr hfr
  obtain rfl := List.mem_singleton.mp hfr
  exact ⟨rfl, .inl rfl, trivial⟩

theorem At.finish_eq_ok_iff (h : At b fr outer c) (built : Built) :
    b.finish = .ok built ↔ outer = [] ∧ built = ⟨b.tree, []⟩ := by
  have hroot := h.strict.wellFormed.id_eq_rootId_iff h.strict.nodes
  rw [finish, h.focus, h.report]
  simp only [hroot, h.pending, and_true]
  split
  · next ho => simp [ho, eq_comm]
  · next ho => simp [ho]

end Builder

theorem denotes_of_build {sourceId : String} {tokens : List Token} {built : Built}
    (h : build sourceId false tokens = .ok built) : built.report = [] ∧
      ∃ source, Denotes tokens source ((built.tree.below Tree.rootId).map Node.toItem) ∧
        Item.LoneFit source := by
  obtain ⟨b, hfeed, hfin⟩ := build_eq_ok_iff.mp h
  obtain ⟨items, fr, outer, c, ht, hb, ha⟩ := (Builder.at_start sourceId).feedAll hfeed
  obtain ⟨rfl, rfl⟩ := (hb.finish_eq_ok_iff built).mp hfin
  obtain ⟨source, hn, he⟩ := ha.exists_elides
  have hw := hb.strict.wellFormed
  have hroot := (hw.id_eq_rootId_iff hb.strict.nodes).mpr rfl
  have hbelow : b.tree.below Tree.rootId = c := by
    rw [← hroot, Tree.below_focus hw.nodup hb.strict.nodes]
  refine ⟨rfl, source, ?_, he.lone⟩
  rw [hbelow]
  exact ⟨⟨items, ht, hn⟩, he.elide, he.fitting⟩

theorem exists_build_of_denotes (sourceId : String) {tokens : List Token}
    {source elided : Forest Item} (h : Denotes tokens source elided)
    (hlone : Item.LoneFit source) : ∃ built, build sourceId false tokens = .ok built := by
  obtain ⟨items, ht, hn⟩ := h.nested
  have ha := hn.advances ⟨h.elide, h.fitting, hlone⟩ (Builder.rootFrame.map Node.toItem) [] .nil
  obtain ⟨b, fr, outer, c, hfeed, hb, hstack⟩ :=
    (Builder.at_start sourceId).feedAll_of_advances ht ha
  have houter : outer = [] := by
    have hspine := congrArg Item.Stack.spine hstack
    exact List.map_eq_nil_iff.mp (List.cons.inj hspine).2
  have hfin := (hb.finish_eq_ok_iff ⟨b.tree, []⟩).mpr ⟨houter, rfl⟩
  exact ⟨_, build_eq_ok_iff.mpr ⟨b, hfeed, hfin⟩⟩

/-- A build without recovery succeeds exactly when the tokens denote a forest and no bracket closes
over a lone item that needs an operand; the tree is then that forest. -/
theorem build_strict (sourceId : String) (tokens : List Token) :
    ((∃ built, build sourceId false tokens = .ok built) ↔
      ∃ source elided, Denotes tokens source elided ∧ Item.LoneFit source) ∧
    ∀ built, build sourceId false tokens = .ok built → built.report = [] ∧
      ∀ source elided, Denotes tokens source elided →
        (built.tree.below Tree.rootId).map Node.toItem = elided := by
  refine ⟨⟨?_, ?_⟩, ?_⟩
  · rintro ⟨built, h⟩
    obtain ⟨-, source, hd, hlone⟩ := denotes_of_build h
    exact ⟨source, _, hd, hlone⟩
  · rintro ⟨source, elided, hd, hlone⟩
    exact exists_build_of_denotes sourceId hd hlone
  · intro built h
    obtain ⟨hreport, source, hd, -⟩ := denotes_of_build h
    exact ⟨hreport, fun source' elided hd' => (hd.unique hd').2⟩

/-- The operator is set up when the inner bracket closes, and the outer one gives it an operand. -/
theorem build_nested_group :
    let tokens : List Token :=
      [.bare "(", .bare "(", .bare "PLUS", .bare ")", .valued "ID" "a", .bare ")"]
    let plus : Item := ⟨.operator, "PLUS", none⟩
    let a : Item := ⟨.identifier, "ID", some "a"⟩
    ∃ built, build "" false tokens = .ok built ∧ built.report = [] ∧
      (built.tree.below Tree.rootId).map Node.toItem = .node plus (.leaf a) .nil := by
  intro tokens plus a
  let group : Item := ⟨.brace ⟨.round, .opening⟩, "(", none⟩
  let close : Item := ⟨.brace ⟨.round, .closing⟩, ")", none⟩
  have hinner : Item.Nested [group, plus, close, a] (.node group (.leaf plus) (.leaf a)) :=
    .bracket rfl rfl rfl (.leaf rfl .nil) (.leaf rfl .nil)
  have hnested : Item.Nested [group, group, plus, close, a, close]
      (.node group (.node group (.leaf plus) (.leaf a)) .nil) :=
    .bracket rfl rfl rfl hinner .nil
  have htokens : Item.OfTokens tokens [group, group, plus, close, a, close] :=
    .cons rfl (.cons rfl (.cons rfl (.cons rfl (.cons rfl (.cons rfl .nil)))))
  have hd : Denotes tokens (.node group (.node group (.leaf plus) (.leaf a)) .nil)
      (.node plus (.leaf a) .nil) :=
    ⟨⟨_, htokens, hnested⟩, rfl, .inr trivial, ⟨trivial, trivial, trivial⟩, trivial⟩
  have hlone : Item.LoneFit (.node group (.node group (.leaf plus) (.leaf a)) .nil) := by
    refine ⟨?_, ⟨?_, ⟨?_, trivial, trivial⟩, ⟨?_, trivial, trivial⟩⟩, trivial⟩
    · intro _ first he
      cases he
    · intro _ first he
      obtain ⟨rfl, -, -⟩ := Forest.node.inj (Option.some.inj he)
      trivial
    · intro h
      cases h
    · intro h
      cases h
  obtain ⟨hiff, htree⟩ := build_strict "" tokens
  obtain ⟨built, hb⟩ := hiff.mpr ⟨_, _, hd, hlone⟩
  obtain ⟨hreport, hsame⟩ := htree built hb
  exact ⟨built, hb, hreport, hsame _ _ hd⟩

/-- A creation, an expression or a test alone in a bracket is refused although an outer bracket would
give it its operand. -/
theorem build_lone_expression :
    let tokens : List Token :=
      [.bare "(", .bare "(", .bare "exp", .bare ")", .valued "ID" "a", .bare ")"]
    ¬((∃ built, build "" false tokens = .ok built) ↔
      ∃ source elided, Denotes tokens source elided) := by
  intro tokens h
  let group : Item := ⟨.brace ⟨.round, .opening⟩, "(", none⟩
  let close : Item := ⟨.brace ⟨.round, .closing⟩, ")", none⟩
  let exp : Item := ⟨.expression, "exp", none⟩
  let a : Item := ⟨.identifier, "ID", some "a"⟩
  have hd : Denotes tokens
      (.node group (.node group (.leaf exp) (.leaf a)) .nil) (.node exp (.leaf a) .nil) := by
    refine ⟨⟨[group, group, exp, close, a, close], ?_, ?_⟩, rfl, ?_⟩
    · exact .cons rfl (.cons rfl (.cons rfl (.cons rfl (.cons rfl (.cons rfl .nil)))))
    · have hexp : Item.Nested [exp] (.leaf exp) := .leaf rfl .nil
      have ha : Item.Nested [a] (.leaf a) := .leaf rfl .nil
      have hinner : Item.Nested [group, exp, close, a] (.node group (.leaf exp) (.leaf a)) :=
        .bracket rfl rfl rfl hexp ha
      exact .bracket rfl rfl rfl hinner .nil
    · refine ⟨.inr (List.cons_ne_nil _ _), ⟨trivial, trivial, trivial⟩, trivial⟩
  obtain ⟨built, hb⟩ := h.mpr ⟨_, _, hd⟩
  have hrefused : build "" false tokens = .error (.shape (.operandCount "exp" "至少 1" 0)) := by
    rfl
  rw [hrefused] at hb
  cases hb

end BracketTree
