import BracketTree.Proofs.Builder.Progress
import BracketTree.Proofs.Tree.Growth

/-! What a complete statement leaves as it was. While its tokens are fed, the builder is inside the
node that the statement began with, or it has given that node up and passes over the rest; when its
last bracket closes the builder is back where it began. Main statement: it has then added one node
at most, and changed nothing else. -/

namespace BracketTree
open Forest
set_option autoImplicit false

namespace Token

/-- The brackets of the tokens nest, and their shapes agree. -/
inductive Balanced : List Token → Prop where
  | nil : Balanced []
  | leaf {t : Token} {rest : List Token} : t.brace? = none → Balanced rest → Balanced (t :: rest)
  | bracket {t close : Token} {opening closing : Brace} {inner rest : List Token} :
      t.brace? = some opening → close.brace? = some closing → opening.closedBy closing = true →
      Balanced inner → Balanced rest → Balanced (t :: (inner ++ close :: rest))

/-- The brackets of the tokens nest, whatever their shapes. -/
inductive Nested : List Token → Prop where
  | nil : Nested []
  | leaf {t : Token} {rest : List Token} : t.brace? = none → Nested rest → Nested (t :: rest)
  | bracket {t close : Token} {opening closing : Brace} {inner rest : List Token} :
      t.brace? = some opening → opening.isOpening = true → close.brace? = some closing →
      closing.isOpening = false → Nested inner → Nested rest → Nested (t :: (inner ++ close :: rest))

theorem Balanced.nested {tokens : List Token} (h : Balanced tokens) : Nested tokens := by
  induction h with
  | nil => exact .nil
  | leaf hnone _ ih => exact .leaf hnone ih
  | bracket ho hc hcl _ _ ihin ih =>
    obtain ⟨hopening, hclosing⟩ := Brace.isOpening_of_closedBy hcl
    exact .bracket ho hopening hc hclosing ihin ih

/-- One statement: a token that is no bracket, or a bracket up to the one that closes it. -/
inductive Statement : List Token → Prop where
  | leaf {t : Token} : t.brace? = none → Statement [t]
  | bracket {t close : Token} {opening closing : Brace} {inner : List Token} :
      t.brace? = some opening → close.brace? = some closing → opening.closedBy closing = true →
      Balanced inner → Statement (t :: (inner ++ [close]))

/-- One statement by the nesting of its brackets alone. -/
inductive NestedStatement : List Token → Prop where
  | leaf {t : Token} : t.brace? = none → NestedStatement [t]
  | bracket {t close : Token} {opening closing : Brace} {inner : List Token} :
      t.brace? = some opening → opening.isOpening = true → close.brace? = some closing →
      closing.isOpening = false → Nested inner → NestedStatement (t :: (inner ++ [close]))

theorem Statement.nested {tokens : List Token} (h : Statement tokens) : NestedStatement tokens := by
  cases h with
  | leaf hnone => exact .leaf hnone
  | bracket ho hc hcl hin =>
    obtain ⟨hopening, hclosing⟩ := Brace.isOpening_of_closedBy hcl
    exact .bracket ho hopening hc hclosing hin.nested

end Token

namespace Tree

/-- A spine inside a node that stands last under the spine `base`, after `c`. -/
inductive Within (base : List (Frame Node)) (c : Forest Node) : List (Frame Node) → Prop where
  | first {n : Node} : Within base c (⟨c, n, .nil⟩ :: base)
  | deeper {fr : Frame Node} {spine : List (Frame Node)} : Within base c spine →
      Within base c (fr :: spine)

variable {t u : Tree} {fr cur : Frame Node} {base outer rest spine : List (Frame Node)}
  {c d : Forest Node}

theorem Within.length_lt (h : Within base c spine) : base.length < spine.length := by
  induction h with
  | first => exact Nat.lt_succ_self _
  | deeper _ ih => exact Nat.lt_succ_of_lt ih

theorem Within.cases (h : Within base c (cur :: rest)) :
    (cur.left = c ∧ cur.right = .nil ∧ rest = base) ∨ Within base c rest := by
  cases h with
  | first => exact .inl ⟨rfl, rfl, rfl⟩
  | deeper h => exact .inr h

/-- Another node may stand in the place of the innermost. -/
theorem Within.replace (h : Within base c (cur :: rest)) (m : Node) :
    Within base c (⟨cur.left, m, cur.right⟩ :: rest) := by
  cases h with
  | first => exact .first
  | deeper h => exact .deeper h

theorem Within.exists_plug (h : Within base c spine) (d : Forest Node) :
    ∃ n e, plug spine d = plug base (c ++ .node n e .nil) := by
  induction h generalizing d with
  | @first n => exact ⟨n, d, rfl⟩
  | @deeper fr spine _ ih => exact ih (fr.left ++ .node fr.node d fr.right)

/-- The nearest block is inside the statement, or it is the block that the statement stands in. -/
theorem Within.nearestBlock {kept : Forest Node} {block : Frame Node}
    (h : Within (fr :: outer) c (cur :: rest)) (hfr : fr.node.kind = .block ∨ outer = [])
    (hb : Tree.nearestBlock cur.left rest = some (kept, block, spine)) :
    Within (fr :: outer) c (block :: spine) ∨
      (block = fr ∧ spine = outer ∧ kept = c ∧ fr.node.kind = .block) := by
  induction rest generalizing cur with
  | nil => cases hb
  | cons up rest ih =>
    rw [Tree.nearestBlock] at hb
    rcases h.cases with ⟨hleft, -, hbase⟩ | hin
    · obtain ⟨rfl, rfl⟩ := List.cons.inj hbase
      split at hb
      · next hk =>
        cases hb
        exact .inr ⟨rfl, rfl, hleft, (Kind.isBlock_iff _).mp hk⟩
      · next hk =>
        rcases hfr with hblock | rfl
        · exact absurd ((Kind.isBlock_iff _).mpr hblock) hk
        · cases hb
    · split at hb
      · cases hb
        exact .inl hin
      · exact ih hin hb

theorem Within.no_block (h : Within (fr :: outer) c (cur :: rest))
    (hb : Tree.nearestBlock cur.left rest = none) : fr.node.kind ≠ .block := by
  induction rest generalizing cur with
  | nil =>
    have hlt := h.length_lt
    simp at hlt
  | cons up rest ih =>
    rw [Tree.nearestBlock] at hb
    split at hb
    · cases hb
    next hk =>
    rcases h.cases with ⟨-, -, hbase⟩ | hin
    · obtain ⟨rfl, rfl⟩ := List.cons.inj hbase
      exact fun hblock => hk ((Kind.isBlock_iff _).mpr hblock)
    · exact ih hin hb

/-- Where a builder can be after some of the tokens of a statement that began under `fr` after `c`, and
what its tree can be: it is inside the statement's node, or back under `fr`. -/
inductive Place (fr : Frame Node) (outer : List (Frame Node)) (c : Forest Node) (t : Tree)
    (focus : NodeId) : Prop where
  | inside {cur : Frame Node} {rest : List (Frame Node)} {d : Forest Node} :
      Within (fr :: outer) c (cur :: rest) → t.nodes = plug (cur :: rest) d →
      cur.node.id = focus → Place fr outer c t focus
  | back {d : Forest Node} : t.nodes = plug (fr :: outer) (c ++ d) → fr.node.id = focus →
      (d = .nil ∧ fr.node.kind = .block) ∨ (∃ n e, d = .node n e .nil) → Place fr outer c t focus

section Takes
variable {item : Item} {id : NodeId}

theorem Takes.place (ht : Takes t cur rest d item (u, .ok id)) (hw : t.WellFormed)
    (h : t.nodes = plug (cur :: rest) d) (hin : Within (fr :: outer) c (cur :: rest)) :
    Place fr outer c u id := by
  cases ht with
  | leaf hi => exact .inside hin (attach_focus hw h (by simp [hi])) rfl
  | enter hi hb =>
    have hu : (t.attach cur.node item).nodes =
        plug (⟨d, t.entrant cur.node item, .nil⟩ :: cur :: rest) .nil :=
      attach_focus hw h (by simpa [hi] using hb)
    exact .inside hin.deeper hu rfl
  | @close b up around n m d' e hi hb hs hy ha =>
    subst hs
    rcases hin.cases with ⟨hleft, hright, hbase⟩ | hin
    · obtain ⟨rfl, rfl⟩ := List.cons.inj hbase
      refine .back (d := .node m e .nil) ?_ rfl (.inr ⟨m, e, rfl⟩)
      rw [← hleft, ← hright]
      rfl
    · exact .inside (d := cur.left ++ .node m e cur.right) hin rfl rfl

theorem Takes.place_recovered {x : TreeError}
    (ht : Takes t cur rest d item (u, .error (.recovered x id))) (hwu : u.WellFormed)
    (hfr : fr.node.kind = .block ∨ outer = []) (hin : Within (fr :: outer) c (cur :: rest)) :
    Place fr outer c u id := by
  cases ht with
  | @cut b up around n m d' e kept _ block spine hi hb hs hy ha hk =>
    rcases hin.nearestBlock hfr hk with hin | ⟨rfl, rfl, rfl, hblock⟩
    · exact .inside hin rfl rfl
    · exact .back (d := .nil) (by rw [append_nil]) rfl (.inl ⟨rfl, hblock⟩)
  | @abandon b up around n m d' e _ hi hb hs hy ha hk =>
    obtain rfl := hfr.resolve_left (hin.no_block hk)
    obtain ⟨k, g, he⟩ := (hin.replace m).exists_plug e
    exact .back (d := .node k g .nil) he ((hwu.id_eq_rootId_iff he).mpr rfl) (.inr ⟨k, g, rfl⟩)

end Takes

end Tree

namespace Builder
open BracketTree.Tree

variable {b b' : Builder} {fr : Frame Node} {outer : List (Frame Node)} {c d : Forest Node}
  {token : Token} {tokens : List Token}

theorem Steady.underway_focus (h : b.Steady) (hnodes : b.tree.nodes = plug (fr :: outer) c)
    (hid : fr.node.id = b.focus) : Underway Node.Statement (fr :: outer) c := by
  obtain ⟨fr', outer', c', hnodes', hid', hu⟩ := h.underway
  obtain ⟨rfl, rfl, rfl⟩ := spine_unique h.wellFormed.nodup hnodes hnodes' (hid.trans hid'.symm)
  exact hu

theorem Steady.takes (h : b.Steady) (hnodes : b.tree.nodes = plug (fr :: outer) c)
    (hid : fr.node.id = b.focus) (item : Item) :
    Takes b.tree fr outer c item (b.tree.insert b.focus item) :=
  hid ▸ Tree.insert_takes h.wellFormed hnodes (h.underway_focus hnodes hid) item

theorem Steady.level_feed (h : b.Steady) (hr : b.recovers = true)
    (hf : b.feed token = (b', .ok ())) :
    b'.level + [token].countP Token.closes = b.level + [token].countP Token.opens := by
  have hkept := feed_kept hr h.live token
  rw [hf] at hkept
  exact hkept.taken rfl

/-- A builder that recovers, amid a statement that began under `fr` after `c`. -/
structure Amid (fr : Frame Node) (outer : List (Frame Node)) (c : Forest Node) (b : Builder) :
    Prop where
  steady : b.Steady
  recovers : b.recovers = true
  home : fr.node.kind = .block ∨ outer = []
  place : Place fr outer c b.tree b.focus

/-- A token fed while brackets of the statement are open. -/
theorem Amid.feed (h : Amid fr outer c b) (hopen : outer.length < b.level)
    (hf : b.feed token = (b', .ok ())) : Amid fr outer c b' := by
  have hfeeds := h.steady.feeds_of_ok hf
  refine ⟨hfeeds.steady h.steady, hfeeds.recovers.trans h.recovers, h.home, ?_⟩
  have hinside : b.pending = 0 → ∃ cur rest d, Within (fr :: outer) c (cur :: rest) ∧
      b.tree.nodes = plug (cur :: rest) d ∧ cur.node.id = b.focus := by
    intro hzero
    cases h.place with
    | inside hin hnodes hid => exact ⟨_, _, _, hin, hnodes, hid⟩
    | back hnodes hid _ =>
      rw [level_focus h.steady.wellFormed hnodes hid] at hopen
      omega
  cases hfeeds with
  | passed _ _ =>
    rw [discard_tree, discard_focus]
    exact h.place
  | @taken item _ _ _ hzero hins =>
    obtain ⟨cur, rest, d, hin, hnodes, hid⟩ := hinside hzero
    have ht := h.steady.takes hnodes hid item
    rw [hins] at ht
    exact ht.place h.steady.wellFormed hnodes hin
  | @givenUp item u _ _ _ _ hzero hins =>
    obtain ⟨cur, rest, d, hin, hnodes, hid⟩ := hinside hzero
    have ht := h.steady.takes hnodes hid item
    have hwu := (insert_edits b.tree b.focus item).wellFormed h.steady.wellFormed
    rw [hins] at ht hwu
    exact ht.place_recovered hwu h.home hin

/-- Tokens that leave no bracket open and close none that was open before. -/
theorem Amid.feedAll (ht : Token.Nested tokens) (h : Amid fr outer c b)
    (hopen : outer.length < b.level) (hf : b.feedAll tokens = (b', .ok ())) :
    Amid fr outer c b' ∧ b'.level = b.level := by
  induction ht generalizing b b' with
  | nil =>
    cases hf
    exact ⟨h, rfl⟩
  | leaf hnone _ ih =>
    obtain ⟨v, hv, hrest⟩ := feedAll_cons_eq_ok_iff.mp hf
    have hlevel := h.steady.level_feed h.recovers hv
    have hcount := Token.count_of_none hnone
    obtain ⟨hb', hl⟩ := ih (h.feed hopen hv) (by omega) hrest
    exact ⟨hb', by omega⟩
  | bracket ho hopening hc hclosing _ _ ihin ih =>
    obtain ⟨v, hv, hrest⟩ := feedAll_cons_eq_ok_iff.mp hf
    obtain ⟨w, hw, hrest⟩ := feedAll_append_eq_ok_iff.mp hrest
    obtain ⟨x, hx, hrest⟩ := feedAll_cons_eq_ok_iff.mp hrest
    have hup := Token.count_of_opening ho hopening
    have hdown := Token.count_of_closing hc hclosing
    have hv' := h.steady.level_feed h.recovers hv
    obtain ⟨hamid, hw'⟩ := ihin (h.feed hopen hv) (by omega) hw
    have hx' := hamid.steady.level_feed hamid.recovers hx
    obtain ⟨hb', hl⟩ := ih (hamid.feed (by omega) hx) (by omega) hrest
    exact ⟨hb', by omega⟩

/-! ## The whole statement -/

/-- A builder that recovers, between two statements under `fr`, which is the root or a block. -/
structure Between (fr : Frame Node) (outer : List (Frame Node)) (c : Forest Node) (b : Builder) :
    Prop where
  steady : b.Steady
  recovers : b.recovers = true
  pending : b.pending = 0
  nodes : b.tree.nodes = plug (fr :: outer) c
  focus : fr.node.id = b.focus
  home : fr.node.kind = .block ∨ outer = []

theorem Between.level (h : Between fr outer c b) : b.level = outer.length := by
  rw [level_focus h.steady.wellFormed h.nodes h.focus, h.pending, Nat.add_zero]

/-- The first token of a statement. -/
theorem Between.feed (h : Between fr outer c b)
    (hclosing : ∀ brace, token.brace? = some brace → brace.isOpening = true)
    (hf : b.feed token = (b', .ok ())) : Amid fr outer c b' := by
  have hw := h.steady.wellFormed
  have hfeeds := h.steady.feeds_of_ok hf
  refine ⟨hfeeds.steady h.steady, hfeeds.recovers.trans h.recovers, h.home, ?_⟩
  have hside : ∀ {item brace}, Item.ofToken? token = .ok item → item.kind.brace? = some brace →
      brace.isOpening = false → False := by
    intro item brace hi hb ho
    rw [hclosing brace ((Token.brace?_of_item hi).trans hb)] at ho
    cases ho
  cases hfeeds with
  | passed _ hpos =>
    rw [h.pending] at hpos
    cases hpos
  | @taken item _ _ hi _ hins =>
    have ht := h.steady.takes h.nodes h.focus item
    rw [hins] at ht
    cases ht with
    | leaf hnone =>
      exact .back (d := .leaf (b.tree.entrant fr.node item))
        (attach_focus hw h.nodes (by simp [hnone])) rfl (.inr ⟨_, _, rfl⟩)
    | enter hb ho =>
      have hu : (b.tree.attach fr.node item).nodes =
          plug (⟨c, b.tree.entrant fr.node item, .nil⟩ :: fr :: outer) .nil :=
        attach_focus hw h.nodes (by simpa [hb] using ho)
      exact .inside .first hu rfl
    | close hb ho _ _ _ => exact (hside hi hb ho).elim
  | @givenUp item _ _ _ _ hi _ hins =>
    have ht := h.steady.takes h.nodes h.focus item
    rw [hins] at ht
    cases ht with
    | cut hb ho _ _ _ _ => exact (hside hi hb ho).elim
    | abandon hb ho _ _ _ _ => exact (hside hi hb ho).elim

/-- After the last token of a statement. -/
theorem Between.feedAll (h : Between fr outer c b) (ht : Token.NestedStatement tokens)
    (hf : b.feedAll tokens = (b', .ok ())) : Amid fr outer c b' ∧ b'.level = outer.length := by
  have hlevel := h.level
  cases ht with
  | leaf hnone =>
    obtain ⟨v, hv, hrest⟩ := feedAll_cons_eq_ok_iff.mp hf
    cases hrest
    have hcount := Token.count_of_none hnone
    have hl := h.steady.level_feed h.recovers hv
    exact ⟨h.feed (by simp [hnone]) hv, by omega⟩
  | bracket ho hopening hc hclosing hin =>
    obtain ⟨v, hv, hrest⟩ := feedAll_cons_eq_ok_iff.mp hf
    obtain ⟨w, hw, hrest⟩ := feedAll_append_eq_ok_iff.mp hrest
    obtain ⟨x, hx, hrest⟩ := feedAll_cons_eq_ok_iff.mp hrest
    cases hrest
    have hup := Token.count_of_opening ho hopening
    have hdown := Token.count_of_closing hc hclosing
    have hl := h.steady.level_feed h.recovers hv
    have hv' := h.feed (by simpa [ho] using hopening) hv
    obtain ⟨hw', hlw⟩ := hv'.feedAll hin (by omega) hw
    have hlx := hw'.steady.level_feed hw'.recovers hx
    exact ⟨hw'.feed (by omega) hx, by omega⟩

/-- What a builder that was fed a complete statement has done. -/
structure Completes (b b' : Builder) : Prop where
  focus : b'.focus = b.focus
  pending : b'.pending = 0
  added : (∃ n, b.tree.get? b.focus = some n ∧ n.kind = .block ∧
      b'.tree.children b.focus = b.tree.children b.focus) ∨
    ∃ id, b.tree.nextId ≤ id ∧ b'.tree.children b.focus = b.tree.children b.focus ++ [id]
  kept : ∀ id n, b.tree.get? id = some n → b'.tree.get? id = some n
  parent : ∀ id, b.tree.contains id = true → b'.tree.parent? id = b.tree.parent? id
  children : ∀ id, b.tree.contains id = true → id ≠ b.focus →
    b'.tree.children id = b.tree.children id
  scopes : ScopeTable.Extends b.tree.scopes b'.tree.scopes

/-- After a complete statement the builder is back, with one tree more at most. -/
theorem Between.back (h : Between fr outer c b) (ht : Token.NestedStatement tokens)
    (hf : b.feedAll tokens = (b', .ok ())) : ∃ d, b'.tree.nodes = plug (fr :: outer) (c ++ d) ∧
      fr.node.id = b'.focus ∧ b'.pending = 0 ∧
      ((d = .nil ∧ fr.node.kind = .block) ∨ ∃ n e, d = .node n e .nil) := by
  obtain ⟨hamid, hlevel⟩ := h.feedAll ht hf
  have hw' := hamid.steady.wellFormed
  cases hamid.place with
  | inside hin hnodes hid =>
    -- inside the statement a bracket of it would still be open
    have hlt := hin.length_lt
    rw [level_focus hw' hnodes hid] at hlevel
    simp only [List.length_cons] at hlt
    omega
  | @back d hnodes hid hd =>
    rw [level_focus hw' hnodes hid] at hlevel
    exact ⟨d, hnodes, hid, by omega, hd⟩

theorem Between.completes (h : Between fr outer c b) (ht : Token.Statement tokens)
    (hf : b.feedAll tokens = (b', .ok ())) : b.Completes b' := by
  obtain ⟨d, hnodes, hid, hpending, hd⟩ := h.back ht.nested hf
  have hlater := (feedAll_edits b tokens).later h.steady.wellFormed
  have hn := h.steady.wellFormed.nodup
  have hn' := (h.feedAll ht.nested hf).1.steady.wellFormed.nodup
  have hget := get?_focus hn h.nodes
  have hgrow := growsAt_of_plug hn' hn h.nodes hnodes
  have hchildren := children_of_plug hn' hn h.nodes hnodes
  rw [hf] at hlater
  rw [h.focus] at hget hgrow hchildren
  refine ⟨hid.symm.trans h.focus, hpending, ?_, hgrow.kept, fun id hlive => ?_, hgrow.children,
    hlater.scopes⟩
  · rcases hd with ⟨rfl, hk⟩ | ⟨n, e, rfl⟩
    · exact .inl ⟨fr.node, hget, hk, by simpa using hchildren⟩
    · refine .inr ⟨n.id, (hlater.ids n.id ?_).resolve_left ?_, hchildren⟩
      · rw [ids, hnodes, ((preorder_plug_perm _ _).map _).mem_iff]
        simp
      · exact not_mem_ids_of_plug hn' h.nodes hnodes (by simp)
  · rw [parent?, hgrow.lineage id hlive, parent?]

theorem Steady.exists_between (h : b.Steady) (hr : b.recovers = true) (hzero : b.pending = 0)
    (hhome : b.focus = rootId ∨ ∃ n, b.tree.get? b.focus = some n ∧ n.kind = .block) :
    ∃ fr outer c, Between fr outer c b := by
  obtain ⟨fr, outer, c, hnodes, hid, -⟩ := h.underway
  refine ⟨fr, outer, c, h, hr, hzero, hnodes, hid, ?_⟩
  rcases hhome with hroot | ⟨n, hg, hk⟩
  · exact .inr ((h.wellFormed.id_eq_rootId_iff hnodes).mp (hid.trans hroot))
  · rw [← hid, get?_focus h.wellFormed.nodup hnodes] at hg
    cases hg
    exact .inl hk

/-- In any state between statements, whatever was fed before and whatever fails inside: a complete
statement whose tokens are all taken leaves the builder where it was. It adds one node under the
focus, or none if the focus is a block, and every other node stays as it was. -/
theorem completes_of_statement {sourceId : String} {before statement : List Token} {b b' : Builder}
    (hb : b = ((start sourceId true).feedEach before).1) (hzero : b.pending = 0)
    (hhome : b.focus = rootId ∨ ∃ n, b.tree.get? b.focus = some n ∧ n.kind = .block)
    (ht : Token.Statement statement) (hf : b.feedAll statement = (b', .ok ())) :
    b.Completes b' := by
  obtain ⟨hsteady, hr⟩ := (steady_start sourceId true).feedEach rfl before
  subst hb
  obtain ⟨fr, outer, c, hbetween⟩ := hsteady.exists_between hr hzero hhome
  exact hbetween.completes ht hf

/-- Inside a block, after a first statement: the expression without operands fails inside two more
brackets, and all of the statement is given up. -/
theorem completes_of_damaged_statement :
    let before : List Token := [.bare "\x7b", .valued "ID" "a"]
    let statement : List Token := [.bare "(", .bare "PLUS", .bare "(", .bare "exp", .bare ")",
      .valued "ID" "b", .bare ")"]
    let b := ((start "" true).feedEach before).1
    ∃ b', b.feedAll statement = (b', .ok ()) ∧ b'.report.length = 1 ∧ b.Completes b' := by
  intro before statement b
  have hb : b = ((start "" true).feedEach before).1 := rfl
  have hexp : Token.Balanced [.bare "exp"] := .leaf rfl .nil
  have hleaf : Token.Balanced [.valued "ID" "b"] := .leaf rfl .nil
  have hgroup : Token.Balanced [.bare "(", .bare "exp", .bare ")", .valued "ID" "b"] :=
    .bracket rfl rfl rfl hexp hleaf
  have hinner : Token.Balanced [.bare "PLUS", .bare "(", .bare "exp", .bare ")", .valued "ID" "b"] :=
    .leaf rfl hgroup
  have ht : Token.Statement statement := .bracket rfl rfl rfl hinner
  have hblock : ∃ n, b.tree.get? b.focus = some n ∧ n.kind = .block := ⟨_, rfl, rfl⟩
  have hpair : ∀ r : Builder × Except TreeError Unit, r.2.isOk = true → r = (r.1, .ok ()) := by
    rintro ⟨v, e | _⟩ hok
    · cases hok
    · rfl
  have hf := hpair (b.feedAll statement) (by decide +kernel)
  exact ⟨_, hf, by decide +kernel, completes_of_statement hb (by decide) (.inr hblock) ht hf⟩

end Builder
end BracketTree
