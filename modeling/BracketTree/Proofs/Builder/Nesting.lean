import BracketTree.Proofs.Builder.Locality

/-! The brackets of an input that is accepted. They nest, and a bracket is closed by one of its own
shape, save where the closing one is passed over with a damaged statement: there brackets are counted
and their shapes are not looked at. -/

namespace BracketTree
open Forest
set_option autoImplicit false

namespace Token

/-- The brackets of the tokens nest. The flag of a token says that it was passed over; where it was
not, a closing bracket has the shape of the one that it closes. -/
inductive Nests : List (Token × Bool) → Prop where
  | nil : Nests []
  | leaf {t : Token} {passed : Bool} {rest : List (Token × Bool)} : t.brace? = none → Nests rest →
      Nests ((t, passed) :: rest)
  | bracket {t close : Token} {passed passed' : Bool} {opening closing : Brace}
      {inner rest : List (Token × Bool)} : t.brace? = some opening → opening.isOpening = true →
      close.brace? = some closing → closing.isOpening = false →
      (passed' = false → opening.closedBy closing = true) → Nests inner → Nests rest →
      Nests ((t, passed) :: (inner ++ (close, passed') :: rest))

/-- Where nothing is passed over all shapes agree. -/
theorem Nests.balanced {tokens : List (Token × Bool)} (h : Nests tokens)
    (hall : ∀ x ∈ tokens, x.2 = false) : Balanced (tokens.map Prod.fst) := by
  induction h with
  | nil => exact .nil
  | leaf hnone _ ih => exact .leaf hnone (ih fun x hx => hall x (List.mem_cons_of_mem _ hx))
  | @bracket t close passed passed' opening closing inner rest ho hopening hc hclosing hcl _ _
      ihin ih =>
    have hclose := hall (close, passed') (by simp)
    rw [List.map_cons, List.map_append, List.map_cons]
    exact .bracket ho hc (hcl hclose) (ihin fun x hx => hall x (by simp [hx]))
      (ih fun x hx => hall x (by simp [hx]))

/-- The tokens close the brackets of `stack`, the innermost first, and every bracket that they open. -/
def Closes : List Brace → List (Token × Bool) → Prop
  | [], tokens => Nests tokens
  | opening :: stack, tokens => ∃ inner close passed closing rest,
      tokens = inner ++ (close, passed) :: rest ∧ Nests inner ∧ close.brace? = some closing ∧
        closing.isOpening = false ∧ (passed = false → opening.closedBy closing = true) ∧
        Closes stack rest

variable {t : Token} {passed : Bool} {b o : Brace} {stack : List Brace}
  {rest : List (Token × Bool)}

theorem Closes.prepend (h : Closes stack rest) (front : List (Token × Bool))
    (hfront : ∀ rest, Nests rest → Nests (front ++ rest)) : Closes stack (front ++ rest) := by
  cases stack with
  | nil => exact hfront rest h
  | cons opening stack =>
    obtain ⟨inner, close, passed, closing, rest, rfl, hin, hc, hclosing, hcl, hrest⟩ := h
    exact ⟨front ++ inner, close, passed, closing, rest, (List.append_assoc ..).symm,
      hfront inner hin, hc, hclosing, hcl, hrest⟩

theorem Closes.leaf (hnone : t.brace? = none) (h : Closes stack rest) :
    Closes stack ((t, passed) :: rest) :=
  h.prepend [(t, passed)] fun _ => .leaf hnone

theorem Closes.opening (ht : t.brace? = some b) (hb : b.isOpening = true)
    (h : Closes (b :: stack) rest) : Closes stack ((t, passed) :: rest) := by
  obtain ⟨inner, close, passed', closing, rest, rfl, hin, hc, hclosing, hcl, hrest⟩ := h
  have hall := hrest.prepend ((t, passed) :: (inner ++ [(close, passed')])) (by
    intro rest hrest
    rw [List.cons_append, List.append_assoc]
    exact .bracket ht hb hc hclosing hcl hin hrest)
  rw [List.cons_append, List.append_assoc] at hall
  exact hall

theorem Closes.closing (ht : t.brace? = some b) (hb : b.isOpening = false)
    (hcl : passed = false → o.closedBy b = true) (h : Closes stack rest) :
    Closes (o :: stack) ((t, passed) :: rest) :=
  ⟨[], t, passed, b, rest, rfl, .nil, ht, hb, hcl, h⟩

end Token

namespace Tree

/-- The brackets on a spine, innermost first. -/
def braces (spine : List (Frame Node)) : List Brace := spine.filterMap fun fr => fr.node.kind.brace?

variable {P : Node → Forest Node → Prop} {t : Tree} {fr up : Frame Node}
  {outer skipped rest : List (Frame Node)} {c d : Forest Node} {n m : Node} {b : Brace}

theorem braces_cons (h : fr.node.kind.brace? = some b) : braces (fr :: outer) = b :: braces outer :=
  List.filterMap_cons_some h

theorem braces_root (hw : t.WellFormed) (h : t.nodes = plug [fr] c) : braces [fr] = [] := by
  obtain ⟨inner, r, hspine, -, hkind⟩ := hw.spine_eq h (List.cons_ne_nil _ _)
  cases inner with
  | nil =>
    rw [hspine, List.nil_append, braces, List.filterMap_cons_none (by rw [hkind]; rfl),
      List.filterMap_nil]
  | cons f inner => simp at hspine

theorem Underway.length_braces (h : Underway P (fr :: (skipped ++ up :: rest)) c) :
    (braces skipped).length = skipped.length := by
  rw [braces, List.filterMap_length_eq_length]
  intro g hg
  obtain ⟨b, hb⟩ := (h.awaits g hg).bracket
  rw [hb]
  rfl

theorem Underway.braces_append (h : Underway P (fr :: (skipped ++ up :: rest)) c) :
    skipped.length ≤ (braces (skipped ++ up :: rest)).length ∧
      (braces (skipped ++ up :: rest)).drop skipped.length = braces (up :: rest) := by
  have hsplit : braces (skipped ++ up :: rest) = braces skipped ++ braces (up :: rest) :=
    List.filterMap_append
  rw [hsplit, ← h.length_braces]
  exact ⟨by simp, List.drop_left⟩

theorem Yields.closedBy (h : Yields n c b m d) :
    ∃ opening, n.kind.brace? = some opening ∧ opening.closedBy b = true := by
  cases h with
  | keep ho hcl _ => exact ⟨_, ho, hcl⟩
  | elide ho hcl _ _ => exact ⟨_, ho, hcl⟩

end Tree

namespace Builder
open BracketTree.Tree

/-- The tokens of an input, each with whether the builder passes over it. -/
def passing (b : Builder) : List Token → List (Token × Bool)
  | [] => []
  | token :: rest => (token, decide (0 < b.pending)) :: (b.feed token).1.passing rest

/-- The brackets that are open, innermost first: those of a damaged statement that are still to be
passed over, then those of the tree. -/
structure Opened (b : Builder) (stack : List Brace) : Prop where
  covers : b.pending ≤ stack.length
  tree : ∃ fr outer c, b.tree.nodes = plug (fr :: outer) c ∧ fr.node.id = b.focus ∧
    stack.drop b.pending = braces (fr :: outer)

variable {b v : Builder} {token : Token} {tokens : List Token} {stack : List Brace}

theorem Opened.discard (h : b.Opened stack) (hp : 0 < b.pending) {item : Item}
    (hi : token.brace? = item.kind.brace?) : ∃ next, (b.discard item).Opened next ∧
      ∀ rest, Token.Closes next rest → Token.Closes stack ((token, true) :: rest) := by
  rw [Builder.discard]
  cases hb : item.kind.brace? with
  | none => exact ⟨stack, h, fun rest => .leaf (hi.trans hb)⟩
  | some brace =>
    dsimp only
    cases ho : brace.isOpening with
    | true =>
      refine ⟨brace :: stack, ⟨?_, ?_⟩, fun rest => .opening (hi.trans hb) ho⟩
      · exact Nat.succ_le_succ h.covers
      · exact h.tree
    | false =>
      have hcovers := h.covers
      cases stack with
      | nil =>
        rw [List.length_nil] at hcovers
        omega
      | cons opening stack =>
        refine ⟨stack, ⟨?_, ?_⟩, fun rest => .closing (hi.trans hb) ho (by simp)⟩
        · rw [List.length_cons] at hcovers
          dsimp only
          rw [if_neg Bool.false_ne_true]
          omega
        · obtain ⟨fr, outer, c, hnodes, hid, hdrop⟩ := h.tree
          refine ⟨fr, outer, c, hnodes, hid, ?_⟩
          dsimp only
          rw [if_neg Bool.false_ne_true, ← hdrop]
          obtain ⟨k, hk⟩ := Nat.exists_eq_add_of_lt hp
          rw [hk]
          simp

/-- A token that is taken is read off the brackets that are open before and after it. -/
theorem Opened.feed (h : b.Opened stack) (hs : b.Steady) (hf : b.feed token = (v, .ok ())) :
    ∃ next, v.Opened next ∧ ∀ rest, Token.Closes next rest →
      Token.Closes stack ((token, decide (0 < b.pending)) :: rest) := by
  obtain ⟨fr, outer, c, hnodes, hid, hdrop⟩ := h.tree
  cases hs.feeds_of_ok hf with
  | @passed item hi hp =>
    have hnext : { b with fed := b.fed + 1 }.Opened stack := ⟨h.covers, h.tree⟩
    rw [decide_eq_true hp]
    exact hnext.discard hp (Token.brace?_of_item hi)
  | @taken item u id hi hzero hins =>
    have ht := hs.takes hnodes hid item
    have hw := hs.wellFormed
    have hbrace := Token.brace?_of_item hi
    rw [hins] at ht
    rw [hzero, List.drop_zero] at hdrop
    cases ht with
    | leaf hnone =>
      refine ⟨stack, ⟨h.covers, fr, outer, _, attach_focus hw hnodes (by simp [hnone]), rfl, ?_⟩,
        fun rest => .leaf (hbrace.trans hnone)⟩
      dsimp only
      rw [hzero, List.drop_zero, hdrop]
    | @enter brace hb ho =>
      refine ⟨brace :: stack, ⟨Nat.le_succ_of_le h.covers, ⟨c, b.tree.entrant fr.node item, .nil⟩,
        fr :: outer, .nil, attach_focus hw hnodes (by simpa [hb] using ho), rfl, ?_⟩,
        fun rest => .opening (hbrace.trans hb) ho⟩
      dsimp only
      rw [hzero, List.drop_zero, hdrop]
      exact (braces_cons hb).symm
    | @close brace up around n m d e hb ho hout hy _ =>
      subst hout
      obtain ⟨opening, hopening, hcl⟩ := hy.closedBy
      obtain rfl : stack = opening :: braces (up :: around) :=
        hdrop.trans (braces_cons hopening)
      refine ⟨_, ⟨?_, up, around, _, rfl, rfl, ?_⟩, fun rest => .closing (hbrace.trans hb) ho
        fun _ => hcl⟩
      · dsimp only
        rw [hzero]
        exact Nat.zero_le _
      · dsimp only
        rw [hzero, List.drop_zero]
  | @givenUp item u x id warning hi hzero hins =>
    have ht := hs.takes hnodes hid item
    have hins' := insert_focus hs.wellFormed hnodes item
    have hbrace := Token.brace?_of_item hi
    rw [hid, hins] at hins'
    rw [hins] at ht
    rw [hzero, List.drop_zero] at hdrop
    obtain ⟨brace, n, d, hb, ho, hy⟩ : ∃ brace n d, item.kind.brace? = some brace ∧
        brace.isOpening = false ∧ Yields fr.node c brace n d := by
      cases ht with
      | cut hb ho _ hy _ _ => exact ⟨_, _, _, hb, ho, hy⟩
      | abandon hb ho _ hy _ _ => exact ⟨_, _, _, hb, ho, hy⟩
    obtain ⟨opening, hopening, hcl⟩ := hy.closedBy
    obtain rfl : stack = opening :: braces outer := hdrop.trans (braces_cons hopening)
    cases hins' with
    | @resume _ _ skipped around up _ d _ _ hout hu =>
      subst hout
      have hpos := idxOf?_lineage hs.wellFormed.nodup hnodes rfl
      rw [hid] at hpos
      obtain ⟨hcovers, hbraces⟩ := (hs.underway_focus hnodes hid).braces_append
      refine ⟨braces (skipped ++ up :: around), ⟨?_, up, around, d, hu, rfl, ?_⟩,
        fun rest => .closing (hbrace.trans hb) ho fun _ => hcl⟩
      · dsimp only
        rw [hpos]
        exact hcovers
      · dsimp only
        rw [hpos]
        exact hbraces

/-- What is left of an input that is accepted closes the brackets that are open. -/
theorem Opened.closes (h : b.Opened stack) (hs : b.Steady) (hf : b.feedAll tokens = (v, .ok ()))
    (hroot : v.focus = rootId) (hzero : v.pending = 0) :
    Token.Closes stack (b.passing tokens) := by
  induction tokens generalizing b stack with
  | nil =>
    cases hf
    obtain ⟨fr, outer, c, hnodes, hid, hdrop⟩ := h.tree
    obtain rfl := (hs.wellFormed.id_eq_rootId_iff hnodes).mp (hid.trans hroot)
    rw [hzero, List.drop_zero, braces_root hs.wellFormed hnodes] at hdrop
    subst hdrop
    exact .nil
  | cons token rest ih =>
    obtain ⟨w, hw, hrest⟩ := feedAll_cons_eq_ok_iff.mp hf
    obtain ⟨next, hnext, hcloses⟩ := h.feed hs hw
    rw [passing, hw]
    exact hcloses _ (ih hnext (hs.of_feed hw) hrest)

/-! ## Inputs without a warning -/

theorem report_of_feed (hs : b.Steady) (hf : b.feed token = (v, .ok ())) (hr : v.report = []) :
    b.report = [] ∧ (b.pending = 0 → v.pending = 0) := by
  cases hs.feeds_of_ok hf with
  | passed _ hp =>
    rw [discard_report] at hr
    exact ⟨hr, fun hzero => by omega⟩
  | taken _ _ _ => exact ⟨hr, fun hzero => hzero⟩
  | givenUp _ _ _ => simp at hr

theorem report_of_feedAll (hs : b.Steady) (hf : b.feedAll tokens = (v, .ok ())) (hr : v.report = []) :
    b.report = [] ∧ (b.pending = 0 → ∀ x ∈ b.passing tokens, x.2 = false) := by
  induction tokens generalizing b with
  | nil =>
    cases hf
    exact ⟨hr, fun _ => by simp [passing]⟩
  | cons token rest ih =>
    obtain ⟨w, hw, hrest⟩ := feedAll_cons_eq_ok_iff.mp hf
    obtain ⟨hquiet, hall⟩ := ih (hs.of_feed hw) hrest
    obtain ⟨hb, hnext⟩ := report_of_feed hs hw hquiet
    refine ⟨hb, fun hzero => ?_⟩
    rw [passing, hw, List.forall_mem_cons]
    exact ⟨by simp [hzero], hall (hnext hzero)⟩

theorem map_passing (b : Builder) (tokens : List Token) :
    (b.passing tokens).map Prod.fst = tokens := by
  induction tokens generalizing b with
  | nil => rfl
  | cons token rest ih => rw [passing, List.map_cons, ih]

end Builder

/-- The brackets of an input that is accepted nest, and a bracket that is closed within the tree is
closed by one of its shape; in what is passed over after a failure shapes are not compared. Without a
warning all shapes agree. -/
theorem nests_of_build {sourceId : String} {recovers : Bool} {tokens : List Token} {built : Built}
    (h : build sourceId recovers tokens = .ok built) :
    Token.Nests ((Builder.start sourceId recovers).passing tokens) ∧
      (built.report = [] → Token.Balanced tokens) := by
  obtain ⟨b, hf, hend⟩ := build_eq_ok_iff.mp h
  obtain ⟨⟨hroot, hzero⟩, rfl⟩ := Builder.finish_eq_ok_iff.mp hend
  have hstart := Builder.steady_start sourceId recovers
  have hopened : (Builder.start sourceId recovers).Opened [] :=
    ⟨Nat.le_refl 0, ⟨.nil, .fresh Tree.rootId ⟨.root, "root", none⟩, .nil⟩, [], .nil, rfl, rfl, rfl⟩
  have hnests : Token.Nests _ := hopened.closes hstart hf hroot hzero
  refine ⟨hnests, fun hreport => ?_⟩
  have hbalanced := hnests.balanced ((Builder.report_of_feedAll hstart hf hreport).2 rfl)
  rw [Builder.map_passing] at hbalanced
  exact hbalanced

/-- The expression fails inside two groups, and the outer one is passed over up to the square bracket;
the braces after it are closed within the tree. -/
theorem nests_after_recovery :
    let tokens : List Token := [.bare "(", .bare "(", .bare "exp", .bare ")", .bare "]",
      .bare "\x7b", .bare "\x7d"]
    (∃ built, build "" true tokens = .ok built) ∧
      Token.Nests ((Builder.start "" true).passing tokens) ∧
      ((Builder.start "" true).passing tokens).map Prod.snd =
        [false, false, false, false, true, false, false] := by
  intro tokens
  obtain ⟨built, h⟩ : ∃ built, build "" true tokens = .ok built := ⟨_, rfl⟩
  exact ⟨⟨built, h⟩, (nests_of_build h).1, by decide +kernel⟩

/-! ## Shapes in what is passed over -/

namespace Token

/-- Of each shape as many brackets are closed as are opened. -/
theorem Balanced.count {tokens : List Token} (h : Balanced tokens) (shape : Shape) :
    (tokens.countP fun t => t.brace? = some ⟨shape, .opening⟩) =
      tokens.countP fun t => t.brace? = some ⟨shape, .closing⟩ := by
  induction h with
  | nil => rfl
  | leaf hnone _ ih => simp [hnone, ih]
  | @bracket t close opening closing inner rest ho hc hcl _ _ ihin ih =>
    obtain ⟨s, side⟩ := opening
    obtain ⟨s', side'⟩ := closing
    obtain ⟨rfl, rfl, rfl⟩ := (Brace.closedBy_iff _ _).mp hcl
    simp [List.countP_cons, ho, hc, ihin, ih]
    omega

end Token

/-- After the failure of the expression a square bracket closes the outer group. -/
theorem unbalanced_after_recovery :
    ¬∀ tokens built, build "" true tokens = .ok built → Token.Balanced tokens := by
  intro h
  have hbalanced := h [.bare "(", .bare "(", .bare "exp", .bare ")", .bare "]"] _ rfl
  have hcount := hbalanced.count .square
  revert hcount
  decide

end BracketTree
