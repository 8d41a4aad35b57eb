import BracketTree.Proofs.Builder.Balance
import BracketTree.Proofs.Tree.Intake

/-! A builder always has a tree under construction, whatever it is fed. Under the root of what it
builds stand operands and statements that were given up; without a warning there are operands only. -/

namespace BracketTree
open Forest
set_option autoImplicit false

namespace Builder

structure Steady (b : Builder) : Prop where
  wellFormed : b.tree.WellFormed
  underway : Tree.UnderwayAt Node.Statement b.tree b.focus
  clean : b.report = [] → Tree.UnderwayAt Node.Operand b.tree b.focus

theorem steady_start (sourceId : String) (recovers : Bool) : (start sourceId recovers).Steady := by
  have hu : ∀ P, Tree.UnderwayAt P (start sourceId recovers).tree Tree.rootId := by
    intro P
    exact ⟨⟨.nil, .fresh Tree.rootId ⟨.root, "root", none⟩, .nil⟩, [], .nil, rfl, rfl, .top rfl trivial⟩
  exact ⟨Tree.wellFormed_start, hu _, fun _ => hu _⟩

theorem Steady.live {b : Builder} (h : b.Steady) : b.Focused := by
  obtain ⟨fr, outer, c, hnodes, hid, -⟩ := h.underway
  exact focused_of_spine h.wellFormed hnodes hid

section Discard
variable (b : Builder) (item : Item)

@[simp] theorem discard_tree : (b.discard item).tree = b.tree := by
  rw [discard]
  split <;> rfl

@[simp] theorem discard_focus : (b.discard item).focus = b.focus := by
  rw [discard]
  split <;> rfl

@[simp] theorem discard_report : (b.discard item).report = b.report := by
  rw [discard]
  split <;> rfl

@[simp] theorem discard_recovers : (b.discard item).recovers = b.recovers := by
  rw [discard]
  split <;> rfl

end Discard

section Feed
variable {b : Builder} {token : Token} {item : Item} {u : Tree} {x : TreeError} {id : NodeId}

/-- The warning after the failure `x` of the next token, when work goes on at the node `id` of `u`. -/
def warning (b : Builder) (u : Tree) (x : TreeError) (id : NodeId) : Diagnostic :=
  ⟨.warn, b.sourceId, some b.fed, s!"已恢复的错误: {x.message}", some (u.print id)⟩

theorem feed_of_unknown {e : StructureError} (h : Item.ofToken? token = .error e) :
    b.feed token = ({ b with fed := b.fed + 1 }, .error (.shape e)) := by
  rw [feed, h]

theorem feed_of_pending (h : Item.ofToken? token = .ok item) (hp : 0 < b.pending) :
    b.feed token = ({ b with fed := b.fed + 1 }.discard item, .ok ()) := by
  rw [feed, h]
  exact if_pos hp

variable (h : Item.ofToken? token = .ok item) (hp : b.pending = 0)
include h hp

theorem feed_of_accepted (hins : b.tree.insert b.focus item = (u, .ok id)) :
    b.feed token = ({ b with fed := b.fed + 1, tree := u, focus := id }, .ok ()) := by
  rw [feed, h]
  dsimp only
  rw [if_neg (by omega), hins]

theorem feed_of_refused (hins : b.tree.insert b.focus item = (u, .error (.fatal x))) :
    b.feed token = ({ b with fed := b.fed + 1, tree := u }, .error x) := by
  rw [feed, h]
  dsimp only
  rw [if_neg (by omega), hins]

theorem feed_of_failed (hr : b.recovers = false)
    (hins : b.tree.insert b.focus item = (u, .error (.recovered x id))) :
    b.feed token = ({ b with fed := b.fed + 1, tree := u }, .error x) := by
  rw [feed, h]
  dsimp only
  rw [if_neg (by omega), hins]
  exact if_neg (by simp [hr])

theorem feed_of_recovered (hr : b.recovers = true)
    (hins : b.tree.insert b.focus item = (u, .error (.recovered x id))) :
    b.feed token =
      ({ b with
          fed := b.fed + 1
          tree := u
          focus := id
          pending := (((b.tree.lineage b.focus).map Node.id).idxOf? id).elim 0 (· - 1)
          report := b.report ++ [b.warning u x id] },
        .ok ()) := by
  rw [feed, h]
  dsimp only
  rw [if_neg (by omega), hins]
  exact if_pos hr

end Feed

theorem feed_tree (b : Builder) (token : Token) : (b.feed token).1.tree = b.tree ∨
    ∃ item, (b.feed token).1.tree = (b.tree.insert b.focus item).1 := by
  rw [Builder.feed]
  cases Item.ofToken? token with
  | error e => exact .inl rfl
  | ok item =>
    dsimp only
    split
    · exact .inl (discard_tree _ _)
    · refine .inr ⟨item, ?_⟩
      rcases b.tree.insert b.focus item with ⟨u, (x | ⟨x, id⟩) | id⟩
      · rfl
      · dsimp only [resume]
        split <;> rfl
      · rfl

theorem feed_edits (b : Builder) (token : Token) : Tree.Edits b.tree (b.feed token).1.tree := by
  rcases b.feed_tree token with h | ⟨item, h⟩
  · rw [h]
  · rw [h]
    exact Tree.insert_edits b.tree b.focus item

theorem feedAll_edits (b : Builder) (tokens : List Token) :
    Tree.Edits b.tree (b.feedAll tokens).1.tree := by
  induction tokens generalizing b with
  | nil => exact .refl
  | cons token rest ih =>
    have hstep := feed_edits b token
    rw [Builder.feedAll]
    generalize b.feed token = r at hstep
    obtain ⟨v, e | _⟩ := r
    · exact hstep
    · exact hstep.trans (ih v)

/-- What one token can do, given that a failed setup is not handed on: the token is refused, passed
over or inserted, or the statement is given up with a warning. -/
inductive Feeds (b : Builder) (token : Token) : Builder × Except TreeError Unit → Prop where
  | refused {e : TreeError} : Feeds b token ({ b with fed := b.fed + 1 }, .error e)
  | passed {item : Item} : Item.ofToken? token = .ok item → 0 < b.pending →
      Feeds b token ({ b with fed := b.fed + 1 }.discard item, .ok ())
  | taken {item : Item} {u : Tree} {id : NodeId} : Item.ofToken? token = .ok item →
      b.pending = 0 → b.tree.insert b.focus item = (u, .ok id) →
      Feeds b token ({ b with fed := b.fed + 1, tree := u, focus := id }, .ok ())
  | givenUp {item : Item} {u : Tree} {x : TreeError} {id : NodeId} {warning : Diagnostic} :
      Item.ofToken? token = .ok item → b.pending = 0 →
      b.tree.insert b.focus item = (u, .error (.recovered x id)) →
      Feeds b token
        ({ b with
            fed := b.fed + 1
            tree := u
            focus := id
            pending := (((b.tree.lineage b.focus).map Node.id).idxOf? id).elim 0 (· - 1)
            report := b.report ++ [warning] },
          .ok ())

theorem Steady.insert_takes {b : Builder} (h : b.Steady) (item : Item) :
    ∃ fr outer c, b.tree.nodes = plug (fr :: outer) c ∧ fr.node.id = b.focus ∧
      Tree.Underway Node.Statement (fr :: outer) c ∧
      Tree.Takes b.tree fr outer c item (b.tree.insert b.focus item) := by
  obtain ⟨fr, outer, c, hnodes, hid, hu⟩ := h.underway
  exact ⟨fr, outer, c, hnodes, hid, hu, hid ▸ Tree.insert_takes h.wellFormed hnodes hu item⟩

theorem Steady.feeds {b : Builder} (h : b.Steady) (token : Token)
    (hr : b.recovers = true ∨ (b.feed token).2 = .ok ()) : Feeds b token (b.feed token) := by
  rw [feed] at hr ⊢
  cases hi : Item.ofToken? token with
  | error e => exact .refused
  | ok item =>
    rw [hi] at hr
    dsimp only at hr ⊢
    split at hr
    · next hp =>
      rw [if_pos hp]
      exact .passed hi hp
    · next hp =>
      have hzero : b.pending = 0 := Nat.eq_zero_of_not_pos hp
      rw [if_neg hp]
      rcases hins : b.tree.insert b.focus item with ⟨u, (x | ⟨x, id⟩) | id⟩
      · obtain ⟨fr, outer, c, -, -, -, ht⟩ := h.insert_takes item
        rw [hins] at ht
        rw [ht.refused]
        exact .refused
      · have hrec : b.recovers = true := by
          rcases hr with hrec | hok
          · exact hrec
          · rw [hins] at hok
            dsimp only [resume] at hok
            split at hok
            · assumption
            · cases hok
        dsimp only [resume]
        rw [if_pos hrec]
        exact .givenUp hi hzero hins
      · exact .taken hi hzero hins

theorem Feeds.steady {b b' : Builder} {token : Token} {r : Except TreeError Unit}
    (hf : Feeds b token (b', r)) (h : b.Steady) : b'.Steady := by
  cases hf with
  | refused => exact ⟨h.wellFormed, h.underway, h.clean⟩
  | passed _ _ =>
    refine ⟨?_, ?_, ?_⟩
    · rw [discard_tree]
      exact h.wellFormed
    · rw [discard_tree, discard_focus]
      exact h.underway
    · rw [discard_tree, discard_focus, discard_report]
      exact h.clean
  | @taken item u id _ _ hins =>
    have hwu := (Tree.insert_edits b.tree b.focus item).wellFormed h.wellFormed
    rw [hins] at hwu
    have hstep : ∀ P, (∀ n c, Node.Operand n c → P n c) → Tree.UnderwayAt P b.tree b.focus →
        Tree.UnderwayAt P u id := by
      rintro P hP ⟨fr, outer, c, hnodes, hid, hu⟩
      have ht := Tree.insert_takes h.wellFormed hnodes hu item
      rw [hid, hins] at ht
      exact ht.accepted h.wellFormed hnodes hu hP
    exact ⟨hwu, hstep _ (fun _ _ => .operand) h.underway,
      fun hreport => hstep _ (fun _ _ ho => ho) (h.clean hreport)⟩
  | @givenUp item u x id warning _ _ hins =>
    have hwu := (Tree.insert_edits b.tree b.focus item).wellFormed h.wellFormed
    rw [hins] at hwu
    obtain ⟨fr, outer, c, -, -, hu, ht⟩ := h.insert_takes item
    rw [hins] at ht
    refine ⟨hwu, ht.recovered hwu hu, ?_⟩
    intro hreport
    simp at hreport

theorem Feeds.recovers {b b' : Builder} {token : Token} {r : Except TreeError Unit}
    (hf : Feeds b token (b', r)) : b'.recovers = b.recovers := by
  cases hf with
  | passed _ _ => exact discard_recovers _ _
  | _ => rfl

theorem Steady.feeds_of_ok {b v : Builder} (h : b.Steady) {token : Token}
    (hf : b.feed token = (v, .ok ())) : Feeds b token (v, .ok ()) := by
  rw [← hf]
  exact h.feeds token (.inr (by rw [hf]))

theorem Steady.of_feed {b v : Builder} (h : b.Steady) {token : Token}
    (hf : b.feed token = (v, .ok ())) : v.Steady :=
  (h.feeds_of_ok hf).steady h

theorem Steady.feedEach {b : Builder} (h : b.Steady) (hr : b.recovers = true)
    (tokens : List Token) : (b.feedEach tokens).1.Steady ∧
      (b.feedEach tokens).1.recovers = true := by
  induction tokens generalizing b with
  | nil => exact ⟨h, hr⟩
  | cons token rest ih =>
    have hf := h.feeds token (.inl hr)
    rw [Builder.feedEach]
    generalize b.feed token = r at hf
    obtain ⟨b', e | _⟩ := r
    · exact ih (hf.steady h) (hf.recovers.trans hr)
    · exact ih (hf.steady h) (hf.recovers.trans hr)

theorem feedAll_cons_eq_ok_iff {b b' : Builder} {token : Token} {rest : List Token} :
    b.feedAll (token :: rest) = (b', .ok ()) ↔
      ∃ v, b.feed token = (v, .ok ()) ∧ v.feedAll rest = (b', .ok ()) := by
  rw [Builder.feedAll]
  rcases b.feed token with ⟨v, e | _⟩ <;> simp

theorem feedAll_append_eq_ok_iff {b b' : Builder} {tokens rest : List Token} :
    b.feedAll (tokens ++ rest) = (b', .ok ()) ↔
      ∃ v, b.feedAll tokens = (v, .ok ()) ∧ v.feedAll rest = (b', .ok ()) := by
  induction tokens generalizing b with
  | nil => simp [Builder.feedAll]
  | cons token tokens ih =>
    simp only [List.cons_append, feedAll_cons_eq_ok_iff, ih]
    constructor
    · rintro ⟨v, hv, w, hw, hrest⟩
      exact ⟨w, ⟨v, hv, hw⟩, hrest⟩
    · rintro ⟨w, ⟨v, hv, hw⟩, hrest⟩
      exact ⟨v, hv, w, hw, hrest⟩

theorem Steady.feedAll {b b' : Builder} (h : b.Steady) {tokens : List Token}
    (hf : b.feedAll tokens = (b', .ok ())) : b'.Steady := by
  induction tokens generalizing b with
  | nil =>
    cases hf
    exact h
  | cons token rest ih =>
    obtain ⟨v, hv, hrest⟩ := feedAll_cons_eq_ok_iff.mp hf
    exact ih (h.of_feed hv) hrest

theorem finish_eq_ok_iff {b : Builder} {built : Built} : b.finish = .ok built ↔
    (b.focus = Tree.rootId ∧ b.pending = 0) ∧ built = ⟨b.tree, b.report⟩ := by
  rw [Builder.finish]
  split
  · next h => simp [h, eq_comm]
  · next h => simp [h]

end Builder

theorem build_eq_ok_iff {sourceId : String} {recovers : Bool} {tokens : List Token} {built : Built} :
    build sourceId recovers tokens = .ok built ↔
      ∃ b, (Builder.start sourceId recovers).feedAll tokens = (b, .ok ()) ∧ b.finish = .ok built := by
  rw [build]
  rcases (Builder.start sourceId recovers).feedAll tokens with ⟨b, e | _⟩ <;> simp

/-- What a finished input leaves: a root without marks, and under it statements. -/
structure Built.Settled (built : Built) : Prop where
  wellFormed : built.tree.WellFormed
  root : ∃ r, built.tree.get? Tree.rootId = some r ∧ r.marks = .unmarked
  statements : (built.tree.below Tree.rootId).Tops Node.Statement
  clean : built.report = [] → (built.tree.below Tree.rootId).Tops Node.Operand

theorem Tree.UnderwayAt.root {P : Node → Forest Node → Prop} {t : Tree} {focus : NodeId}
    (h : t.UnderwayAt P focus) (hw : t.WellFormed) (hf : focus = rootId) :
    (∃ r, t.get? rootId = some r ∧ r.marks = .unmarked) ∧ (t.below rootId).Tops P := by
  obtain ⟨fr, outer, c, hnodes, hid, hu⟩ := h
  have hroot := hid.trans hf
  obtain rfl := (hw.id_eq_rootId_iff hnodes).mp hroot
  rw [← hroot, get?_focus hw.nodup hnodes, below_focus hw.nodup hnodes]
  cases hu with
  | top hr hc => exact ⟨⟨_, rfl, hr⟩, hc⟩

theorem settled_of_build {sourceId : String} {recovers : Bool} {tokens : List Token} {built : Built}
    (h : build sourceId recovers tokens = .ok built) : built.Settled := by
  obtain ⟨b, hfeed, hfinish⟩ := build_eq_ok_iff.mp h
  obtain ⟨hend, rfl⟩ := Builder.finish_eq_ok_iff.mp hfinish
  have hb := (Builder.steady_start sourceId recovers).feedAll hfeed
  obtain ⟨hroot, hc⟩ := hb.underway.root hb.wellFormed hend.1
  exact ⟨hb.wellFormed, hroot, hc, fun hr => ((hb.clean hr).root hb.wellFormed hend.1).2⟩

end BracketTree
