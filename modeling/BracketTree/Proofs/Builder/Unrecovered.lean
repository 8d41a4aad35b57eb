import BracketTree.Proofs.Builder.FirstFailure
import BracketTree.Proofs.Builder.Omission
import BracketTree.Proofs.Tree.Breaks

/-! Building without recovery. A failed setup is returned as an error, but the tree is not what it was
before. When the focus is gone, every later token is refused. -/

namespace BracketTree
open Forest
set_option autoImplicit false

namespace Builder

/-- The nodes that the token takes out of the tree when it makes a setup fail. -/
def lost (b : Builder) (token : Token) : List NodeId :=
  match b.setupFailure? token with
  | none => []
  | some _ => b.tree.torn b.focus

/-- A builder that does not recover: it never passes over tokens and has nothing to report, and as
long as its focus is live the focus stands last. -/
structure Direct (b : Builder) : Prop where
  wellFormed : b.tree.WellFormed
  recovers : b.recovers = false
  pending : b.pending = 0
  report : b.report = []
  last : b.tree.contains b.focus = true → b.tree.LastAt b.focus

variable {b : Builder} {token : Token} {e : TreeError}

theorem direct_start (sourceId : String) : (start sourceId false).Direct := by
  refine ⟨Tree.wellFormed_start, rfl, rfl, rfl, fun _ => ?_⟩
  refine ⟨⟨.nil, _, .nil⟩, [], .nil, rfl, rfl, ?_⟩
  simp

/-- What one token can do to a builder that does not recover. -/
inductive Direct.Feeds (b : Builder) (token : Token) : Builder × Except TreeError Unit → Prop where
  | refused {e : TreeError} : b.setupFailure? token = none →
      Direct.Feeds b token ({ b with fed := b.fed + 1 }, .error e)
  | taken {u : Tree} {id : NodeId} : b.setupFailure? token = none →
      b.tree.contains b.focus = true → u.WellFormed → u.LastAt id →
      Direct.Feeds b token ({ b with fed := b.fed + 1, tree := u, focus := id }, .ok ())
  | failed {e : TreeError} {u : Tree} {fr : Frame Node} {outer : List (Frame Node)}
      {c : Forest Node} : b.setupFailure? token = some e → u.WellFormed →
      b.tree.nodes = plug (fr :: outer) c → fr.node.id = b.focus →
      (∀ g ∈ fr :: outer, g.right = .nil) → Tree.Breaks fr outer c u →
      Direct.Feeds b token ({ b with fed := b.fed + 1, tree := u }, .error e)

theorem Direct.feeds (h : b.Direct) (token : Token) : Direct.Feeds b token (b.feed token) := by
  cases hi : Item.ofToken? token with
  | error x =>
    rw [feed_of_unknown hi]
    exact .refused (by rw [setupFailure?, hi])
  | ok item =>
    have hfail := setupFailure?_of_item hi h.pending
    by_cases hlive : b.tree.contains b.focus = true
    · obtain ⟨fr, outer, c, hnodes, hid, hlast⟩ := h.last hlive
      have hwu := (Tree.insert_edits b.tree b.focus item).wellFormed h.wellFormed
      rcases hins : b.tree.insert b.focus item with ⟨u, (x | ⟨x, id⟩) | id⟩
      · have hsame := Tree.insert_focus h.wellFormed hnodes item
        rw [hid, hins] at hsame
        rw [feed_of_refused hi h.pending hins]
        rw [hins] at hfail
        cases hsame
        exact .refused hfail
      · rw [feed_of_failed hi h.pending h.recovers hins]
        rw [hins] at hwu hfail
        rw [← hid] at hins
        exact .failed hfail hwu hnodes hid hlast (Tree.insert_breaks h.wellFormed hnodes hins)
      · rw [feed_of_accepted hi h.pending hins]
        rw [hins] at hwu hfail
        rw [← hid] at hins
        exact .taken hfail hlive hwu (Tree.insert_lastAt h.wellFormed hnodes hlast hins)
    · have hins := Tree.insert_of_dead (Option.not_isSome_iff_eq_none.mp hlive) item
      rw [feed_of_refused hi h.pending hins]
      rw [hins] at hfail
      exact .refused hfail

theorem Direct.feed (h : b.Direct) (token : Token) : (b.feed token).1.Direct := by
  have hf := h.feeds token
  generalize b.feed token = r at hf
  cases hf with
  | refused _ => exact ⟨h.wellFormed, h.recovers, h.pending, h.report, h.last⟩
  | taken _ _ hwu hlast => exact ⟨hwu, h.recovers, h.pending, h.report, fun _ => hlast⟩
  | failed _ hwu hnodes hid hlast hb =>
    refine ⟨hwu, h.recovers, h.pending, h.report, fun hlive => ?_⟩
    have hn := h.wellFormed.nodup
    rw [← hid] at hlive ⊢
    have hnot := ((hb.contains_iff hn hwu.nodup hnodes hlast _).mp hlive).2
    exact (hb.spares hn hnodes hlast hnot).2

theorem Direct.feedEach (h : b.Direct) (tokens : List Token) : (b.feedEach tokens).1.Direct := by
  induction tokens generalizing b with
  | nil => exact h
  | cons token rest ih =>
    rw [feedEach_cons]
    exact ih (h.feed token)

theorem Direct.feed_error (h : b.Direct) (he : (b.feed token).2 = .error e) :
    (b.feed token).1.focus = b.focus ∧ ∀ id, (b.feed token).1.tree.contains id = true ↔
      b.tree.contains id = true ∧ id ∉ b.lost token := by
  have hf := h.feeds token
  rw [lost]
  generalize b.feed token = r at hf he
  cases hf with
  | refused hnone => simp [hnone]
  | taken _ _ _ _ => cases he
  | failed hsome hwu hnodes hid hlast hb =>
    refine ⟨rfl, fun id => ?_⟩
    rw [hsome, ← hid]
    exact hb.contains_iff h.wellFormed.nodup hwu.nodup hnodes hlast id

theorem Direct.feed_ok (h : b.Direct) (hok : (b.feed token).2 = .ok ()) :
    (b.feed token).1.tree.contains (b.feed token).1.focus = true ∧
      b.tree.contains b.focus = true ∧ b.lost token = [] := by
  have hd := h.feed token
  have hf := h.feeds token
  rw [lost]
  generalize b.feed token = r at hd hf hok
  cases hf with
  | refused _ => cases hok
  | taken hnone hlive _ hlast =>
    obtain ⟨fr, outer, c, hnodes, hid, -⟩ := hlast
    rw [hnone]
    exact ⟨(focused_of_spine hd.wellFormed hnodes hid).live, hlive, rfl⟩
  | failed _ _ _ _ _ _ => cases hok

/-- What is lost takes the focus with it. -/
theorem Direct.lost_eq_nil (h : b.Direct) (hnot : b.focus ∉ b.lost token) : b.lost token = [] := by
  have hf := h.feeds token
  rw [lost] at hnot ⊢
  generalize b.feed token = r at hf
  cases hf with
  | refused hnone => rw [hnone]
  | taken hnone _ _ _ => rw [hnone]
  | failed hsome hwu hnodes hid hlast hb =>
    rw [hsome, ← hid] at hnot ⊢
    exact (hb.spares h.wellFormed.nodup hnodes hlast hnot).1

theorem Direct.live_feed_iff (h : b.Direct) (token : Token) :
    (b.feed token).1.tree.contains (b.feed token).1.focus = true ↔
      b.tree.contains b.focus = true ∧ b.lost token = [] := by
  rcases hfeed : (b.feed token).2 with e | _
  · obtain ⟨hfocus, hids⟩ := h.feed_error hfeed
    rw [hfocus, hids]
    constructor
    · rintro ⟨hlive, hnot⟩
      exact ⟨hlive, h.lost_eq_nil hnot⟩
    · rintro ⟨hlive, hnil⟩
      exact ⟨hlive, by simp [hnil]⟩
  · obtain ⟨hnew, hold, hlost⟩ := h.feed_ok hfeed
    simp [hnew, hold, hlost]

theorem Direct.feed_of_dead (h : b.Direct) (hdead : b.tree.contains b.focus = false)
    (token : Token) : ∃ e, b.feed token = ({ b with fed := b.fed + 1 }, .error e) := by
  have hf := h.feeds token
  generalize b.feed token = r at hf ⊢
  cases hf with
  | refused _ => exact ⟨_, rfl⟩
  | taken _ hlive _ _ => simp [hdead] at hlive
  | failed _ _ hnodes hid _ _ =>
    have hlive := (focused_of_spine h.wellFormed hnodes hid).live
    simp [hdead] at hlive

theorem feedEach_concat (b : Builder) (tokens : List Token) (token : Token) :
    (b.feedEach (tokens ++ [token])).1 = ((b.feedEach tokens).1.feed token).1 := by
  induction tokens generalizing b with
  | nil =>
    rw [List.nil_append, feedEach_cons]
    rfl
  | cons first rest ih => rw [List.cons_append, feedEach_cons, feedEach_cons, ih]

/-- The focus stays live until a failed setup takes nodes out of the tree, and never comes back. -/
theorem Direct.live_feedEach_iff (h : b.Direct) (hlive : b.tree.contains b.focus = true)
    (tokens : List Token) :
    (b.feedEach tokens).1.tree.contains (b.feedEach tokens).1.focus = true ↔
      ∀ before token, before ++ [token] <+: tokens → (b.feedEach before).1.lost token = [] := by
  induction tokens using List.reverseRecOn with
  | nil => simpa [Builder.feedEach] using hlive
  | append_singleton tokens last ih =>
    rw [feedEach_concat, (h.feedEach tokens).live_feed_iff, ih]
    constructor
    · rintro ⟨hbefore, hlast⟩ before token hpre
      rcases List.prefix_concat_iff.mp hpre with he | hpre
      · obtain ⟨rfl, htoken⟩ := List.append_inj' he rfl
        cases htoken
        exact hlast
      · exact hbefore before token hpre
    · intro hall
      refine ⟨fun before token hpre => ?_, hall tokens last List.prefix_rfl⟩
      exact hall before token (hpre.trans (List.prefix_append _ _))

/-- A builder that does not recover, whatever it was fed. A token that is refused takes out of the tree
exactly the nodes lost with a failed setup: inside a block the statement with all that stands in it,
elsewhere the closed bracket if it is a group. Until that happens the focus is live, and the way up
from it ends at the root. After that the focus is dead, and every token is refused. -/
theorem feedEach_without_recovery (sourceId : String) (tokens : List Token) :
    let b := ((start sourceId false).feedEach tokens).1
    (∀ token e, b.setupFailure? token = some e → (b.feed token).2 = .error e) ∧
    (∀ token e, (b.feed token).2 = .error e → (b.feed token).1.focus = b.focus ∧
      ∀ id, (b.feed token).1.tree.contains id = true ↔
        b.tree.contains id = true ∧ id ∉ b.lost token) ∧
    (b.tree.contains b.focus = true ↔ ∀ before token, before ++ [token] <+: tokens →
      ((start sourceId false).feedEach before).1.lost token = []) ∧
    (b.tree.contains b.focus = true → ∃ way : List NodeId, way.head? = some b.focus ∧
      way.getLast? = some Tree.rootId ∧ way.Nodup ∧
      way.IsChain fun i j => (b.tree.parent? i).map Node.id = some j) ∧
    (b.tree.contains b.focus = false → ∀ token, ∃ e,
      b.feed token = ({ b with fed := b.fed + 1 }, .error e)) ∧
    b.report = [] ∧ b.pending = 0 := by
  intro b
  have hstart := direct_start sourceId
  have hb : b.Direct := hstart.feedEach tokens
  refine ⟨fun _ _ hs => feed_of_setupFailure hb.recovers hs, fun _ _ he => hb.feed_error he,
    hstart.live_feedEach_iff rfl tokens, hb.wellFormed.coherent.way_up b.focus, hb.feed_of_dead,
    hb.report, hb.pending⟩

/-- Outside every block a command stays with all that stands in it. -/
theorem feed_damaged_command :
    let b := ((start "" false).feedEach [.bare "[", .bare "exp"]).1
    let r := b.feed (.bare "]")
    r.2 = .error (.shape (.operandCount "exp" "至少 1" 0)) ∧ r.1.focus = 1 ∧
      ∀ id, r.1.tree.contains id = true ↔ b.tree.contains id = true := by
  intro b r
  obtain ⟨hfail, herror, -⟩ := feedEach_without_recovery "" [.bare "[", .bare "exp"]
  have hlost : b.lost (.bare "]") = [] := by decide
  have hr : r.2 = .error (.shape (.operandCount "exp" "至少 1" 0)) := hfail _ _ (by decide)
  obtain ⟨hfocus, hids⟩ := herror _ _ hr
  refine ⟨hr, hfocus.trans (by decide), fun id => (hids id).trans ?_⟩
  change b.tree.contains id = true ∧ id ∉ b.lost (.bare "]") ↔ _
  simp [hlost]

/-- Inside a block the command is cut off, and the focus with it. -/
theorem feed_damaged_command_in_block : ¬∀ tokens token e,
    let b := ((start "" false).feedEach tokens).1
    (b.feed token).2 = .error e →
      (∀ id, b.tree.contains id = true → (b.feed token).1.tree.contains id = true) ∧
        (b.feed token).1.tree.contains (b.feed token).1.focus = true := by
  intro h
  let e : TreeError := .shape (.operandCount "exp" "至少 1" 0)
  have hlive := (h [.bare "\x7b", .bare "[", .bare "exp"] (.bare "]") e (by decide)).2
  revert hlive
  decide

end Builder
end BracketTree
