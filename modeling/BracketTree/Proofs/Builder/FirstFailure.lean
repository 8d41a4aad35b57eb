import BracketTree.Proofs.Builder.Alike

/-! Building with recovery and without. Both do the same up to the first token that goes wrong. If that
token is refused, both end there. If a setup fails, the build without recovery ends with the error that
the other one reports in its first warning. -/

namespace BracketTree
set_option autoImplicit false

namespace Builder

/-- The error of the setup that fails when the builder takes the token, if one does. -/
def setupFailure? (b : Builder) (token : Token) : Option TreeError :=
  match Item.ofToken? token with
  | .error _ => none
  | .ok item =>
    if 0 < b.pending then none
    else
      match b.tree.insert b.focus item with
      | (_, .error (.recovered e _)) => some e
      | _ => none

/-- How a token goes wrong for a builder that recovers: it is refused, or a setup fails and the
statement is given up. -/
inductive Trouble where
  | refused (e : TreeError)
  | givenUp (e : TreeError)
  deriving DecidableEq

def trouble? (b : Builder) (token : Token) : Option Trouble :=
  match (b.feed token).2 with
  | .error e => some (.refused e)
  | .ok () => (b.setupFailure? token).map .givenUp

/-- The first of the tokens that goes wrong: its position among them, and how. -/
def firstTrouble (b : Builder) : List Token → Option (Nat × Trouble)
  | [] => none
  | token :: rest =>
    match b.trouble? token with
    | some x => some (0, x)
    | none => ((b.feed token).1.firstTrouble rest).map fun r => (r.1 + 1, r.2)

variable {b v : Builder} {token : Token} {tokens : List Token} {e : TreeError} {i : Nat}

/-! ## One token -/

theorem setupFailure?_of_item {item : Item} (hi : Item.ofToken? token = .ok item)
    (hp : b.pending = 0) : b.setupFailure? token =
      match b.tree.insert b.focus item with
      | (_, .error (.recovered e _)) => some e
      | _ => none := by
  rw [setupFailure?, hi]
  exact if_neg (Nat.not_lt_of_le (Nat.le_of_eq hp))

theorem setupFailure?_eq_some (h : b.setupFailure? token = some e) : ∃ item u id,
    Item.ofToken? token = .ok item ∧ b.pending = 0 ∧
      b.tree.insert b.focus item = (u, .error (.recovered e id)) := by
  unfold setupFailure? at h
  cases hi : Item.ofToken? token with
  | error x => simp [hi] at h
  | ok item =>
    rw [hi] at h
    dsimp only at h
    split at h
    · cases h
    · next hp =>
      rcases hins : b.tree.insert b.focus item with ⟨u, (x | ⟨x, id⟩) | id⟩
      · simp [hins] at h
      · rw [hins] at h
        cases h
        exact ⟨item, u, id, rfl, Nat.eq_zero_of_not_pos hp, hins⟩
      · simp [hins] at h

/-- Without a failed setup a token does the same to a builder whether it recovers or not, and leaves
no warning. -/
theorem feed_of_no_failure (h : b.setupFailure? token = none) : ∃ u focus pending x, ∀ r,
    { b with recovers := r }.feed token =
      (⟨b.sourceId, r, u, focus, pending, b.fed + 1, b.report⟩, x) := by
  unfold setupFailure? at h
  cases hi : Item.ofToken? token with
  | error x => exact ⟨_, _, _, _, fun r => feed_of_unknown hi⟩
  | ok item =>
    rw [hi] at h
    dsimp only at h
    split at h
    · next hp =>
      refine ⟨b.tree, b.focus, ({ b with fed := b.fed + 1 }.discard item).pending, .ok (), ?_⟩
      intro r
      refine (feed_of_pending (b := { b with recovers := r }) hi hp).trans ?_
      rw [Builder.discard, Builder.discard]
      cases item.kind.brace? <;> rfl
    · next hp =>
      have hzero : b.pending = 0 := Nat.eq_zero_of_not_pos hp
      rcases hins : b.tree.insert b.focus item with ⟨u, (x | ⟨x, id⟩) | id⟩
      · exact ⟨_, _, _, _, fun r =>
          feed_of_refused (b := { b with recovers := r }) hi hzero hins⟩
      · simp [hins] at h
      · exact ⟨_, _, _, _, fun r =>
          feed_of_accepted (b := { b with recovers := r }) hi hzero hins⟩

theorem feed_recovers_irrel (h : b.setupFailure? token = none) (r : Bool) :
    { b with recovers := r }.feed token =
      ({ (b.feed token).1 with recovers := r }, (b.feed token).2) := by
  obtain ⟨u, focus, pending, x, hfeed⟩ := feed_of_no_failure h
  have hb : b.feed token = _ := hfeed b.recovers
  rw [hfeed r, hb]

theorem report_feed (h : b.setupFailure? token = none) : (b.feed token).1.report = b.report := by
  obtain ⟨u, focus, pending, x, hfeed⟩ := feed_of_no_failure h
  have hb : b.feed token = _ := hfeed b.recovers
  rw [hb]

theorem feed_of_setupFailure (hr : b.recovers = false) (h : b.setupFailure? token = some e) :
    (b.feed token).2 = .error e := by
  obtain ⟨item, u, id, hi, hp, hins⟩ := setupFailure?_eq_some h
  rw [feed_of_failed hi hp hr hins]

/-- A failed setup leaves a warning that shows the tree and the focus as they are after it. -/
theorem feed_of_setupFailure_recovering (hr : b.recovers = true)
    (h : b.setupFailure? token = some e) :
    (b.feed token).2 = .ok () ∧
      (b.feed token).1.report =
        b.report ++ [b.warning (b.feed token).1.tree e (b.feed token).1.focus] := by
  obtain ⟨item, u, id, hi, hp, hins⟩ := setupFailure?_eq_some h
  rw [feed_of_recovered hi hp hr hins]
  exact ⟨rfl, rfl⟩

theorem trouble?_cases (b : Builder) (token : Token) :
    (∃ e, (b.feed token).2 = .error e ∧ b.trouble? token = some (.refused e)) ∨
      (b.feed token).2 = .ok () ∧ b.trouble? token = (b.setupFailure? token).map .givenUp := by
  unfold trouble?
  rcases (b.feed token).2 with e | _
  · exact .inl ⟨e, rfl, rfl⟩
  · exact .inr ⟨rfl, rfl⟩

/-- A token that is refused is refused without recovery too. -/
theorem setupFailure?_of_refused (hr : b.recovers = true) (h : (b.feed token).2 = .error e) :
    b.setupFailure? token = none := by
  cases hs : b.setupFailure? token with
  | none => rfl
  | some x =>
    rw [(feed_of_setupFailure_recovering hr hs).1] at h
    cases h

/-! ## All tokens -/

theorem feedAll_of_feed_error (h : (b.feed token).2 = .error e) (rest : List Token) :
    b.feedAll (token :: rest) = ((b.feed token).1, .error e) := by
  rw [Builder.feedAll]
  generalize b.feed token = r at h
  obtain ⟨v, x⟩ := r
  obtain rfl : x = .error e := h
  rfl

theorem feedAll_of_feed_ok (h : (b.feed token).2 = .ok ()) (rest : List Token) :
    b.feedAll (token :: rest) = (b.feed token).1.feedAll rest := by
  rw [Builder.feedAll]
  generalize b.feed token = r at h
  obtain ⟨v, x⟩ := r
  obtain rfl : x = .ok () := h
  rfl

theorem report_prefix_feed (hr : b.recovers = true) (token : Token) :
    b.report <+: (b.feed token).1.report := by
  cases hs : b.setupFailure? token with
  | none => exact (report_feed hs).symm ▸ List.prefix_rfl
  | some e =>
    rw [(feed_of_setupFailure_recovering hr hs).2]
    exact List.prefix_append _ _

theorem report_prefix_feedAll (hr : b.recovers = true) (tokens : List Token) :
    b.report <+: (b.feedAll tokens).1.report := by
  induction tokens generalizing b with
  | nil => exact List.prefix_rfl
  | cons token rest ih =>
    have hstep := report_prefix_feed hr token
    rcases hfeed : (b.feed token).2 with e | _
    · rw [feedAll_of_feed_error hfeed]
      exact hstep
    · rw [feedAll_of_feed_ok hfeed]
      exact hstep.trans (ih ((feed_counts b token).2.1.trans hr))

/-- A run with recovery and the same run without, by the first token that goes wrong with recovery. -/
inductive Compared (b : Builder) : Option (Nat × Trouble) → Builder × Except TreeError Unit →
    Builder × Except TreeError Unit → Prop where
  | same {v : Builder} : v.report = b.report →
      Compared b none (v, .ok ()) ({ v with recovers := false }, .ok ())
  | refused {v w : Builder} {i : Nat} {e : TreeError} :
      Compared b (some (i, .refused e)) (v, .error e) (w, .error e)
  | givenUp {v w : Builder} {x : Except TreeError Unit} {i : Nat} {e : TreeError}
      {detail : Option String} :
      b.report ++ [⟨.warn, b.sourceId, some (b.fed + i), s!"已恢复的错误: {e.message}", detail⟩] <+:
        v.report →
      Compared b (some (i, .givenUp e)) (v, x) (w, .error e)

/-- A token that does not go wrong may be put in front. -/
theorem Compared.later {first : Option (Nat × Trouble)}
    {r r' : Builder × Except TreeError Unit} (h : Compared v first r r')
    (hsource : v.sourceId = b.sourceId) (hfed : v.fed = b.fed + 1) (hreport : v.report = b.report) :
    Compared b (first.map fun x => (x.1 + 1, x.2)) r r' := by
  cases h with
  | same hsame => exact .same (hsame.trans hreport)
  | refused => exact .refused
  | @givenUp _ _ _ i _ _ hpre =>
    rw [hreport, hsource, hfed, show b.fed + 1 + i = b.fed + (i + 1) by omega] at hpre
    exact .givenUp hpre

theorem feedAll_compared (hr : b.recovers = true) (tokens : List Token) :
    Compared b (b.firstTrouble tokens) (b.feedAll tokens)
      ({ b with recovers := false }.feedAll tokens) := by
  induction tokens generalizing b with
  | nil => exact .same rfl
  | cons token rest ih =>
    rw [firstTrouble]
    rcases trouble?_cases b token with ⟨e, hfeed, ht⟩ | ⟨hfeed, ht⟩
    · have hirrel := feed_recovers_irrel (setupFailure?_of_refused hr hfeed) false
      rw [ht, feedAll_of_feed_error hfeed, feedAll_of_feed_error (e := e) (by rw [hirrel, hfeed])]
      exact .refused
    · rw [ht, feedAll_of_feed_ok hfeed]
      cases hs : b.setupFailure? token with
      | none =>
        have hirrel := feed_recovers_irrel hs false
        obtain ⟨hsource, hrec, hfed⟩ := feed_counts b token
        rw [feedAll_of_feed_ok (by rw [hirrel, hfeed]), hirrel]
        exact (ih (hrec.trans hr)).later hsource hfed (report_feed hs)
      | some e =>
        have hstrict := feed_of_setupFailure (b := { b with recovers := false }) rfl hs
        have hlater := report_prefix_feedAll ((feed_counts b token).2.1.trans hr) rest
        rw [(feed_of_setupFailure_recovering hr hs).2] at hlater
        rw [feedAll_of_feed_error hstrict]
        exact .givenUp hlater

/-- What comes of a run: the error with which it ended, or what is finished then. -/
def conclude : Builder × Except TreeError Unit → Except TreeError Built
  | (_, .error e) => .error e
  | (b, .ok ()) => b.finish

theorem build_eq_conclude (sourceId : String) (recovers : Bool) (tokens : List Token) :
    build sourceId recovers tokens = conclude ((start sourceId recovers).feedAll tokens) :=
  rfl

theorem report_of_conclude {x : Except TreeError Unit} {built : Built}
    (h : conclude (v, x) = .ok built) : built.report = v.report := by
  rcases x with e | _
  · cases h
  · obtain ⟨-, rfl⟩ := finish_eq_ok_iff.mp h
    rfl

end Builder

/-- The builds of one input without recovery and with it. The first succeeds exactly when the second
does and leaves no warning, and then they agree. Otherwise the first token that goes wrong decides: if
it is refused, both end with its error; if a setup fails there, the build without recovery ends with
the error of that setup, and the other one, if it succeeds, warns of it first. -/
theorem build_without_and_with_recovery (sourceId : String) (tokens : List Token) :
    (∀ built, build sourceId false tokens = .ok built ↔
      build sourceId true tokens = .ok built ∧ built.report = []) ∧
    match (Builder.start sourceId true).firstTrouble tokens with
    | none => ∃ b, (Builder.start sourceId true).feedAll tokens = (b, .ok ()) ∧
        build sourceId true tokens = b.finish ∧ build sourceId false tokens = b.finish
    | some (_, .refused e) =>
        build sourceId true tokens = .error e ∧ build sourceId false tokens = .error e
    | some (i, .givenUp e) => build sourceId false tokens = .error e ∧
        ∀ built, build sourceId true tokens = .ok built → ∃ detail,
          built.report.head? = some ⟨.warn, sourceId, some i, s!"已恢复的错误: {e.message}", detail⟩ := by
  have h := Builder.feedAll_compared (b := Builder.start sourceId true) rfl tokens
  rw [Builder.build_eq_conclude, Builder.build_eq_conclude,
    show Builder.start sourceId false = { Builder.start sourceId true with recovers := false } from rfl]
  generalize (Builder.start sourceId true).firstTrouble tokens = first at h
  generalize (Builder.start sourceId true).feedAll tokens = r at h
  generalize { Builder.start sourceId true with recovers := false }.feedAll tokens = r' at h
  cases h with
  | @same v hreport =>
    refine ⟨fun built => ?_, v, rfl, rfl, rfl⟩
    constructor
    · intro hok
      exact ⟨hok, (Builder.report_of_conclude hok).trans hreport⟩
    · exact fun hok => hok.1
  | refused =>
    refine ⟨fun built => ?_, rfl, rfl⟩
    constructor
    · intro hok
      cases hok
    · rintro ⟨hok, -⟩
      cases hok
  | @givenUp v w x i e detail hpre =>
    obtain ⟨rest, hrest⟩ := hpre
    have hwarned : ∀ built, Builder.conclude (v, x) = .ok built → built.report.head? = some
        ⟨.warn, sourceId, some i, s!"已恢复的错误: {e.message}", detail⟩ := by
      intro built hok
      rw [Builder.report_of_conclude hok, ← hrest,
        show (Builder.start sourceId true).fed + i = i from Nat.zero_add i]
      rfl
    refine ⟨fun built => ?_, rfl, fun built hok => ⟨detail, hwarned built hok⟩⟩
    constructor
    · intro hok
      cases hok
    · rintro ⟨hok, hnil⟩
      have hhead := hwarned built hok
      rw [hnil] at hhead
      cases hhead

/-- The group closes at position 3 over an `exp` that lacks its operand. -/
theorem build_damaged_block_both_ways :
    let tokens : List Token := [.bare "\x7b", .bare "(", .bare "exp", .bare ")", .bare "\x7d"]
    let e : TreeError := .shape (.operandCount "exp" "至少 1" 0)
    (Builder.start "" true).firstTrouble tokens = some (3, .givenUp e) ∧
      build "" false tokens = .error e ∧
      ∃ built detail, build "" true tokens = .ok built ∧
        built.report.head? = some ⟨.warn, "", some 3, s!"已恢复的错误: {e.message}", detail⟩ := by
  intro tokens e
  have hfirst : (Builder.start "" true).firstTrouble tokens = some (3, .givenUp e) := by decide
  have h := (build_without_and_with_recovery "" tokens).2
  rw [hfirst] at h
  have hok : ∃ built, build "" true tokens = .ok built := ⟨_, rfl⟩
  obtain ⟨built, hbuilt⟩ := hok
  obtain ⟨detail, hhead⟩ := h.2 built hbuilt
  exact ⟨hfirst, h.1, built, detail, hbuilt, hhead⟩

end BracketTree
