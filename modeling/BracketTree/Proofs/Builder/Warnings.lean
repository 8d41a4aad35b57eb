import BracketTree.Proofs.Builder.FirstFailure
import BracketTree.Proofs.Builder.Unrecovered

/-! What a builder that recovers reports. Every recovered insertion leaves one warning and nothing else
leaves any, however the tokens in between are taken, passed over or refused. A warning names the
position of the closing bracket that made the setup fail, and shows where work goes on. -/

namespace BracketTree
set_option autoImplicit false

namespace Builder

/-- A builder that recovers, fed with the first `i` of the tokens. -/
def afterFirst (sourceId : String) (tokens : List Token) (i : Nat) : Builder :=
  ((start sourceId true).feedEach (tokens.take i)).1

/-- The warning that belongs to the token at position `i`: there is one if the insertion of the token
is recovered, and it shows the focus as it is right after that. -/
def warningAt? (sourceId : String) (tokens : List Token) (token : Token) (i : Nat) :
    Option Diagnostic :=
  let next := afterFirst sourceId tokens (i + 1)
  ((afterFirst sourceId tokens i).setupFailure? token).map fun e =>
    ⟨.warn, sourceId, some i, s!"已恢复的错误: {e.message}", some (next.tree.print next.focus)⟩

def warnings (sourceId : String) (tokens : List Token) : Report :=
  tokens.zipIdx.filterMap fun r => warningAt? sourceId tokens r.1 r.2

variable {b : Builder} {token : Token} {e : TreeError} {sourceId : String} {tokens : List Token}

/-! ## One token -/

/-- Only a closing bracket sets anything up. -/
theorem closes_of_setupFailure (h : b.setupFailure? token = some e) : token.closes = true := by
  obtain ⟨item, u, id, hi, -, hins⟩ := setupFailure?_eq_some h
  cases hg : b.tree.get? b.focus with
  | none => simp [Tree.insert, hg] at hins
  | some n =>
    obtain ⟨brace, hb, ho, -⟩ := Tree.closing_of_insert_error hg hins
    rw [Token.closes, Token.brace?_of_item hi, hb, Option.any_some, ho]
    rfl

theorem feedEach_counts (b : Builder) (tokens : List Token) :
    (b.feedEach tokens).1.sourceId = b.sourceId ∧ (b.feedEach tokens).1.recovers = b.recovers ∧
      (b.feedEach tokens).1.fed = b.fed + tokens.length := by
  induction tokens generalizing b with
  | nil => exact ⟨rfl, rfl, rfl⟩
  | cons token rest ih =>
    obtain ⟨hsource, hrecovers, hfed⟩ := feed_counts b token
    obtain ⟨hsource', hrecovers', hfed'⟩ := ih (b.feed token).1
    rw [feedEach_cons]
    refine ⟨hsource'.trans hsource, hrecovers'.trans hrecovers, ?_⟩
    rw [hfed', hfed, List.length_cons]
    omega

/-! ## Position by position -/

theorem afterFirst_length (sourceId : String) (tokens : List Token) :
    afterFirst sourceId tokens tokens.length = ((start sourceId true).feedEach tokens).1 := by
  rw [afterFirst, List.take_length]

theorem afterFirst_concat {i : Nat} (hi : i ≤ tokens.length) (token : Token) :
    afterFirst sourceId (tokens ++ [token]) i = afterFirst sourceId tokens i := by
  rw [afterFirst, List.take_append_of_le_length hi]
  rfl

theorem afterFirst_succ {i : Nat} (hi : tokens[i]? = some token) :
    afterFirst sourceId tokens (i + 1) = ((afterFirst sourceId tokens i).feed token).1 := by
  rw [afterFirst, List.take_add_one, hi, Option.toList_some, feedEach_concat]
  rfl

theorem warningAt?_concat {i : Nat} (hi : i < tokens.length) (last token : Token) :
    warningAt? sourceId (tokens ++ [last]) token i = warningAt? sourceId tokens token i := by
  rw [warningAt?, warningAt?, afterFirst_concat hi, afterFirst_concat (Nat.le_of_lt hi)]

theorem warnings_concat (sourceId : String) (tokens : List Token) (last : Token) :
    warnings sourceId (tokens ++ [last]) = warnings sourceId tokens ++
      (warningAt? sourceId (tokens ++ [last]) last tokens.length).toList := by
  rw [warnings, List.zipIdx_append, List.filterMap_append, warnings]
  congr 1
  · -- the earlier positions see the same tokens before them
    apply List.filterMap_congr
    intro r hr
    exact warningAt?_concat (by simpa using List.snd_lt_of_mem_zipIdx hr) last r.1
  · simp only [List.zipIdx_singleton, List.filterMap_cons, List.filterMap_nil, Nat.zero_add]
    cases warningAt? sourceId (tokens ++ [last]) last tokens.length <;> rfl

/-- The report is the list of the warnings that belong to the tokens, in their order. -/
theorem report_eq_warnings (sourceId : String) (tokens : List Token) :
    ((start sourceId true).feedEach tokens).1.report = warnings sourceId tokens := by
  induction tokens using List.reverseRecOn with
  | nil => rfl
  | append_singleton tokens last ih =>
    obtain ⟨hsource, hrecovers, hfed⟩ := feedEach_counts (start sourceId true) tokens
    have hnext : afterFirst sourceId (tokens ++ [last]) (tokens.length + 1) =
        (((start sourceId true).feedEach tokens).1.feed last).1 := by
      rw [afterFirst_succ List.getElem?_concat_length, afterFirst_concat (Nat.le_refl _),
        afterFirst_length]
    rw [warnings_concat, warningAt?, hnext, afterFirst_concat (Nat.le_refl _), afterFirst_length,
      feedEach_concat, ← ih]
    generalize ((start sourceId true).feedEach tokens).1 = b at hsource hrecovers hfed
    cases hs : b.setupFailure? last with
    | none =>
      rw [report_feed hs]
      exact (List.append_nil _).symm
    | some e =>
      rw [(feed_of_setupFailure_recovering hrecovers hs).2, warning, hsource, hfed,
        show (start sourceId true).fed + tokens.length = tokens.length from Nat.zero_add _]
      rfl

theorem warningAt?_eq_some {i : Nat} {d : Diagnostic}
    (h : warningAt? sourceId tokens token i = some d) :
    let next := afterFirst sourceId tokens (i + 1)
    ∃ e, (afterFirst sourceId tokens i).setupFailure? token = some e ∧
      d = ⟨.warn, sourceId, some i, s!"已恢复的错误: {e.message}",
        some (next.tree.print next.focus)⟩ := by
  rw [warningAt?] at h
  obtain ⟨e, he, rfl⟩ := Option.map_eq_some_iff.mp h
  exact ⟨e, he, rfl⟩

theorem warnings_increasing (sourceId : String) (tokens : List Token) :
    (warnings sourceId tokens).Pairwise fun d d' =>
      ∃ i j, d.token = some i ∧ d'.token = some j ∧ i < j := by
  have hpositions : (tokens.zipIdx.map Prod.snd).Pairwise (· < ·) := by
    rw [List.zipIdx_map_snd]
    exact List.pairwise_lt_range'
  refine (List.pairwise_map.mp hpositions).filterMap _ ?_
  intro r r' hlt d hd d' hd'
  obtain ⟨e, -, rfl⟩ := warningAt?_eq_some hd
  obtain ⟨e', -, rfl⟩ := warningAt?_eq_some hd'
  exact ⟨r.2, r'.2, rfl, rfl, hlt⟩

/-- The report of a builder that recovers, whatever it was fed: one warning for each recovered insertion,
in the order of the tokens. The token is a closing bracket that was not passed over, its position counts
every token fed before it, and the warning shows the focus right after it. -/
theorem report_exact (sourceId : String) (tokens : List Token) :
    let report := ((start sourceId true).feedEach tokens).1.report
    report = warnings sourceId tokens ∧
    (∀ d ∈ report, ∃ i token e, tokens[i]? = some token ∧
      let b := afterFirst sourceId tokens i
      let next := (b.feed token).1
      b.setupFailure? token = some e ∧ token.closes = true ∧ b.pending = 0 ∧
        (b.feed token).2 = .ok () ∧ d = ⟨.warn, sourceId, some i, s!"已恢复的错误: {e.message}",
          some (next.tree.print next.focus)⟩) ∧
    report.Pairwise fun d d' => ∃ i j, d.token = some i ∧ d'.token = some j ∧ i < j := by
  intro report
  have hreport : report = warnings sourceId tokens := report_eq_warnings sourceId tokens
  refine ⟨hreport, ?_, hreport ▸ warnings_increasing sourceId tokens⟩
  intro d hd
  rw [hreport] at hd
  obtain ⟨⟨token, i⟩, hr, hw⟩ := List.mem_filterMap.mp hd
  have hi : tokens[i]? = some token := List.mk_mem_zipIdx_iff_getElem?.mp hr
  obtain ⟨e, he, rfl⟩ := warningAt?_eq_some hw
  obtain ⟨-, -, -, -, hpending, -⟩ := setupFailure?_eq_some he
  have hrecovers : (afterFirst sourceId tokens i).recovers = true :=
    (feedEach_counts (start sourceId true) (tokens.take i)).2.1
  have hok := (feed_of_setupFailure_recovering hrecovers he).1
  rw [afterFirst_succ hi]
  exact ⟨i, token, e, hi, he, closes_of_setupFailure he, hpending, hok, rfl⟩

/-- The first token is refused. The group closes over an `exp` without operand, the bracket around it is
passed over, and then another group closes so. -/
theorem report_of_two_damaged_groups :
    let tokens : List Token := [.bare "?", .bare "\x7b", .bare "[", .bare "(", .bare "exp", .bare ")",
      .bare "]", .bare "(", .bare "exp", .bare ")"]
    let report := ((start "s" true).feedEach tokens).1.report
    report.map Diagnostic.token = [some 5, some 9] ∧ report = warnings "s" tokens := by
  intro tokens report
  exact ⟨by decide, (report_exact "s" tokens).1⟩

end Builder
end BracketTree
