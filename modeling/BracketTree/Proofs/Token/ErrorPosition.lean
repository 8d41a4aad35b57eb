import BracketTree.Proofs.Token.Reading

/-! Where reading fails. From every mode the text can still be completed, so a text is read to its end
exactly when it is the beginning of one that is accepted; otherwise the error names the first character
after which no completion is left. -/

namespace BracketTree
set_option autoImplicit false

/-- The character that the error shows. -/
def ScanError.char? : ScanError → Option Char
  | strayChar ch _ => some ch
  | quoteExpected _ ch _ => some ch
  | _ => none

namespace Scanner

variable {m n : Mode} {pos : Nat} {s t : List Char} {c : Char} {e : ScanError}

/-! ## Completions -/

theorem exists_reads_command (depth : Nat) (text : Option String) :
    ∃ s ts, Reads (.command depth text) s ts .outside := by
  induction depth generalizing text with
  | zero => exact ⟨_, _, .cons .listEnd (.nil _)⟩
  | succ depth ih =>
    -- one bracket leads outside or to the list around this one
    have hclose : ∃ s ts, Reads (closeList (depth + 1)) s ts .outside := by
      rw [closeList]
      split
      · exact ⟨_, _, .nil _⟩
      · exact ih none
    obtain ⟨s, ts, h⟩ := hclose
    exact ⟨_, _, .cons .listEnd h⟩

theorem exists_reads_code (lists depth : Nat) {p : Option Pending} (hp : Plain p) :
    ∃ s ts, Reads (.code lists depth p) s ts .outside := by
  induction depth generalizing p with
  | zero =>
    obtain ⟨s, ts, h⟩ := exists_reads_command lists none
    exact ⟨_, _, .cons (.blockEnd hp) h⟩
  | succ depth ih =>
    have hclose : ∃ s ts, Reads (closeBlock lists (depth + 1)) s ts .outside := by
      rw [closeBlock]
      split
      · exact exists_reads_command lists none
      · exact ih plain_none
    obtain ⟨s, ts, h⟩ := hclose
    exact ⟨_, _, .cons (.blockEnd hp) h⟩

theorem exists_reads_quoted (lists depth : Nat) (name text : String) (escaped : Bool) :
    ∃ s ts, Reads (.code lists depth (some (.quoted name text escaped))) s ts .outside := by
  have hopen : ∀ text, ∃ s ts,
      Reads (.code lists depth (some (.quoted name text false))) s ts .outside := by
    intro text
    obtain ⟨s, ts, h⟩ := exists_reads_code lists depth plain_none
    exact ⟨_, _, .cons .valueEnd h⟩
  cases escaped with
  | false => exact hopen text
  | true =>
    -- the backslash takes any character, a quote for one
    obtain ⟨s, ts, h⟩ := hopen (text.push '\'')
    exact ⟨_, _, .cons .escaped h⟩

/-- Whatever has been read, some text completes it. -/
theorem exists_completion (m : Mode) : ∃ s ts, Reads m s ts .outside := by
  rcases m with _ | ⟨depth, text⟩ | ⟨lists, depth, _ | ⟨name⟩ | ⟨name⟩ | ⟨name, text, escaped⟩⟩
  · exact ⟨_, _, .nil _⟩
  · exact exists_reads_command depth text
  · exact exists_reads_code lists depth plain_none
  · exact exists_reads_code lists depth (plain_named name)
  · obtain ⟨s, ts, h⟩ := exists_reads_quoted lists depth name "" false
    exact ⟨_, _, .cons .quote h⟩
  · exact exists_reads_quoted lists depth name text escaped

/-! ## The first character that cannot be read -/

theorem Reads.of_append {ts : List Token} (h : Reads m (s ++ t) ts n) :
    ∃ us vs k, Reads m s us k ∧ Reads k t vs n := by
  induction s generalizing m ts with
  | nil => exact ⟨_, _, m, .nil m, h⟩
  | cons c s ih =>
    cases h with
    | cons hc hs =>
      obtain ⟨us, vs, k, hus, hvs⟩ := ih hs
      exact ⟨_, vs, k, .cons hc hus, hvs⟩

/-- An error of a step names the character at hand. -/
theorem position?_of_step (h : step m pos c = .error e) :
    e.position? = some pos ∧ ∀ ch ∈ e.char?, ch = c := by
  have hplain : ∀ lists depth name, stepPlain lists depth name pos c = .error e →
      e.position? = some pos ∧ ∀ ch ∈ e.char?, ch = c := by
    intro lists depth name h
    simp only [stepPlain] at h
    repeat' split at h
    all_goals cases h
    all_goals exact ⟨rfl, by simp [ScanError.char?]⟩
  rcases m with _ | ⟨depth, text⟩ | ⟨lists, depth, _ | ⟨name⟩ | ⟨name⟩ | ⟨name, text, escaped⟩⟩
  · simp only [step, stepOutside] at h
    repeat' split at h
    all_goals cases h
    exact ⟨rfl, by simp [ScanError.char?]⟩
  · simp only [step, stepCommand] at h
    repeat' split at h
    all_goals cases h
    exact ⟨rfl, by simp [ScanError.char?]⟩
  · exact hplain lists depth none h
  · exact hplain lists depth (some name) h
  · simp only [step, stepAwaiting] at h
    repeat' split at h
    all_goals cases h
    all_goals exact ⟨rfl, by simp [ScanError.char?]⟩
  · cases h

/-- How reading can fail: the text ends too early, or one of its characters cannot be read. -/
inductive Fails (m : Mode) (pos : Nat) (s : List Char) : ScanError → Prop where
  | early {ts : List Token} {k : Mode} {context : Unfinished} : Reads m s ts k →
      k.unfinished = some context → Fails m pos s (.unexpectedEnd context)
  | stopped (before : List Char) {after : List Char} {c : Char} {ts : List Token} {k : Mode}
      {e : ScanError} : s = before ++ c :: after → Reads m before ts k →
      step k (pos + before.length) c = .error e → Fails m pos s e

theorem fails_of_run (h : run m pos s = .error e) : Fails m pos s e := by
  induction s generalizing m pos with
  | nil =>
    rw [run] at h
    cases hm : m.unfinished with
    | none => simp [hm] at h
    | some context =>
      rw [hm] at h
      cases h
      exact .early (.nil m) hm
  | cons c s ih =>
    rw [run] at h
    cases hc : step m pos c with
    | error x =>
      rw [hc] at h
      cases h
      exact .stopped [] rfl (.nil m) hc
    | ok r =>
      obtain ⟨us, k⟩ := r
      have hmove := moves_of_step hc
      cases hs : run k (pos + 1) s with
      | ok later => simp [hc, hs] at h
      | error x =>
        simp only [hc, hs, Except.error.injEq] at h
        subst h
        cases ih hs with
        | early hreads hk => exact .early (.cons hmove hreads) hk
        | @stopped before after d ts l _ heq hreads hstep =>
          refine .stopped (c :: before) (by rw [heq]; rfl) (.cons hmove hreads) ?_
          rw [List.length_cons, Nat.add_comm before.length, ← Nat.add_assoc]
          exact hstep

/-- What follows a character that cannot be read is not looked at. -/
theorem run_of_stopped {ts : List Token} (h : Reads m s ts n)
    (hstep : step n (pos + s.length) c = .error e) (t : List Char) :
    run m pos (s ++ c :: t) = .error e := by
  rw [run_append h, run, hstep]
  rfl

end Scanner

open Scanner

/-- Some text that is accepted begins with `s`. -/
def Viable (s : String) : Prop := ∃ t ts, scan (s ++ t) = .ok ts

/-- The error `e` belongs to the character of `s` at position `p`: the text is viable up to it, and no
longer with it. -/
structure FailsAt (s : String) (e : ScanError) (p : Nat) : Prop where
  position : e.position? = some p
  lt_length : p < s.length
  viable_before : Viable (String.ofList (s.toList.take p))
  not_viable : ¬Viable (String.ofList (s.toList.take (p + 1)))
  char : ∀ c, e.char? = some c → s.toList[p]? = some c
  same_start : ∀ s' : String, s'.toList.take (p + 1) = s.toList.take (p + 1) → scan s' = .error e

theorem viable_iff_reads (s : String) : Viable s ↔ ∃ ts m, Reads .outside s.toList ts m := by
  constructor
  · rintro ⟨t, ts, h⟩
    rw [scan_eq_ok_iff_reads, String.toList_append] at h
    obtain ⟨us, -, m, hs, -⟩ := h.of_append
    exact ⟨us, m, hs⟩
  · rintro ⟨ts, m, hs⟩
    obtain ⟨t, us, ht⟩ := exists_completion m
    refine ⟨String.ofList t, ts ++ us, ?_⟩
    rw [scan_eq_ok_iff_reads, String.toList_append, String.toList_ofList]
    exact hs.append ht

theorem failsAt_of_stopped {s : String} {before after : List Char} {c : Char} {ts : List Token}
    {m : Mode} {e : ScanError} (hs : s.toList = before ++ c :: after)
    (hreads : Reads .outside before ts m) (hstep : step m (0 + before.length) c = .error e) :
    FailsAt s e before.length := by
  have htake : s.toList.take (before.length + 1) = before ++ [c] := by
    rw [hs, List.take_length_add_append]
    rfl
  obtain ⟨hpos, hchar⟩ := position?_of_step hstep
  refine ⟨by rw [hpos, Nat.zero_add], ?_, ?_, ?_, ?_, ?_⟩
  · rw [← String.length_toList, hs, List.length_append, List.length_cons]
    omega
  · rw [viable_iff_reads, String.toList_ofList, hs, List.take_left]
    exact ⟨ts, m, hreads⟩
  · rintro ⟨t, us, h⟩
    have hrun := run_of_stopped hreads hstep t.toList
    rw [htake, scan, String.toList_append, String.toList_ofList, List.append_assoc] at h
    cases hrun.symm.trans h
  · intro d hd
    rw [hchar d hd, hs]
    simp
  · intro s' hs'
    have hsplit : s'.toList = before ++ c :: s'.toList.drop (before.length + 1) := by
      conv => lhs; rw [← List.take_append_drop (before.length + 1) s'.toList, hs', htake]
      rw [List.append_assoc]
      rfl
    rw [scan, hsplit]
    exact run_of_stopped hreads hstep _

/-- A text is read to its end, successfully or not, exactly when it can be completed; every other text
fails at the first character with which it can no longer be completed. -/
theorem error_position_exact (s : String) :
    (Viable s ↔ (∃ ts, scan s = .ok ts) ∨ ∃ context, scan s = .error (.unexpectedEnd context)) ∧
    ∀ e, scan s = .error e → (∀ context, e ≠ .unexpectedEnd context) → ∃ p, FailsAt s e p := by
  refine ⟨?_, ?_⟩
  · rw [viable_iff_reads]
    constructor
    · rintro ⟨ts, m, hs⟩
      cases h : scan s with
      | ok us => exact .inl ⟨us, rfl⟩
      | error e =>
        refine .inr ?_
        cases fails_of_run h with
        | early _ _ => exact ⟨_, rfl⟩
        | stopped _ heq hreads hstep =>
          have hbad := (failsAt_of_stopped heq hreads hstep).not_viable
          rw [viable_iff_reads, String.toList_ofList] at hbad
          rw [← List.take_append_drop (_ + 1) s.toList] at hs
          obtain ⟨us, -, k, htake, -⟩ := hs.of_append
          exact absurd ⟨us, k, htake⟩ hbad
    · rintro (⟨ts, h⟩ | ⟨context, h⟩)
      · exact ⟨ts, .outside, (scan_eq_ok_iff_reads s ts).mp h⟩
      · cases fails_of_run h with
        | early hreads _ => exact ⟨_, _, hreads⟩
        | stopped _ _ _ hstep => cases (position?_of_step hstep).1
  · intro e h hne
    cases fails_of_run h with
    | early _ _ => exact absurd rfl (hne _)
    | stopped _ heq hreads hstep => exact ⟨_, failsAt_of_stopped heq hreads hstep⟩

/-- The value of `ID` lacks its quote; without the character in its place the text can be completed. -/
theorem error_position_of_missing_quote :
    let e : ScanError := .quoteExpected "ID" 'x' 5
    scan "[{ID:x}]" = .error e ∧ FailsAt "[{ID:x}]" e 5 := by
  intro e
  have h : scan "[{ID:x}]" = .error e := rfl
  obtain ⟨p, hp⟩ := (error_position_exact "[{ID:x}]").2 e h (by simp [e])
  obtain rfl : 5 = p := Option.some.inj hp.position
  exact ⟨h, hp⟩

end BracketTree
