import BracketTree.Proofs.Token.Reading

/-! Texts one after the other. An accepted text leaves nothing behind it, so whatever follows is read as
if it stood alone, only further on. -/

namespace BracketTree
set_option autoImplicit false

namespace ScanError

/-- The same error about the position `pos`. The end of the text has no position. -/
def movedTo (pos : Nat) : ScanError → ScanError
  | strayChar ch _ => strayChar ch pos
  | strayClose _ => strayClose pos
  | namelessColon _ => namelessColon pos
  | repeatedColon name _ => repeatedColon name pos
  | strayQuote _ => strayQuote pos
  | quoteExpected name ch _ => quoteExpected name ch pos
  | unexpectedEnd context => unexpectedEnd context

/-- The error of a text that stands `k` characters further on. -/
def later (k : Nat) (e : ScanError) : ScanError :=
  match e.position? with
  | none => e
  | some pos => e.movedTo (pos + k)

theorem later_of_position {k pos : Nat} {e : ScanError} (h : e.position? = some pos) :
    e.later k = e.movedTo (pos + k) := by
  rw [later, h]

end ScanError

namespace Scanner

theorem stepPlain_later (lists depth : Nat) (name : Option String) (pos k : Nat) (c : Char) :
    stepPlain lists depth name (pos + k) c =
      (stepPlain lists depth name pos c).mapError (·.later k) := by
  simp only [stepPlain]
  cases name <;> repeat' split
  all_goals rfl

/-- Where a character stands shows in the error alone. -/
theorem step_later (m : Mode) (pos k : Nat) (c : Char) :
    step m (pos + k) c = (step m pos c).mapError (·.later k) := by
  rcases m with _ | ⟨depth, text⟩ | ⟨lists, depth, _ | ⟨name⟩ | ⟨name⟩ | ⟨name, text, escaped⟩⟩
  · simp only [step, stepOutside]
    repeat' split
    all_goals rfl
  · simp only [step, stepCommand]
    repeat' split
    all_goals rfl
  · exact stepPlain_later lists depth none pos k c
  · exact stepPlain_later lists depth (some name) pos k c
  · simp only [step, stepAwaiting]
    repeat' split
    all_goals rfl
  · rfl

theorem run_later (m : Mode) (pos k : Nat) (s : List Char) :
    run m (pos + k) s = (run m pos s).mapError (·.later k) := by
  induction s generalizing m pos with
  | nil =>
    rw [run, run]
    cases m.unfinished <;> rfl
  | cons c s ih =>
    have hstep := step_later m pos k c
    cases hc : step m pos c with
    | error e =>
      rw [hc] at hstep
      rw [run, run, hc, hstep]
      rfl
    | ok r =>
      obtain ⟨ts, n⟩ := r
      rw [hc] at hstep
      rw [run, run, hc, hstep]
      dsimp only [Except.mapError]
      rw [Nat.add_right_comm pos k 1, ih]
      cases run n (pos + 1) s <;> rfl

end Scanner

open Scanner

/-- A text after an accepted one: its tokens come after those that were there, and its error is moved. -/
theorem scan_of_append {s : String} {ts : List Token} (h : scan s = .ok ts) (t : String) :
    scan (s ++ t) = ((scan t).mapError (·.later s.length)).map (ts ++ ·) := by
  have hreads := (scan_eq_ok_iff_reads s ts).mp h
  have hrest := run_later .outside 0 s.length t.toList
  rw [scan, String.toList_append, run_append hreads, String.length_toList, hrest]
  rfl

/-- Reading goes list by list: after a text that is accepted, another text gives the tokens, the error or
the open brackets that it gives alone, and the position of an error counts the characters in front. -/
theorem scan_append {s : String} {ts : List Token} (h : scan s = .ok ts) (t : String) :
    (∀ us, scan t = .ok us → scan (s ++ t) = .ok (ts ++ us)) ∧
    (∀ e pos, scan t = .error e → e.position? = some pos →
      scan (s ++ t) = .error (e.movedTo (pos + s.length))) ∧
    ∀ context, scan t = .error (.unexpectedEnd context) →
      scan (s ++ t) = .error (.unexpectedEnd context) := by
  rw [scan_of_append h]
  refine ⟨?_, ?_, ?_⟩
  · intro us ht
    rw [ht]
    rfl
  · intro e pos ht hpos
    rw [ht, ← ScanError.later_of_position hpos]
    rfl
  · intro context ht
    rw [ht]
    rfl

/-- After `[a]` and a blank: another list, a stray bracket, and a list with an unfinished block. -/
theorem scan_append_list :
    scan "[a] " = .ok [.mark '[', .valued "cmd" "a", .mark ']'] ∧
    scan "[b]" = .ok [.mark '[', .valued "cmd" "b", .mark ']'] ∧
    scan "[a] [b]" = .ok [.mark '[', .valued "cmd" "a", .mark ']', .mark '[', .valued "cmd" "b",
      .mark ']'] ∧
    scan "[\x7d" = .error (.strayClose 1) ∧ scan "[a] [\x7d" = .error (.strayClose 5) ∧
    scan "[[\x7b" = .error (.unexpectedEnd (.code 1)) ∧
    scan "[a] [[\x7b" = .error (.unexpectedEnd (.code 1)) := by
  have h : scan "[a] " = .ok [.mark '[', .valued "cmd" "a", .mark ']'] := rfl
  have hlist : scan "[b]" = .ok [.mark '[', .valued "cmd" "b", .mark ']'] := rfl
  have hstray : scan "[\x7d" = .error (.strayClose 1) := rfl
  have hopen : scan "[[\x7b" = .error (.unexpectedEnd (.code 1)) := rfl
  refine ⟨h, hlist, ?_, hstray, ?_, hopen, ?_⟩
  · exact (scan_append h "[b]").1 _ hlist
  · exact (scan_append h "[\x7d").2.1 _ 1 hstray rfl
  · exact (scan_append h "[[\x7b").2.2 _ hopen

end BracketTree
