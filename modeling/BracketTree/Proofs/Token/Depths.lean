import BracketTree.Proofs.Token.ErrorPosition
import BracketTree.Proofs.Token.Registers

/-! The depths of the scanner are exact. A text with open brackets is read to a mode that counts them, so
the numbers of its open brackets are the depths and no others. -/

namespace BracketTree.Scanner
open Grammar
set_option autoImplicit false

/-! ## Reading a text with open brackets -/

theorem eq_command_of_moves {k : Mode} {l : Nat} {us : List Token}
    (h : Moves k ']' us (closeList (l + 1))) (hk : k.Valid) : ∃ text, k = .command (l + 1) text := by
  have hcode : ∀ a b p, closeList (l + 1) ≠ .code a b p := by
    intro a b p
    cases l <;> simp [closeList]
  generalize hn : closeList (l + 1) = n at h hcode
  cases h with
  | blank hc => exact absurd hc (by decide)
  | @listEnd d t =>
    obtain ⟨d, rfl⟩ := Nat.exists_eq_add_one.mpr hk.1
    obtain rfl : l = d := by simpa using congrArg Mode.lists hn
    exact ⟨t, rfl⟩
  | text hc => exact absurd rfl hc.2.1
  | separator | mark | letter | escaped | literal => exact absurd rfl (hcode _ _ _)

theorem eq_code_of_moves {k : Mode} {l d : Nat} {us : List Token}
    (h : Moves k '}' us (closeBlock (l + 1) (d + 1))) (hk : k.Valid) :
    ∃ p, Plain p ∧ k = .code (l + 1) (d + 1) p := by
  have hcode : ∀ a b q, closeBlock (l + 1) (d + 1) ≠ .code a b (some q) := by
    intro a b q
    cases d <;> simp [closeBlock]
  generalize hn : closeBlock (l + 1) (d + 1) = n at h hcode
  cases h with
  | blank hc => exact absurd hc (by decide)
  | text hc => exact absurd rfl hc.2.2.2
  | @blockEnd a b p hp =>
    obtain ⟨b, rfl⟩ := Nat.exists_eq_add_one.mpr hk.2.1
    obtain rfl : l + 1 = a := by simpa using congrArg Mode.lists hn
    obtain rfl : d = b := by simpa using congrArg Mode.blocks hn
    exact ⟨p, hp, rfl⟩
  | separator _ hc => exact absurd hc (by simp [IsSeparator, isBlank, blankRanges])
  | mark _ hc => exact absurd rfl hc.2.1
  | letter | escaped | literal => exact absurd rfl (hcode _ _ _)

theorem Items.reads_inside {s : List Char} {ts : List Token} (h : Items s ts) (l : Nat) :
    ∃ us text, Reads (.command (l + 1) none) s us (.command (l + 1) text) := by
  -- Up to the end of the list the reading is known; the end itself is taken off again.
  obtain ⟨us, vs, k, hs, hend⟩ := (h.reads l).of_append
  have hk := hs.valid ⟨Nat.succ_pos l, by simp⟩
  cases hend with
  | cons hmove hnil =>
    cases hnil
    obtain ⟨text, rfl⟩ := eq_command_of_moves hmove hk
    exact ⟨us, text, hs⟩

theorem Code.reads_inside {s : List Char} {ts : List Token} (h : Code s ts) (l d : Nat) :
    ∃ us p, Plain p ∧ Reads (.code (l + 1) (d + 1) none) s us (.code (l + 1) (d + 1) p) := by
  obtain ⟨us, vs, k, hs, hend⟩ := (h.reads (l + 1) d).of_append
  have hk := hs.valid ⟨Nat.succ_pos l, Nat.succ_pos d, by simp⟩
  cases hend with
  | cons hmove hnil =>
    cases hnil
    obtain ⟨p, hp, rfl⟩ := eq_code_of_moves hmove hk
    exact ⟨us, p, hp, hs⟩

/-- A text with open brackets is read to a mode whose depths count them. -/
theorem Open.reads {l d : Nat} {s : List Char} {ts : List Token} (h : Open l d s ts) :
    ∃ us m, Reads .outside s us m ∧ m.lists = l ∧ m.blocks = d ∧ Plain m.pending? := by
  induction h with
  | program hs => exact ⟨_, .outside, hs.reads, rfl, rfl, plain_none⟩
  | @list l _ _ _ _ _ hi ih =>
    obtain ⟨us, m, hs, hlists, hblocks, hp⟩ := ih
    have hm := hs.valid trivial
    have hopen : ∃ vs, Moves m '[' vs (.command (l + 1) none) := by
      rcases m with _ | ⟨a, t⟩ | ⟨a, b, p⟩
      · exact hlists ▸ ⟨_, .program⟩
      · exact hlists ▸ ⟨_, .list⟩
      · exact absurd hblocks (Nat.ne_of_gt hm.2.1)
    obtain ⟨vs, hmove⟩ := hopen
    obtain ⟨ws, text, hinner⟩ := Items.reads_inside hi l
    exact ⟨_, _, hs.append (.cons hmove hinner), rfl, rfl, plain_none⟩
  | @block l d _ _ _ _ _ hc ih =>
    obtain ⟨us, m, hs, hlists, hblocks, hp⟩ := ih
    have hopen : ∃ vs, Moves m '{' vs (.code (l + 1) (d + 1) none) := by
      rcases m with _ | ⟨a, t⟩ | ⟨a, b, p⟩
      · cases hlists
      · exact hlists ▸ hblocks ▸ ⟨_, .code⟩
      · exact hlists ▸ hblocks ▸ ⟨_, .block hp⟩
    obtain ⟨vs, hmove⟩ := hopen
    obtain ⟨ws, p, hplain, hinner⟩ := Code.reads_inside hc l d
    exact ⟨_, _, hs.append (.cons hmove hinner), rfl, rfl, hplain⟩

/-- A name after a part of a name: the two are read as one. -/
theorem reads_run {n : List Char} (hn : Run IsLetter n) (l d : Nat) {p : Option Pending}
    (hp : Plain p) : ∃ name, Reads (.code l d p) n [] (.code l d (some (.named name))) := by
  cases p with
  | none => exact ⟨_, reads_name l d hn⟩
  | some q =>
    obtain ⟨x, rfl⟩ := hp q rfl
    exact ⟨_, reads_letters l d x hn.2⟩

theorem ValueBegun.reads {tail : List Char} (h : ValueBegun tail) (l d : Nat) {p : Option Pending}
    (hp : Plain p) : ∃ q, Reads (.code l d p) tail [] (.code l d q) := by
  cases h with
  | colon hn =>
    obtain ⟨name, hreads⟩ := reads_run hn l d hp
    exact ⟨_, hreads.append (.cons .colon (.nil _))⟩
  | quoted hn hq =>
    obtain ⟨name, hreads⟩ := reads_run hn l d hp
    exact ⟨_, hreads.append (.cons .colon (.cons .quote (reads_quoted l d name "" hq)))⟩
  | escaping hn hq =>
    obtain ⟨name, hreads⟩ := reads_run hn l d hp
    have hvalue := (reads_quoted l d name "" hq).append (.cons .backslash (.nil _))
    have hall := hreads.append (.cons .colon (.cons .quote hvalue))
    exact ⟨_, by simpa using hall⟩

/-- Of a text that is read, exactly as many brackets are open as the mode counts. -/
theorem unclosed_iff {m : Mode} {s : List Char} {ts : List Token} (h : Reads .outside s ts m)
    (lists blocks : Nat) : Unclosed lists blocks s ↔ lists = m.lists ∧ blocks = m.blocks := by
  constructor
  · rintro ⟨done, tail, us, rfl, hopen, htail⟩
    obtain ⟨vs, k, hs, rfl, rfl, hp⟩ := Open.reads hopen
    rcases htail with rfl | ⟨hpos, hvalue⟩
    · rw [List.append_nil] at h
      rw [h.mode_unique hs]
      exact ⟨rfl, rfl⟩
    · rcases k with _ | ⟨l, t⟩ | ⟨l, d, p⟩
      · cases hpos
      · cases hpos
      · obtain ⟨q, htail⟩ := ValueBegun.reads hvalue l d hp
        rw [h.mode_unique (hs.append htail)]
        exact ⟨rfl, rfl⟩
  · rintro ⟨rfl, rfl⟩
    have hstart : Mode.outside.Follows [] [] :=
      ⟨[], [], rfl, .program .nil, .outside, fun c hc => by cases hc⟩
    exact (h.follows trivial hstart).unclosed (h.valid trivial)

/-! ## The registers -/

/-- What the registers say of the text `s` that has been read. -/
structure Registers.Exact (r : Registers) (s : List Char) : Prop where
  unclosed : ∀ lists blocks, Unclosed lists blocks s ↔ lists = r.lists ∧ blocks = r.blocks
  outside_iff : r.place = .outside ↔ r.lists = 0 ∧ r.blocks = 0
  command_iff : r.place = .command ↔ 0 < r.lists ∧ r.blocks = 0
  code_iff : r.place = .code ↔ 0 < r.lists ∧ 0 < r.blocks
  text : ∀ t, r.text = some t → r.place = .command ∧ Run IsText t.toList
  pending : ∀ p, r.pending = some p → r.place = .code ∧ Run IsLetter p.name.toList

theorem Reads.exact {m : Mode} {s : List Char} {ts : List Token} (h : Reads .outside s ts m) :
    (Registers.ofMode m).Exact s := by
  have hcount := unclosed_iff h
  have hv := h.valid trivial
  rcases m with _ | ⟨l, t⟩ | ⟨l, d, p⟩
  · exact
      { unclosed := hcount
        outside_iff := by simp [Registers.start]
        command_iff := by simp [Registers.start]
        code_iff := by simp [Registers.start]
        text := by simp [Registers.start]
        pending := by simp [Registers.start] }
  · have hl : l ≠ 0 := Nat.ne_of_gt hv.1
    exact
      { unclosed := hcount
        outside_iff := by simp [hl]
        command_iff := by simp [hv.1]
        code_iff := by simp
        text := fun t ht => ⟨rfl, hv.2 t ht⟩
        pending := by simp }
  · have hl : l ≠ 0 := Nat.ne_of_gt hv.1
    have hd : d ≠ 0 := Nat.ne_of_gt hv.2.1
    exact
      { unclosed := hcount
        outside_iff := by simp [hl]
        command_iff := by simp [hd]
        code_iff := by simp [hv.1, hv.2.1]
        text := by simp
        pending := fun p hp => ⟨rfl, hv.2.2 p hp⟩ }

/-- A text that ends too early ends at a mode that the scanner can be at. -/
theorem exists_reads_of_unexpectedEnd {s : String} {context : Unfinished}
    (h : scan s = .error (.unexpectedEnd context)) :
    ∃ ts m, Reads .outside s.toList ts m ∧ m.unfinished = some context := by
  cases fails_of_run h with
  | early hs hm => exact ⟨_, _, hs, hm⟩
  | stopped _ _ _ hstep => cases (position?_of_step hstep).1

theorem unfinished_command {m : Mode} {depth : Nat} (h : m.unfinished = some (.command depth)) :
    m.lists = depth ∧ m.blocks = 0 := by
  rcases m with _ | ⟨l, t⟩ | ⟨l, d, _ | ⟨n⟩ | ⟨n⟩ | ⟨n, v, e⟩⟩ <;> simp_all [Mode.unfinished]

theorem unfinished_code {m : Mode} {depth : Nat} (h : m.unfinished = some (.code depth)) :
    ∃ outer p, m = .code outer depth p := by
  rcases m with _ | ⟨l, t⟩ | ⟨l, d, _ | ⟨n⟩ | ⟨n⟩ | ⟨n, v, e⟩⟩ <;> simp_all [Mode.unfinished]

/-- Wherever the scanner has come to without an error, its registers say exactly how many lists and blocks
are open, and what has begun; no depth is ever lowered below 0; and a text that ends too early is reported
with the numbers of what is open. -/
theorem state_exact :
    (∀ s : String, (feed Registers.step .start 0 s.toList).bind Registers.ending =
      (scan s).mapError .refused) ∧
    (∀ pos s, feed Registers.step .start pos s ≠ .error .underflow) ∧
    (∀ pos s ts r, feed Registers.step .start pos s = .ok (ts, r) → r.Exact s) ∧
    (∀ s depth, scan s = .error (.unexpectedEnd (.command depth)) →
      ∀ lists blocks, Unclosed lists blocks s.toList ↔ lists = depth ∧ blocks = 0) ∧
    ∀ s depth, scan s = .error (.unexpectedEnd (.code depth)) → ∃ outer, 0 < outer ∧
      ∀ lists blocks, Unclosed lists blocks s.toList ↔ lists = outer ∧ blocks = depth := by
  refine ⟨Registers.scan_eq_feed, Registers.feed_start_ne_underflow, ?_, ?_, ?_⟩
  · intro pos s ts r h
    obtain ⟨m, hs, rfl⟩ := Registers.reads_of_feed_start h
    exact hs.exact
  · intro s depth h
    obtain ⟨ts, m, hs, hm⟩ := exists_reads_of_unexpectedEnd h
    obtain ⟨rfl, hblocks⟩ := unfinished_command hm
    intro lists blocks
    rw [unclosed_iff hs, hblocks]
  · intro s depth h
    obtain ⟨ts, m, hs, hm⟩ := exists_reads_of_unexpectedEnd h
    obtain ⟨outer, p, rfl⟩ := unfinished_code hm
    exact ⟨outer, (hs.valid trivial).1, unclosed_iff hs⟩

/-- Two lists and a block are open. The bracket before `x` is a token of the block, and those in the value
are a part of it. -/
theorem state_exact_in_value :
    let r : Registers := ⟨.code, none, some (.quoted "ID" "]\x7d" false), 2, 1⟩
    (∃ ts, feed Registers.step .start 0 "[a[\x7b[x ID:']\x7d".toList = .ok (ts, r)) ∧
    r.Exact "[a[\x7b[x ID:']\x7d".toList ∧ Unclosed 2 1 "[a[\x7b[x ID:']\x7d".toList ∧
    scan "[[]a[" = .error (.unexpectedEnd (.command 2)) ∧ Unclosed 2 0 "[[]a[".toList ∧
    scan "[\x7b[\x7b" = .error (.unexpectedEnd (.code 2)) ∧
    ∃ outer, Unclosed outer 2 "[\x7b[\x7b".toList := by
  intro r
  have hfeed : feed Registers.step .start 0 "[a[\x7b[x ID:']\x7d".toList =
      .ok ([.mark '[', .valued "cmd" "a", .mark '[', .mark '{', .mark '[', .bare "x"], r) := rfl
  obtain ⟨-, -, hexact, hcommand, hcode⟩ := state_exact
  have hvalue := hexact 0 _ _ _ hfeed
  have hlists : scan "[[]a[" = .error (.unexpectedEnd (.command 2)) := rfl
  have hblocks : scan "[\x7b[\x7b" = .error (.unexpectedEnd (.code 2)) := rfl
  obtain ⟨outer, -, houter⟩ := hcode _ 2 hblocks
  exact ⟨⟨_, hfeed⟩, hvalue, (hvalue.unclosed 2 1).mpr ⟨rfl, rfl⟩, hlists,
    (hcommand _ 2 hlists 2 0).mpr ⟨rfl, rfl⟩, hblocks, outer, (houter outer 2).mpr ⟨rfl, rfl⟩⟩

end BracketTree.Scanner
