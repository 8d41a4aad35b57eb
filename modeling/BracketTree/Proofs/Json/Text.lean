import BracketTree.Json.Text

/-! A string is read back from its written form, whatever stands behind it. -/

namespace BracketTree.Json
set_option autoImplicit false

/-- A character that has a short escape is written as a backslash and the letter of the escape. -/
theorem readEscape_short {e : Char × Char} (h : e ∈ shortEscapes) (rest : List Char) :
    readEscape (e.1 :: rest) = .ok (e.2, rest) := by
  simp only [shortEscapes, List.mem_cons, List.not_mem_nil, or_false] at h
  rcases h with rfl | rfl | rfl | rfl | rfl | rfl | rfl <;> rfl

theorem hexNumber?_pair : ∀ n < 0x20,
    hexNumber? ['0', '0', hexDigit (n / 16), hexDigit (n % 16)] = some n := by
  decide

theorem readHex_control {n : Nat} (h : n < 0x20) (rest : List Char) :
    readHex ('0' :: '0' :: hexDigit (n / 16) :: hexDigit (n % 16) :: rest) = .ok (n, rest) := by
  have hlong : endsWithinHex ('0' :: '0' :: hexDigit (n / 16) :: hexDigit (n % 16) :: rest) = false := by
    have hpos : ∀ c : Char, 1 ≤ c.utf8Size := fun c => c.utf8Size_pos
    have h1 := hpos (hexDigit (n / 16))
    have h2 := hpos (hexDigit (n % 16))
    have h0 : '0'.utf8Size = 1 := rfl
    simp only [endsWithinHex, List.take_succ_cons, List.take_zero, List.foldl_cons, List.foldl_nil, h0,
      decide_eq_false_iff_not]
    omega
  have hnumber := hexNumber?_pair n h
  simp [readHex, hlong, hnumber]

theorem readUnicode_control {n : Nat} (h : n < 0x20) (rest : List Char) :
    readUnicode ('0' :: '0' :: hexDigit (n / 16) :: hexDigit (n % 16) :: rest) =
      .ok (Char.ofNat n, rest) := by
  have hlow : isLowSurrogate n = false := by
    simp only [isLowSurrogate, Bool.and_eq_false_iff, decide_eq_false_iff_not]
    omega
  have hhigh : isHighSurrogate n = false := by
    simp only [isHighSurrogate, Bool.and_eq_false_iff, decide_eq_false_iff_not]
    omega
  simp [readUnicode, readHex_control h, hlow, hhigh]

/-- After a backslash, what stands for a character. -/
theorem readText_escaped {s more : List Char} {c : Char} (h : readEscape s = .ok (c, more)) :
    readText ('\\' :: s) = (readText more).map fun r => (c :: r.1, r.2) := by
  rw [readText]
  simp only [Char.reduceEq, if_false, if_true]
  split
  · next he => simp [h] at he
  · next he =>
    simp only [h, Except.ok.injEq, Prod.mk.injEq] at he
    obtain ⟨rfl, rfl⟩ := he
    rfl

theorem readText_plain {c : Char} (hquote : c ≠ '"') (hslash : c ≠ '\\') (hcontrol : ¬ c.toNat < 0x20)
    (rest : List Char) : readText (c :: rest) = (readText rest).map fun r => (c :: r.1, r.2) := by
  rw [readText]
  simp only [hquote, hslash, hcontrol, if_false]

/-- One character is read back. -/
theorem readText_escape (c : Char) (rest : List Char) :
    readText (escape c ++ rest) = (readText rest).map fun r => (c :: r.1, r.2) := by
  rw [escape]
  cases hfind : shortEscapes.find? fun e => e.2 = c with
  | some e =>
    obtain rfl : e.2 = c := by simpa using List.find?_some hfind
    exact readText_escaped (readEscape_short (List.mem_of_find?_eq_some hfind) rest)
  | none =>
    have hplain : ∀ e ∈ shortEscapes, e.2 ≠ c := by simpa using hfind
    dsimp only
    split
    · next hcontrol =>
      have hread := readUnicode_control hcontrol rest
      rw [Char.ofNat_toNat] at hread
      exact readText_escaped (s := 'u' :: _) hread
    · next hcontrol =>
      have hquote := (hplain ('"', '"') (by simp [shortEscapes])).symm
      have hslash := (hplain ('\\', '\\') (by simp [shortEscapes])).symm
      exact readText_plain hquote hslash hcontrol rest

theorem readText_flatMap_escape (s rest : List Char) :
    readText (s.flatMap escape ++ '"' :: rest) = .ok (s, rest) := by
  induction s with
  | nil =>
    rw [List.flatMap_nil, List.nil_append, readText]
    rfl
  | cons c s ih =>
    rw [List.flatMap_cons, List.append_assoc, readText_escape, ih]
    rfl

end BracketTree.Json
