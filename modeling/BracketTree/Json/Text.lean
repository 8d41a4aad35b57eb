import BracketTree.Json.Fault

/-!
# Strings of JSON

`quote` writes a string: a quotation mark, a backslash and the characters below U+0020 are escaped,
all others stand for themselves. `readText` reads what follows the opening mark. Characters outside
the first plane may be escaped as a pair of surrogates, and a surrogate alone is refused; `skipText`
passes over a string without looking at surrogates.
-/

namespace BracketTree
set_option autoImplicit false

namespace Json

def hexDigits : List Char :=
  ['0', '1', '2', '3', '4', '5', '6', '7', '8', '9', 'a', 'b', 'c', 'd', 'e', 'f']

def hexDigit (n : Nat) : Char := hexDigits.getD n '0'

def shortEscapes : List (Char × Char) :=
  [('"', '"'), ('\\', '\\'), ('b', '\x08'), ('f', '\x0c'), ('n', '\n'), ('r', '\r'), ('t', '\t')]

def escape (c : Char) : List Char :=
  match shortEscapes.find? fun e => e.2 = c with
  | some e => ['\\', e.1]
  | none =>
    if c.toNat < 0x20 then ['\\', 'u', '0', '0', hexDigit (c.toNat / 16), hexDigit (c.toNat % 16)]
    else [c]

def quote (s : String) : String := String.ofList ('"' :: s.toList.flatMap escape ++ ['"'])

def hexValue? (c : Char) : Option Nat :=
  if c.isDigit then some (c.toNat - '0'.toNat)
  else if 'a' ≤ c ∧ c ≤ 'f' then some (c.toNat - 'a'.toNat + 10)
  else if 'A' ≤ c ∧ c ≤ 'F' then some (c.toNat - 'A'.toNat + 10)
  else none

def hexNumber? : List Char → Option Nat
  | [] => some 0
  | c :: rest => do
    let high ← hexValue? c
    let low ← hexNumber? rest
    some (high * Nat.pow 16 rest.length + low)

/-- Fewer than four bytes are left. -/
def endsWithinHex (s : List Char) : Bool :=
  (s.take 4).foldl (fun bytes c => bytes + c.utf8Size) 0 < 4

def readHex : Reader Nat := fun s =>
  if endsWithinHex s then .error .ended
  else
    match hexNumber? (s.take 4) with
    | some n => .ok (n, s.drop 4)
    | none => .error .malformed

def isHighSurrogate (n : Nat) : Bool := 0xD800 ≤ n && n ≤ 0xDBFF

def isLowSurrogate (n : Nat) : Bool := 0xDC00 ≤ n && n ≤ 0xDFFF

/-- The low half that must follow the high half `high` of a pair. -/
def readLowHalf (high : Nat) : Reader Char := fun s =>
  match (readWord ['\\', 'u'] s).bind readHex with
  | .error e => .error e
  | .ok (low, rest) =>
    if isLowSurrogate low then
      .ok (Char.ofNat (0x10000 + (high - 0xD800) * 0x400 + (low - 0xDC00)), rest)
    else .error .malformed

def readUnicode : Reader Char := fun s =>
  match readHex s with
  | .error e => .error e
  | .ok (n, rest) =>
    if isLowSurrogate n then .error .malformed
    else if isHighSurrogate n then readLowHalf n rest
    else .ok (Char.ofNat n, rest)

def readEscape : Reader Char
  | [] => .error .ended
  | c :: rest =>
    if c = 'u' then readUnicode rest
    else if c = '/' then .ok ('/', rest)
    else
      match shortEscapes.lookup c with
      | some d => .ok (d, rest)
      | none => .error .malformed

theorem length_of_readWord {w s rest : List Char} (h : readWord w s = .ok rest) :
    rest.length ≤ s.length := by
  induction w generalizing s with
  | nil =>
    cases h
    exact Nat.le_refl _
  | cons c w ih =>
    cases s with
    | nil => cases h
    | cons d s =>
      simp only [readWord] at h
      split at h
      · exact Nat.le_succ_of_le (ih h)
      · cases h

theorem length_of_readHex {s rest : List Char} {n : Nat} (h : readHex s = .ok (n, rest)) :
    rest.length < s.length := by
  unfold readHex at h
  split at h
  · cases h
  · rename_i hs
    split at h
    · cases h
      cases s with
      | nil => exact absurd rfl hs
      | cons c s =>
        simp only [List.length_drop, List.length_cons]
        omega
    · cases h

theorem length_of_readLowHalf {s rest : List Char} {n : Nat} {c : Char}
    (h : readLowHalf n s = .ok (c, rest)) : rest.length < s.length := by
  unfold readLowHalf at h
  cases hw : readWord ['\\', 'u'] s with
  | error e => simp [hw, Except.bind] at h
  | ok t =>
    have ht := length_of_readWord hw
    simp only [hw, Except.bind] at h
    split at h
    · cases h
    · rename_i hr
      have hl := length_of_readHex hr
      split at h
      · simp only [Except.ok.injEq, Prod.mk.injEq] at h
        rw [← h.2]
        omega
      · cases h

theorem length_of_readUnicode {s rest : List Char} {c : Char}
    (h : readUnicode s = .ok (c, rest)) : rest.length < s.length := by
  unfold readUnicode at h
  split at h
  · cases h
  · rename_i hr
    have hl := length_of_readHex hr
    split at h
    · cases h
    · split at h
      · have hm := length_of_readLowHalf h
        omega
      · cases h
        exact hl

theorem length_of_readEscape {s rest : List Char} {c : Char}
    (h : readEscape s = .ok (c, rest)) : rest.length < s.length := by
  cases s with
  | nil => cases h
  | cons d s =>
    simp only [readEscape] at h
    split at h
    · exact Nat.lt_succ_of_lt (length_of_readUnicode h)
    · split at h
      · cases h
        exact Nat.lt_succ_self _
      · split at h
        · cases h
          exact Nat.lt_succ_self _
        · cases h

def readText (s : List Char) : Except Fault (List Char × List Char) :=
  match s with
  | [] => .error .ended
  | c :: rest =>
    if c = '"' then .ok ([], rest)
    else if c = '\\' then
      match h : readEscape rest with
      | .error e => .error e
      | .ok (d, more) =>
        have := length_of_readEscape h
        (readText more).map fun r => (d :: r.1, r.2)
    else if c.toNat < 0x20 then .error .malformed
    else (readText rest).map fun r => (c :: r.1, r.2)
termination_by s.length

def skipEscape : List Char → Except Fault (List Char)
  | [] => .error .ended
  | c :: rest =>
    if c = 'u' then (readHex rest).map Prod.snd
    else if c = '/' || (shortEscapes.lookup c).isSome then .ok rest
    else .error .malformed

theorem length_of_skipEscape {s rest : List Char} (h : skipEscape s = .ok rest) :
    rest.length < s.length := by
  cases s with
  | nil => cases h
  | cons d s =>
    simp only [skipEscape] at h
    split at h
    · cases hr : readHex s with
      | error e => simp [hr, Except.map] at h
      | ok r =>
        simp only [hr, Except.map, Except.ok.injEq] at h
        subst h
        exact Nat.lt_succ_of_lt (length_of_readHex hr)
    · split at h
      · cases h
        exact Nat.lt_succ_self _
      · cases h

def skipText (s : List Char) : Except Fault (List Char) :=
  match s with
  | [] => .error .ended
  | c :: rest =>
    if c = '"' then .ok rest
    else if c = '\\' then
      match h : skipEscape rest with
      | .error e => .error e
      | .ok more =>
        have := length_of_skipEscape h
        skipText more
    else if c.toNat < 0x20 then .error .malformed
    else skipText rest
termination_by s.length

end Json
end BracketTree
