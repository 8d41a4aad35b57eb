import BracketTree.Json.Record
import BracketTree.Proofs.Json.Text
import Mathlib.Data.List.Basic

/-! A record is read back from the object that is written for it. What the members mean is given by a
relation between the states of the reader, so that the order of the members is free. -/

namespace BracketTree.Json
set_option autoImplicit false

/-! ## Values -/

theorem dropSpace_cons {c : Char} (h : isSpace c = false) (s : List Char) :
    dropSpace (c :: s) = c :: s := by
  rw [dropSpace, List.dropWhile_cons_of_neg]
  simp [h]

theorem toList_quote (s : String) : (quote s).toList = '"' :: (s.toList.flatMap escape ++ ['"']) := by
  rw [quote, String.toList_ofList]
  rfl

theorem readString_quote (s : String) (rest : List Char) :
    readString ((quote s).toList ++ rest) = .ok (s, rest) := by
  rw [toList_quote, List.cons_append, List.append_assoc]
  change Except.map _ (readText (s.toList.flatMap escape ++ '"' :: rest)) = _
  rw [readText_flatMap_escape, Except.map, String.ofList_toList]

theorem readString?_of_quote (s : List Char) :
    readString? ('"' :: s) = (readString ('"' :: s)).map fun r => (some r.1, r.2) := rfl

theorem readString?_ofString? (v : Option String) (rest : List Char) :
    readString? ((ofString? v).toList ++ rest) = .ok (v, rest) := by
  cases v with
  | none => rfl
  | some s =>
    have hstring := readString_quote s rest
    rw [toList_quote, List.cons_append] at hstring
    rw [ofString?, toList_quote, List.cons_append, readString?_of_quote, hstring]
    rfl

theorem readBool_ofBool (b : Bool) (rest : List Char) :
    readBool ((ofBool b).toList ++ rest) = .ok (b, rest) := by
  cases b <;> rfl

theorem readOnce_none {α : Type} (read : Reader α) (s : List Char) :
    readOnce none read (':' :: s) = read s := rfl

/-! ## Members -/

/-- A member as it is written, without what stands between two members. -/
def memberText (m : String × String) : List Char := (quote m.1).toList ++ ':' :: m.2.toList

/-- The members after the first one, as they are written. -/
def laterText (ms : List (String × String)) : List Char := ms.flatMap fun m => ',' :: memberText m

theorem intercalate_memberText (m : String × String) (ms : List (String × String)) :
    [','].intercalate ((m :: ms).map memberText) = memberText m ++ laterText ms := by
  induction ms generalizing m with
  | nil => simp [laterText]
  | cons k ms ih =>
    have hlater := ih k
    rw [List.map_cons] at hlater
    rw [List.map_cons, List.map_cons, List.intercalate_cons_cons, hlater]
    simp [laterText]

theorem toList_object (ms : List (String × String)) :
    (object ms).toList = '{' :: ([','].intercalate (ms.map memberText) ++ ['}']) := by
  have htext : (ms.map fun m => quote m.1 ++ ":" ++ m.2).map String.toList = ms.map memberText := by
    rw [List.map_map]
    apply List.map_congr_left
    intro m _
    simp [memberText]
  rw [object, String.toList_append, String.toList_append, String.toList_intercalate, htext]
  rfl

variable {σ : Type} {member : σ → String → List Char → Except Fault (σ × List Char)}

/-- From one state to another, the members are taken one after the other, each with its value as written
and whatever follows. -/
inductive Takes (member : σ → String → List Char → Except Fault (σ × List Char)) :
    σ → List (String × String) → σ → Prop where
  | nil (st : σ) : Takes member st [] st
  | cons {st next last : σ} {key value : String} {ms : List (String × String)} :
      (∀ rest, member st key (':' :: value.toList ++ rest) = .ok (next, rest)) →
      Takes member next ms last → Takes member st ((key, value) :: ms) last

theorem readMembersWithin_next (n : Nat) (st : σ) (s : List Char) :
    readMembersWithin member (n + 1) false st (',' :: '"' :: s) =
      readMembersWithin member (n + 1) true st ('"' :: s) := rfl

theorem readMembersWithin_end (n : Nat) (first : Bool) (st : σ) (rest : List Char) :
    readMembersWithin member (n + 1) first st ('}' :: rest) = .ok (st, rest) := rfl

theorem readMembersWithin_key {n : Nat} {st next : σ} {s key more rest : List Char}
    (hkey : readText s = .ok (key, more)) (h : member st (String.ofList key) more = .ok (next, rest)) :
    readMembersWithin member (n + 1) true st ('"' :: s) = readMembersWithin member n false next rest := by
  have hdrop : dropSpace ('"' :: s) = '"' :: s := dropSpace_cons rfl s
  simp [readMembersWithin, hdrop, hkey, h]

/-- A member where one is expected, and the object after it. -/
theorem readMembersWithin_member {st next : σ} {key value : String} {rest : List Char}
    (h : member st key (':' :: value.toList ++ rest) = .ok (next, rest)) (n : Nat) :
    readMembersWithin member (n + 1) true st (memberText (key, value) ++ rest) =
      readMembersWithin member n false next rest := by
  have hkey := readText_flatMap_escape key.toList (':' :: value.toList ++ rest)
  have hmember := readMembersWithin_key (n := n) hkey (by rwa [String.ofList_toList])
  rw [memberText, toList_quote]
  simpa using hmember

theorem readMembersWithin_later {st next : σ} {key value : String} {rest : List Char}
    (h : member st key (':' :: value.toList ++ rest) = .ok (next, rest)) (n : Nat) :
    readMembersWithin member (n + 1) false st (',' :: memberText (key, value) ++ rest) =
      readMembersWithin member n false next rest := by
  rw [← readMembersWithin_member h, memberText, toList_quote]
  exact readMembersWithin_next n st _

theorem readMembersWithin_laterText {st last : σ} {ms : List (String × String)}
    (h : Takes member st ms last) {n : Nat} (hn : ms.length < n) (rest : List Char) :
    readMembersWithin member n false st (laterText ms ++ '}' :: rest) = .ok (last, rest) := by
  induction h generalizing n with
  | nil st =>
    obtain ⟨n, rfl⟩ := Nat.exists_eq_add_one.mpr hn
    exact readMembersWithin_end n false st rest
  | @cons st next last key value ms hmember _ ih =>
    obtain ⟨n, rfl⟩ := Nat.exists_eq_add_one.mpr (Nat.zero_lt_of_lt hn)
    have hlater := readMembersWithin_later (hmember (laterText ms ++ '}' :: rest)) n
    rw [laterText, List.flatMap_cons, List.append_assoc]
    rw [laterText] at hlater ih
    rw [hlater]
    exact ih (Nat.lt_of_succ_lt_succ hn)

theorem length_le_laterText (ms : List (String × String)) : ms.length ≤ (laterText ms).length := by
  induction ms with
  | nil => exact Nat.le_refl _
  | cons m ms ih =>
    rw [laterText] at ih ⊢
    simp only [List.length_cons, List.flatMap_cons, List.length_append]
    omega

/-- The members of an object are taken in the order in which they are written. -/
theorem readMembers_object {st last : σ} {ms : List (String × String)}
    (h : Takes member st ms last) (rest : List Char) :
    readMembers member st ([','].intercalate (ms.map memberText) ++ '}' :: rest) = .ok (last, rest) := by
  cases h with
  | nil => exact readMembersWithin_end _ true st rest
  | @cons _ next _ key value ms hmember hlater =>
    have hlength := length_le_laterText ms
    rw [intercalate_memberText, List.append_assoc, readMembers, readMembersWithin_member (hmember _)]
    apply readMembersWithin_laterText hlater
    simp only [List.length_append, List.length_cons]
    omega

/-- A document that is an object. -/
theorem readDocument_object {α : Type} {ofArray ofObject : Reader α} {ms : List (String × String)} {a : α}
    (h : ofObject ([','].intercalate (ms.map memberText) ++ ['}']) = .ok (a, [])) :
    readDocument (readRecord ofArray ofObject) (object ms) = .ok a := by
  have hrecord : readRecord ofArray ofObject (object ms).toList = .ok (a, []) := by
    rw [toList_object]
    exact h
  rw [readDocument, hrecord]
  rfl

end BracketTree.Json
