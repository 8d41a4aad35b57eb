import BracketTree.Config
import BracketTree.Proofs.Json.Record
import BracketTree.Token.Json
import Mathlib.Data.List.Perm.Subperm

/-! Tokens and settings are read back from their JSON forms. Of the settings, a field may be left out where
it has its default, and the fields may stand in any order. -/

namespace BracketTree
open Json
set_option autoImplicit false

/-! ## Tokens -/

namespace Token

def fields (t : Token) : List (String × String) := [("name", quote t.name), ("value", ofString? t.value)]

theorem takes_fields (t : Token) : Takes member ⟨none, none⟩ t.fields ⟨some t.name, some t.value⟩ := by
  have hname : ∀ rest, member ⟨none, none⟩ "name" (':' :: (quote t.name).toList ++ rest) =
      .ok (⟨some t.name, none⟩, rest) := by
    intro rest
    simp [member, readOnce_none, readString_quote, Except.map]
  have hvalue : ∀ rest, member ⟨some t.name, none⟩ "value" (':' :: (ofString? t.value).toList ++ rest) =
      .ok (⟨some t.name, some t.value⟩, rest) := by
    intro rest
    simp [member, readOnce_none, readString?_ofString?, Except.map]
  exact .cons hname (.cons hvalue (.nil _))

theorem ofJson_toJson (t : Token) : ofJson t.toJson = .ok t := by
  have hobject : ofObject ([','].intercalate (t.fields.map memberText) ++ ['}']) = .ok (t, []) := by
    rw [ofObject, readMembers_object t.takes_fields]
    rfl
  exact readDocument_object hobject

end Token

/-! ## Settings -/

namespace Config
variable {c : Config}

def fields (c : Config) : List (String × String) :=
  [("recover", ofBool c.recover), ("evaluate", ofBool c.evaluate), ("log_level", quote c.logLevel)]

/-- What is given when the fields with these keys have been read. -/
def given (c : Config) (keys : List String) : Given where
  recover := if "recover" ∈ keys then some c.recover else none
  evaluate := if "evaluate" ∈ keys then some c.evaluate else none
  logLevel := if "log_level" ∈ keys then some c.logLevel else none

theorem member_given {f : String × String} (hf : f ∈ c.fields) {keys : List String}
    (hnew : f.1 ∉ keys) (rest : List Char) :
    member (c.given keys) f.1 (':' :: f.2.toList ++ rest) = .ok (c.given (f.1 :: keys), rest) := by
  simp only [fields, List.mem_cons, List.not_mem_nil, or_false] at hf
  rcases hf with rfl | rfl | rfl
  · simp_all [member, given, readOnce_none, readBool_ofBool, Except.map]
  · simp_all [member, given, readOnce_none, readBool_ofBool, Except.map]
  · simp_all [member, given, readOnce_none, readString_quote, Except.map]

/-- Fields with keys that are new are taken in any order. -/
theorem takes_given {fs : List (String × String)} (hfs : fs ⊆ c.fields) {keys : List String}
    (hnew : (fs.map Prod.fst ++ keys).Nodup) :
    Takes member (c.given keys) fs (c.given ((fs.map Prod.fst).reverse ++ keys)) := by
  induction fs generalizing keys with
  | nil => exact .nil _
  | cons f fs ih =>
    obtain ⟨hf, hfs⟩ := List.cons_subset.mp hfs
    have hmiddle : (fs.map Prod.fst ++ f.1 :: keys).Nodup := List.perm_middle.nodup_iff.mpr hnew
    have hkey : f.1 ∉ keys := (List.nodup_cons.mp (List.nodup_append.mp hmiddle).2.1).1
    have hlater := ih hfs hmiddle
    rw [List.map_cons, List.reverse_cons, List.append_assoc, List.singleton_append]
    exact .cons (member_given hf hkey) hlater

theorem ofBool_inj {a b : Bool} (h : ofBool a = ofBool b) : a = b := by
  have ha := readBool_ofBool a []
  rw [h, readBool_ofBool] at ha
  cases ha
  rfl

theorem quote_inj {r s : String} (h : quote r = quote s) : r = s := by
  have hr := readString_quote r []
  rw [h, readString_quote] at hr
  cases hr
  rfl

theorem getD_ite {α : Type} {p : Prop} [Decidable p] {a b : α} (h : ¬ p → a = b) :
    (if p then some a else none).getD b = a := by
  split
  · rfl
  · next hp => exact (h hp).symm

/-- A setting whose field is left out is its default. -/
theorem config_given {keys : List String} (h : ∀ f ∈ c.fields, f.1 ∉ keys → f ∈ standard.fields) :
    (c.given keys).config = c := by
  have hrecover : "recover" ∉ keys → c.recover = standard.recover := by
    intro hk
    have hf := h ("recover", ofBool c.recover) (by simp [fields]) hk
    exact ofBool_inj (by simpa [fields] using hf)
  have hevaluate : "evaluate" ∉ keys → c.evaluate = standard.evaluate := by
    intro hk
    have hf := h ("evaluate", ofBool c.evaluate) (by simp [fields]) hk
    exact ofBool_inj (by simpa [fields] using hf)
  have hlevel : "log_level" ∉ keys → c.logLevel = standard.logLevel := by
    intro hk
    have hf := h ("log_level", quote c.logLevel) (by simp [fields]) hk
    exact quote_inj (by simpa [fields] using hf)
  simp only [given, Given.config, getD_ite hrecover, getD_ite hevaluate, getD_ite hlevel]

theorem nodup_keys {fs : List (String × String)} (h : fs.Subperm c.fields) : (fs.map Prod.fst).Nodup := by
  obtain ⟨l, hperm, hsub⟩ := h
  have hkeys : (c.fields.map Prod.fst).Nodup := by
    change ["recover", "evaluate", "log_level"].Nodup
    decide
  exact (hperm.map Prod.fst).nodup_iff.mp (hkeys.sublist (hsub.map Prod.fst))

theorem ofJson_object {fs : List (String × String)} (hfs : fs.Subperm c.fields)
    (hleft : ∀ f ∈ c.fields, f ∉ fs → f ∈ standard.fields) : ofJson (object fs) = .ok c := by
  have htakes : Takes member Given.nothing fs (c.given (fs.map Prod.fst).reverse) := by
    have hnew : (fs.map Prod.fst ++ []).Nodup := by simpa using nodup_keys hfs
    have hnone : c.given [] = Given.nothing := by simp [given, Given.nothing]
    simpa [hnone] using takes_given hfs.subset hnew
  have hconfig : (c.given (fs.map Prod.fst).reverse).config = c := by
    apply config_given
    intro f hf hkey
    refine hleft f hf fun hmem => hkey ?_
    exact List.mem_reverse.mpr (List.mem_map_of_mem hmem)
  rw [ofJson, readDocument_object (readMembers_object htakes []), Except.map, hconfig]

end Config

/-- A token is read back from its JSON form, whatever its name and with its value none, empty or a text.
Settings are read back from theirs, and from each object with some of its fields in some order where the
other fields have their defaults. -/
theorem json_round_trip :
    (∀ t : Token, Token.ofJson t.toJson = .ok t) ∧
    (∀ c : Config, Config.ofJson c.toJson = .ok c) ∧
    ∀ (c : Config) (fs : List (String × String)), fs.Subperm c.fields →
      (∀ f ∈ c.fields, f ∉ fs → f ∈ Config.standard.fields) → Config.ofJson (object fs) = .ok c := by
  have hsome : ∀ (c : Config) (fs : List (String × String)), fs.Subperm c.fields →
      (∀ f ∈ c.fields, f ∉ fs → f ∈ Config.standard.fields) → Config.ofJson (object fs) = .ok c := by
    intro c fs hfs hleft
    exact Config.ofJson_object hfs hleft
  refine ⟨Token.ofJson_toJson, ?_, hsome⟩
  intro c
  have hall : c.toJson = object c.fields := rfl
  rw [hall]
  exact hsome c c.fields (List.Subperm.refl _) fun f hf hnot => absurd hf hnot

/-- The last field comes first and the field in the middle is left out. -/
theorem json_round_trip_reordered :
    Config.ofJson "\x7b\"log_level\":\"\\\"\\\\\\n\\u0001é\",\"recover\":false\x7d" =
      .ok ⟨false, true, "\"\\\n\x01é"⟩ ∧
    Token.ofJson (Token.toJson ⟨"é\"", none⟩) = .ok ⟨"é\"", none⟩ ∧
    Token.ofJson (Token.toJson ⟨"é\"", some ""⟩) = .ok ⟨"é\"", some ""⟩ := by
  obtain ⟨htoken, -, hconfig⟩ := json_round_trip
  refine ⟨?_, htoken _, htoken _⟩
  let c : Config := ⟨false, true, "\"\\\n\x01é"⟩
  have hfs : [("log_level", quote c.logLevel), ("recover", ofBool c.recover)].Subperm c.fields :=
    ⟨[("recover", ofBool c.recover), ("log_level", quote c.logLevel)], .swap _ _ _,
      .cons_cons _ (.cons _ (.cons_cons _ .slnil))⟩
  have hread := hconfig c _ hfs (by simp [c, Config.fields, Config.standard])
  have htext : object [("log_level", quote c.logLevel), ("recover", ofBool c.recover)] =
      "\x7b\"log_level\":\"\\\"\\\\\\n\\u0001é\",\"recover\":false\x7d" := by
    decide +kernel
  rwa [htext] at hread

end BracketTree
