import BracketTree.Proofs.Token.Grammar

/-! Writing tokens as text. The token lists that a text can have are described without any text;
each of them has a canonical rendering, from which the scanner reads it back. -/

namespace BracketTree.Grammar
open Scanner
set_option autoImplicit false

inductive CodeTokens : List Token → Prop where
  | nil : CodeTokens []
  | name {n : String} {ts : List Token} :
      Run IsLetter n.toList → CodeTokens ts → CodeTokens (.bare n :: ts)
  | valued {n : String} {ts : List Token} (v : String) :
      Run IsLetter n.toList → CodeTokens ts → CodeTokens (.valued n v :: ts)
  | mark {c : Char} {ts : List Token} : IsMark c → CodeTokens ts → CodeTokens (.mark c :: ts)
  | block {us ts : List Token} :
      CodeTokens us → CodeTokens ts → CodeTokens (.mark '{' :: us ++ .mark '}' :: ts)

/-- The token lists that can stand between the brackets of a command list: no two command texts are
neighbours. -/
inductive ItemTokens : List Token → Prop where
  | nil : ItemTokens []
  | text {run : String} {ts : List Token} : Run IsText run.toList →
      (∀ t, ts.head? = some t → t.name ≠ "cmd") → ItemTokens ts →
      ItemTokens (.valued "cmd" run :: ts)
  | list {us ts : List Token} :
      ItemTokens us → ItemTokens ts → ItemTokens (.mark '[' :: us ++ .mark ']' :: ts)
  | block {us ts : List Token} :
      CodeTokens us → ItemTokens ts → ItemTokens (.mark '{' :: us ++ .mark '}' :: ts)

inductive ProgramTokens : List Token → Prop where
  | nil : ProgramTokens []
  | list {us ts : List Token} :
      ItemTokens us → ProgramTokens ts → ProgramTokens (.mark '[' :: us ++ .mark ']' :: ts)

/-- A quote and a backslash are written behind a backslash. -/
def escape : List Char → List Char
  | [] => []
  | c :: v => if c = '\\' ∨ c = '\'' then '\\' :: c :: escape v else c :: escape v

/-- A token of a block: a value stands in quotes, and a space ends a token without one. -/
def renderCode (t : Token) : List Char :=
  match t.value with
  | none => t.name.toList ++ [' ']
  | some v => t.name.toList ++ ':' :: '\'' :: escape v.toList ++ ['\'']

/-- A token outside every block: a command text stands for itself. -/
def renderItem (t : Token) : List Char := (t.value.getD t.name).toList

/-- Writes tokens that stand within `depth` blocks. -/
def renderAt : Nat → List Token → List Char
  | _, [] => []
  | depth, t :: ts =>
    if t = .mark '{' then '{' :: renderAt (depth + 1) ts
    else if t = .mark '}' then '}' :: renderAt (depth - 1) ts
    else (if depth = 0 then renderItem t else renderCode t) ++ renderAt depth ts

def render (ts : List Token) : String := String.ofList (renderAt 0 ts)

theorem quoted_escape (v : List Char) : Quoted (escape v) v := by
  induction v with
  | nil => exact .nil
  | cons c v ih =>
    rw [escape]
    split
    · exact .escaped ih
    · next h =>
      rw [not_or] at h
      exact .plain h.1 h.2 ih

theorem mark_injective {c d : Char} (h : Token.mark c = Token.mark d) : c = d := by
  simpa [Token.mark, Token.bare] using h

theorem valued_ne_mark (n v : String) (c : Char) : Token.valued n v ≠ .mark c := by
  simp [Token.valued, Token.mark, Token.bare]

theorem bare_ne_mark {n : String} {c : Char} (hn : Run IsLetter n.toList) (hc : ¬ IsLetter c) :
    Token.bare n ≠ .mark c := by
  intro h
  simp only [Token.mark, Token.bare, Token.mk.injEq, and_true] at h
  subst h
  exact hc (hn.2 c (by simp))

@[simp] theorem renderAt_open (depth : Nat) (ts : List Token) :
    renderAt depth (.mark '{' :: ts) = '{' :: renderAt (depth + 1) ts := by
  simp [renderAt]

@[simp] theorem renderAt_close (depth : Nat) (ts : List Token) :
    renderAt depth (.mark '}' :: ts) = '}' :: renderAt (depth - 1) ts := by
  have hne : Token.mark '}' ≠ .mark '{' := fun h => absurd (mark_injective h) (by decide)
  simp [renderAt, hne]

theorem renderAt_cons {t : Token} (h1 : t ≠ .mark '{') (h2 : t ≠ .mark '}') (depth : Nat)
    (ts : List Token) : renderAt depth (t :: ts) =
      (if depth = 0 then renderItem t else renderCode t) ++ renderAt depth ts := by
  simp [renderAt, h1, h2]

theorem CodeTokens.exists_code {ts : List Token} (h : CodeTokens ts) : ∃ s, Code s ts ∧
    ∀ depth rest, renderAt (depth + 1) (ts ++ rest) = s ++ renderAt (depth + 1) rest := by
  induction h with
  | nil => exact ⟨[], .nil, fun _ _ => rfl⟩
  | @name n ts hn _ ih =>
    obtain ⟨s, hs, hr⟩ := ih
    refine ⟨n.toList ++ ' ' :: s, ?_, ?_⟩
    · have hc := Code.name hn (stops_cons (by simp [IsLetter]) s)
        (.separator (c := ' ') (.inl (by decide)) hs)
      rwa [String.ofList_toList] at hc
    · intro depth rest
      rw [List.cons_append, renderAt_cons (bare_ne_mark hn (by simp [IsLetter]))
        (bare_ne_mark hn (by simp [IsLetter])), hr]
      simp [renderCode, Token.bare]
  | @valued n ts v hn _ ih =>
    obtain ⟨s, hs, hr⟩ := ih
    refine ⟨n.toList ++ ':' :: '\'' :: escape v.toList ++ '\'' :: s, ?_, ?_⟩
    · have hc := Code.valued hn (quoted_escape v.toList) hs
      rwa [String.ofList_toList, String.ofList_toList] at hc
    · intro depth rest
      rw [List.cons_append, renderAt_cons (valued_ne_mark n v _) (valued_ne_mark n v _), hr]
      simp [renderCode, Token.valued]
  | @mark c ts hc _ ih =>
    obtain ⟨s, hs, hr⟩ := ih
    refine ⟨c :: ' ' :: s, .mark hc (.separator (.inl (by decide)) hs), ?_⟩
    intro depth rest
    have h1 : Token.mark c ≠ .mark '{' := fun h => hc.1 (mark_injective h)
    have h2 : Token.mark c ≠ .mark '}' := fun h => hc.2.1 (mark_injective h)
    rw [List.cons_append, renderAt_cons h1 h2, hr]
    simp [renderCode, Token.mark, Token.bare]
  | @block us ts _ _ hinner ih =>
    obtain ⟨inner, hi, hri⟩ := hinner
    obtain ⟨s, hs, hr⟩ := ih
    refine ⟨'{' :: inner ++ '}' :: s, .block hi hs, ?_⟩
    intro depth rest
    simp [hri, hr]

theorem Items.stops {s : List Char} {ts : List Token} (h : Items s ts)
    (hts : ∀ t, ts.head? = some t → t.name ≠ "cmd") : Stops IsText s := by
  cases h with
  | nil => simp [Stops]
  | text => exact absurd rfl (hts _ rfl)
  | list => exact stops_cons (by simp [IsText]) _
  | block => exact stops_cons (by simp [IsText]) _

theorem renderAt_zero_mark {c : Char} (h1 : c ≠ '{') (h2 : c ≠ '}') (ts : List Token) :
    renderAt 0 (.mark c :: ts) = c :: renderAt 0 ts := by
  rw [renderAt_cons (fun h => h1 (mark_injective h)) (fun h => h2 (mark_injective h))]
  simp [renderItem, Token.mark, Token.bare]

theorem ItemTokens.exists_items {ts : List Token} (h : ItemTokens ts) : ∃ s, Items s ts ∧
    ∀ rest, renderAt 0 (ts ++ rest) = s ++ renderAt 0 rest := by
  induction h with
  | nil => exact ⟨[], .nil, fun _ => rfl⟩
  | @text run ts hrun hts _ ih =>
    obtain ⟨s, hs, hr⟩ := ih
    refine ⟨run.toList ++ s, ?_, ?_⟩
    · have hi := Items.text hrun (hs.stops hts) hs
      rwa [String.ofList_toList] at hi
    · intro rest
      rw [List.cons_append, renderAt_cons (valued_ne_mark _ _ _) (valued_ne_mark _ _ _), hr]
      simp [renderItem, Token.valued]
  | @list us ts _ _ hinner ih =>
    obtain ⟨inner, hi, hri⟩ := hinner
    obtain ⟨s, hs, hr⟩ := ih
    refine ⟨'[' :: inner ++ ']' :: s, .list hi hs, ?_⟩
    intro rest
    simp [renderAt_zero_mark, hri, hr]
  | @block us ts hcode _ ih =>
    obtain ⟨inner, hi, hri⟩ := hcode.exists_code
    obtain ⟨s, hs, hr⟩ := ih
    refine ⟨'{' :: inner ++ '}' :: s, .block hi hs, ?_⟩
    intro rest
    simp [hri, hr]

theorem ProgramTokens.program {ts : List Token} (h : ProgramTokens ts) :
    Program (renderAt 0 ts) ts := by
  induction h with
  | nil => exact .nil
  | @list us ts hitems _ ih =>
    obtain ⟨inner, hi, hri⟩ := hitems.exists_items
    have hp := Program.list hi ih
    simpa [renderAt_zero_mark, hri] using hp

theorem Code.codeTokens {s : List Char} {ts : List Token} (h : Code s ts) : CodeTokens ts := by
  induction h with
  | nil => exact .nil
  | separator _ _ ih => exact ih
  | block _ _ hinner ih => exact .block hinner ih
  | name hn _ _ ih => exact .name (by rwa [String.toList_ofList]) ih
  | valued hn _ _ ih => exact .valued _ (by rwa [String.toList_ofList]) ih
  | mark hc _ ih => exact .mark hc ih

theorem Items.head_ne_text {s : List Char} {ts : List Token} (h : Items s ts)
    (hs : Stops IsText s) : ∀ t, ts.head? = some t → t.name ≠ "cmd" := by
  intro t ht
  cases h with
  | nil => cases ht
  | @text run s ts hrun _ _ =>
    obtain ⟨hne, hall⟩ := hrun
    cases run with
    | nil => exact absurd rfl hne
    | cons c run => exact absurd (hall c (by simp)) (hs c rfl)
  | list => cases ht; decide
  | block => cases ht; decide

theorem Items.itemTokens {s : List Char} {ts : List Token} (h : Items s ts) : ItemTokens ts := by
  induction h with
  | nil => exact .nil
  | text hrun hstop hs ih =>
    exact .text (by rwa [String.toList_ofList]) (hs.head_ne_text hstop) ih
  | list _ _ hinner ih => exact .list hinner ih
  | block hcode _ ih => exact .block hcode.codeTokens ih

theorem Program.programTokens {s : List Char} {ts : List Token} (h : Program s ts) :
    ProgramTokens ts := by
  induction h with
  | nil => exact .nil
  | blank _ _ ih => exact ih
  | list hitems _ ih => exact .list hitems.itemTokens ih

/-- The scanner reads exactly what the grammar derives. The token lists that it can give are those
of the shape `ProgramTokens`, and each is read back from its rendering. -/
theorem scan_iff_program :
    (∀ (s : String) (ts : List Token), scan s = .ok ts ↔ Program s.toList ts) ∧
    (∀ ts, ProgramTokens ts ↔ ∃ s, scan s = .ok ts) ∧
    ∀ ts, ProgramTokens ts → scan (render ts) = .ok ts := by
  have hscan : ∀ (s : String) (ts : List Token), scan s = .ok ts ↔ Program s.toList ts :=
    fun s ts => (scan_eq_ok_iff_reads s ts).trans (reads_iff_program s.toList ts)
  have hrender : ∀ ts, ProgramTokens ts → scan (render ts) = .ok ts := by
    intro ts h
    rw [hscan, render, String.toList_ofList]
    exact h.program
  refine ⟨hscan, fun ts => ⟨fun h => ⟨render ts, hrender ts h⟩, ?_⟩, hrender⟩
  rintro ⟨s, hs⟩
  exact ((hscan s ts).mp hs).programTokens

/-- The value `it's` is written with a backslash and read back. -/
theorem scan_render_quote :
    let ts : List Token := [.mark '[', .valued "cmd" "say", .mark '{', .valued "ID" "it's",
      .mark '}', .mark ']']
    ProgramTokens ts ∧ scan (render ts) = .ok ts := by
  intro ts
  have hletters : Run IsLetter "ID".toList := by
    refine ⟨by decide, ?_⟩
    intro c hc
    rcases List.mem_cons.mp hc with rfl | hc
    · rfl
    · obtain rfl := List.mem_singleton.mp hc
      rfl
  have htext : Run IsText "say".toList := by
    refine ⟨by decide, ?_⟩
    intro c hc
    rcases List.mem_cons.mp hc with rfl | hc
    · exact ⟨by decide, by decide, by decide, by decide⟩
    rcases List.mem_cons.mp hc with rfl | hc
    · exact ⟨by decide, by decide, by decide, by decide⟩
    · obtain rfl := List.mem_singleton.mp hc
      exact ⟨by decide, by decide, by decide, by decide⟩
  have hblock : ItemTokens [.mark '{', .valued "ID" "it's", .mark '}'] :=
    @ItemTokens.block [.valued "ID" "it's"] [] (.valued "it's" hletters .nil) .nil
  have hitems : ItemTokens [.valued "cmd" "say", .mark '{', .valued "ID" "it's", .mark '}'] := by
    refine .text htext ?_ hblock
    intro t ht
    obtain rfl := Option.some.inj ht
    decide
  have hts : ProgramTokens ts :=
    @ProgramTokens.list [.valued "cmd" "say", .mark '{', .valued "ID" "it's", .mark '}'] []
      hitems .nil
  exact ⟨hts, scan_iff_program.2.2 ts hts⟩

end BracketTree.Grammar
