import BracketTree.Token.Scanner

/-! Reading a piece of text from any mode, and what every mode that is reached keeps: how deep it
is nested, and what a text or a name that has begun consists of. -/

namespace BracketTree.Scanner
set_option autoImplicit false

/-- A character of command text: anything but the brackets that a command list knows. -/
def IsText (c : Char) : Prop := c ≠ '[' ∧ c ≠ ']' ∧ c ≠ '{' ∧ c ≠ '}'

def IsLetter (c : Char) : Prop := c.isAlpha = true

def IsSeparator (c : Char) : Prop := isBlank c = true ∨ c = ';'

/-- A character that is a token by itself inside a block. -/
def IsMark (c : Char) : Prop :=
  c ≠ '{' ∧ c ≠ '}' ∧ c ≠ ':' ∧ c ≠ '\'' ∧ ¬ IsSeparator c ∧ ¬ IsLetter c

def Run (p : Char → Prop) (s : List Char) : Prop := s ≠ [] ∧ ∀ c ∈ s, p c

theorem Run.push {p : Char → Prop} {s : List Char} {c : Char} (hs : ∀ d ∈ s, p d) (hc : p c) :
    Run p (s ++ [c]) := by
  refine ⟨by simp, ?_⟩
  intro d hd
  rcases List.mem_append.mp hd with hd | hd
  · exact hs d hd
  · exact List.mem_singleton.mp hd ▸ hc

theorem isBlank_of_isLetter {c : Char} (h : IsLetter c) : isBlank c = false := by
  have hc : 65 ≤ c.toNat ∧ c.toNat ≤ 90 ∨ 97 ≤ c.toNat ∧ c.toNat ≤ 122 := by
    rcases (Bool.or_eq_true _ _).mp h with h | h
    · obtain ⟨hlow, hhigh⟩ := of_decide_eq_true h
      exact .inl ⟨UInt32.le_iff_toNat_le.mp hlow, UInt32.le_iff_toNat_le.mp hhigh⟩
    · obtain ⟨hlow, hhigh⟩ := (Bool.and_eq_true _ _).mp h
      exact .inr ⟨UInt32.le_iff_toNat_le.mp (of_decide_eq_true hlow),
        UInt32.le_iff_toNat_le.mp (of_decide_eq_true hhigh)⟩
  simp only [isBlank, blankRanges, List.any_cons, List.any_nil, Bool.or_false, Bool.or_eq_false_iff,
    Bool.and_eq_false_iff, decide_eq_false_iff_not]
  omega

theorem IsLetter.ne {c d : Char} (h : IsLetter c) (hd : d.isAlpha = false) : c ≠ d := by
  rintro rfl
  simp [IsLetter, hd] at h

theorem IsSeparator.not_isLetter {c : Char} (h : IsSeparator c) : ¬ IsLetter c := by
  intro hl
  rcases h with h | rfl
  · simp [isBlank_of_isLetter hl] at h
  · simp [IsLetter] at hl

def Pending.name : Pending → String
  | named name => name
  | awaiting name => name
  | quoted name _ _ => name

def Plain (p : Option Pending) : Prop := ∀ q ∈ p, ∃ name, q = .named name

@[simp] theorem plain_none : Plain none := by simp [Plain]

@[simp] theorem plain_named (name : String) : Plain (some (.named name)) := by simp [Plain]

def closeList (depth : Nat) : Mode := if depth - 1 = 0 then .outside else .command (depth - 1) none

def closeBlock (lists depth : Nat) : Mode :=
  if depth - 1 = 0 then .command lists none else .code lists (depth - 1) none

@[simp] theorem pendingTokens_none : pendingTokens none = [] := rfl

@[simp] theorem textTokens_none : textTokens none = [] := rfl

/-- Everything that one character can do, errors aside. -/
inductive Moves : Mode → Char → List Token → Mode → Prop where
  | program : Moves .outside '[' [.mark '['] (.command 1 none)
  | blank {c : Char} : isBlank c = true → Moves .outside c [] .outside
  | list {d : Nat} {t : Option String} :
      Moves (.command d t) '[' (textTokens t ++ [.mark '[']) (.command (d + 1) none)
  | listEnd {d : Nat} {t : Option String} :
      Moves (.command d t) ']' (textTokens t ++ [.mark ']']) (closeList d)
  | code {d : Nat} {t : Option String} :
      Moves (.command d t) '{' (textTokens t ++ [.mark '{']) (.code d 1 none)
  | text {d : Nat} {t : Option String} {c : Char} :
      IsText c → Moves (.command d t) c [] (.command d (some ((t.getD "").push c)))
  | block {l d : Nat} {p : Option Pending} :
      Plain p → Moves (.code l d p) '{' (pendingTokens p ++ [.mark '{']) (.code l (d + 1) none)
  | blockEnd {l d : Nat} {p : Option Pending} :
      Plain p → Moves (.code l d p) '}' (pendingTokens p ++ [.mark '}']) (closeBlock l d)
  | separator {l d : Nat} {p : Option Pending} {c : Char} :
      Plain p → IsSeparator c → Moves (.code l d p) c (pendingTokens p) (.code l d none)
  | mark {l d : Nat} {p : Option Pending} {c : Char} :
      Plain p → IsMark c → Moves (.code l d p) c (pendingTokens p ++ [.mark c]) (.code l d none)
  | letter {l d : Nat} {p : Option Pending} {c : Char} : Plain p → IsLetter c →
      Moves (.code l d p) c [] (.code l d (some (.named ((p.elim "" Pending.name).push c))))
  | colon {l d : Nat} {n : String} :
      Moves (.code l d (some (.named n))) ':' [] (.code l d (some (.awaiting n)))
  | quote {l d : Nat} {n : String} :
      Moves (.code l d (some (.awaiting n))) '\'' [] (.code l d (some (.quoted n "" false)))
  | backslash {l d : Nat} {n v : String} :
      Moves (.code l d (some (.quoted n v false))) '\\' [] (.code l d (some (.quoted n v true)))
  | escaped {l d : Nat} {n v : String} {c : Char} :
      Moves (.code l d (some (.quoted n v true))) c [] (.code l d (some (.quoted n (v.push c) false)))
  | literal {l d : Nat} {n v : String} {c : Char} : c ≠ '\\' → c ≠ '\'' →
      Moves (.code l d (some (.quoted n v false))) c []
        (.code l d (some (.quoted n (v.push c) false)))
  | valueEnd {l d : Nat} {n v : String} :
      Moves (.code l d (some (.quoted n v false))) '\'' [.valued n v] (.code l d none)

theorem step_of_plain (l d : Nat) {p : Option Pending} (hp : Plain p) (pos : Nat) (c : Char) :
    step (.code l d p) pos c = stepPlain l d (p.map Pending.name) pos c := by
  cases p with
  | none => rfl
  | some q =>
    obtain ⟨name, rfl⟩ := hp q rfl
    rfl

theorem map_named_name {p : Option Pending} (hp : Plain p) :
    p.map (Pending.named ∘ Pending.name) = p := by
  cases p with
  | none => rfl
  | some q =>
    obtain ⟨name, rfl⟩ := hp q rfl
    rfl

theorem isBlank_ne {c d : Char} (h : isBlank c = true) (hd : isBlank d = false) : c ≠ d := by
  rintro rfl
  simp [hd] at h

theorem moves_of_stepPlain {l d : Nat} (name : Option String) {pos : Nat} {c : Char}
    {ts : List Token} {m : Mode} (h : stepPlain l d name pos c = .ok (ts, m)) :
    Moves (.code l d (name.map .named)) c ts m := by
  have hp : Plain (name.map .named) := by cases name <;> simp
  simp only [stepPlain] at h
  split at h
  · next hc => subst hc; cases h; exact .blockEnd hp
  split at h
  · next hc => subst hc; cases h; exact .block hp
  split at h
  · next hc =>
    subst hc
    cases name with
    | none => cases h
    | some name => cases h; exact .colon
  split at h
  · next hc => cases h; exact .separator hp (.inr hc)
  split at h
  · cases h
  split at h
  · next hc => cases h; exact .separator hp (.inl hc)
  split at h
  · next hc =>
    cases h
    have hl := Moves.letter (l := l) (d := d) hp hc
    cases name <;> exact hl
  · next h1 h2 h3 h4 h5 h6 h7 =>
    cases h
    exact .mark hp ⟨h2, h1, h3, h5, by simp [IsSeparator, h4, h6], h7⟩

theorem moves_of_step {m n : Mode} {pos : Nat} {c : Char} {ts : List Token}
    (h : step m pos c = .ok (ts, n)) : Moves m c ts n := by
  cases m with
  | outside =>
    simp only [step, stepOutside] at h
    split at h
    · next hc => subst hc; cases h; exact .program
    split at h
    · next hc => cases h; exact .blank hc
    · cases h
  | command d t =>
    simp only [step, stepCommand] at h
    split at h
    · next hc => subst hc; cases h; exact .list
    split at h
    · next hc => subst hc; cases h; exact .listEnd
    split at h
    · next hc => subst hc; cases h; exact .code
    split at h
    · cases h
    · next h1 h2 h3 h4 => cases h; exact .text ⟨h1, h2, h3, h4⟩
  | code l d p =>
    rcases p with _ | ⟨name⟩ | ⟨name⟩ | ⟨name, v, escaped⟩
    · exact moves_of_stepPlain none h
    · exact moves_of_stepPlain (some name) h
    · simp only [step, stepAwaiting] at h
      split at h
      · next hc => subst hc; cases h; exact .quote
      split at h <;> cases h
    · simp only [step, stepQuoted, Except.ok.injEq] at h
      split at h
      · next he => subst he; cases h; exact .escaped
      next he =>
      simp only [Bool.not_eq_true] at he
      subst he
      split at h
      · next hc => subst hc; cases h; exact .backslash
      split at h
      · next hc => subst hc; cases h; exact .valueEnd
      · next h1 h2 => cases h; exact .literal h1 h2

theorem step_of_moves {m n : Mode} {c : Char} {ts : List Token} (h : Moves m c ts n) (pos : Nat) :
    step m pos c = .ok (ts, n) := by
  cases h with
  | program => rfl
  | blank hc =>
    have hne := isBlank_ne hc (d := '[') (by decide)
    simp [step, stepOutside, hne, hc]
  | list => rfl
  | listEnd => rfl
  | code => rfl
  | text hc =>
    obtain ⟨h1, h2, h3, h4⟩ := hc
    simp [step, stepCommand, h1, h2, h3, h4]
  | block hp =>
    rw [step_of_plain _ _ hp]
    simp [stepPlain, map_named_name hp]
  | blockEnd hp =>
    rw [step_of_plain _ _ hp]
    simp [stepPlain, map_named_name hp, closeBlock]
  | separator hp hc =>
    rw [step_of_plain _ _ hp]
    rcases hc with hc | rfl
    · have h1 := isBlank_ne hc (d := '}') (by decide)
      have h2 := isBlank_ne hc (d := '{') (by decide)
      have h3 := isBlank_ne hc (d := ':') (by decide)
      have h4 := isBlank_ne hc (d := ';') (by decide)
      have h5 := isBlank_ne hc (d := '\'') (by decide)
      simp [stepPlain, map_named_name hp, h1, h2, h3, h4, h5, hc]
    · simp [stepPlain, map_named_name hp]
  | mark hp hc =>
    obtain ⟨h1, h2, h3, h4, h5, h6⟩ := hc
    simp only [IsSeparator, not_or, IsLetter] at h5 h6
    rw [step_of_plain _ _ hp]
    simp [stepPlain, map_named_name hp, h1, h2, h3, h4, h5, h6]
  | @letter l d p c hp hc =>
    have h1 := hc.ne (d := '}') (by decide)
    have h2 := hc.ne (d := '{') (by decide)
    have h3 := hc.ne (d := ':') (by decide)
    have h4 := hc.ne (d := ';') (by decide)
    have h5 := hc.ne (d := '\'') (by decide)
    have h6 := isBlank_of_isLetter hc
    rw [step_of_plain _ _ hp]
    rw [IsLetter] at hc
    cases p <;> simp [stepPlain, h1, h2, h3, h4, h5, h6, hc]
  | colon => rfl
  | quote => rfl
  | backslash => rfl
  | escaped => rfl
  | literal h1 h2 => simp [step, stepQuoted, h1, h2]
  | valueEnd => rfl

/-- Reading `s` from the mode `m` completes the tokens `ts` and leads to the mode `n`. -/
inductive Reads : Mode → List Char → List Token → Mode → Prop where
  | nil (m : Mode) : Reads m [] [] m
  | cons {m k n : Mode} {c : Char} {s : List Char} {ts us : List Token} :
      Moves m c ts k → Reads k s us n → Reads m (c :: s) (ts ++ us) n

theorem Reads.append {m k n : Mode} {s t : List Char} {ts us : List Token}
    (h : Reads m s ts k) (h' : Reads k t us n) : Reads m (s ++ t) (ts ++ us) n := by
  induction h with
  | nil => exact h'
  | cons hc _ ih =>
    rw [List.append_assoc]
    exact .cons hc (ih h')

/-- After a part that is read, the run goes on with the rest. -/
theorem run_append {m n : Mode} {s : List Char} {ts : List Token} (h : Reads m s ts n) (pos : Nat)
    (t : List Char) : run m pos (s ++ t) = (run n (pos + s.length) t).map (ts ++ ·) := by
  induction h generalizing pos with
  | nil m =>
    rw [List.nil_append, List.length_nil, Nat.add_zero]
    cases run m pos t <;> rfl
  | @cons m k n c s ts us hmove _ ih =>
    have hpos : pos + (c :: s).length = pos + 1 + s.length := by
      rw [List.length_cons]
      omega
    rw [List.cons_append, run, step_of_moves hmove, hpos]
    dsimp only
    rw [ih (pos + 1)]
    cases run n (pos + 1 + s.length) t with
    | error e => rfl
    | ok vs => simp [Except.map]

theorem unfinished_eq_none_iff (m : Mode) : m.unfinished = none ↔ m = .outside := by
  rcases m with _ | ⟨d, t⟩ | ⟨l, d, _ | ⟨name⟩ | ⟨name⟩ | ⟨name, v, e⟩⟩ <;> simp [Mode.unfinished]

theorem run_eq_ok_iff (m : Mode) (pos : Nat) (s : List Char) (ts : List Token) :
    run m pos s = .ok ts ↔ Reads m s ts .outside := by
  induction s generalizing m pos ts with
  | nil =>
    constructor
    · intro h
      cases hm : m.unfinished with
      | none =>
        rw [run, hm] at h
        cases h
        exact (unfinished_eq_none_iff m).mp hm ▸ .nil m
      | some context => simp [run, hm] at h
    · rintro ⟨⟩
      rfl
  | cons c s ih =>
    constructor
    · intro h
      rw [run] at h
      cases hc : step m pos c with
      | error e => simp [hc] at h
      | ok r =>
        obtain ⟨us, k⟩ := r
        cases hs : run k (pos + 1) s with
        | error e => simp [hc, hs] at h
        | ok later =>
          simp only [hc, hs, Except.ok.injEq] at h
          exact h ▸ .cons (moves_of_step hc) ((ih k _ _).mp hs)
    · intro h
      cases h with
      | cons hc hs => simp [run, step_of_moves hc, (ih _ (pos + 1) _).mpr hs]

theorem scan_eq_ok_iff_reads (s : String) (ts : List Token) :
    scan s = .ok ts ↔ Reads .outside s.toList ts .outside :=
  run_eq_ok_iff _ _ _ _

/-- Open lists and blocks are counted from one on, and what has begun is not empty. -/
def Mode.Valid : Mode → Prop
  | .outside => True
  | .command depth text => 0 < depth ∧ ∀ t ∈ text, Run IsText t.toList
  | .code lists depth pending => 0 < lists ∧ 0 < depth ∧ ∀ p ∈ pending, Run IsLetter p.name.toList

theorem closeList_valid (d : Nat) : (closeList d).Valid := by
  rw [closeList]
  split
  · trivial
  · exact ⟨by omega, by simp⟩

theorem closeBlock_valid {l : Nat} (hl : 0 < l) (d : Nat) : (closeBlock l d).Valid := by
  rw [closeBlock]
  split
  · exact ⟨hl, by simp⟩
  · exact ⟨hl, by omega, by simp⟩

theorem Moves.valid {m n : Mode} {c : Char} {ts : List Token} (h : Moves m c ts n)
    (hm : m.Valid) : n.Valid := by
  cases h with
  | program => exact ⟨by omega, by simp⟩
  | blank => trivial
  | list => exact ⟨by omega, by simp⟩
  | listEnd => exact closeList_valid _
  | code => exact ⟨hm.1, by omega, by simp⟩
  | @text d t c hc =>
    refine ⟨hm.1, ?_⟩
    rintro _ ⟨⟩
    rw [String.toList_push]
    refine .push ?_ hc
    cases t with
    | none => simp
    | some t => exact (hm.2 t rfl).2
  | block => exact ⟨hm.1, by omega, by simp⟩
  | blockEnd => exact closeBlock_valid hm.1 _
  | separator => exact ⟨hm.1, hm.2.1, by simp⟩
  | mark => exact ⟨hm.1, hm.2.1, by simp⟩
  | @letter l d p c hp hc =>
    refine ⟨hm.1, hm.2.1, ?_⟩
    rintro _ ⟨⟩
    rw [Pending.name, String.toList_push]
    refine .push ?_ hc
    cases p with
    | none => simp
    | some q => exact (hm.2.2 q rfl).2
  | valueEnd => exact ⟨hm.1, hm.2.1, by simp⟩
  | colon | quote | backslash | escaped | literal =>
    refine ⟨hm.1, hm.2.1, ?_⟩
    rintro _ ⟨⟩
    have hn := hm.2.2 _ rfl
    exact hn

theorem Reads.valid {m n : Mode} {s : List Char} {ts : List Token} (h : Reads m s ts n)
    (hm : m.Valid) : n.Valid := by
  induction h with
  | nil => exact hm
  | cons hc _ ih => exact ih (hc.valid hm)

end BracketTree.Scanner
