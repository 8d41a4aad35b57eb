import BracketTree.Proofs.Token.Grammar

/-! Texts that end too early. The grammar says which brackets of a text are open: what stands between
them is complete. A bracket that is closed makes one item of all that stood in it. -/

namespace BracketTree.Grammar
open Scanner
set_option autoImplicit false

/-- The text leaves `lists` command lists open, and within them `blocks` blocks. -/
inductive Open : Nat → Nat → List Char → List Token → Prop where
  | program {s : List Char} {ts : List Token} : Program s ts → Open 0 0 s ts
  | list {l : Nat} {s inner : List Char} {ts us : List Token} : Open l 0 s ts → Items inner us →
      Open (l + 1) 0 (s ++ '[' :: inner) (ts ++ .mark '[' :: us)
  | block {l d : Nat} {s inner : List Char} {ts us : List Token} : Open (l + 1) d s ts →
      Code inner us → Open (l + 1) (d + 1) (s ++ '{' :: inner) (ts ++ .mark '{' :: us)

/-- A name with a colon, and perhaps a part of the value in quotes, the end of the quotes missing. -/
inductive ValueBegun : List Char → Prop where
  | colon {n : List Char} : Run IsLetter n → ValueBegun (n ++ [':'])
  | quoted {n q v : List Char} : Run IsLetter n → Quoted q v → ValueBegun (n ++ ':' :: '\'' :: q)
  | escaping {n q v : List Char} : Run IsLetter n → Quoted q v →
      ValueBegun (n ++ ':' :: '\'' :: q ++ ['\\'])

/-- So many brackets of the text are open. What stands inside a value does not count. -/
def Unclosed (lists blocks : Nat) (s : List Char) : Prop :=
  ∃ done tail ts, s = done ++ tail ∧ Open lists blocks done ts ∧
    (tail = [] ∨ 0 < blocks ∧ ValueBegun tail)

/-! ## Texts one after the other -/

/-- No run of the class `p` goes on from the text `s` to the text `t`. -/
def Parted (p : Char → Prop) (s t : List Char) : Prop :=
  ∀ c, s.getLast? = some c → p c → Stops p t

theorem parted_of_stops {p : Char → Prop} {t : List Char} (h : Stops p t) (s : List Char) :
    Parted p s t :=
  fun _ _ _ => h

theorem Parted.of_append {p : Char → Prop} {r s t : List Char} (h : Parted p (r ++ s) t) :
    Parted p s t := by
  intro c hc
  exact h c (by rw [List.getLast?_append, hc]; rfl)

theorem Parted.of_cons {p : Char → Prop} {c : Char} {s t : List Char} (h : Parted p (c :: s) t) :
    Parted p s t :=
  Parted.of_append (r := [c]) h

/-- A run that stops before `s` still stops when `t` comes after `s`. -/
theorem stops_append {p : Char → Prop} {run s t : List Char} (hrun : Run p run) (hs : Stops p s)
    (h : Parted p (run ++ s) t) : Stops p (s ++ t) := by
  cases s with
  | cons c s => exact hs
  | nil =>
    obtain ⟨c, hc⟩ := List.getLast?_isSome.mpr hrun.1 |> Option.isSome_iff_exists.mp
    rw [List.append_nil] at h
    exact h c hc (hrun.2 c (List.mem_of_getLast? hc))

theorem Code.append {s t : List Char} {ts us : List Token} (h : Code s ts) (h' : Code t us)
    (hp : Parted IsLetter s t) : Code (s ++ t) (ts ++ us) := by
  induction h with
  | nil => exact h'
  | separator hc _ ih => exact .separator hc (ih hp.of_cons)
  | @block inner s _ _ hinner _ _ ih =>
    have hs := Code.block hinner (ih (Parted.of_append (r := '{' :: inner ++ ['}']) (by simpa using hp)))
    simpa using hs
  | name hn hstop _ ih =>
    have hs := Code.name hn (stops_append hn hstop hp) (ih hp.of_append)
    simpa using hs
  | @valued n q v s _ hn hq _ ih =>
    have hs := Code.valued hn hq
      (ih (Parted.of_append (r := n ++ ':' :: '\'' :: q ++ ['\'']) (by simpa using hp)))
    simpa using hs
  | mark hc _ ih => exact .mark hc (ih hp.of_cons)

theorem Items.append {s t : List Char} {ts us : List Token} (h : Items s ts) (h' : Items t us)
    (hp : Parted IsText s t) : Items (s ++ t) (ts ++ us) := by
  induction h with
  | nil => exact h'
  | text hrun hstop _ ih =>
    have hs := Items.text hrun (stops_append hrun hstop hp) (ih hp.of_append)
    simpa using hs
  | @list inner s _ _ hinner _ _ ih =>
    have hs := Items.list hinner (ih (Parted.of_append (r := '[' :: inner ++ [']']) (by simpa using hp)))
    simpa using hs
  | @block inner s _ _ hinner _ ih =>
    have hs := Items.block hinner (ih (Parted.of_append (r := '{' :: inner ++ ['}']) (by simpa using hp)))
    simpa using hs

theorem Program.append {s t : List Char} {ts us : List Token} (h : Program s ts)
    (h' : Program t us) : Program (s ++ t) (ts ++ us) := by
  induction h with
  | nil => exact h'
  | blank hc _ ih => exact .blank hc ih
  | list hinner _ ih =>
    have hs := Program.list hinner ih
    simpa using hs

/-! ## What one character does to the open brackets -/

section Open
variable {l d : Nat} {s : List Char} {ts : List Token}

theorem Open.items {t : List Char} {us : List Token} (h : Open (l + 1) 0 s ts) (ht : Items t us)
    (hp : Parted IsText s t) : Open (l + 1) 0 (s ++ t) (ts ++ us) := by
  cases h with
  | @list _ s inner ts vs ho hi =>
    have hinner := hi.append ht (Parted.of_append (r := s ++ ['[']) (by simpa using hp))
    simpa using Open.list ho hinner

theorem Open.code {t : List Char} {us : List Token} (h : Open (l + 1) (d + 1) s ts)
    (ht : Code t us) (hp : Parted IsLetter s t) : Open (l + 1) (d + 1) (s ++ t) (ts ++ us) := by
  cases h with
  | @block _ _ s inner ts vs ho hc =>
    have hinner := hc.append ht (Parted.of_append (r := s ++ ['{']) (by simpa using hp))
    simpa using Open.block ho hinner

theorem Open.listEnd (h : Open (l + 1) 0 s ts) :
    Open l 0 (s ++ [']']) (ts ++ [.mark ']']) := by
  cases h with
  | @list _ s inner ts us ho hi =>
    cases l with
    | zero =>
      cases ho with
      | program hs => simpa using Open.program (hs.append (.list hi .nil))
    | succ l =>
      have hstop : Stops IsText ('[' :: (inner ++ [']'])) := stops_cons (by simp [IsText]) _
      simpa using ho.items (.list hi .nil) (parted_of_stops hstop s)

theorem Open.blockEnd (h : Open (l + 1) (d + 1) s ts) :
    Open (l + 1) d (s ++ ['}']) (ts ++ [.mark '}']) := by
  cases h with
  | @block _ _ s inner ts us ho hc =>
    cases d with
    | zero =>
      have hstop : Stops IsText ('{' :: (inner ++ ['}'])) := stops_cons (by simp [IsText]) _
      simpa using ho.items (.block hc .nil) (parted_of_stops hstop s)
    | succ d =>
      have hstop : Stops IsLetter ('{' :: (inner ++ ['}'])) := stops_cons (by simp [IsLetter]) _
      simpa using ho.code (.block hc .nil) (parted_of_stops hstop s)

end Open
end BracketTree.Grammar
