import BracketTree.Proofs.Token.OpenBrackets

/-! The state of the scanner between two characters. A mode holds back a text or a name that has begun;
its depths are the numbers of the brackets that are open in what stands before. -/

namespace BracketTree.Scanner
open Grammar
set_option autoImplicit false

namespace Mode

/-- How many command lists are open. -/
def lists : Mode → Nat
  | outside => 0
  | command depth _ => depth
  | code lists _ _ => lists

/-- How many blocks are open. -/
def blocks : Mode → Nat
  | outside => 0
  | command _ _ => 0
  | code _ depth _ => depth

/-- The token that has begun. -/
def pending? : Mode → Option Pending
  | code _ _ pending => pending
  | _ => none

@[simp] theorem lists_outside : outside.lists = 0 := rfl

@[simp] theorem lists_command (d : Nat) (t : Option String) : (command d t).lists = d := rfl

@[simp] theorem lists_code (l d : Nat) (p : Option Pending) : (code l d p).lists = l := rfl

@[simp] theorem blocks_outside : outside.blocks = 0 := rfl

@[simp] theorem blocks_command (d : Nat) (t : Option String) : (command d t).blocks = 0 := rfl

@[simp] theorem blocks_code (l d : Nat) (p : Option Pending) : (code l d p).blocks = d := rfl

end Mode

@[simp] theorem lists_closeList (l : Nat) : (closeList (l + 1)).lists = l := by
  cases l <;> rfl

@[simp] theorem blocks_closeList (l : Nat) : (closeList l).blocks = 0 := by
  rw [closeList]
  split <;> rfl

@[simp] theorem lists_closeBlock (l d : Nat) : (closeBlock l d).lists = l := by
  rw [closeBlock]
  split <;> rfl

@[simp] theorem blocks_closeBlock (l d : Nat) : (closeBlock l (d + 1)).blocks = d := by
  cases d <;> rfl

/-- Reads a piece of text, one step for each character: the tokens that it completes, and the state that
it leads to. -/
def feed {σ ε : Type} (step : σ → Nat → Char → Except ε (List Token × σ)) :
    σ → Nat → List Char → Except ε (List Token × σ)
  | st, _, [] => .ok ([], st)
  | st, pos, c :: rest =>
    match step st pos c with
    | .error e => .error e
    | .ok (tokens, next) =>
      match feed step next (pos + 1) rest with
      | .error e => .error e
      | .ok (later, last) => .ok (tokens ++ later, last)

/-- What the end of the text makes of the tokens so far. -/
def ending : Step → Except ScanError (List Token)
  | (ts, m) =>
    match m.unfinished with
    | none => .ok ts
    | some context => .error (.unexpectedEnd context)

theorem run_eq_feed (m : Mode) (pos : Nat) (s : List Char) :
    run m pos s = (feed step m pos s).bind ending := by
  induction s generalizing m pos with
  | nil =>
    cases hm : m.unfinished <;> simp [run, feed, Except.bind, ending, hm]
  | cons c s ih =>
    rw [run, feed]
    cases step m pos c with
    | error e => rfl
    | ok r =>
      obtain ⟨ts, n⟩ := r
      dsimp only
      rw [ih]
      cases feed step n (pos + 1) s with
      | error e => rfl
      | ok r =>
        obtain ⟨us, k⟩ := r
        dsimp only [Except.bind, ending]
        cases k.unfinished <;> rfl

theorem feed_eq_ok_iff (m n : Mode) (pos : Nat) (s : List Char) (ts : List Token) :
    feed step m pos s = .ok (ts, n) ↔ Reads m s ts n := by
  induction s generalizing m pos ts with
  | nil =>
    constructor
    · intro h
      cases h
      exact .nil _
    · rintro ⟨⟩
      rfl
  | cons c s ih =>
    constructor
    · intro h
      rw [feed] at h
      cases hc : step m pos c with
      | error e => simp [hc] at h
      | ok r =>
        obtain ⟨us, k⟩ := r
        cases hs : feed step k (pos + 1) s with
        | error e => simp [hc, hs] at h
        | ok r =>
          obtain ⟨later, last⟩ := r
          simp only [hc, hs, Except.ok.injEq, Prod.mk.injEq] at h
          obtain ⟨rfl, rfl⟩ := h
          exact .cons (moves_of_step hc) ((ih k _ _).mp hs)
    · intro h
      cases h with
      | cons hc hs => simp [feed, step_of_moves hc, (ih _ (pos + 1) _).mpr hs]

theorem Reads.mode_unique {m n k : Mode} {s : List Char} {ts us : List Token}
    (h : Reads m s ts n) (h' : Reads m s us k) : n = k := by
  have hn := (feed_eq_ok_iff m n 0 s ts).mpr h
  have hk := (feed_eq_ok_iff m k 0 s us).mpr h'
  rw [hn] at hk
  simp only [Except.ok.injEq, Prod.mk.injEq] at hk
  exact hk.2

/-! ## What a mode holds back -/

/-- The characters that the mode has read without giving a token for them. -/
inductive HeldBack : Mode → List Char → Prop where
  | outside : HeldBack .outside []
  | list {d : Nat} : HeldBack (.command d none) []
  | text {d : Nat} {t : String} : HeldBack (.command d (some t)) t.toList
  | code {l d : Nat} : HeldBack (.code l d none) []
  | name {l d : Nat} {n : String} : HeldBack (.code l d (some (.named n))) n.toList
  | colon {l d : Nat} {n : String} : HeldBack (.code l d (some (.awaiting n))) (n.toList ++ [':'])
  | quoted {l d : Nat} {n v : String} {q : List Char} : Quoted q v.toList →
      HeldBack (.code l d (some (.quoted n v false))) (n.toList ++ ':' :: '\'' :: q)
  | escaping {l d : Nat} {n v : String} {q : List Char} : Quoted q v.toList →
      HeldBack (.code l d (some (.quoted n v true))) (n.toList ++ ':' :: '\'' :: q ++ ['\\'])

namespace Mode

/-- The characters of which a run can begin at the mode. -/
def RunClass : Mode → Char → Prop
  | outside, _ => False
  | command _ _, c => IsText c
  | code _ _ _, c => IsLetter c

/-- Before the mode stands the text `s` with the tokens `ts`: the depths are the numbers of the brackets
that are open in it, what is held back aside, and a run that is held back has its beginning there. -/
def Follows (m : Mode) (s : List Char) (ts : List Token) : Prop :=
  ∃ done held, s = done ++ held ∧ Open m.lists m.blocks done ts ∧ HeldBack m held ∧
    ∀ c, done.getLast? = some c → ¬ m.RunClass c

end Mode

section Step
variable {l d : Nat} {s : List Char} {ts : List Token}

theorem follows_of_open {n : Mode} {c : Char} (h : Open n.lists n.blocks (s ++ [c]) ts)
    (hheld : HeldBack n []) (hc : ¬ n.RunClass c) : n.Follows (s ++ [c]) ts := by
  refine ⟨s ++ [c], [], by simp, h, hheld, ?_⟩
  intro e he
  rw [List.getLast?_concat] at he
  exact Option.some.inj he ▸ hc

theorem parted_of_last {p : Char → Prop} {t : List Char} (h : ∀ c, s.getLast? = some c → ¬ p c) :
    Parted p s t :=
  fun c hc hp => absurd hp (h c hc)

/-- When its text ends, a command list has a token for it. -/
theorem Mode.Follows.text {t : Option String} (h : (Mode.command (l + 1) t).Follows s ts)
    (hv : (Mode.command (l + 1) t).Valid) : Open (l + 1) 0 s (ts ++ textTokens t) := by
  obtain ⟨done, held, rfl, hopen, hheld, hlast⟩ := h
  cases hheld with
  | list => simpa using hopen
  | @text _ t =>
    have ht := Items.text (hv.2 t rfl) (s := []) (by simp [Stops]) .nil
    rw [List.append_nil, String.ofList_toList] at ht
    exact Open.items hopen ht (parted_of_last hlast)

/-- When its name ends, a block has a token for it. -/
theorem Mode.Follows.plain {p : Option Pending} (h : (Mode.code (l + 1) (d + 1) p).Follows s ts)
    (hv : (Mode.code (l + 1) (d + 1) p).Valid) (hp : Plain p) :
    Open (l + 1) (d + 1) s (ts ++ pendingTokens p) := by
  obtain ⟨done, held, rfl, hopen, hheld, hlast⟩ := h
  cases hheld with
  | code => simpa using hopen
  | @name _ _ n =>
    have hn := Code.name (hv.2.2 _ rfl) (s := []) (by simp [Stops]) .nil
    rw [List.append_nil, Pending.name, String.ofList_toList] at hn
    exact Open.code hopen hn (parted_of_last hlast)
  | colon | quoted | escaping =>
    obtain ⟨name, hname⟩ := hp _ rfl
    cases hname

theorem heldBack_closeList (l : Nat) : HeldBack (closeList l) [] := by
  rw [closeList]
  split
  · exact .outside
  · exact .list

theorem heldBack_closeBlock (l d : Nat) : HeldBack (closeBlock l d) [] := by
  rw [closeBlock]
  split
  · exact .list
  · exact .code

theorem not_runClass_closeList (l : Nat) : ¬ (closeList l).RunClass ']' := by
  rw [closeList]
  split <;> simp [Mode.RunClass, IsText]

theorem not_runClass_closeBlock (l d : Nat) : ¬ (closeBlock l d).RunClass '}' := by
  rw [closeBlock]
  split <;> simp [Mode.RunClass, IsText, IsLetter]

end Step

/-- One character read: the brackets that are open afterwards are those that the depths count. -/
theorem Moves.follows {m n : Mode} {c : Char} {s : List Char} {ts us : List Token}
    (h : Moves m c us n) (hv : m.Valid) (hm : m.Follows s ts) : n.Follows (s ++ [c]) (ts ++ us) := by
  cases h with
  | program =>
    obtain ⟨done, held, rfl, hopen, ⟨⟩, -⟩ := hm
    refine follows_of_open ?_ .list (by simp [Mode.RunClass, IsText])
    simpa using Open.list hopen .nil
  | blank hc =>
    obtain ⟨done, held, rfl, hopen, ⟨⟩, -⟩ := hm
    refine follows_of_open ?_ .outside id
    cases hopen with
    | program hs => simpa using Open.program (hs.append (.blank hc .nil))
  | list =>
    obtain ⟨l, rfl⟩ := Nat.exists_eq_add_one.mpr hv.1
    rw [← List.append_assoc]
    exact follows_of_open (.list (hm.text hv) .nil) .list (by simp [Mode.RunClass, IsText])
  | listEnd =>
    obtain ⟨l, rfl⟩ := Nat.exists_eq_add_one.mpr hv.1
    refine follows_of_open ?_ (heldBack_closeList _) (not_runClass_closeList _)
    rw [lists_closeList, blocks_closeList, ← List.append_assoc]
    exact (hm.text hv).listEnd
  | code =>
    obtain ⟨l, rfl⟩ := Nat.exists_eq_add_one.mpr hv.1
    rw [← List.append_assoc]
    exact follows_of_open (.block (hm.text hv) .nil) .code (by simp [Mode.RunClass, IsLetter])
  | @text d t c hc =>
    obtain ⟨done, held, rfl, hopen, hheld, hlast⟩ := hm
    refine ⟨done, held ++ [c], by simp, by simpa using hopen, ?_, hlast⟩
    have hnew := HeldBack.text (d := d) (t := (t.getD "").push c)
    cases hheld <;> simpa using hnew
  | @block l d p hp =>
    obtain ⟨l, rfl⟩ := Nat.exists_eq_add_one.mpr hv.1
    obtain ⟨d, rfl⟩ := Nat.exists_eq_add_one.mpr hv.2.1
    rw [← List.append_assoc]
    exact follows_of_open (.block (hm.plain hv hp) .nil) .code (by simp [Mode.RunClass, IsLetter])
  | @blockEnd l d p hp =>
    obtain ⟨l, rfl⟩ := Nat.exists_eq_add_one.mpr hv.1
    obtain ⟨d, rfl⟩ := Nat.exists_eq_add_one.mpr hv.2.1
    refine follows_of_open ?_ (heldBack_closeBlock _ _) (not_runClass_closeBlock _ _)
    rw [lists_closeBlock, blocks_closeBlock, ← List.append_assoc]
    exact (hm.plain hv hp).blockEnd
  | @separator l d p c hp hc =>
    obtain ⟨l, rfl⟩ := Nat.exists_eq_add_one.mpr hv.1
    obtain ⟨d, rfl⟩ := Nat.exists_eq_add_one.mpr hv.2.1
    refine follows_of_open ?_ .code hc.not_isLetter
    have hparted := parted_of_stops (stops_cons hc.not_isLetter []) s
    simpa using (hm.plain hv hp).code (.separator hc .nil) hparted
  | @mark l d p c hp hc =>
    obtain ⟨l, rfl⟩ := Nat.exists_eq_add_one.mpr hv.1
    obtain ⟨d, rfl⟩ := Nat.exists_eq_add_one.mpr hv.2.1
    have hl := hc.2.2.2.2.2
    refine follows_of_open ?_ .code hl
    rw [← List.append_assoc]
    exact (hm.plain hv hp).code (.mark hc .nil) (parted_of_stops (stops_cons hl []) s)
  | @letter l d p c hp hc =>
    obtain ⟨done, held, rfl, hopen, hheld, hlast⟩ := hm
    refine ⟨done, held ++ [c], by simp, by simpa using hopen, ?_, hlast⟩
    have hnew := HeldBack.name (l := l) (d := d) (n := (p.elim "" Pending.name).push c)
    cases hheld with
    | code => simpa using hnew
    | name => simpa [Pending.name] using hnew
    | colon | quoted | escaping =>
      obtain ⟨name, hname⟩ := hp _ rfl
      cases hname
  | colon =>
    obtain ⟨done, held, rfl, hopen, ⟨⟩, hlast⟩ := hm
    exact ⟨done, _, by simp, by simpa using hopen, .colon, hlast⟩
  | quote =>
    obtain ⟨done, held, rfl, hopen, ⟨⟩, hlast⟩ := hm
    exact ⟨done, _, by simp, by simpa using hopen, .quoted .nil, hlast⟩
  | backslash =>
    obtain ⟨done, held, rfl, hopen, hheld, hlast⟩ := hm
    cases hheld with
    | quoted hq => exact ⟨done, _, by simp, by simpa using hopen, .escaping hq, hlast⟩
  | @escaped l d n v c =>
    obtain ⟨done, held, rfl, hopen, hheld, hlast⟩ := hm
    cases hheld with
    | @escaping _ _ _ _ q hq =>
      refine ⟨done, _, ?_, by simpa using hopen, .quoted (q := q ++ ['\\', c]) ?_, hlast⟩
      · simp
      · simpa using hq.push_escaped c
  | @literal l d n v c h1 h2 =>
    obtain ⟨done, held, rfl, hopen, hheld, hlast⟩ := hm
    cases hheld with
    | @quoted _ _ _ _ q hq =>
      refine ⟨done, _, ?_, by simpa using hopen, .quoted (q := q ++ [c]) ?_, hlast⟩
      · simp
      · simpa using hq.push_plain h1 h2
  | @valueEnd l d n v =>
    obtain ⟨l, rfl⟩ := Nat.exists_eq_add_one.mpr hv.1
    obtain ⟨d, rfl⟩ := Nat.exists_eq_add_one.mpr hv.2.1
    obtain ⟨done, held, rfl, hopen, hheld, hlast⟩ := hm
    cases hheld with
    | @quoted _ _ _ _ q hq =>
      refine follows_of_open ?_ .code (by simp [Mode.RunClass, IsLetter])
      have hcode := Code.valued (hv.2.2 _ rfl) hq .nil
      rw [Pending.name, String.ofList_toList, String.ofList_toList] at hcode
      simpa using Open.code hopen hcode (parted_of_last hlast)

/-- A piece of text read, character by character. -/
theorem Reads.follows {m n : Mode} {r s : List Char} {ts us : List Token} (h : Reads m s us n)
    (hv : m.Valid) (hm : m.Follows r ts) : n.Follows (r ++ s) (ts ++ us) := by
  induction h generalizing r ts with
  | nil => simpa using hm
  | cons hc _ ih =>
    have hnext := ih (hc.valid hv) (hc.follows hv hm)
    simpa using hnext

theorem Mode.Follows.unclosed {m : Mode} {s : List Char} {ts : List Token} (h : m.Follows s ts)
    (hv : m.Valid) : Unclosed m.lists m.blocks s := by
  rcases m with _ | ⟨l, t⟩ | ⟨l, d, p⟩
  · obtain ⟨done, held, rfl, hopen, ⟨⟩, -⟩ := h
    exact ⟨done, [], ts, rfl, hopen, .inl rfl⟩
  · obtain ⟨l, rfl⟩ := Nat.exists_eq_add_one.mpr hv.1
    exact ⟨s, [], _, by simp, h.text hv, .inl rfl⟩
  · obtain ⟨l, rfl⟩ := Nat.exists_eq_add_one.mpr hv.1
    obtain ⟨d, rfl⟩ := Nat.exists_eq_add_one.mpr hv.2.1
    by_cases hp : Plain p
    · exact ⟨s, [], _, by simp, h.plain hv hp, .inl rfl⟩
    -- The characters of a value are left out of the text that is complete.
    obtain ⟨done, held, rfl, hopen, hheld, -⟩ := h
    refine ⟨done, held, ts, rfl, hopen, .inr ⟨Nat.succ_pos d, ?_⟩⟩
    cases hheld with
    | code | name => simp at hp
    | colon => exact .colon (hv.2.2 _ rfl)
    | quoted hq => exact .quoted (hv.2.2 _ rfl) hq
    | escaping hq => exact .escaping (hv.2.2 _ rfl) hq

end BracketTree.Scanner
