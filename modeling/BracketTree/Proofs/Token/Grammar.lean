import BracketTree.Proofs.Token.Reading

/-! The grammar of the notation, as derivations of tokens from text, and its agreement with the
scanner: a text has the tokens `ts` exactly when the grammar derives `ts` from it. The scanner stops
at every character; the grammar knows runs and nested lists as wholes. -/

namespace BracketTree.Grammar
open Scanner
set_option autoImplicit false

/-- The text does not go on with a character of the class `p`, so a run before it is maximal. -/
def Stops (p : Char → Prop) (s : List Char) : Prop := ∀ c, s.head? = some c → ¬ p c

/-- Between quotes, `q` is written for `v`: a backslash takes the next character literally. -/
inductive Quoted : List Char → List Char → Prop where
  | nil : Quoted [] []
  | plain {c : Char} {q v : List Char} :
      c ≠ '\\' → c ≠ '\'' → Quoted q v → Quoted (c :: q) (c :: v)
  | escaped {c : Char} {q v : List Char} : Quoted q v → Quoted ('\\' :: c :: q) (c :: v)

/-- What stands between the brackets of a block, and its tokens. -/
inductive Code : List Char → List Token → Prop where
  | nil : Code [] []
  | separator {c : Char} {s : List Char} {ts : List Token} :
      IsSeparator c → Code s ts → Code (c :: s) ts
  | block {inner s : List Char} {us ts : List Token} : Code inner us → Code s ts →
      Code ('{' :: inner ++ '}' :: s) (.mark '{' :: us ++ .mark '}' :: ts)
  | name {n s : List Char} {ts : List Token} : Run IsLetter n → Stops IsLetter s → Code s ts →
      Code (n ++ s) (.bare (String.ofList n) :: ts)
  | valued {n q v s : List Char} {ts : List Token} : Run IsLetter n → Quoted q v → Code s ts →
      Code (n ++ ':' :: '\'' :: q ++ '\'' :: s)
        (.valued (String.ofList n) (String.ofList v) :: ts)
  | mark {c : Char} {s : List Char} {ts : List Token} :
      IsMark c → Code s ts → Code (c :: s) (.mark c :: ts)

inductive Items : List Char → List Token → Prop where
  | nil : Items [] []
  | text {run s : List Char} {ts : List Token} : Run IsText run → Stops IsText s → Items s ts →
      Items (run ++ s) (.valued "cmd" (String.ofList run) :: ts)
  | list {inner s : List Char} {us ts : List Token} : Items inner us → Items s ts →
      Items ('[' :: inner ++ ']' :: s) (.mark '[' :: us ++ .mark ']' :: ts)
  | block {inner s : List Char} {us ts : List Token} : Code inner us → Items s ts →
      Items ('{' :: inner ++ '}' :: s) (.mark '{' :: us ++ .mark '}' :: ts)

inductive Program : List Char → List Token → Prop where
  | nil : Program [] []
  | blank {c : Char} {s : List Char} {ts : List Token} :
      isBlank c = true → Program s ts → Program (c :: s) ts
  | list {inner s : List Char} {us ts : List Token} : Items inner us → Program s ts →
      Program ('[' :: inner ++ ']' :: s) (.mark '[' :: us ++ .mark ']' :: ts)

/-! ## From a derivation to a reading -/

theorem reads_letters (l d : Nat) (x : String) {s : List Char} (hs : ∀ c ∈ s, IsLetter c) :
    Reads (.code l d (some (.named x))) s []
      (.code l d (some (.named (x ++ String.ofList s)))) := by
  induction s generalizing x with
  | nil => simpa using Reads.nil _
  | cons c s ih =>
    have hc := Moves.letter (l := l) (d := d) (plain_named x) (hs c (by simp))
    have hx : x ++ String.ofList (c :: s) = x.push c ++ String.ofList s := by
      apply String.toList_injective
      simp
    rw [hx]
    exact .cons hc (ih (x.push c) fun a ha => hs a (List.mem_cons_of_mem c ha))

theorem reads_name (l d : Nat) {n : List Char} (hn : Run IsLetter n) :
    Reads (.code l d none) n [] (.code l d (some (.named (String.ofList n)))) := by
  obtain ⟨hne, hall⟩ := hn
  cases n with
  | nil => exact absurd rfl hne
  | cons c s =>
    have hc := Moves.letter (l := l) (d := d) plain_none (hall c (by simp))
    have hs := reads_letters l d ("".push c) (s := s) fun a ha => hall a (by simp [ha])
    have hx : "".push c ++ String.ofList s = String.ofList (c :: s) := by
      apply String.toList_injective
      simp
    rw [hx] at hs
    exact .cons hc hs

theorem reads_text (d : Nat) (t : Option String) {run : List Char} (hr : Run IsText run) :
    Reads (.command d t) run [] (.command d (some (t.getD "" ++ String.ofList run))) := by
  obtain ⟨hne, hall⟩ := hr
  induction run generalizing t with
  | nil => exact absurd rfl hne
  | cons c s ih =>
    have hc := Moves.text (d := d) (t := t) (hall c (by simp))
    have hx : t.getD "" ++ String.ofList (c :: s) = (t.getD "").push c ++ String.ofList s := by
      apply String.toList_injective
      simp
    rw [hx]
    cases s with
    | nil => simpa using Reads.cons hc (.nil _)
    | cons a s =>
      exact .cons hc (ih (some ((t.getD "").push c)) (by simp) fun b hb => hall b (by simp [hb]))

theorem reads_quoted (l d : Nat) (name x : String) {q v : List Char} (h : Quoted q v) :
    Reads (.code l d (some (.quoted name x false))) q []
      (.code l d (some (.quoted name (x ++ String.ofList v) false))) := by
  induction h generalizing x with
  | nil => simpa using Reads.nil _
  | @plain c q v h1 h2 _ ih =>
    have hx : x ++ String.ofList (c :: v) = x.push c ++ String.ofList v := by
      apply String.toList_injective
      simp
    rw [hx]
    exact .cons (.literal h1 h2) (ih (x.push c))
  | @escaped c q v _ ih =>
    have hx : x ++ String.ofList (c :: v) = x.push c ++ String.ofList v := by
      apply String.toList_injective
      simp
    rw [hx]
    exact .cons .backslash (.cons .escaped (ih (x.push c)))

theorem reads_named {l d : Nat} {c : Char} {s : List Char} {ts : List Token} {m : Mode}
    (h : Reads (.code l d none) (c :: s) ts m) (hc : ¬ IsLetter c) (x : String) :
    Reads (.code l d (some (.named x))) (c :: s) (.bare x :: ts) m := by
  cases h with
  | cons hm hs =>
    cases hm with
    | block => exact .cons (.block (plain_named x)) hs
    | blockEnd => exact .cons (.blockEnd (plain_named x)) hs
    | separator _ hc => exact .cons (.separator (plain_named x) hc) hs
    | mark _ hc => exact .cons (.mark (plain_named x) hc) hs
    | letter _ hl => exact absurd hl hc

theorem reads_worded {d : Nat} {c : Char} {s : List Char} {ts : List Token} {m : Mode}
    (h : Reads (.command d none) (c :: s) ts m) (hc : ¬ IsText c) (x : String) :
    Reads (.command d (some x)) (c :: s) (.valued "cmd" x :: ts) m := by
  cases h with
  | cons hm hs =>
    cases hm with
    | list => exact .cons .list hs
    | listEnd => exact .cons .listEnd hs
    | code => exact .cons .code hs
    | text ht => exact absurd ht hc

theorem Code.reads {s : List Char} {ts : List Token} (h : Code s ts) (l d : Nat) :
    Reads (.code l (d + 1) none) (s ++ ['}']) (ts ++ [.mark '}']) (closeBlock l (d + 1)) := by
  induction h generalizing d with
  | nil => simpa using Reads.cons (.blockEnd plain_none) (.nil _)
  | separator hc _ ih => simpa using Reads.cons (.separator plain_none hc) (ih d)
  | block _ _ hinner ih =>
    have hi := Reads.cons (.block plain_none) (hinner (d + 1))
    simpa using hi.append (ih d)
  | @name n s ts hn hstop _ ih =>
    obtain ⟨c, rest, hrest, hc⟩ : ∃ c rest, s ++ ['}'] = c :: rest ∧ ¬ IsLetter c := by
      cases s with
      | nil => exact ⟨'}', [], rfl, by simp [IsLetter]⟩
      | cons c s => exact ⟨c, s ++ ['}'], rfl, hstop c rfl⟩
    have hs := ih d
    rw [hrest] at hs
    have h := (reads_name l (d + 1) hn).append (reads_named hs hc (String.ofList n))
    rw [← hrest] at h
    simpa using h
  | @valued n q v s ts hn hq _ ih =>
    have hv := reads_quoted l (d + 1) (String.ofList n) "" hq
    rw [String.empty_append] at hv
    have hend := hv.append (.cons .valueEnd (ih d))
    simpa using (reads_name l (d + 1) hn).append (.cons .colon (.cons .quote hend))
  | mark hc _ ih => simpa using Reads.cons (.mark plain_none hc) (ih d)

theorem Items.reads {s : List Char} {ts : List Token} (h : Items s ts) (d : Nat) :
    Reads (.command (d + 1) none) (s ++ [']']) (ts ++ [.mark ']']) (closeList (d + 1)) := by
  induction h generalizing d with
  | nil => simpa using Reads.cons (.listEnd (t := none)) (.nil _)
  | @text run s ts hrun hstop _ ih =>
    obtain ⟨c, rest, hrest, hc⟩ : ∃ c rest, s ++ [']'] = c :: rest ∧ ¬ IsText c := by
      cases s with
      | nil => exact ⟨']', [], rfl, by simp [IsText]⟩
      | cons c s => exact ⟨c, s ++ [']'], rfl, hstop c rfl⟩
    have hs := ih d
    rw [hrest] at hs
    have h := (reads_text (d + 1) none hrun).append (reads_worded hs hc _)
    rw [← hrest] at h
    simpa using h
  | list _ _ hinner ih =>
    have hi := Reads.cons (.list (t := none)) (hinner (d + 1))
    simpa [closeList] using hi.append (ih d)
  | block hcode _ ih =>
    have hi := Reads.cons (.code (t := none)) (hcode.reads (d + 1) 0)
    simpa [closeBlock] using hi.append (ih d)

theorem Program.reads {s : List Char} {ts : List Token} (h : Program s ts) :
    Reads .outside s ts .outside := by
  induction h with
  | nil => exact .nil _
  | blank hc _ ih => exact .cons (.blank hc) ih
  | list hitems _ ih =>
    have hi := Reads.cons .program (hitems.reads 0)
    simpa [closeList] using hi.append ih

/-! ## From a reading to a derivation

The rest of a text is derived in layers: the rest of each open block, the rest of each open list,
and the rest of the program. What has been read of a run stands in front of that rest again. -/

/-- The rest of a text with `n` lists open. -/
def RestOfLists : Nat → List Char → List Token → Prop
  | 0, s, ts => Program s ts
  | n + 1, s, ts => ∃ inner rest us vs, s = inner ++ ']' :: rest ∧ ts = us ++ .mark ']' :: vs ∧
      Items inner us ∧ RestOfLists n rest vs

/-- The rest of a text with `n` blocks open within `lists` lists. -/
def RestOfBlocks (lists : Nat) : Nat → List Char → List Token → Prop
  | 0, s, ts => RestOfLists lists s ts
  | n + 1, s, ts => ∃ inner rest us vs, s = inner ++ '}' :: rest ∧ ts = us ++ .mark '}' :: vs ∧
      Code inner us ∧ RestOfBlocks lists n rest vs

/-- The rest of a text at a mode, all that is pending being read again. -/
def Rest : Mode → List Char → List Token → Prop
  | .outside, s, ts => RestOfLists 0 s ts
  | .command d none, s, ts => RestOfLists d s ts
  | .command d (some t), s, ts => RestOfLists d (t.toList ++ s) ts
  | .code l d none, s, ts => RestOfBlocks l d s ts
  | .code l d (some (.named n)), s, ts => RestOfBlocks l d (n.toList ++ s) ts
  | .code l d (some (.awaiting n)), s, ts => RestOfBlocks l d (n.toList ++ ':' :: s) ts
  | .code l d (some (.quoted n v escaped)), s, ts => ∀ q, Quoted q v.toList →
      RestOfBlocks l d (n.toList ++ ':' :: '\'' :: q ++ (if escaped then '\\' :: s else s)) ts

section Layers
variable {l d : Nat} {s : List Char} {ts : List Token}

theorem RestOfBlocks.separator {c : Char} (h : RestOfBlocks l (d + 1) s ts) (hc : IsSeparator c) :
    RestOfBlocks l (d + 1) (c :: s) ts := by
  obtain ⟨inner, rest, us, vs, rfl, rfl, hcode, hrest⟩ := h
  exact ⟨c :: inner, rest, us, vs, rfl, rfl, .separator hc hcode, hrest⟩

theorem RestOfBlocks.mark {c : Char} (h : RestOfBlocks l (d + 1) s ts) (hc : IsMark c) :
    RestOfBlocks l (d + 1) (c :: s) (.mark c :: ts) := by
  obtain ⟨inner, rest, us, vs, rfl, rfl, hcode, hrest⟩ := h
  exact ⟨c :: inner, rest, .mark c :: us, vs, rfl, rfl, .mark hc hcode, hrest⟩

theorem RestOfBlocks.block (h : RestOfBlocks l (d + 2) s ts) :
    RestOfBlocks l (d + 1) ('{' :: s) (.mark '{' :: ts) := by
  obtain ⟨inner, _, us, _, rfl, rfl, hinner, outer, rest, ws, vs, rfl, rfl, hcode, hrest⟩ := h
  refine ⟨'{' :: inner ++ '}' :: outer, rest, .mark '{' :: us ++ .mark '}' :: ws, vs, ?_, ?_,
    .block hinner hcode, hrest⟩
  · simp
  · simp

theorem RestOfBlocks.name {n : List Char} (h : RestOfBlocks l (d + 1) s ts) (hn : Run IsLetter n)
    (hs : Stops IsLetter s) : RestOfBlocks l (d + 1) (n ++ s) (.bare (String.ofList n) :: ts) := by
  obtain ⟨inner, rest, us, vs, rfl, rfl, hcode, hrest⟩ := h
  have hstop : Stops IsLetter inner := by
    intro c hc
    exact hs c (by rw [List.head?_append, hc]; rfl)
  refine ⟨n ++ inner, rest, .bare (String.ofList n) :: us, vs, ?_, rfl, .name hn hstop hcode,
    hrest⟩
  simp

theorem RestOfBlocks.valued {n q v : List Char} (h : RestOfBlocks l (d + 1) s ts)
    (hn : Run IsLetter n) (hq : Quoted q v) :
    RestOfBlocks l (d + 1) (n ++ ':' :: '\'' :: q ++ '\'' :: s)
      (.valued (String.ofList n) (String.ofList v) :: ts) := by
  obtain ⟨inner, rest, us, vs, rfl, rfl, hcode, hrest⟩ := h
  refine ⟨n ++ ':' :: '\'' :: q ++ '\'' :: inner, rest,
    .valued (String.ofList n) (String.ofList v) :: us, vs, ?_, rfl, .valued hn hq hcode, hrest⟩
  simp

theorem RestOfLists.list (h : RestOfLists (l + 1) s ts) :
    RestOfLists l ('[' :: s) (.mark '[' :: ts) := by
  obtain ⟨inner, rest, us, vs, rfl, rfl, hinner, hrest⟩ := h
  cases l with
  | zero => exact .list hinner hrest
  | succ l =>
    obtain ⟨outer, rest, ws, vs, rfl, rfl, hitems, hrest⟩ := hrest
    refine ⟨'[' :: inner ++ ']' :: outer, rest, .mark '[' :: us ++ .mark ']' :: ws, vs, ?_, ?_,
      .list hinner hitems, hrest⟩
    · simp
    · simp

theorem RestOfLists.code (h : RestOfBlocks (l + 1) 1 s ts) :
    RestOfLists (l + 1) ('{' :: s) (.mark '{' :: ts) := by
  obtain ⟨inner, _, us, _, rfl, rfl, hinner, outer, rest, ws, vs, rfl, rfl, hitems, hrest⟩ := h
  refine ⟨'{' :: inner ++ '}' :: outer, rest, .mark '{' :: us ++ .mark '}' :: ws, vs, ?_, ?_,
    .block hinner hitems, hrest⟩
  · simp
  · simp

theorem RestOfLists.text {t : List Char} (h : RestOfLists (l + 1) s ts) (ht : Run IsText t)
    (hs : Stops IsText s) :
    RestOfLists (l + 1) (t ++ s) (.valued "cmd" (String.ofList t) :: ts) := by
  obtain ⟨inner, rest, us, vs, rfl, rfl, hitems, hrest⟩ := h
  have hstop : Stops IsText inner := by
    intro c hc
    exact hs c (by rw [List.head?_append, hc]; rfl)
  refine ⟨t ++ inner, rest, .valued "cmd" (String.ofList t) :: us, vs, ?_, rfl,
    .text ht hstop hitems, hrest⟩
  simp

end Layers

theorem Quoted.append {q r v w : List Char} (hq : Quoted q v) (hr : Quoted r w) :
    Quoted (q ++ r) (v ++ w) := by
  induction hq with
  | nil => exact hr
  | plain h1 h2 _ ih => exact .plain h1 h2 ih
  | escaped _ ih => exact .escaped ih

theorem Quoted.push_escaped {q v : List Char} (h : Quoted q v) (c : Char) :
    Quoted (q ++ ['\\', c]) (v ++ [c]) :=
  h.append (.escaped .nil)

theorem Quoted.push_plain {q v : List Char} (h : Quoted q v) {c : Char} (h1 : c ≠ '\\')
    (h2 : c ≠ '\'') : Quoted (q ++ [c]) (v ++ [c]) :=
  h.append (.plain h1 h2 .nil)

theorem stops_cons {p : Char → Prop} {c : Char} (hc : ¬ p c) (s : List Char) :
    Stops p (c :: s) := by
  rintro _ ⟨⟩
  exact hc

theorem rest_closeList (d : Nat) (s : List Char) (ts : List Token) :
    Rest (closeList (d + 1)) s ts ↔ RestOfLists d s ts := by
  cases d <;> simp [closeList, Rest]

theorem rest_closeBlock (l d : Nat) (s : List Char) (ts : List Token) :
    Rest (closeBlock l (d + 1)) s ts ↔ RestOfBlocks l d s ts := by
  cases d <;> simp [closeBlock, Rest, RestOfBlocks]

theorem rest_command {d : Nat} {t : Option String} {c : Char} {s : List Char} {ts : List Token}
    (hm : Mode.Valid (.command (d + 1) t)) (hc : ¬ IsText c)
    (h : RestOfLists (d + 1) (c :: s) ts) :
    Rest (.command (d + 1) t) (c :: s) (textTokens t ++ ts) := by
  cases t with
  | none => exact h
  | some t =>
    have ht := h.text (hm.2 t rfl) (stops_cons hc s)
    rwa [String.ofList_toList] at ht

theorem rest_plain {l d : Nat} {p : Option Pending} {c : Char} {s : List Char} {ts : List Token}
    (hm : Mode.Valid (.code l (d + 1) p)) (hp : Plain p) (hc : ¬ IsLetter c)
    (h : RestOfBlocks l (d + 1) (c :: s) ts) :
    Rest (.code l (d + 1) p) (c :: s) (pendingTokens p ++ ts) := by
  cases p with
  | none => exact h
  | some q =>
    obtain ⟨name, rfl⟩ := hp q rfl
    have hn := h.name (hm.2.2 _ rfl) (stops_cons hc s)
    rwa [Pending.name, String.ofList_toList] at hn

/-- One character read forwards is one character derived backwards. -/
theorem rest_of_moves {m n : Mode} {c : Char} {s : List Char} {ts us : List Token}
    (h : Moves m c ts n) (hm : m.Valid) (hr : Rest n s us) : Rest m (c :: s) (ts ++ us) := by
  cases h with
  | program => exact RestOfLists.list hr
  | blank hc => exact Program.blank hc hr
  | list =>
    obtain ⟨d, rfl⟩ := Nat.exists_eq_add_one.mpr hm.1
    rw [List.append_assoc]
    exact rest_command hm (by simp [IsText]) (RestOfLists.list hr)
  | listEnd =>
    obtain ⟨d, rfl⟩ := Nat.exists_eq_add_one.mpr hm.1
    rw [List.append_assoc]
    exact rest_command hm (by simp [IsText])
      ⟨[], s, [], us, rfl, rfl, .nil, (rest_closeList d s us).mp hr⟩
  | code =>
    obtain ⟨d, rfl⟩ := Nat.exists_eq_add_one.mpr hm.1
    rw [List.append_assoc]
    exact rest_command hm (by simp [IsText]) (RestOfLists.code hr)
  | @text d t c hc =>
    have ht : RestOfLists d (((t.getD "").push c).toList ++ s) us := hr
    cases t <;> simpa [Rest] using ht
  | block hp =>
    obtain ⟨d, rfl⟩ := Nat.exists_eq_add_one.mpr hm.2.1
    rw [List.append_assoc]
    exact rest_plain hm hp (by simp [IsLetter]) (RestOfBlocks.block hr)
  | @blockEnd l d p hp =>
    obtain ⟨d, rfl⟩ := Nat.exists_eq_add_one.mpr hm.2.1
    rw [List.append_assoc]
    exact rest_plain hm hp (by simp [IsLetter])
      ⟨[], s, [], us, rfl, rfl, .nil, (rest_closeBlock l d s us).mp hr⟩
  | separator hp hc =>
    obtain ⟨d, rfl⟩ := Nat.exists_eq_add_one.mpr hm.2.1
    exact rest_plain hm hp hc.not_isLetter (RestOfBlocks.separator hr hc)
  | mark hp hc =>
    obtain ⟨d, rfl⟩ := Nat.exists_eq_add_one.mpr hm.2.1
    rw [List.append_assoc]
    exact rest_plain hm hp hc.2.2.2.2.2 (RestOfBlocks.mark hr hc)
  | @letter l d p c hp hc =>
    have hn : RestOfBlocks l d (((p.elim "" Pending.name).push c).toList ++ s) us := hr
    cases p with
    | none => simpa [Rest] using hn
    | some q =>
      obtain ⟨name, rfl⟩ := hp q rfl
      simpa [Rest, Pending.name] using hn
  | colon => exact hr
  | quote => simpa [Rest] using hr [] .nil
  | backslash =>
    intro q hq
    simpa using hr q hq
  | @escaped l d n v c =>
    intro q hq
    have hv := hr (q ++ ['\\', c]) (by simpa using hq.push_escaped c)
    simpa using hv
  | @literal l d n v c h1 h2 =>
    intro q hq
    have hv := hr (q ++ [c]) (by simpa using hq.push_plain h1 h2)
    simpa using hv
  | valueEnd =>
    obtain ⟨d, rfl⟩ := Nat.exists_eq_add_one.mpr hm.2.1
    intro q hq
    have hv := RestOfBlocks.valued hr (hm.2.2 _ rfl) hq
    simpa [Pending.name] using hv

theorem rest_of_reads {m : Mode} {s : List Char} {ts : List Token} (h : Reads m s ts .outside)
    (hm : m.Valid) : Rest m s ts := by
  generalize hn : Mode.outside = n at h
  induction h with
  | nil =>
    subst hn
    exact Program.nil
  | cons hc _ ih => exact rest_of_moves hc hm (ih (hc.valid hm) hn)

theorem reads_iff_program (s : List Char) (ts : List Token) :
    Reads .outside s ts .outside ↔ Program s ts :=
  ⟨fun h => rest_of_reads h trivial, Program.reads⟩

end BracketTree.Grammar
