import BracketTree.Proofs.Token.State

/-! The scanner on registers: the kind of the place, the text and the token that have begun, and the two
depths stand apart, and only the steps keep them in agreement. The machine stops where a depth that is 0
would be lowered. It never does, and it gives what the scanner gives. -/

namespace BracketTree.Scanner
set_option autoImplicit false

inductive Place where
  | outside
  | command
  | code
  deriving DecidableEq

structure Registers where
  place : Place
  text : Option String
  pending : Option Pending
  lists : Nat
  blocks : Nat
  deriving DecidableEq

inductive Stop where
  | refused (e : ScanError)
  | underflow
  deriving DecidableEq

namespace Registers

abbrev Change := List Token × Registers

def start : Registers := ⟨.outside, none, none, 0, 0⟩

def lower : Nat → Except Stop Nat
  | 0 => .error .underflow
  | depth + 1 => .ok depth

def stepOutside (r : Registers) (pos : Nat) (c : Char) : Except Stop Change :=
  if c = '[' then .ok ([.mark '['], { r with place := .command, lists := 1 })
  else if isBlank c then .ok ([], r)
  else .error (.refused (.strayChar c pos))

def stepCommand (r : Registers) (pos : Nat) (c : Char) : Except Stop Change :=
  let done := textTokens r.text
  let rest := { r with text := none }
  if c = '[' then .ok (done ++ [.mark '['], { rest with lists := r.lists + 1 })
  else if c = ']' then
    (lower r.lists).map fun depth =>
      (done ++ [.mark ']'], { rest with
        lists := depth
        place := if depth = 0 then .outside else r.place })
  else if c = '{' then
    .ok (done ++ [.mark '{'], { rest with place := .code, blocks := r.blocks + 1 })
  else if c = '}' then .error (.refused (.strayClose pos))
  else .ok ([], { r with text := some ((r.text.getD "").push c) })

def stepQuoted (r : Registers) (name text : String) (escaped : Bool) (c : Char) : Change :=
  if escaped then ([], { r with pending := some (.quoted name (text.push c) false) })
  else if c = '\\' then ([], { r with pending := some (.quoted name text true) })
  else if c = '\'' then (pendingTokens r.pending, { r with pending := none })
  else ([], { r with pending := some (.quoted name (text.push c) false) })

def stepAwaiting (r : Registers) (name : String) (pos : Nat) (c : Char) : Except Stop Change :=
  if c = '\'' then .ok ([], { r with pending := some (.quoted name "" false) })
  else if c = ':' then .error (.refused (.repeatedColon name pos))
  else .error (.refused (.quoteExpected name c pos))

def stepPlain (r : Registers) (pos : Nat) (c : Char) : Except Stop Change :=
  let done := pendingTokens r.pending
  let rest := { r with pending := none }
  if c = '}' then
    (lower r.blocks).map fun depth =>
      (done ++ [.mark '}'], { rest with
        blocks := depth
        place := if depth = 0 then .command else r.place })
  else if c = '{' then .ok (done ++ [.mark '{'], { rest with blocks := r.blocks + 1 })
  else if c = ':' then
    match r.pending with
    | some p => .ok ([], { r with pending := some (.awaiting p.name) })
    | none => .error (.refused (.namelessColon pos))
  else if c = ';' then .ok (done, rest)
  else if c = '\'' then .error (.refused (.strayQuote pos))
  else if isBlank c then .ok (done, rest)
  else if c.isAlpha then
    .ok ([], { r with pending := some (.named ((r.pending.elim "" Pending.name).push c)) })
  else .ok (done ++ [.mark c], rest)

def stepCode (r : Registers) (pos : Nat) (c : Char) : Except Stop Change :=
  match r.pending with
  | some (.quoted name text escaped) => .ok (r.stepQuoted name text escaped c)
  | some (.awaiting name) => r.stepAwaiting name pos c
  | _ => r.stepPlain pos c

def step (r : Registers) (pos : Nat) (c : Char) : Except Stop Change :=
  match r.place with
  | .outside => r.stepOutside pos c
  | .command => r.stepCommand pos c
  | .code => r.stepCode pos c

def unfinished (r : Registers) : Option Unfinished :=
  match r.place, r.pending with
  | .outside, _ => none
  | .command, _ => some (.command r.lists)
  | .code, some (.awaiting name) => some (.value name)
  | .code, some (.quoted name _ _) => some (.value name)
  | .code, _ => some (.code r.blocks)

/-- What the end of the text makes of the tokens so far. -/
def ending : Change → Except Stop (List Token)
  | (ts, r) =>
    match r.unfinished with
    | none => .ok ts
    | some context => .error (.refused (.unexpectedEnd context))

/-! ## Agreement with the scanner -/

def ofMode : Mode → Registers
  | .outside => start
  | .command depth text => ⟨.command, text, none, depth, 0⟩
  | .code lists depth pending => ⟨.code, none, pending, lists, depth⟩

/-- What the scanner gives, in registers. -/
def lifted : Except ScanError Step → Except Stop Change
  | .ok (ts, m) => .ok (ts, ofMode m)
  | .error e => .error (.refused e)

@[simp] theorem ofMode_outside : ofMode .outside = start := rfl

@[simp] theorem ofMode_command (depth : Nat) (text : Option String) :
    ofMode (.command depth text) = ⟨.command, text, none, depth, 0⟩ := rfl

@[simp] theorem ofMode_code (lists depth : Nat) (pending : Option Pending) :
    ofMode (.code lists depth pending) = ⟨.code, none, pending, lists, depth⟩ := rfl

@[simp] theorem lifted_ok (ts : List Token) (m : Mode) : lifted (.ok (ts, m)) = .ok (ts, ofMode m) := rfl

@[simp] theorem lifted_error (e : ScanError) : lifted (.error e) = .error (.refused e) := rfl

@[simp] theorem lower_succ (depth : Nat) : lower (depth + 1) = .ok depth := rfl

/-- A list that ends, with `l` lists around it. -/
theorem ofMode_listEnd (l : Nat) : ofMode (if l = 0 then .outside else .command l none) =
    ⟨if l = 0 then .outside else .command, none, none, l, 0⟩ := by
  cases l <;> rfl

/-- A block that ends, with `d` blocks around it. -/
theorem ofMode_blockEnd (l d : Nat) : ofMode (if d = 0 then .command l none else .code l d none) =
    ⟨if d = 0 then .command else .code, none, none, l, d⟩ := by
  cases d <;> rfl

theorem step_outside (pos : Nat) (c : Char) :
    start.step pos c = lifted (Scanner.step .outside pos c) := by
  simp [step, start, stepOutside, Scanner.step, Scanner.stepOutside, apply_ite lifted]

theorem step_command (l : Nat) (t : Option String) (pos : Nat) (c : Char) :
    (ofMode (.command (l + 1) t)).step pos c = lifted (Scanner.step (.command (l + 1) t) pos c) := by
  simp [step, stepCommand, Scanner.step, Scanner.stepCommand, apply_ite lifted, Except.map, ofMode_listEnd]

theorem step_plain (l d : Nat) {p : Option Pending} (hp : Plain p) (pos : Nat) (c : Char) :
    (ofMode (.code l (d + 1) p)).step pos c = lifted (Scanner.step (.code l (d + 1) p) pos c) := by
  cases p with
  | none =>
    simp [step, stepCode, stepPlain, Scanner.step, Scanner.stepPlain, apply_ite lifted, Except.map,
      ofMode_blockEnd]
  | some p =>
    obtain ⟨name, rfl⟩ := hp p rfl
    simp [step, stepCode, stepPlain, Scanner.step, Scanner.stepPlain, apply_ite lifted, Except.map,
      ofMode_blockEnd, Pending.name]

theorem step_awaiting (l d : Nat) (name : String) (pos : Nat) (c : Char) :
    (ofMode (.code l d (some (.awaiting name)))).step pos c =
      lifted (Scanner.step (.code l d (some (.awaiting name))) pos c) := by
  simp [step, stepCode, stepAwaiting, Scanner.step, Scanner.stepAwaiting, apply_ite lifted]

theorem step_quoted (l d : Nat) (name text : String) (escaped : Bool) (pos : Nat) (c : Char) :
    (ofMode (.code l d (some (.quoted name text escaped)))).step pos c =
      lifted (Scanner.step (.code l d (some (.quoted name text escaped))) pos c) := by
  simp only [ofMode_code, step, stepCode, stepQuoted, Scanner.step, Scanner.stepQuoted]
  split
  · rfl
  split
  · rfl
  split <;> rfl

/-- Where the depths count what is open, no depth is lowered that is 0. -/
theorem step_ofMode {m : Mode} (hv : m.Valid) (pos : Nat) (c : Char) :
    (ofMode m).step pos c = lifted (Scanner.step m pos c) := by
  rcases m with _ | ⟨l, t⟩ | ⟨l, d, p⟩
  · exact step_outside pos c
  · obtain ⟨l, rfl⟩ := Nat.exists_eq_add_one.mpr hv.1
    exact step_command l t pos c
  · obtain ⟨d, rfl⟩ := Nat.exists_eq_add_one.mpr hv.2.1
    rcases p with _ | name | name | ⟨name, text, escaped⟩
    · exact step_plain l d plain_none pos c
    · exact step_plain l d (plain_named name) pos c
    · exact step_awaiting l (d + 1) name pos c
    · exact step_quoted l (d + 1) name text escaped pos c

theorem feed_ofMode {m : Mode} (hv : m.Valid) (pos : Nat) (s : List Char) :
    feed step (ofMode m) pos s = lifted (feed Scanner.step m pos s) := by
  induction s generalizing m pos with
  | nil => rfl
  | cons c s ih =>
    rw [feed, feed, step_ofMode hv]
    cases hc : Scanner.step m pos c with
    | error e => rfl
    | ok r =>
      obtain ⟨ts, n⟩ := r
      have hlater := ih ((moves_of_step hc).valid hv) (pos + 1)
      simp only [lifted_ok, hlater]
      cases feed Scanner.step n (pos + 1) s <;> rfl

theorem unfinished_ofMode (m : Mode) : (ofMode m).unfinished = m.unfinished := by
  rcases m with _ | ⟨l, t⟩ | ⟨l, d, _ | name | name | ⟨name, text, escaped⟩⟩ <;> rfl

theorem feed_start (pos : Nat) (s : List Char) :
    feed step start pos s = lifted (feed Scanner.step .outside pos s) :=
  feed_ofMode (m := .outside) trivial pos s

/-- The machine on registers gives for a text what the scanner gives. -/
theorem scan_eq_feed (s : String) :
    (feed step start 0 s.toList).bind ending = (scan s).mapError .refused := by
  rw [scan, run_eq_feed, feed_start]
  cases feed Scanner.step .outside 0 s.toList with
  | error e => rfl
  | ok r =>
    obtain ⟨ts, m⟩ := r
    simp only [lifted_ok, Except.bind, ending, Scanner.ending, unfinished_ofMode]
    cases m.unfinished <;> rfl

theorem feed_start_ne_underflow (pos : Nat) (s : List Char) : feed step start pos s ≠ .error .underflow := by
  rw [feed_start]
  cases feed Scanner.step .outside pos s with
  | error e => simp
  | ok r =>
    obtain ⟨ts, m⟩ := r
    simp

theorem reads_of_feed_start {pos : Nat} {s : List Char} {ts : List Token} {r : Registers}
    (h : feed step start pos s = .ok (ts, r)) : ∃ m, Reads .outside s ts m ∧ r = ofMode m := by
  rw [feed_start] at h
  cases hfeed : feed Scanner.step .outside pos s with
  | error e => simp [hfeed] at h
  | ok last =>
    obtain ⟨us, m⟩ := last
    simp only [hfeed, lifted_ok, Except.ok.injEq, Prod.mk.injEq] at h
    obtain ⟨rfl, rfl⟩ := h
    exact ⟨m, (feed_eq_ok_iff _ _ _ _ _).mp hfeed, rfl⟩

end Registers
end BracketTree.Scanner
