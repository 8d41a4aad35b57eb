import BracketTree.Json.Fault

/-!
# Numbers of JSON

No value that is wanted is a number, so a number is either passed over or a fault. Where it is
passed over only its form counts. Where something else is wanted it is read as a number first: it is
unwanted if it is a number of double precision, and malformed if it is none or lies out of range.
-/

namespace BracketTree
set_option autoImplicit false

namespace Json

def startsWithDigit : List Char → Bool
  | [] => false
  | c :: _ => c.isDigit

def digits (s : List Char) : List Char := s.takeWhile Char.isDigit

def dropDigits (s : List Char) : List Char := s.dropWhile Char.isDigit

def digitValue (c : Char) : Nat := c.toNat - '0'.toNat

def dropSign : List Char → List Char
  | '+' :: rest => rest
  | '-' :: rest => rest
  | rest => rest

def skipExponent : List Char → Except Fault (List Char)
  | 'e' :: rest | 'E' :: rest =>
    if startsWithDigit (dropSign rest) then .ok (dropDigits (dropSign rest))
    else .error .malformed
  | rest => .ok rest

def skipFraction : List Char → Except Fault (List Char)
  | '.' :: rest =>
    if startsWithDigit rest then skipExponent (dropDigits rest) else .error .malformed
  | rest => skipExponent rest

def skipNumber : List Char → Except Fault (List Char)
  | '0' :: rest => if startsWithDigit rest then .error .malformed else skipFraction rest
  | c :: rest => if c.isDigit then skipFraction (dropDigits rest) else .error .malformed
  | [] => .error .malformed

/-- The natural number nearest to `n` that has at most 53 significant bits; of two, the one whose
last bit is zero. -/
def roundSignificand (n : Nat) : Nat :=
  if n < Nat.pow 2 53 then n
  else
    let unit := Nat.pow 2 (n.log2 - 52)
    let low := n / unit
    let rest := n % unit
    if unit < 2 * rest || (unit == 2 * rest && low % 2 == 1) then (low + 1) * unit
    else low * unit

def isFinite (m : Nat) (e : Int) : Bool :=
  if m = 0 || e < 0 then true
  else if 308 < e then false
  else roundSignificand (roundSignificand m * roundSignificand (Nat.pow 10 e.toNat)) < Nat.pow 2 1024

/-- A significand of at most 64 bits, and how many digits were taken and how many left out. -/
structure Significand where
  value : Nat
  taken : Nat
  dropped : Nat

/-- The first digit that does not fit is left out, and all after it. -/
def Significand.push (m : Significand) (c : Char) : Significand :=
  let value := m.value * 10 + digitValue c
  if m.dropped = 0 && value < Nat.pow 2 64 then ⟨value, m.taken + 1, 0⟩
  else ⟨m.value, m.taken, m.dropped + 1⟩

def significand (start : Nat) (ds : List Char) : Significand :=
  ds.foldl Significand.push ⟨start, 0, 0⟩

def rangeFault (m : Nat) (e : Int) : Fault := if isFinite m e then .unwanted else .malformed

/-- The fault of a number whose significand is `m · 10 ^ e`, from its exponent on. -/
def exponentFault (m : Nat) (e : Int) : List Char → Fault
  | 'e' :: rest | 'E' :: rest =>
    match dropSign rest with
    | [] => .ended
    | s@(c :: _) =>
      if c.isDigit then
        let size := (digits s).foldl (fun n d => n * 10 + digitValue d) 0
        let negative := rest.head? == some '-'
        if Nat.pow 2 31 ≤ size then if m ≠ 0 && !negative then .malformed else .unwanted
        else rangeFault m (if negative then e - size else e + size)
      else .malformed
  | _ => rangeFault m e

/-- The fault of a number whose integer is `m · 10 ^ e`, from its fraction on. -/
def fractionFault (m : Nat) (e : Nat) : List Char → Fault
  | '.' :: rest =>
    match digits rest with
    | [] => if rest.isEmpty then .ended else .malformed
    | ds =>
      let f := significand m ds
      exponentFault f.value (e - f.taken) (dropDigits rest)
  | rest => exponentFault m e rest

/-- The fault of a number where something else is wanted, from its integer on. -/
def integerFault : List Char → Fault
  | [] => .ended
  | '0' :: rest => if startsWithDigit rest then .malformed else fractionFault 0 0 rest
  | s@(c :: _) =>
    if c.isDigit then
      let m := significand 0 (digits s)
      fractionFault m.value m.dropped (dropDigits s)
    else .malformed

def numberFault : List Char → Fault
  | '-' :: rest => integerFault rest
  | s => integerFault s

end Json
end BracketTree
