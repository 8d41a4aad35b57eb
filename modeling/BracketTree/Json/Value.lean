import BracketTree.Json.Number
import BracketTree.Json.Text

/-!
# Values of JSON

Readers of the values that are wanted: a truth value, a string, a string or nothing. `skipValue`
passes over a value of any kind, which must still be JSON.
-/

namespace BracketTree
set_option autoImplicit false

namespace Json

/-- The fault of a text that does not start with what is wanted. -/
def mismatch (s : List Char) : Fault :=
  let after {α : Type} : Except Fault α → Fault
    | .error e => e
    | .ok _ => .unwanted
  match s with
  | [] => .ended
  | 'n' :: rest => after (readWord ['u', 'l', 'l'] rest)
  | 't' :: rest => after (readWord ['r', 'u', 'e'] rest)
  | 'f' :: rest => after (readWord ['a', 'l', 's', 'e'] rest)
  | '"' :: rest => after (readText rest)
  | '[' :: _ => .unwanted
  | '{' :: _ => .unwanted
  | '-' :: _ => numberFault s
  | c :: _ => if c.isDigit then numberFault s else .malformed

def readBool : Reader Bool := fun s =>
  match dropSpace s with
  | 't' :: rest => (readWord ['r', 'u', 'e'] rest).map fun r => (true, r)
  | 'f' :: rest => (readWord ['a', 'l', 's', 'e'] rest).map fun r => (false, r)
  | s => .error (mismatch s)

def readString : Reader String := fun s =>
  match dropSpace s with
  | '"' :: rest => (readText rest).map fun r => (String.ofList r.1, r.2)
  | s => .error (mismatch s)

def readString? : Reader (Option String) := fun s =>
  match dropSpace s with
  | 'n' :: rest => (readWord ['u', 'l', 'l'] rest).map fun r => (none, r)
  | s => (readString s).map fun r => (some r.1, r.2)

def readColon (s : List Char) : Except Fault (List Char) :=
  match dropSpace s with
  | [] => .error .ended
  | ':' :: rest => .ok rest
  | _ => .error .malformed

mutual

/-- Passes over a value. The number bounds the steps. -/
def skipValueWithin : Nat → List Char → Except Fault (List Char)
  | 0, _ => .error .ended
  | n + 1, s =>
    match dropSpace s with
    | [] => .error .ended
    | 'n' :: rest => readWord ['u', 'l', 'l'] rest
    | 't' :: rest => readWord ['r', 'u', 'e'] rest
    | 'f' :: rest => readWord ['a', 'l', 's', 'e'] rest
    | '"' :: rest => skipText rest
    | '-' :: rest => skipNumber rest
    | '[' :: rest =>
      match dropSpace rest with
      | ']' :: more => .ok more
      | more => skipElements n more
    | '{' :: rest =>
      match dropSpace rest with
      | '}' :: more => .ok more
      | more => skipMembers n more
    | s => skipNumber s

def skipElements : Nat → List Char → Except Fault (List Char)
  | 0, _ => .error .ended
  | n + 1, s =>
    match skipValueWithin n s with
    | .error e => .error e
    | .ok rest =>
      match dropSpace rest with
      | [] => .error .ended
      | ',' :: more => skipElements n more
      | ']' :: more => .ok more
      | _ => .error .malformed

def skipMembers : Nat → List Char → Except Fault (List Char)
  | 0, _ => .error .ended
  | n + 1, s =>
    match dropSpace s with
    | [] => .error .ended
    | '"' :: rest =>
      match (skipText rest).bind readColon with
      | .error e => .error e
      | .ok rest =>
        match skipValueWithin n rest with
        | .error e => .error e
        | .ok rest =>
          match dropSpace rest with
          | [] => .error .ended
          | ',' :: more => skipMembers n more
          | '}' :: more => .ok more
          | _ => .error .malformed
    | _ => .error .malformed

end

/-- Passes over a value. Every second step reads a character, so the bound is never reached. -/
def skipValue (s : List Char) : Except Fault (List Char) := skipValueWithin (2 * s.length + 2) s

end Json
end BracketTree
