import BracketTree.Json.Value

/-!
# Records of JSON

A record is written as an object, and read from an object or from an array that lists the fields in
order. What a field means is up to the caller: `readMembers` folds a function over the members of an
object, and `nextElement` steps through an array.
-/

namespace BracketTree
set_option autoImplicit false

namespace Json
variable {σ α : Type}

/-- The members of an object, from its opening brace on. The function `member` is given the key and
what follows it, reads the colon and the value, and changes the state. -/
def readMembersWithin (member : σ → String → List Char → Except Fault (σ × List Char)) :
    Nat → Bool → σ → List Char → Except Fault (σ × List Char)
  | 0, _, _, _ => .error .ended
  | n + 1, first, st, s =>
    let key : List Char → Except Fault (σ × List Char)
      | [] => .error .ended
      | '"' :: rest =>
        match readText rest with
        | .error e => .error e
        | .ok (k, more) =>
          match member st (String.ofList k) more with
          | .error e => .error e
          | .ok (st, more) => readMembersWithin member n false st more
      | _ => .error .malformed
    match dropSpace s with
    | [] => .error .ended
    | '}' :: rest => .ok (st, rest)
    | ',' :: rest => if first then .error .malformed else key (dropSpace rest)
    | s => if first then key s else .error .malformed

def readMembers (member : σ → String → List Char → Except Fault (σ × List Char)) (st : σ)
    (s : List Char) : Except Fault (σ × List Char) :=
  readMembersWithin member (s.length + 1) true st s

def readOnce (given : Option α) (read : Reader α) (s : List Char) :
    Except Fault (α × List Char) :=
  if given.isSome then .error .unwanted else (readColon s).bind read

/-- Where the next element of an array starts; none when the array ends here. -/
def nextElement (first : Bool) (s : List Char) : Except Fault (Option (List Char)) :=
  match dropSpace s with
  | [] => .error .ended
  | ']' :: _ => .ok none
  | ',' :: rest =>
    if first then .ok (some (',' :: rest))
    else
      match dropSpace rest with
      | [] => .error .ended
      | ']' :: _ => .error .malformed
      | s => .ok (some s)
  | s => if first then .ok (some s) else .error .malformed

/-- An element of an array if there is one more, and whether the array is still at its start. -/
def readElement? (read : Reader α) (first : Bool) (s : List Char) :
    Except Fault (Option α × Bool × List Char) :=
  match nextElement first s with
  | .error e => .error e
  | .ok none => .ok (none, first, s)
  | .ok (some t) => (read t).map fun r => (some r.1, false, r.2)

def endArray (s : List Char) : Except Fault (List Char) :=
  match dropSpace s with
  | [] => .error .ended
  | ']' :: rest => .ok rest
  | _ => .error .malformed

def readRecord (ofArray ofObject : Reader α) : Reader α := fun s =>
  match dropSpace s with
  | '[' :: rest => ofArray rest
  | '{' :: rest => ofObject rest
  | s => .error (mismatch s)

def readDocument (read : Reader α) (text : String) : Except Fault α :=
  match read text.toList with
  | .error e => .error e
  | .ok (a, rest) => if (dropSpace rest).isEmpty then .ok a else .error .malformed

def object (members : List (String × String)) : String :=
  "\x7b" ++ ",".intercalate (members.map fun m => quote m.1 ++ ":" ++ m.2) ++ "\x7d"

def ofBool (b : Bool) : String := if b then "true" else "false"

def ofString? : Option String → String
  | none => "null"
  | some s => quote s

end Json
end BracketTree
