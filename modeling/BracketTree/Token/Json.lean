import BracketTree.Json.Record
import BracketTree.Token

/-!
The JSON form of a token. The name must be there; a value that is left out or `null` is none.
-/

namespace BracketTree
set_option autoImplicit false

namespace Token
open Json

def toJson (t : Token) : String := object [("name", quote t.name), ("value", ofString? t.value)]

structure Given where
  name : Option String
  value : Option (Option String)

def member (g : Given) (key : String) (s : List Char) : Except Fault (Given × List Char) :=
  if key = "name" then
    (readOnce g.name readString s).map fun r => ({ g with name := some r.1 }, r.2)
  else if key = "value" then
    (readOnce g.value readString? s).map fun r => ({ g with value := some r.1 }, r.2)
  else ((readColon s).bind skipValue).map fun r => (g, r)

def ofObject : Reader Token := fun s => do
  let (g, rest) ← readMembers member ⟨none, none⟩ s
  match g.name with
  | none => .error .unwanted
  | some name => .ok (⟨name, g.value.getD none⟩, rest)

/-- In an array both elements must be there. -/
def ofArray : Reader Token := fun s => do
  match ← readElement? readString true s with
  | (none, _, _) => .error .unwanted
  | (some name, first, s) =>
    match ← readElement? readString? first s with
    | (none, _, _) => .error .unwanted
    | (some value, _, s) =>
      let rest ← endArray s
      .ok (⟨name, value⟩, rest)

def ofJson (text : String) : Except Fault Token :=
  readDocument (readRecord ofArray ofObject) text

end Token
end BracketTree
