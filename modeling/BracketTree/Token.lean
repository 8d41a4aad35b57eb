/-!
Tokens of the bracket notation: a name and an optional value. A value may be empty, which is not
the same as having none.
-/

namespace BracketTree
set_option autoImplicit false

structure Token where
  name : String
  value : Option String
  deriving DecidableEq

namespace Token

def bare (name : String) : Token := ⟨name, none⟩

def mark (c : Char) : Token := bare (String.singleton c)

def valued (name value : String) : Token := ⟨name, some value⟩

/-- The displayed form: `name`, or `name:value` when there is a value. -/
def text (t : Token) : String :=
  match t.value with
  | none => t.name
  | some v => t.name ++ ":" ++ v

def line (ts : List Token) : String := " ".intercalate (ts.map text)

@[simp] theorem text_bare (name : String) : (bare name).text = name := rfl

@[simp] theorem text_valued (name value : String) :
    (valued name value).text = name ++ ":" ++ value := rfl

end Token
end BracketTree
