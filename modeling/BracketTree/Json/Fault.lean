/-!
Faults of a JSON text, and the first readers. A reader takes the rest of a text and gives a value
with what follows it. Texts are read from left to right and the first fault is the one reported.
-/

namespace BracketTree
set_option autoImplicit false

namespace Json

inductive Fault where
  | ended
  /-- The text is JSON so far, but of a form that is not wanted here. -/
  | unwanted
  | malformed
  deriving DecidableEq

abbrev Reader (α : Type) := List Char → Except Fault (α × List Char)

def isSpace (c : Char) : Bool := c = ' ' || c = '\n' || c = '\t' || c = '\r'

def dropSpace (s : List Char) : List Char := s.dropWhile isSpace

def readWord : List Char → List Char → Except Fault (List Char)
  | [], s => .ok s
  | _ :: _, [] => .error .ended
  | w :: ws, c :: s => if c = w then readWord ws s else .error .malformed

end Json
end BracketTree
