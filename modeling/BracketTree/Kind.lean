import BracketTree.Brace

/-!
Kinds of nodes, and the table that gives a token's name its kind.
-/

namespace BracketTree
set_option autoImplicit false

inductive Kind where
  | root
  | command
  /-- A block of code, `{ … }`: it has a scope of its own. -/
  | block
  /-- A grouping bracket, or a closing bracket of any shape. -/
  | brace (b : Brace)
  | fragment
  | identifier
  | property
  | operator
  | expression
  | creation
  | initializer
  | typeSpec
  | varTest
  deriving DecidableEq

namespace Kind

def brace? : Kind → Option Brace
  | command => some ⟨.square, .opening⟩
  | block => some ⟨.curly, .opening⟩
  | brace b => some b
  | _ => none

def isBlock : Kind → Bool
  | block => true
  | _ => false

def hasAnalysis : Kind → Bool
  | command | block | creation | expression | varTest => true
  | _ => false

def tags : List (String × Kind) :=
  [("[", .command), ("(", .brace ⟨.round, .opening⟩), ("\x7b", .block),
    ("]", .brace ⟨.square, .closing⟩), (")", .brace ⟨.round, .closing⟩),
    ("\x7d", .brace ⟨.curly, .closing⟩),
    ("cmd", .fragment), ("ID", .identifier), ("prop", .property),
    ("PLUS", .operator), ("MINUS", .operator), ("STAR", .operator), ("SLASH", .operator),
    ("PERCENT", .operator), ("CARAT", .operator), ("PIPE", .operator), ("AMP", .operator),
    ("TILDE", .operator), ("DOUBLETILDE", .operator),
    ("exp", .expression), ("new", .creation), ("init", .initializer), ("type", .typeSpec),
    ("isvar", .varTest)]

def ofTag? (tag : String) : Option Kind := tags.lookup tag

theorem isBlock_iff (k : Kind) : k.isBlock = true ↔ k = .block := by
  cases k <;> simp [isBlock]

theorem eq_of_isGrouping {k : Kind} {b : Brace} (h : k.brace? = some b) (hb : b.isGrouping = true) :
    k = .brace ⟨.round, .opening⟩ := by
  obtain rfl := (Brace.isGrouping_iff b).mp hb
  cases k <;> simp_all [brace?]

end Kind
end BracketTree
