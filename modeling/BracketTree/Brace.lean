/-!
Brackets: three shapes, each with an opening and a closing side.
-/

namespace BracketTree
set_option autoImplicit false

inductive Shape where
  | square
  | round
  | curly
  deriving DecidableEq

inductive Side where
  | opening
  | closing
  deriving DecidableEq

structure Brace where
  shape : Shape
  side : Side
  deriving DecidableEq

namespace Brace

def isOpening (b : Brace) : Bool := b.side == .opening

def closedBy (b close : Brace) : Bool :=
  b.side == .opening && close.side == .closing && b.shape == close.shape

/-- An opening round bracket only groups: it has no meaning of its own. -/
def isGrouping (b : Brace) : Bool := b.side == .opening && b.shape == .round

theorem closedBy_iff (b close : Brace) :
    b.closedBy close = true ↔
      b.side = .opening ∧ close.side = .closing ∧ b.shape = close.shape := by
  simp [closedBy, and_assoc]

theorem isOpening_of_closedBy {b close : Brace} (h : b.closedBy close = true) :
    b.isOpening = true ∧ close.isOpening = false := by
  obtain ⟨hb, hc, -⟩ := (closedBy_iff b close).mp h
  rw [isOpening, hb, isOpening, hc]
  exact ⟨rfl, rfl⟩

theorem isGrouping_iff (b : Brace) : b.isGrouping = true ↔ b = ⟨.round, .opening⟩ := by
  cases b with
  | mk shape side => cases shape <;> cases side <;> simp [isGrouping]

end Brace
end BracketTree
