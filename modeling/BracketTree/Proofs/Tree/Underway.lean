import BracketTree.Proofs.Tree.Recover
import BracketTree.Proofs.Tree.Setup

/-! A tree under construction. Inside an open bracket stand bare items, finished trees and, as the
last one, the next open bracket. Under the root also stand statements that were given up. -/

namespace BracketTree
open Forest
set_option autoImplicit false

namespace Node

/-- Initialised, and nothing more. -/
def Entered (n : Node) : Prop := n.marks = ⟨true, false, false, false⟩

/-- Ready to be evaluated and not evaluated yet. -/
structure Complete (n : Node) (below : Forest Node) : Prop where
  marks : n.marks = ⟨true, true, true, false⟩
  fits : n.toItem.Fits (below.map Node.toItem)

inductive Operand : Node → Forest Node → Prop where
  | bare {n : Node} : n.Entered → n.kind.brace? = none → Operand n .nil
  | complete {n : Node} {c : Forest Node} : n.Complete c → c.Everywhere Complete → Operand n c

/-- A bracket that is open. -/
structure Awaits (n : Node) : Prop where
  entered : n.Entered
  bracket : ∃ b, n.kind.brace? = some b

/-- A node that a bracket leaves to be set up when it closes: the bracket itself, or the first of
what stands inside. -/
def Closing (n : Node) : Prop := n.Awaits ∨ n.Operand .nil

/-- What may stand under the root. A statement is given up when an inner bracket fails and its own
is still open, or when its own bracket closes and the setup fails. -/
inductive Statement : Node → Forest Node → Prop where
  | operand {n : Node} {c : Forest Node} : Operand n c → Statement n c
  | unclosed {n : Node} {c : Forest Node} : n.Awaits → Statement n c
  | failed {n m : Node} {c d : Forest Node} {e : TreeError} : n.Closing → c.Tops Operand →
      attemptWith n c = ((m, d), .error e) → Statement m d

theorem Entered.inOrder {n : Node} (h : n.Entered) : n.marks.InOrder := by
  rw [h]
  exact ⟨rfl, by simp, by simp⟩

theorem Complete.inOrder {n : Node} {c : Forest Node} (h : n.Complete c) : n.marks.InOrder := by
  rw [h.marks]
  exact ⟨rfl, by simp, by simp⟩

theorem Operand.inOrder {n : Node} {c : Forest Node} (h : Operand n c) : n.marks.InOrder := by
  cases h with
  | bare he _ => exact he.inOrder
  | complete hc _ => exact hc.inOrder

theorem Operand.below {n : Node} {c : Forest Node} (h : Operand n c) : c.Everywhere Complete := by
  cases h with
  | bare _ _ => trivial
  | complete _ hc => exact hc

theorem Closing.inOrder {n : Node} (h : n.Closing) : n.marks.InOrder := by
  rcases h with ha | ho
  · exact ha.entered.inOrder
  · exact ho.inOrder

/-! ## Setups that succeed -/

theorem Entered.complete {n : Node} {c : Forest Node} (h : n.Entered)
    (hf : n.toItem.Fits (c.map Node.toItem)) : n.settle.Complete c := by
  have hs : n.settle = n.markSetup.markAnalyzed := if_neg (by simp [show n.marks = _ from h])
  refine ⟨?_, by rw [settle_toItem]; exact hf⟩
  rw [hs, markAnalyzed, markSetup, show n.marks = _ from h]

theorem Entered.fits_of_passes {n : Node} {c : Forest Node} (h : n.Entered) (hp : n.Passes c) :
    n.toItem.Fits (c.map Node.toItem) := by
  rw [Passes, show n.marks = _ from h] at hp
  simpa using hp

theorem Complete.settle_eq {n : Node} {c : Forest Node} (h : n.Complete c) : n.settle = n :=
  if_pos (by rw [h.marks])

theorem Operand.settle {n : Node} {c : Forest Node} (h : Operand n c) (hp : n.Passes c) :
    n.settle.Complete c := by
  cases h with
  | bare he _ => exact he.complete (he.fits_of_passes hp)
  | complete hc _ => exact hc.settle_eq.symm ▸ hc

theorem Closing.settle {n : Node} {c : Forest Node} (h : n.Closing) (hp : n.Passes c) :
    n.settle.Complete c := by
  rcases h with ha | ho
  · obtain ⟨b, hb⟩ := ha.bracket
    exact ha.entered.complete (Item.fits_of_brace hb _)
  · cases ho with
    | bare he _ => exact he.complete (he.fits_of_passes hp)
    | complete hc _ =>
      rw [hc.settle_eq]
      exact ⟨hc.marks, hc.fits.of_nil _⟩

theorem everywhere_complete {c d : Forest Node} (h : c.Tops Operand)
    (hd : attemptAll c = (d, .ok ())) : d.Everywhere Complete := by
  obtain ⟨hp, rfl⟩ := (attemptAll_eq_ok_iff c d).mp hd
  rw [everywhere_mapRoots]
  exact (h.and hp).imp fun n e hn => ⟨hn.1.settle hn.2, hn.1.below⟩

theorem Closing.complete {n m : Node} {c d : Forest Node} (h : n.Closing) (hc : c.Tops Operand)
    (ha : attemptWith n c = ((m, d), .ok ())) : m.Complete d ∧ d.Everywhere Complete := by
  obtain ⟨htops, hp, rfl, rfl⟩ := (attemptWith_eq_ok_iff n m c d).mp ha
  have hn := h.settle hp
  have hall := (attemptAll_eq_ok_iff c _).mpr ⟨htops, rfl⟩
  refine ⟨⟨hn.marks, ?_⟩, everywhere_complete hc hall⟩
  rw [map_mapRoots settle_toItem]
  exact hn.fits

theorem Closing.operand {n m : Node} {c d : Forest Node} (h : n.Closing) (hc : c.Tops Operand)
    (ha : attemptWith n c = ((m, d), .ok ())) : Operand m d := by
  obtain ⟨hm, hd⟩ := h.complete hc ha
  exact .complete hm hd

end Node

/-! ## The open brackets -/

namespace Tree

/-- The brackets of the spine are open, and `c` is what stands in the innermost one so far; each tree
under the root is as `P` says. -/
inductive Underway (P : Node → Forest Node → Prop) : List (Frame Node) → Forest Node → Prop where
  | top {r : Node} {c : Forest Node} : r.marks = .unmarked → c.Tops P →
      Underway P [⟨.nil, r, .nil⟩] c
  | inside {n : Node} {up : Frame Node} {outer : List (Frame Node)} {left c : Forest Node} :
      Underway P (up :: outer) left → n.Awaits → c.Tops Node.Operand →
      Underway P (⟨left, n, .nil⟩ :: up :: outer) c

variable {P : Node → Forest Node → Prop} {fr up : Frame Node} {outer : List (Frame Node)}
  {c left : Forest Node} {n : Node}

/-- A further tree inside the innermost bracket, or under the root if no bracket is open. -/
theorem Underway.snoc {d : Forest Node} (h : Underway P (fr :: outer) c)
    (hP : outer = [] → P n d) (hn : outer ≠ [] → n.Operand d) :
    Underway P (fr :: outer) (c ++ .node n d .nil) := by
  cases h with
  | top hr hc => exact .top hr ((tops_append _ _).mpr ⟨hc, hP rfl, trivial⟩)
  | inside hout ha hc =>
    exact .inside hout ha ((tops_append _ _).mpr ⟨hc, hn (List.cons_ne_nil _ _), trivial⟩)

theorem Underway.around (h : Underway P (fr :: up :: outer) c) :
    Underway P (up :: outer) fr.left ∧ fr.node.Awaits ∧ fr.right = .nil ∧ c.Tops Node.Operand := by
  cases h with
  | inside hout ha hc => exact ⟨hout, ha, rfl, hc⟩

/-- The levels between the innermost bracket and one further out are open brackets. -/
theorem Underway.awaits {skipped rest : List (Frame Node)}
    (h : Underway P (fr :: (skipped ++ up :: rest)) c) : ∀ g ∈ skipped, g.node.Awaits := by
  induction skipped generalizing fr c with
  | nil => simp
  | cons g skipped ih =>
    have hout := h.around.1
    intro g' hg
    rcases List.mem_cons.mp hg with rfl | hg
    · cases skipped with
      | nil => exact hout.around.2.1
      | cons _ _ => exact hout.around.2.1
    · exact ih hout g' hg

/-- The nearest block keeps what stands in it before the bracket inside it. -/
theorem Underway.nearestBlock {kept : Forest Node} {block : Frame Node}
    {rest : List (Frame Node)} (h : Underway P outer left)
    (hb : nearestBlock left outer = some (kept, block, rest)) : Underway P (block :: rest) kept := by
  induction h with
  | top hr hc =>
    rw [Tree.nearestBlock] at hb
    split at hb
    · cases hb
      exact .top hr hc
    · cases hb
  | inside hout ha hc ih =>
    rw [Tree.nearestBlock] at hb
    split at hb
    · cases hb
      exact .inside hout ha hc
    · exact ih hb

/-- When work goes on at the root, the outermost open bracket is left there as it is. -/
theorem Underway.abandon (h : Underway P (fr :: up :: outer) c)
    (hP : ∀ m d, m.Awaits → P m d) (d : Forest Node) :
    ∃ r e, plug (fr :: up :: outer) d = plug [⟨.nil, r, .nil⟩] e ∧
      Underway P [⟨.nil, r, .nil⟩] e := by
  induction outer generalizing fr up c d with
  | nil =>
    obtain ⟨hout, ha, hright, -⟩ := h.around
    cases hout with
    | @top r _ hr hc =>
      refine ⟨r, _, rfl, .top hr ((tops_append _ _).mpr ⟨hc, hP _ _ ha, ?_⟩)⟩
      rw [hright]
      trivial
  | cons up' outer ih => exact ih h.around.1 (fr.left ++ .node fr.node d fr.right)

/-- A tree under construction whose innermost open bracket is the node `focus`. -/
def UnderwayAt (P : Node → Forest Node → Prop) (t : Tree) (focus : NodeId) : Prop :=
  ∃ fr outer c, t.nodes = plug (fr :: outer) c ∧ fr.node.id = focus ∧ Underway P (fr :: outer) c

end Tree
end BracketTree
