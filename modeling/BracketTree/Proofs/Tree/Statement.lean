import BracketTree.Proofs.Tree.Underway

/-! The statements under the root and how far they have come. A statement that is not set up, or whose
analysis failed, is not ready. One that is ready has operands with finished trees under them, but
an operand may have failed: its node was ready before it received its operands. -/

namespace BracketTree.Node
open Forest
set_option autoImplicit false

variable {n m : Node} {c d : Forest Node} {x : TreeError}

/-- What stands under the node is ready, but the node's own analysis refuses it. -/
def misfit (n : Node) (below : Forest Node) : Bool :=
  below.roots.all (fun m => m.marks.ready) && !(n.analysisCheck below).isOk

theorem analysisCheck_nil (n : Node) : n.analysisCheck .nil = .ok () := by
  rw [analysisCheck]
  cases n.kind <;> rfl

theorem analysisCheck_of_brace {b : Brace} (h : n.kind.brace? = some b) (below : Forest Node) :
    n.analysisCheck below = .ok () :=
  ((fits_iff n below).mp (Item.fits_of_brace h _)).2

theorem analysisCheck_markSetup (n : Node) (below : Forest Node) :
    n.markSetup.analysisCheck below = n.analysisCheck below :=
  rfl

theorem Complete.analysisCheck (h : n.Complete c) : n.analysisCheck c = .ok () :=
  ((fits_iff n c).mp h.fits).2

theorem Complete.ready (h : n.Complete c) : n.marks.ready = true := by
  rw [h.marks]
  rfl

/-! ## Setups that fail -/

inductive Fails (n : Node) (c : Forest Node) : Node → Prop where
  | setup : n.Entered → c = .nil → Fails n c n
  | analysis : n.Entered → (n.analysisCheck c).isOk = false → Fails n c n.markSetup

theorem eq_nil_of_setupCheck {e : StructureError} (h : n.setupCheck c = .error e) : c = .nil := by
  rw [setupCheck] at h
  cases c with
  | nil => rfl
  | node a d s => split at h <;> simp [Forest.isEmpty] at h

theorem fails_of_attempt (hn : n.Entered) (h : n.attempt c = (m, .error x)) : n.Fails c m := by
  rw [attempt, show n.marks = _ from hn, if_neg Bool.false_ne_true] at h
  cases hs : n.setupCheck c with
  | error e =>
    rw [hs] at h
    cases h
    exact .setup hn (eq_nil_of_setupCheck hs)
  | ok =>
    rw [hs] at h
    cases ha : n.analysisCheck c with
    | error e =>
      rw [ha] at h
      cases h
      exact .analysis hn (by rw [ha]; rfl)
    | ok =>
      rw [ha] at h
      cases h

theorem Fails.marks (h : n.Fails c m) : ∃ s, m.marks = ⟨true, s, false, false⟩ := by
  cases h with
  | setup he _ => exact ⟨false, he⟩
  | analysis he _ => exact ⟨true, by rw [markSetup, show n.marks = _ from he]⟩

/-- Only the first child that fails is left unready among those that come before it. -/
theorem exists_unready_of_attemptAll (hc : c.Tops Operand) (h : attemptAll c = (d, .error x)) :
    ¬d.Tops fun m _ => m.marks.ready = true := by
  induction c generalizing d with
  | nil => cases h
  | node n e s _ ih =>
    rw [attemptAll] at h
    rcases hr : n.attempt e with ⟨m, y | _⟩
    · rw [hr] at h
      cases h
      rintro ⟨hready, -⟩
      have hm : n.Fails e m := by
        cases hc.1 with
        | bare he _ => exact fails_of_attempt he hr
        | complete hn _ =>
          rw [attempt_of_setup (by rw [hn.marks])] at hr
          cases hr
      obtain ⟨b, hb⟩ := hm.marks
      rw [hb] at hready
      simp [Marks.ready] at hready
    · rw [hr] at h
      rcases hs : attemptAll s with ⟨s', y | _⟩
      · rw [hs] at h
        cases h
        exact fun ht => ih hc.2 hs ht.2
      · rw [hs] at h
        cases h

theorem attemptAll_tops {P Q : Node → Forest Node → Prop}
    (hPQ : ∀ n e, P n e → Q n e ∧ Q (n.attempt e).1 e) (hc : c.Tops P) :
    (attemptAll c).1.Tops Q := by
  induction c with
  | nil => trivial
  | node n e s _ ih =>
    obtain ⟨-, hm⟩ := hPQ n e hc.1
    rw [attemptAll]
    generalize n.attempt e = r at hm ⊢
    obtain ⟨m, y | _⟩ := r
    · exact ⟨hm, hc.2.imp fun n e h => (hPQ n e h).1⟩
    · exact ⟨hm, ih hc.2⟩

theorem attempt_evaluated (n : Node) (c : Forest Node) :
    (n.attempt c).1.marks.evaluated = n.marks.evaluated := by
  rcases n.attempt_eq c with h | h | h <;> rw [h] <;> rfl

theorem Operand.unevaluated (h : Operand n c) : n.marks.evaluated = false := by
  cases h with
  | bare he _ => rw [show n.marks = _ from he]
  | complete hn _ => rw [hn.marks]

/-- What stands under a node whose setup was tried. -/
theorem tops_of_attemptAll (hc : c.Tops Operand) : (attemptAll c).1.Tops fun m e =>
    m.marks.evaluated = false ∧ e.Everywhere Complete := by
  refine attemptAll_tops (fun n e h => ?_) hc
  exact ⟨⟨h.unevaluated, h.below⟩, (attempt_evaluated n e).trans h.unevaluated, h.below⟩

/-! ## Statements -/

/-- A failed statement: a child failed, and the node is as it was; or the node itself failed. -/
theorem Closing.failed (hn : n.Closing) (hc : c.Tops Operand)
    (h : n.attemptWith c = ((m, d), .error x)) :
    (m = n ∧ ¬d.Tops fun m _ => m.marks.ready = true) ∨
      (d.Everywhere Complete ∧ n.Fails d m) := by
  rw [attemptWith] at h
  rcases hr : attemptAll c with ⟨d', y | _⟩
  · rw [hr] at h
    cases h
    exact .inl ⟨rfl, exists_unready_of_attemptAll hc hr⟩
  · rw [hr] at h
    have hd := everywhere_complete hc hr
    obtain ⟨hmd, hx⟩ := Prod.mk.inj h
    obtain ⟨hm, rfl⟩ := Prod.mk.inj hmd
    have ha : n.attempt d' = (m, .error x) := Prod.ext hm hx
    have hno : ¬n.Passes d' := by
      intro hp
      cases ha.symm.trans ((attempt_eq_ok_iff n _ d').mpr ⟨hp, rfl⟩)
    refine .inr ⟨hd, ?_⟩
    rcases hn with haw | ho
    · obtain ⟨b, hb⟩ := haw.bracket
      exact absurd (.inr (Item.fits_of_brace hb _)) hno
    · cases ho with
      | bare he _ => exact fails_of_attempt he ha
      | complete hn _ => exact absurd (.inl (by rw [hn.marks])) hno

theorem Closing.unevaluated (h : n.Closing) : n.marks.evaluated = false := by
  rcases h with ha | ho
  · rw [show n.marks = _ from ha.entered]
  · exact ho.unevaluated

theorem attemptWith_below (n : Node) (c : Forest Node) :
    (n.attemptWith c).1.2 = (attemptAll c).1 := by
  rw [attemptWith]
  rcases attemptAll c with ⟨d, y | _⟩ <;> rfl

theorem Fails.unevaluated (h : n.Fails c m) : m.marks.evaluated = false := by
  obtain ⟨s, hs⟩ := h.marks
  rw [hs]

theorem Statement.unevaluated (h : Statement n c) : n.marks.evaluated = false := by
  cases h with
  | operand ho => exact ho.unevaluated
  | unclosed ha => rw [show n.marks = _ from ha.entered]
  | failed hn hc ha =>
    rcases hn.failed hc ha with ⟨rfl, -⟩ | ⟨-, hf⟩
    · exact hn.unevaluated
    · exact hf.unevaluated

theorem Statement.inOrder (h : Statement n c) : n.marks.InOrder := by
  cases h with
  | operand ho => exact ho.inOrder
  | unclosed ha => exact ha.entered.inOrder
  | failed hn hc ha =>
    rcases hn.failed hc ha with ⟨rfl, -⟩ | ⟨-, hf⟩
    · exact hn.inOrder
    · obtain ⟨b, hb⟩ := hf.marks
      rw [hb]
      exact ⟨rfl, by simp, by simp⟩

/-- Two levels below a statement that is ready everything is finished. -/
theorem Statement.operands (h : Statement n c) (hr : n.marks.ready = true) :
    c.Tops fun m e => m.marks.evaluated = false ∧ e.Everywhere Complete := by
  cases h with
  | operand ho =>
    have hbelow := (everywhere_iff_tops _).mp ho.below
    exact hbelow.imp fun m e hm => ⟨by rw [hm.1.marks], hm.2⟩
  | unclosed ha =>
    rw [show n.marks = _ from ha.entered] at hr
    cases hr
  | failed hn hc ha =>
    have hd := tops_of_attemptAll hc
    rw [← attemptWith_below, ha] at hd
    exact hd

theorem misfit_eq_false_of_isOk (h : n.analysisCheck c = .ok ()) : n.misfit c = false := by
  rw [misfit, h]
  simp [Except.isOk, Except.toBool]

/-- A statement that is set up and not analysed is one whose own analysis failed. -/
theorem Statement.misfit_iff (h : Statement n c) :
    n.misfit c = true ↔ n.marks.setup = true ∧ n.marks.analyzed = false := by
  cases h with
  | operand ho =>
    cases ho with
    | bare he _ => simp [misfit_eq_false_of_isOk (analysisCheck_nil n), show n.marks = _ from he]
    | complete hn _ => simp [misfit_eq_false_of_isOk hn.analysisCheck, hn.marks]
  | unclosed ha =>
    obtain ⟨b, hb⟩ := ha.bracket
    simp [misfit_eq_false_of_isOk (analysisCheck_of_brace hb c), show n.marks = _ from ha.entered]
  | @failed n' _ _ _ _ hn hc ha =>
    rcases hn.failed hc ha with ⟨rfl, hno⟩ | ⟨hd, hf⟩
    · have hmarks : ¬(n.marks.setup = true ∧ n.marks.analyzed = false) := by
        rcases hn with haw | ho
        · simp [show n.marks = _ from haw.entered]
        · cases ho with
          | bare he _ => simp [show n.marks = _ from he]
          | complete hn _ => simp [hn.marks]
      rw [tops_iff_roots] at hno
      simp [misfit, hno, hmarks]
    · cases hf with
      | setup he hnil =>
        subst hnil
        simp [misfit_eq_false_of_isOk (analysisCheck_nil n), show n.marks = _ from he]
      | analysis he hno =>
        have hready := (tops_iff_roots (fun m : Node => m.marks.ready = true) c).mp
          (hd.tops.imp fun m e hm => hm.ready)
        have hmis : n'.markSetup.misfit c = true := by
          rw [misfit, analysisCheck_markSetup, hno, List.all_eq_true.mpr hready]
          rfl
        have hmarks : n'.markSetup.marks = ⟨true, true, false, false⟩ := by
          rw [markSetup, show n'.marks = _ from he]
        simp [hmis, hmarks]

theorem ready_iff_of_inOrder (h : n.marks.InOrder) :
    n.marks.ready = true ↔ n.marks.setup = true ∧ n.marks.analyzed = true := by
  rw [Marks.ready, h.initialized]
  simp

end BracketTree.Node
