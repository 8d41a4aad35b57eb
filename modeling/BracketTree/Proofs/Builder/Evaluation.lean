import BracketTree.Check
import BracketTree.Proofs.Builder.Progress
import BracketTree.Proofs.Tree.Evaluate
import BracketTree.Proofs.Tree.Statement

/-! The evaluation of what a builder made. Main statements: a run over a program succeeds exactly when
no statement that is ready has an operand that is not; and the statements warned of beforehand are
those that a run leaves out, save those that their own analysis refused. -/

namespace BracketTree
open Forest
set_option autoImplicit false

variable {σ : Type}

namespace Built

/-- The statements of a program that a run over it stands at. -/
def due (built : Built) : Forest Node := (built.tree.below Tree.rootId).filterRoots Node.stands

theorem Settled.evaluateProgram {built : Built} (h : built.Settled) (ev : Evaluator σ) (s : σ) :
    built.tree.evaluateProgram ev s =
      match Tree.evaluateForest ev false built.due built.tree s with
      | ⟨t, s, .error e⟩ => ⟨t, s, .error e⟩
      | ⟨t, s, .ok ()⟩ => ⟨t.modify Tree.rootId .markEvaluated, s, .ok ()⟩ := by
  obtain ⟨r, hget, hmarks⟩ := h.root
  have hroot : (built.tree.get? Tree.rootId).any (fun n => n.marks.evaluated) = false := by
    rw [hget, Option.any_some, hmarks]
    rfl
  rw [Tree.evaluateProgram, if_neg (by rw [hroot]; exact Bool.false_ne_true),
    Tree.evaluateForest_lenient]
  rfl

theorem Settled.result {built : Built} (h : built.Settled) (ev : Evaluator σ) (s : σ) :
    (built.tree.evaluateProgram ev s).result =
      (Tree.evaluateForest ev false built.due built.tree s).result := by
  rw [h.evaluateProgram]
  rcases Tree.evaluateForest ev false built.due built.tree s with ⟨t, s', e | _⟩ <;> rfl

theorem Settled.everywhere_due_iff {built : Built} (h : built.Settled)
    (P : Node → Forest Node → Prop) : built.due.Everywhere P ↔
      (built.tree.below Tree.rootId).Tops fun n c =>
        n.marks.ready = true → P n c ∧ c.Everywhere P := by
  rw [due, everywhere_filterRoots]
  refine h.statements.congr fun n c hn => ?_
  rw [Node.stands, hn.unevaluated, Bool.false_or]

theorem Settled.evaluable_iff {built : Built} (h : built.Settled) :
    (built.due.Everywhere fun n _ => n.marks.evaluated = false ∧ n.marks.ready = true) ↔
      (built.tree.below Tree.rootId).Tops fun n c =>
        n.marks.ready = true → ∀ m ∈ c.roots, m.marks.ready = true := by
  rw [h.everywhere_due_iff]
  refine h.statements.congr fun n c hn => imp_congr_right fun hready => ?_
  have hbelow := hn.operands hready
  rw [← tops_iff_roots (fun m : Node => m.marks.ready = true), everywhere_iff_tops]
  constructor
  · exact fun hall => hall.2.imp fun m e hm => hm.1.2
  · intro hops
    refine ⟨⟨hn.unevaluated, hready⟩, (hbelow.and hops).imp ?_⟩
    rintro m e ⟨⟨hun, he⟩, hm⟩
    exact ⟨⟨hun, hm⟩, he.imp fun k d hk => ⟨by rw [hk.marks], hk.ready⟩⟩

end Built

theorem Tree.tops_below_iff {t : Tree} (hn : t.ids.Nodup) (id : NodeId)
    (P : Node → Forest Node → Prop) :
    (t.below id).Tops P ↔ ∀ n ∈ (t.below id).roots, P n (t.below n.id) := by
  have hbelow : ∀ left n c right, t.below id = left ++ .node n c right → t.below n.id = c := by
    intro left n c right h
    rw [below, below_of_split hn h]
  rw [tops_iff_split]
  constructor
  · intro h n hm
    obtain ⟨left, c, right, he⟩ := exists_append_of_mem_roots hm
    rw [hbelow left n c right he]
    exact h left n c right he
  · intro h left n c right he
    have hp := h n (by simp [he])
    rw [hbelow left n c right he] at hp
    exact hp

/-! ## When a run succeeds -/

theorem Built.Settled.result_eq_ok_iff {built : Built} (h : built.Settled) {ev : Evaluator σ}
    (hev : ev.Accepts) (s : σ) : (built.tree.evaluateProgram ev s).result = .ok () ↔
      ∀ n ∈ (built.tree.below Tree.rootId).roots, n.marks.ready = true →
        ∀ m ∈ (built.tree.below n.id).roots, m.marks.ready = true := by
  rw [h.result, Tree.evaluateForest_eq_ok_iff hev, h.evaluable_iff,
    Tree.tops_below_iff h.wellFormed.nodup]

/-- A run over a program succeeds exactly when no statement that is ready has an operand that is not.
There is none without a warning, and a run that fails does so at such an operand. -/
theorem evaluateProgram_of_build {ev : Evaluator σ} (hev : ev.Accepts) (s : σ) {sourceId : String}
    {recovers : Bool} {tokens : List Token} {built : Built}
    (h : build sourceId recovers tokens = .ok built) :
    ((built.tree.evaluateProgram ev s).result = .ok () ↔
      ∀ n ∈ (built.tree.below Tree.rootId).roots, n.marks.ready = true →
        ∀ m ∈ (built.tree.below n.id).roots, m.marks.ready = true) ∧
    (built.report = [] → (built.tree.evaluateProgram ev s).result = .ok ()) ∧
    ∀ e, (built.tree.evaluateProgram ev s).result = .error e →
      ∃ node, e = .stage (.evaluateBeforeSetup node) := by
  have hb := settled_of_build h
  refine ⟨hb.result_eq_ok_iff hev s, ?_, ?_⟩
  · intro hreport
    rw [hb.result, Tree.evaluateForest_eq_ok_iff hev, hb.everywhere_due_iff]
    refine (hb.clean hreport).imp fun n c hn hready => ?_
    refine ⟨⟨hn.unevaluated, hready⟩, hn.below.imp fun m e hm => ⟨by rw [hm.marks], hm.ready⟩⟩
  · intro e he
    rw [hb.result] at he
    refine Tree.evaluateForest_error hev ?_ he
    rw [hb.everywhere_due_iff]
    refine hb.statements.imp fun n c hn hready => ⟨hn.unevaluated, ?_⟩
    rw [everywhere_iff_tops]
    exact (hn.operands hready).imp fun m e hm => ⟨hm.1, hm.2.imp fun k d hk => by rw [hk.marks]⟩

/-- The damaged expression is left out with the command it stands in; the run goes on. -/
theorem evaluateProgram_after_recovery :
    let tokens : List Token := [.bare "[", .valued "cmd" "a", .bare "]", .bare "[", .bare "\x7b",
      .bare "exp", .bare "\x7d", .bare "]"]
    ∃ built, build "" true tokens = .ok built ∧ built.report ≠ [] ∧
      (built.tree.evaluateProgram .idle ()).result = .ok () := by
  intro tokens
  obtain ⟨built, h⟩ : ∃ built, build "" true tokens = .ok built := ⟨_, rfl⟩
  refine ⟨built, h, ?_, (evaluateProgram_of_build Evaluator.accepts_idle () h).1.mpr ?_⟩
  · cases h
    decide
  · cases h
    decide

/-- A group puts an operator that is ready in front of an expression without operands, which cannot
be set up: the statement is ready and its operand is not. -/
theorem evaluateProgram_unready_operand :
    ¬∀ tokens built, build "" true tokens = .ok built →
      (built.tree.evaluateProgram .idle ()).result = .ok () := by
  intro h
  have hrun := h [.bare "(", .bare "(", .bare "PLUS", .bare ")", .bare "exp", .bare ")"] _ rfl
  have hstop : ∀ x : Except TreeError Unit,
      x = .error (.stage (.evaluateBeforeSetup "exp")) → x ≠ .ok () := by
    rintro x rfl hx
    cases hx
  exact hstop _ rfl hrun

/-! ## What a run leaves out -/

/-- The node `n` was not evaluated. -/
def Evaluation.leaves (after : Evaluation σ) (n : Node) : Bool :=
  (after.tree.get? n.id).any fun m => !m.marks.evaluated

theorem Built.Settled.get?_after {built : Built} (h : built.Settled) (ev : Evaluator σ) (s : σ) :
    ∃ ids rest, built.due.postorder.map Node.id = ids ++ rest ∧
      (∀ n ∈ (built.tree.below Tree.rootId).preorder,
        (built.tree.evaluateProgram ev s).tree.get? n.id =
          some (if n.id ∈ ids then n.markEvaluated else n)) ∧
      ((built.tree.evaluateProgram ev s).result = .ok () → rest = []) := by
  obtain ⟨ids, rest, hids, htree, hall⟩ :=
    Tree.evaluateForest_marks ev built.due built.tree s
  refine ⟨ids, rest, hids, ?_, fun hok => hall (h.result ev s ▸ hok)⟩
  intro n hn
  have hmarked : (built.tree.markAll ids).get? n.id =
      some (if n.id ∈ ids then n.markEvaluated else n) := by
    rw [Tree.get?_markAll, Tree.get?_of_mem h.wellFormed.nodup (Tree.mem_of_mem_below hn)]
    rfl
  have hroot := Tree.id_ne_of_mem_below h.wellFormed.nodup hn
  rw [h.evaluateProgram]
  generalize Tree.evaluateForest ev false built.due built.tree s = r at htree
  obtain ⟨t, s', e | _⟩ := r
  · rw [show t = built.tree.markAll ids from htree]
    exact hmarked
  · rw [show t = built.tree.markAll ids from htree]
    dsimp only
    rw [Tree.get?_modify (f := .markEvaluated) (fun _ => rfl), hmarked, Option.map_some]
    have hid : (if n.id ∈ ids then n.markEvaluated else n).id ≠ Tree.rootId := by
      split <;> exact hroot
    rw [if_neg hid]

section Leaves
variable {built : Built} {n : Node} {ev : Evaluator σ} {s : σ}

theorem Built.not_mem_due (hn : built.tree.ids.Nodup) {left c right : Forest Node} {m : Node}
    (h : built.tree.below Tree.rootId = left ++ .node n c right) (hs : n.stands = false)
    (hm : m ∈ (Forest.node n c .nil).preorder) : m.id ∉ built.due.postorder.map Node.id := by
  have hnodup := (Tree.nodup_below hn Tree.rootId).of_cons
  have hperm := ((postorder_perm built.due).map Node.id).mem_iff (a := m.id)
  rw [hperm, Built.due, h]
  rw [h] at hnodup
  exact not_mem_filterRoots hnodup hs hm

/-- A run changes no statement but those that it stands at. -/
theorem Built.Settled.get?_of_not_due (h : built.Settled)
    (hn : n ∈ (built.tree.below Tree.rootId).preorder)
    (hnot : n.id ∉ built.due.postorder.map Node.id) :
    (built.tree.evaluateProgram ev s).tree.get? n.id = some n := by
  obtain ⟨ids, rest, hids, hget, -⟩ := h.get?_after ev s
  rw [hget n hn, if_neg fun hm => hnot (hids ▸ List.mem_append_left _ hm)]

theorem Built.Settled.leaves_of_unready (h : built.Settled)
    (hn : n ∈ (built.tree.below Tree.rootId).roots) (hun : n.marks.evaluated = false)
    (hr : n.marks.ready = false) : (built.tree.evaluateProgram ev s).leaves n = true := by
  have hstands : n.stands = false := by rw [Node.stands, hun, hr]; rfl
  obtain ⟨left, c, right, he⟩ := exists_append_of_mem_roots hn
  have hnot := Built.not_mem_due h.wellFormed.nodup he hstands (m := n) (by simp)
  rw [Evaluation.leaves, h.get?_of_not_due (mem_preorder_of_mem_roots hn) hnot, Option.any_some, hun]
  rfl

theorem Built.Settled.leaves_of_ready (h : built.Settled)
    (hn : n ∈ (built.tree.below Tree.rootId).roots) (hr : n.marks.ready = true)
    (hok : (built.tree.evaluateProgram ev s).result = .ok ()) :
    (built.tree.evaluateProgram ev s).leaves n = false := by
  obtain ⟨ids, rest, hids, hget, hall⟩ := h.get?_after ev s
  rw [hall hok, List.append_nil] at hids
  have hdue : n ∈ built.due.roots := by
    rw [Built.due, roots_filterRoots, List.mem_filter]
    exact ⟨hn, by rw [Node.stands, hr, Bool.or_true]⟩
  have hmem : n.id ∈ ids := by
    rw [← hids]
    exact List.mem_map_of_mem ((mem_postorder_iff _ n).mpr (mem_preorder_of_mem_roots hdue))
  rw [Evaluation.leaves, hget n (mem_preorder_of_mem_roots hn), if_pos hmem]
  rfl

end Leaves

namespace Tree

/-- The warning that evaluation will leave out the node `n`. -/
def skipWarning (t : Tree) (sourceId : String) (n : Node) : Diagnostic :=
  ⟨.warn, sourceId, none, s!"顶层语句 {n.label} 未完成 setup，求值时将跳过", some (t.print n.id)⟩

theorem analysis_eq (t : Tree) (sourceId : String) : t.analysis sourceId =
    ((t.below rootId).roots.filter fun n => !n.marks.setup).map (t.skipWarning sourceId) := by
  rw [analysis]
  induction (t.below rootId).roots with
  | nil => rfl
  | cons n rest ih =>
    rw [List.filterMap_cons, List.filter_cons]
    cases n.marks.setup
    · exact congrArg _ ih
    · exact ih

end Tree

/-- The statements warned of are left out by every run; a run that succeeds leaves out these and the
statements that their own analysis refused, which nobody was warned of. -/
theorem analysis_of_build {sourceId : String} {recovers : Bool} {tokens : List Token} {built : Built}
    (h : build sourceId recovers tokens = .ok built) (ev : Evaluator σ) (s : σ) (source : String) :
    ∃ warned, warned.Sublist (built.tree.below Tree.rootId).roots ∧
      built.tree.analysis source = warned.map (built.tree.skipWarning source) ∧
      (∀ n ∈ warned, (built.tree.evaluateProgram ev s).leaves n = true) ∧
      ((built.tree.evaluateProgram ev s).result = .ok () →
        warned = (built.tree.below Tree.rootId).roots.filter fun n =>
          (built.tree.evaluateProgram ev s).leaves n && !n.misfit (built.tree.below n.id)) := by
  have hb := settled_of_build h
  have hstatement := (Tree.tops_below_iff hb.wellFormed.nodup _ _).mp hb.statements
  refine ⟨_, List.filter_sublist, built.tree.analysis_eq source, ?_, ?_⟩
  · intro n hn
    obtain ⟨hroot, hsetup⟩ := List.mem_filter.mp hn
    refine hb.leaves_of_unready hroot (hstatement n hroot).unevaluated ?_
    rw [Marks.ready]
    simp [show n.marks.setup = false by simpa using hsetup]
  · intro hok
    apply List.filter_congr
    intro n hn
    have hs := hstatement n hn
    have hready := Node.ready_iff_of_inOrder hs.inOrder
    have hmisfit := hs.misfit_iff
    cases hr : n.marks.ready with
    | true =>
      rw [hb.leaves_of_ready hn hr hok, (hready.mp hr).1]
      rfl
    | false =>
      rw [hb.leaves_of_unready hn hs.unevaluated hr, Bool.true_and]
      rw [hr] at hready
      cases hset : n.marks.setup <;> cases hana : n.marks.analyzed <;> simp_all

/-- A command is evaluated; an expression without operands is left out with a warning, and a creation
that its own analysis refused is left out without one. -/
theorem analysis_after_recovery :
    let tokens : List Token := [.bare "[", .valued "cmd" "a", .bare "]", .bare "(", .bare "exp",
      .bare ")", .bare "(", .bare "new", .valued "ID" "a", .bare ")"]
    ∃ built, build "" true tokens = .ok built ∧
      (built.tree.evaluateProgram .idle ()).result = .ok () ∧
      built.tree.analysis "" = ((built.tree.below Tree.rootId).roots.filter fun n =>
        (built.tree.evaluateProgram .idle ()).leaves n && !n.misfit (built.tree.below n.id)).map
          (built.tree.skipWarning "") ∧
      (built.tree.analysis "").length = 1 := by
  intro tokens
  obtain ⟨built, h⟩ : ∃ built, build "" true tokens = .ok built := ⟨_, rfl⟩
  have hok : (built.tree.evaluateProgram .idle ()).result = .ok () := by
    cases h
    rfl
  obtain ⟨warned, -, hwarned, -, hall⟩ := analysis_of_build h .idle () ""
  refine ⟨built, h, hok, by rw [hwarned, hall hok], ?_⟩
  cases h
  decide

/-- A creation over something that is no initialiser is set up and not ready. -/
theorem analysis_misfit :
    ¬∀ tokens built, build "" true tokens = .ok built →
      built.tree.analysis "" = ((built.tree.below Tree.rootId).roots.filter
        (built.tree.evaluateProgram .idle ()).leaves).map (built.tree.skipWarning "") := by
  intro h
  have hwarn := h [.bare "(", .bare "new", .valued "ID" "a", .bare ")"] _ rfl
  have hlength := congrArg List.length hwarn
  revert hlength
  decide

end BracketTree
