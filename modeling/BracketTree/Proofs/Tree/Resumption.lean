import BracketTree.Proofs.Tree.Truncation

/-! Where work goes on after a failure. A live node is always recovered: the nearest block around it is
truncated at the child in which the node stands, and outside every block nothing changes and work goes
on at the root. -/

namespace BracketTree.Tree
open Forest
set_option autoImplicit false

/-- From the node `id` some steps to the parent lead to `outer`, at least one. -/
def IsAncestor (t : Tree) (outer id : NodeId) : Prop :=
  Relation.TransGen (fun a b => (t.parent? a).map Node.id = some b) id outer

/-- The block is around the node `id`, and inside all other blocks around that node. -/
structure NearestBlock (t : Tree) (block id : NodeId) : Prop where
  around : t.IsAncestor block id
  kind : ∃ n, t.get? block = some n ∧ n.kind = .block
  innermost : ∀ outer n, t.IsAncestor outer id → t.get? outer = some n → n.kind = .block →
    outer = block ∨ t.IsAncestor outer block

variable {t : Tree} {fr block : Frame Node} {outer rest : List (Frame Node)} {c kept left : Forest Node}
  {id : NodeId}

/-! ## Ancestors -/

theorem isAncestor_focus_iff (hn : t.ids.Nodup) (h : t.nodes = plug (fr :: outer) c) :
    t.IsAncestor id fr.node.id ↔ ∃ g ∈ outer, g.node.id = id := by
  induction outer generalizing fr c with
  | nil =>
    rw [IsAncestor, Relation.TransGen.head'_iff, parent?_focus hn h]
    simp
  | cons up outer ih =>
    have hup : t.nodes = plug (up :: outer) (fr.left ++ .node fr.node c fr.right) := h
    have hin := ih hup
    rw [IsAncestor] at hin ⊢
    rw [Relation.TransGen.head'_iff, parent?_focus hn h]
    simp only [List.head?_cons, Option.map_some, Option.some.injEq, exists_eq_left',
      Relation.reflTransGen_iff_eq_or_transGen, hin, List.mem_cons, exists_eq_or_imp]
    exact or_congr_left eq_comm

theorem get?_of_mem_spine (hn : t.ids.Nodup) (h : t.nodes = plug (fr :: outer) c) {g : Frame Node}
    (hg : g ∈ outer) : t.get? g.node.id = some g.node := by
  apply get?_of_mem hn
  rw [h]
  exact mem_preorder_plug (List.mem_cons_of_mem _ hg) c

/-! ## The nearest block -/

theorem kind_ne_of_nearestBlock_eq_none (h : nearestBlock left outer = none) :
    ∀ g ∈ outer, g.node.kind ≠ .block := by
  induction outer generalizing left with
  | nil => simp
  | cons up outer ih =>
    rw [nearestBlock] at h
    split at h
    · cases h
    · next hb => exact List.forall_mem_cons.mpr ⟨fun hk => hb ((Kind.isBlock_iff _).mpr hk), ih h⟩

/-- The levels between the innermost one and the nearest block are no blocks, and the last of them, which
stands in the block, has to its left what the block keeps. -/
theorem exists_cut_of_nearestBlock (fr : Frame Node)
    (h : nearestBlock fr.left outer = some (kept, block, rest)) :
    ∃ skipped inner cut, outer = skipped ++ block :: rest ∧ (∀ g ∈ skipped, g.node.kind ≠ .block) ∧
      fr :: skipped = inner ++ [cut] ∧ cut.left = kept := by
  induction outer generalizing fr with
  | nil => cases h
  | cons up outer ih =>
    rw [nearestBlock] at h
    split at h
    · cases h
      exact ⟨[], [], fr, rfl, by simp, rfl, rfl⟩
    · next hb =>
      obtain ⟨skipped, inner, cut, rfl, hno, hcut, hkept⟩ := ih up h
      have hup : up.node.kind ≠ .block := fun hk => hb ((Kind.isBlock_iff _).mpr hk)
      exact ⟨up :: skipped, fr :: inner, cut, rfl, List.forall_mem_cons.mpr ⟨hup, hno⟩,
        by rw [hcut]; rfl, hkept⟩

theorem nearestBlock_of_split {skipped : List (Frame Node)} (hn : t.ids.Nodup)
    (h : t.nodes = plug (fr :: (skipped ++ block :: rest)) c) (hkind : block.node.kind = .block)
    (hno : ∀ g ∈ skipped, g.node.kind ≠ .block) : t.NearestBlock block.node.id fr.node.id where
  around := (isAncestor_focus_iff hn h).mpr ⟨block, by simp, rfl⟩
  kind := ⟨block.node, get?_of_mem_spine hn h (by simp), hkind⟩
  innermost := by
    intro outer n hout hget hk
    obtain ⟨g, hg, rfl⟩ := (isAncestor_focus_iff hn h).mp hout
    obtain rfl : g.node = n := Option.some.inj ((get?_of_mem_spine hn h hg).symm.trans hget)
    rcases List.mem_append.mp hg with hskipped | hg
    · exact absurd hk (hno g hskipped)
    rcases List.mem_cons.mp hg with rfl | hrest
    · exact .inl rfl
    · have hblock : t.nodes = plug (block :: rest) (plug (fr :: skipped) c) := by
        rw [h, ← List.cons_append, plug_append]
      exact .inr ((isAncestor_focus_iff hn hblock).mpr ⟨g, hrest, rfl⟩)

/-! ## Recovery -/

/-- The failure at a live node is handed back together with the node at which work goes on. -/
theorem resumption_exact {t : Tree} (h : Reachable t) (e : TreeError) (id : NodeId) :
    (t.contains id = false →
      t.recover e id = (t, .fatal (.unrecoverable e (StageError.noSuchNode id).message))) ∧
    (t.contains id = true → ∃ u resumeAt, t.recover e id = (u, .recovered e resumeAt) ∧
      (t.NearestBlock resumeAt id ∧
        (∃ kept child later, id ∈ t.descendants child ∧
          Truncated t u resumeAt kept (child :: later)) ∨
      (∀ outer n, t.IsAncestor outer id → t.get? outer = some n → n.kind ≠ .block) ∧
        resumeAt = rootId ∧ u = t)) := by
  have hw := h.wellFormed
  refine ⟨fun hdead => ?_, fun hlive => ?_⟩
  · have hget : t.get? id = none := Option.isNone_iff_eq_none.mp (by simpa [contains] using hdead)
    rw [recover, lineage_eq_nil hget]
  obtain ⟨n, hget⟩ := Option.isSome_iff_exists.mp hlive
  obtain ⟨left, right, outer, c, hnodes, rfl⟩ := exists_spine_of_get? hget
  have hrec := recover_focus hw hnodes e
  dsimp only at hrec
  cases hb : nearestBlock left outer with
  | none =>
    refine ⟨t, rootId, by rw [hrec, hb], .inr ⟨fun a m ha hm hk => ?_, rfl, rfl⟩⟩
    obtain ⟨g, hg, rfl⟩ := (isAncestor_focus_iff hw.nodup hnodes).mp ha
    cases (get?_of_mem_spine hw.nodup hnodes hg).symm.trans hm
    exact kind_ne_of_nearestBlock_eq_none hb g hg hk
  | some r =>
    obtain ⟨kept, block, rest⟩ := r
    obtain ⟨skipped, inner, cut, rfl, hno, hcut, rfl⟩ :=
      exists_cut_of_nearestBlock ⟨left, n, right⟩ hb
    -- The node is the child that is cut off, or stands on one of the levels inside it.
    have hin : t.nodes = plug (cut :: block :: rest) (plug inner c) := by
      rw [hnodes, ← List.cons_append, hcut, List.append_assoc, plug_append]
      rfl
    have hmem : n.id ∈ t.descendants cut.node.id := by
      rw [descendants_focus hw.nodup hin]
      have hfr : ⟨left, n, right⟩ ∈ inner ++ [cut] := hcut ▸ List.mem_cons_self
      rcases List.mem_append.mp hfr with hinner | hself
      · exact List.mem_cons_of_mem _ (List.mem_map_of_mem (mem_preorder_plug hinner c))
      · rw [← List.mem_singleton.mp hself]
        exact List.mem_cons_self
    refine ⟨_, block.node.id, by rw [hrec, hb], .inl ⟨?_, _, _, _, hmem, truncated_of_plug hw hin⟩⟩
    exact nearestBlock_of_split hw.nodup hnodes (nearestBlock_eq_some hb).1 hno

/-- A fragment stands in a command, with a leaf before and after it, in the inner one of two blocks. The
inner block loses the command and the leaf after it; at the outer block nothing is lost. -/
theorem resumption_exact_in_blocks :
    let leaf : Item := ⟨.identifier, "ID", none⟩
    let block : Item := ⟨.block, "\x7b", none⟩
    let e : TreeError := .shape .emptyParens
    let t := ((((((start.insert 0 block).1.insert 1 block).1.insert 2 leaf).1.insert 2
      ⟨.command, "[", none⟩).1.insert 4 ⟨.fragment, "cmd", none⟩).1.insert 2 leaf).1
    Reachable t ∧ t.contains 5 = true ∧
      (∃ u, t.recover e 5 = (u, .recovered e 2) ∧ t.NearestBlock 2 5 ∧ 5 ∈ t.descendants 4 ∧
        Truncated t u 2 [3] [4, 6]) ∧
      t.recover e 1 = (t, .recovered e rootId) ∧
      t.recover e 9 = (t, .fatal (.unrecoverable e "节点 #9 不存在")) := by
  intro leaf block e t
  have h : Reachable t := .tail (.tail (.tail (.tail (.tail (.tail .refl (.insert 0 block))
    (.insert 1 block)) (.insert 2 leaf)) (.insert 2 _)) (.insert 4 _)) (.insert 2 leaf)
  have hblock : (t.recover e 5).2 = .recovered e 2 := by decide +kernel
  have hroot : (t.recover e 1).2 = .recovered e rootId := by decide +kernel
  refine ⟨h, by decide +kernel, ?_, ?_, (resumption_exact h e 9).1 (by decide +kernel)⟩
  · obtain ⟨u, r, hu, hcase⟩ := (resumption_exact h e 5).2 (by decide +kernel)
    rw [hu] at hblock
    cases hblock
    rcases hcase with ⟨hnear, kept, child, later, hmem, htr⟩ | ⟨-, hr, -⟩
    · have hchildren : t.children 2 = [3, 4, 6] := by decide +kernel
      have hsplit : [3, 4, 6] = kept ++ child :: later := hchildren.symm.trans htr.before
      have hchild : ∀ c ∈ [3, 4, 6], 5 ∈ t.descendants c → c = 4 := by decide +kernel
      obtain rfl := hchild child (by simp [hsplit]) hmem
      obtain ⟨rfl, rfl⟩ : kept = [3] ∧ later = [6] := by
        rcases kept with _ | ⟨a, _ | ⟨b, _ | ⟨c, kept⟩⟩⟩ <;> simp_all
      exact ⟨u, hu, hnear, hmem, htr⟩
    · exact absurd hr (by decide +kernel)
  · obtain ⟨u, r, hu, hcase⟩ := (resumption_exact h e 1).2 (by decide +kernel)
    rw [hu] at hroot
    cases hroot
    rcases hcase with ⟨hnear, -⟩ | ⟨-, -, hsame⟩
    · obtain ⟨n, hn, hk⟩ := hnear.kind
      have hkind : (t.get? rootId).map (fun n => n.kind) = some .root := by decide +kernel
      rw [hn, Option.map_some, hk] at hkind
      cases hkind
    · rw [hu, hsame]

end BracketTree.Tree
