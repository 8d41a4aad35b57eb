import BracketTree.Builder
import BracketTree.Proofs.Tree.Insert

/-! The number of open brackets. A builder that recovers keeps it in two parts, the depth of the
focus and the brackets of a damaged statement still to be passed over; their sum is what the tokens
taken so far leave open. -/

namespace BracketTree
open Forest
set_option autoImplicit false

namespace Token

def brace? (t : Token) : Option Brace := (Kind.ofTag? t.name).bind Kind.brace?

def opens (t : Token) : Bool := t.brace?.any Brace.isOpening

def closes (t : Token) : Bool := t.brace?.any fun b => !b.isOpening

theorem brace?_of_item {t : Token} {item : Item} (h : Item.ofToken? t = .ok item) :
    t.brace? = item.kind.brace? := by
  rw [Item.ofToken?] at h
  cases hk : Kind.ofTag? t.name with
  | none => simp [hk] at h
  | some kind =>
    simp only [hk, Except.ok.injEq] at h
    simp [brace?, hk, ← h, Item.ofToken]

theorem count_of_none {t : Token} (h : t.brace? = none) :
    [t].countP opens = 0 ∧ [t].countP closes = 0 := by
  simp [opens, closes, h]

theorem count_of_opening {t : Token} {b : Brace} (h : t.brace? = some b) (hb : b.isOpening = true) :
    [t].countP opens = 1 ∧ [t].countP closes = 0 := by
  simp [opens, closes, h, hb]

theorem count_of_closing {t : Token} {b : Brace} (h : t.brace? = some b)
    (hb : b.isOpening = false) : [t].countP opens = 0 ∧ [t].countP closes = 1 := by
  simp [opens, closes, h, hb]

end Token

namespace Tree

def depth (t : Tree) (id : NodeId) : Nat := (t.lineage id).tail.length

section Spine
variable {t : Tree} {fr up : Frame Node} {outer : List (Frame Node)} {c : Forest Node}

theorem depth_focus (hn : t.ids.Nodup) (h : t.nodes = plug (fr :: outer) c) :
    t.depth fr.node.id = outer.length := by
  rw [depth, lineage_focus hn h]
  simp

theorem idxOf?_lineage {skipped rest : List (Frame Node)} {block : Frame Node} (hn : t.ids.Nodup)
    (h : t.nodes = plug (fr :: outer) c) (hs : outer = skipped ++ block :: rest) :
    ((t.lineage fr.node.id).map Node.id).idxOf? block.node.id = some (skipped.length + 1) := by
  have hnodup := spine_nodup hn h
  subst hs
  have hids : (t.lineage fr.node.id).map Node.id =
      (fr :: skipped).map (fun f => f.node.id) ++
        block.node.id :: rest.map (fun f => f.node.id) := by
    rw [lineage_focus hn h]
    simp [Function.comp_def]
  have hnot : block.node.id ∉ (fr :: skipped).map fun f => f.node.id := by
    rw [← List.cons_append, List.map_append, List.nodup_append] at hnodup
    intro hm
    exact hnodup.2.2 _ hm _ (by simp) rfl
  rw [hids, List.idxOf?, List.findIdx?_append, List.findIdx?_eq_none_iff.mpr]
  · simp [List.findIdx?_cons]
  · intro id hm
    exact beq_false_of_ne fun he => hnot (he ▸ hm)

end Spine

end Tree

namespace Builder

/-- Brackets that are open, around the focus or in a damaged statement. -/
def level (b : Builder) : Nat := b.tree.depth b.focus + b.pending

structure Focused (b : Builder) : Prop where
  wellFormed : b.tree.WellFormed
  live : b.tree.contains b.focus = true

theorem focused_start (sourceId : String) (recovers : Bool) : (start sourceId recovers).Focused :=
  ⟨Tree.wellFormed_start, rfl⟩

theorem Focused.exists_spine {b : Builder} (h : b.Focused) :
    ∃ fr outer c, b.tree.nodes = plug (fr :: outer) c ∧ fr.node.id = b.focus := by
  obtain ⟨n, hn⟩ := Option.isSome_iff_exists.mp h.live
  obtain ⟨left, right, outer, c, he, hid⟩ := Tree.exists_spine_of_get? hn
  exact ⟨⟨left, n, right⟩, outer, c, he, hid⟩

section Spine
variable {b : Builder} {fr : Frame Node} {outer : List (Frame Node)} {c : Forest Node}

theorem focused_of_spine (hw : b.tree.WellFormed) (h : b.tree.nodes = plug (fr :: outer) c)
    (hid : fr.node.id = b.focus) : b.Focused := by
  refine ⟨hw, ?_⟩
  rw [← hid, Tree.contains, Tree.get?_focus hw.nodup h]
  rfl

theorem level_focus (hw : b.tree.WellFormed) (h : b.tree.nodes = plug (fr :: outer) c)
    (hid : fr.node.id = b.focus) : b.level = outer.length + b.pending := by
  rw [level, ← hid, Tree.depth_focus hw.nodup h]

end Spine

/-- A token that is taken changes the number of open brackets by its own bracket, and one that is
refused does not change it. -/
structure Kept (b : Builder) (token : Token) (r : Builder × Except TreeError Unit) : Prop where
  recovers : r.1.recovers = true
  focused : r.1.Focused
  taken : r.2 = .ok () →
    r.1.level + [token].countP Token.closes = b.level + [token].countP Token.opens
  refused : ∀ e, r.2 = .error e → r.1.level = b.level

theorem kept_ok {b b' : Builder} {token : Token} (hr : b'.recovers = true) (hf : b'.Focused)
    (h : b'.level + [token].countP Token.closes = b.level + [token].countP Token.opens) :
    Kept b token (b', .ok ()) := by
  refine ⟨hr, hf, fun _ => h, ?_⟩
  intro e he
  cases he

theorem kept_error {b b' : Builder} {token : Token} {e : TreeError} (hr : b'.recovers = true)
    (hf : b'.Focused) (h : b'.level = b.level) : Kept b token (b', .error e) := by
  refine ⟨hr, hf, ?_, fun _ _ => h⟩
  intro he
  cases he

theorem discard_kept {b : Builder} (hr : b.recovers = true) (hf : b.Focused) (hp : 0 < b.pending)
    {token : Token} {item : Item} (hbrace : token.brace? = item.kind.brace?) :
    Kept b token ({ b with fed := b.fed + 1 }.discard item, .ok ()) := by
  rw [discard]
  cases hb : item.kind.brace? with
  | none =>
    have hcount := Token.count_of_none (hbrace.trans hb)
    refine kept_ok hr ⟨hf.wellFormed, hf.live⟩ ?_
    dsimp only [level]
    omega
  | some brace =>
    cases ho : brace.isOpening with
    | true =>
      have hcount := Token.count_of_opening (hbrace.trans hb) ho
      refine kept_ok hr ⟨hf.wellFormed, hf.live⟩ ?_
      dsimp only [level]
      rw [if_pos ho]
      omega
    | false =>
      have hcount := Token.count_of_closing (hbrace.trans hb) ho
      refine kept_ok hr ⟨hf.wellFormed, hf.live⟩ ?_
      dsimp only [level]
      rw [if_neg (by simp [ho])]
      omega

theorem feed_kept {b : Builder} (hr : b.recovers = true) (hf : b.Focused) (token : Token) :
    Kept b token (b.feed token) := by
  rw [feed]
  cases hi : Item.ofToken? token with
  | error e => exact kept_error hr ⟨hf.wellFormed, hf.live⟩ rfl
  | ok item =>
    have hbrace := Token.brace?_of_item hi
    dsimp only
    split
    · next hp => exact discard_kept hr hf hp hbrace
    · next hp =>
      obtain ⟨fr, outer, c, h, hid⟩ := hf.exists_spine
      have hlevel := level_focus hf.wellFormed h hid
      have hins := Tree.insert_focus hf.wellFormed h item
      have hwu := (Tree.insert_edits b.tree fr.node.id item).wellFormed hf.wellFormed
      rw [← hid]
      generalize b.tree.insert fr.node.id item = r at hins hwu ⊢
      cases hins with
      | stay hb hu =>
        have hcount := Token.count_of_none (hbrace.trans hb)
        refine kept_ok hr (focused_of_spine hwu hu rfl) ?_
        rw [level_focus hwu hu rfl]
        dsimp only
        omega
      | descend hb ho hu =>
        have hcount := Token.count_of_opening (hbrace.trans hb) ho
        refine kept_ok hr (focused_of_spine hwu hu rfl) ?_
        rw [level_focus hwu hu rfl, List.length_cons]
        dsimp only
        omega
      | ascend hb hc hs hu =>
        have hcount := Token.count_of_closing (hbrace.trans hb) hc
        refine kept_ok hr (focused_of_spine hwu hu rfl) ?_
        rw [level_focus hwu hu rfl]
        rw [hs, List.length_cons] at hlevel
        dsimp only
        omega
      | resume hb hc hs hu =>
        -- the levels between the closed bracket and the one where work goes on are still open
        have hcount := Token.count_of_closing (hbrace.trans hb) hc
        have hpos := Tree.idxOf?_lineage hf.wellFormed.nodup h hs
        dsimp only [resume]
        rw [if_pos hr, hpos]
        refine kept_ok hr (focused_of_spine hwu hu rfl) ?_
        rw [level_focus hwu hu rfl]
        rw [hs, List.length_append, List.length_cons] at hlevel
        dsimp only [Option.elim_some]
        omega
      | refuse _ _ =>
        refine kept_error hr (focused_of_spine hwu h rfl) ?_
        rw [hlevel]
        exact level_focus hwu h rfl

/-- Feeds tokens in order and goes on after every failure; gives the tokens that were taken. -/
def feedEach (b : Builder) : List Token → Builder × List Token
  | [] => (b, [])
  | token :: rest =>
    match b.feed token with
    | (b, .error _) => b.feedEach rest
    | (b, .ok ()) => ((b.feedEach rest).1, token :: (b.feedEach rest).2)

theorem feedEach_level {b : Builder} (hr : b.recovers = true) (hf : b.Focused)
    (tokens : List Token) : (b.feedEach tokens).1.Focused ∧
      (b.feedEach tokens).1.level + (b.feedEach tokens).2.countP Token.closes =
        b.level + (b.feedEach tokens).2.countP Token.opens := by
  induction tokens generalizing b with
  | nil => exact ⟨hf, rfl⟩
  | cons token rest ih =>
    have hstep := feed_kept hr hf token
    rw [feedEach]
    rcases hfeed : b.feed token with ⟨b', e | _⟩
    · rw [hfeed] at hstep
      have hlevel : b'.level = b.level := hstep.refused e rfl
      rw [← hlevel]
      exact ih hstep.recovers hstep.focused
    · rw [hfeed] at hstep
      have hlevel := hstep.taken rfl
      obtain ⟨hf', hrest⟩ := ih hstep.recovers hstep.focused
      refine ⟨hf', ?_⟩
      dsimp only at hlevel hrest ⊢
      rw [← List.singleton_append, List.countP_append, List.countP_append]
      omega

theorem Focused.focus_eq_rootId_iff {b : Builder} (hf : b.Focused) :
    b.focus = Tree.rootId ↔ b.tree.depth b.focus = 0 := by
  obtain ⟨fr, outer, c, h, hid⟩ := hf.exists_spine
  rw [← hid, Tree.depth_focus hf.wellFormed.nodup h, hf.wellFormed.id_eq_rootId_iff h,
    List.length_eq_zero_iff]

theorem Focused.finish_eq_ok_iff {b : Builder} (hf : b.Focused) :
    (∃ r, b.finish = .ok r) ↔ b.level = 0 := by
  rw [level, Nat.add_eq_zero_iff, ← hf.focus_eq_rootId_iff, finish]
  split
  · next h => exact ⟨fun _ => h, fun _ => ⟨_, rfl⟩⟩
  · next h =>
    constructor
    · rintro ⟨r, hr⟩
      cases hr
    · exact fun h' => absurd h' h

theorem finish_eq_unclosed {b : Builder} (h : ¬∃ r, b.finish = .ok r) :
    ∃ name, b.finish = .error (.shape (.unclosed name)) := by
  rw [finish] at h ⊢
  split at h
  · exact absurd ⟨_, rfl⟩ h
  · next hne => exact ⟨_, if_neg hne⟩

theorem Focused.finish_of_count {b : Builder} (hf : b.Focused) {opened closed : Nat}
    (h : b.level + closed = opened) :
    ((b.tree.depth b.focus + b.pending : Nat) : Int) = opened - closed ∧
      ((∃ r, b.finish = .ok r) ↔ opened = closed) ∧
      (opened ≠ closed → ∃ name, b.finish = .error (.shape (.unclosed name))) := by
  have hok : (∃ r, b.finish = .ok r) ↔ opened = closed := by
    rw [hf.finish_eq_ok_iff]
    omega
  refine ⟨?_, hok, ?_⟩
  · rw [level] at h
    omega
  · intro hne
    exact finish_eq_unclosed fun hr => hne (hok.mp hr)

/-- At every moment the brackets that the tokens taken so far leave open are counted right, and an
input is finished exactly when there are none. -/
theorem depth_add_pending (sourceId : String) (tokens : List Token) :
    let b := ((start sourceId true).feedEach tokens).1
    let taken := ((start sourceId true).feedEach tokens).2
    ((b.tree.depth b.focus + b.pending : Nat) : Int) =
        taken.countP Token.opens - taken.countP Token.closes ∧
      ((∃ r, b.finish = .ok r) ↔ taken.countP Token.opens = taken.countP Token.closes) ∧
      (taken.countP Token.opens ≠ taken.countP Token.closes →
        ∃ name, b.finish = .error (.shape (.unclosed name))) := by
  obtain ⟨hf, hlevel⟩ := feedEach_level rfl (focused_start sourceId true) tokens
  have hzero : (start sourceId true).level = 0 := rfl
  rw [hzero, Nat.zero_add] at hlevel
  exact hf.finish_of_count hlevel

/-- The inner bracket closes over a damaged statement; the outer one is still to be passed over. -/
theorem unclosed_after_recovery :
    let fed := (start "" true).feedEach [.bare "(", .bare "(", .bare "exp", .bare ")"]
    fed.1.focus = Tree.rootId ∧ fed.1.pending = 1 ∧
      fed.2.countP Token.opens ≠ fed.2.countP Token.closes ∧
      ∃ name, fed.1.finish = .error (.shape (.unclosed name)) := by
  intro fed
  have hne : fed.2.countP Token.opens ≠ fed.2.countP Token.closes := by decide
  exact ⟨by decide, by decide, hne, (depth_add_pending "" _).2.2 hne⟩

end Builder
end BracketTree
