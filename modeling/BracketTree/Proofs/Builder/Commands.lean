import BracketTree.Proofs.Builder.Locality
import BracketTree.Proofs.Builder.Trace

/-! Programs that are lists of commands. Every command leaves one node under the root. It is finished
and evaluated in its place, unless a failure inside it made work go on at the root: then it is left as
it is. -/

namespace BracketTree
open Forest
set_option autoImplicit false

namespace Token

/-- A square bracket up to the bracket that closes it. -/
inductive Command : List Token → Prop where
  | mk {t close : Token} {closing : Brace} {inner : List Token} : t.name = "[" →
      close.brace? = some closing → closing.isOpening = false → Nested inner →
      Command (t :: (inner ++ [close]))

end Token

namespace Node

/-- What a command is in the end: finished, or given up while its bracket was open or was closing. -/
def Outcome (n : Node) (below : Forest Node) (fallen : Bool) : Prop :=
  if fallen then n.Entered else n.Complete below ∧ below.Everywhere Complete

theorem attempt_id (n : Node) (c : Forest Node) : (n.attempt c).1.id = n.id := by
  rcases n.attempt_eq c with h | h | h <;> rw [h] <;> rfl

theorem attemptWith_id (n : Node) (c : Forest Node) : (n.attemptWith c).1.1.id = n.id := by
  rw [attemptWith]
  rcases attemptAll c with ⟨d, x | _⟩
  · rfl
  · exact attempt_id n d

/-- The setup of a command fails only if something in it fails. -/
theorem Awaits.outcome {n m : Node} {c d : Forest Node} {x : Except TreeError Unit} (h : n.Awaits)
    (hc : c.Tops Operand) (ha : n.attemptWith c = ((m, d), x)) : m.Outcome d !x.isOk := by
  obtain ⟨b, hb⟩ := h.bracket
  cases x with
  | ok =>
    obtain ⟨-, -, hm, -⟩ := (attemptWith_eq_ok_iff n m c d).mp ha
    cases Closing.operand (.inl h) hc ha with
    | bare _ hnone =>
      rw [hm, settle_toItem, hb] at hnone
      cases hnone
    | complete hm hd => exact ⟨hm, hd⟩
  | error e =>
    rcases Closing.failed (.inl h) hc ha with ⟨rfl, -⟩ | ⟨-, hf⟩
    · exact h.entered
    · cases hf with
      | setup he _ => exact he
      | analysis _ hno =>
        rw [analysisCheck_of_brace hb] at hno
        cases hno

end Node

namespace Tree

theorem Yields.eq_of_not_grouping {n m : Node} {c d : Forest Node} {closing b : Brace}
    (h : Yields n c closing m d) (hb : n.kind.brace? = some b) (hg : b.isGrouping = false) :
    m = n ∧ d = c := by
  cases h with
  | keep _ _ _ => exact ⟨rfl, rfl⟩
  | elide ho _ hgroup _ =>
    cases hb.symm.trans ho
    rw [hg] at hgroup
    cases hgroup

end Tree

/-- A command that is closed stays where it is, and is set up there or not. -/
theorem Node.Awaits.outcome_of_yields {n k m : Node} {c d e : Forest Node} {closing : Brace}
    {x : Except TreeError Unit} (h : n.Awaits) (hc : c.Tops Operand) (hk : n.kind = .command)
    (hy : Tree.Yields n c closing k d) (ha : k.attemptWith d = ((m, e), x)) :
    m.id = n.id ∧ m.Outcome e !x.isOk := by
  have hb : n.kind.brace? = some ⟨.square, .opening⟩ := by
    rw [hk]
    rfl
  obtain ⟨rfl, rfl⟩ := hy.eq_of_not_grouping hb rfl
  have hid := attemptWith_id k d
  rw [ha] at hid
  exact ⟨hid, h.outcome hc ha⟩

namespace Builder
open BracketTree.Tree

/-- A failure at the token makes work go on at the root. -/
def falls (b : Builder) (token : Token) : Bool :=
  decide (b.report.length < (b.feed token).1.report.length ∧ (b.feed token).1.focus = rootId)

/-- During the tokens a failure makes work go on at the root. -/
def fallsBack (b : Builder) : List Token → Bool
  | [] => false
  | token :: rest => b.falls token || (b.feed token).1.fallsBack rest

/-- For each group of tokens the next id when it begins, and whether the builder falls back during the
group. -/
def entries (b : Builder) : List (List Token) → List (NodeId × Bool)
  | [] => []
  | group :: rest => (b.tree.nextId, b.fallsBack group) :: (b.feedAll group).1.entries rest

variable {b v : Builder} {token : Token} {tokens rest group : List Token} {r : Node}
  {c : Forest Node} {id : NodeId} {fallen : Bool}

theorem fallsBack_cons (h : b.feed token = (v, .ok ())) :
    b.fallsBack (token :: rest) = (b.falls token || v.fallsBack rest) := by
  rw [fallsBack, h]

theorem fallsBack_append (h : b.feedAll tokens = (v, .ok ())) :
    b.fallsBack (tokens ++ rest) = (b.fallsBack tokens || v.fallsBack rest) := by
  induction tokens generalizing b with
  | nil =>
    cases h
    rw [List.nil_append, fallsBack, Bool.false_or]
  | cons token tokens ih =>
    obtain ⟨w, hw, htokens⟩ := feedAll_cons_eq_ok_iff.mp h
    rw [List.cons_append, fallsBack_cons hw, fallsBack_cons hw, ih htokens, Bool.or_assoc]

/-! ## The number of open brackets, with recovery or without -/

/-- A token that is taken without recovery is taken with it, to the same effect. -/
theorem feed_recovering (h : b.feed token = (v, .ok ())) :
    { b with recovers := true }.feed token = ({ v with recovers := true }, .ok ()) := by
  cases hi : Item.ofToken? token with
  | error e =>
    rw [feed_of_unknown hi] at h
    cases h
  | ok item =>
    by_cases hp : 0 < b.pending
    · rw [feed_of_pending hi hp] at h
      cases h
      refine (feed_of_pending (b := { b with recovers := true }) hi hp).trans ?_
      rw [Builder.discard, Builder.discard]
      cases item.kind.brace? <;> rfl
    have hzero : b.pending = 0 := Nat.eq_zero_of_not_pos hp
    rcases hins : b.tree.insert b.focus item with ⟨u, (x | ⟨x, id⟩) | id⟩
    · rw [feed_of_refused hi hzero hins] at h
      cases h
    · cases hr : b.recovers with
      | false =>
        rw [feed_of_failed hi hzero hr hins] at h
        cases h
      | true =>
        rw [feed_of_recovered hi hzero hr hins] at h
        cases h
        exact feed_of_recovered (b := { b with recovers := true }) hi hzero rfl hins
    · rw [feed_of_accepted hi hzero hins] at h
      cases h
      exact feed_of_accepted (b := { b with recovers := true }) hi hzero hins

theorem Steady.level_of_feed (hs : b.Steady) (h : b.feed token = (v, .ok ())) :
    v.level + [token].countP Token.closes = b.level + [token].countP Token.opens := by
  have hs' : { b with recovers := true }.Steady := ⟨hs.wellFormed, hs.underway, hs.clean⟩
  have hlevel := hs'.level_feed rfl (feed_recovering h)
  exact hlevel

/-! ## Amid a command -/

theorem eq_root_of_level (hs : b.Steady) (h : b.level = 0) : b.focus = rootId ∧ b.pending = 0 := by
  rw [level, Nat.add_eq_zero_iff, ← hs.live.focus_eq_rootId_iff] at h
  exact h

theorem level_at_root (hs : b.Steady) (h : b.focus = rootId) : b.level = b.pending := by
  rw [level, hs.live.focus_eq_rootId_iff.mp h, Nat.zero_add]

theorem falls_eq (h : b.feed token = (v, .ok ())) :
    b.falls token = decide (b.report.length < v.report.length ∧ v.focus = rootId) := by
  rw [falls, h]

/-- The focus is in the command `n`, which stands under the root `r` after `c` and has the id `id`. -/
structure Inside (r : Node) (c : Forest Node) (id : NodeId) (b : Builder) (above : List (Frame Node))
    (cur : Frame Node) (outer : List (Frame Node)) (n : Node) (d : Forest Node) : Prop where
  spine : cur :: outer = above ++ [⟨c, n, .nil⟩, ⟨.nil, r, .nil⟩]
  nodes : b.tree.nodes = plug (cur :: outer) d
  focus : cur.node.id = b.focus
  id : n.id = id
  kind : n.kind = .command

/-- Where a builder can be between the first token of a command and its last. The flag says that the
command was given up. -/
inductive Halfway (r : Node) (c : Forest Node) (id : NodeId) (b : Builder) : Bool → Prop where
  | inside {above : List (Frame Node)} {cur : Frame Node} {outer : List (Frame Node)} {n : Node}
      {d : Forest Node} : Inside r c id b above cur outer n d → Halfway r c id b false
  | fallen {n : Node} {d : Forest Node} :
      b.tree.nodes = plug [⟨.nil, r, .nil⟩] (c ++ .node n d .nil) → b.focus = rootId → n.id = id →
      n.Entered → Halfway r c id b true

/-- The first token of a command. -/
theorem Steady.command_first (hs : b.Steady) (hnodes : b.tree.nodes = plug [⟨.nil, r, .nil⟩] c)
    (hroot : b.focus = rootId) (hzero : b.pending = 0) (ht : token.name = "[")
    (h : b.feed token = (v, .ok ())) :
    Halfway r c b.tree.nextId v false ∧ b.falls token = false ∧ v.level = 1 := by
  have hw := hs.wellFormed
  have hr : r.id = b.focus := ((hw.id_eq_rootId_iff hnodes).mpr rfl).trans hroot.symm
  have hi : Item.ofToken? token = .ok (.ofToken .command token) := by
    rw [Item.ofToken?, ht]
    rfl
  have hitem : ∀ b, (Item.ofToken .command token).kind.brace? = some b → b.isOpening = true := by
    rintro _ ⟨⟩
    rfl
  have hins : b.tree.insert b.focus (.ofToken .command token) =
      (b.tree.attach r (.ofToken .command token), .ok b.tree.nextId) := by
    have hget := get?_focus hw.nodup hnodes
    rw [← hr, Tree.insert, hget]
    rfl
  have hfeed := feed_of_accepted hi hzero hins
  have hv := (Prod.mk.inj (h.symm.trans hfeed)).1
  have hvnodes : v.tree.nodes = plug (⟨c, b.tree.entrant r (.ofToken .command token), .nil⟩ ::
      [⟨.nil, r, .nil⟩]) .nil := by
    rw [hv]
    exact attach_focus hw hnodes hitem
  have hfocus : b.tree.nextId = v.focus := by rw [hv]
  have hspine := (List.nil_append [(⟨c, b.tree.entrant r (.ofToken .command token), .nil⟩ : Frame Node),
    ⟨.nil, r, .nil⟩]).symm
  refine ⟨.inside ⟨hspine, hvnodes, hfocus, rfl, rfl⟩, ?_, ?_⟩
  · rw [falls_eq h, hv]
    simp
  · rw [level_focus (hs.of_feed h).wellFormed hvnodes hfocus, hv]
    simp [hzero]

/-- A token that is passed over leaves the builder where it is. -/
theorem Halfway.passed (h : Halfway r c id b fallen) (ht : v.tree = b.tree) (hf : v.focus = b.focus) :
    Halfway r c id v fallen := by
  cases h with
  | inside h => exact .inside ⟨h.spine, ht ▸ h.nodes, hf ▸ h.focus, h.id, h.kind⟩
  | fallen hnodes hroot hn he => exact .fallen (ht ▸ hnodes) (hf.trans hroot) hn he

section Inside
variable {above outer : List (Frame Node)} {cur : Frame Node} {n : Node} {d : Forest Node} {u : Tree}
  {j : NodeId} {item : Item} {x : TreeError}

theorem Inside.level (h : Inside r c id b above cur outer n d) (hw : b.tree.WellFormed) :
    b.level = above.length + 1 + b.pending := by
  have hlength := congrArg List.length h.spine
  simp only [List.length_cons, List.length_append, List.length_nil] at hlength
  rw [level_focus hw h.nodes h.focus]
  omega

/-- The two outermost levels are no blocks. -/
theorem Inside.no_block (h : Inside r c id b above cur outer n d) (hw : b.tree.WellFormed) :
    ∀ g ∈ [(⟨c, n, .nil⟩ : Frame Node), ⟨.nil, r, .nil⟩], g.node.kind ≠ .block := by
  obtain ⟨inner, r', hs, -, hr⟩ := hw.spine_eq h.nodes (List.cons_ne_nil _ _)
  have hlast := congrArg List.getLast? (h.spine.symm.trans hs)
  simp only [List.getLast?_append, List.getLast?_cons_cons, List.getLast?_singleton, Option.some_or,
    Option.some.injEq, Frame.mk.injEq, true_and, and_true] at hlast
  simp [h.kind, hlast, hr]

/-- A block that is found further out than `low` stands above it. -/
theorem nearestBlock_above {left kept : Forest Node} {block : Frame Node}
    {low around : List (Frame Node)} (hlow : ∀ g ∈ low, g.node.kind ≠ .block)
    (h : nearestBlock left (above ++ low) = some (kept, block, around)) :
    ∃ skipped inner, above = skipped ++ block :: inner ∧ around = inner ++ low := by
  obtain ⟨hblock, skipped, hs⟩ := nearestBlock_eq_some h
  rcases List.append_eq_append_iff.mp hs with ⟨front, rfl, hback⟩ | ⟨back, rfl, hback⟩
  · have hmem : block ∈ low := by
      rw [hback]
      simp
    exact absurd hblock (hlow block hmem)
  · cases back with
    | nil =>
      have hmem : block ∈ low := by
        rw [List.nil_append] at hback
        rw [← hback]
        simp
      exact absurd hblock (hlow block hmem)
    | cons g inner =>
      obtain ⟨rfl, rfl⟩ := List.cons.inj hback
      exact ⟨skipped, inner, rfl, rfl⟩

/-- The bracket that is closed stands inside the command, if the command is not closed. -/
theorem Inside.around (h : Inside r c id b above cur outer n d) (hne : above ≠ []) :
    ∃ above', outer = above' ++ [⟨c, n, .nil⟩, ⟨.nil, r, .nil⟩] := by
  cases above with
  | nil => exact absurd rfl hne
  | cons g above => exact ⟨above, (List.cons.inj h.spine).2⟩

/-- A token that is taken amid a command. -/
theorem Inside.taken (h : Inside r c id b above cur outer n d) (hw : b.tree.WellFormed)
    (hclose : ∀ brace, item.kind.brace? = some brace → brace.isOpening = false → above ≠ [])
    (ht : Takes b.tree cur outer d item (u, .ok j)) (hu : v.tree = u) (hj : v.focus = j) :
    Halfway r c id v false := by
  cases ht with
  | leaf hb =>
    have hitem : ∀ b, item.kind.brace? = some b → b.isOpening = true := by simp [hb]
    have hnodes := attach_focus hw h.nodes hitem
    exact .inside ⟨h.spine, (congrArg Tree.nodes hu).trans hnodes, hj.symm, h.id, h.kind⟩
  | enter hb ho =>
    have hspine : ⟨d, b.tree.entrant cur.node item, .nil⟩ :: cur :: outer =
        (⟨d, b.tree.entrant cur.node item, .nil⟩ :: above) ++ _ := congrArg (List.cons _) h.spine
    have hitem : ∀ b, item.kind.brace? = some b → b.isOpening = true := by simpa [hb] using ho
    have hnodes := attach_focus hw h.nodes hitem
    exact .inside ⟨hspine, (congrArg Tree.nodes hu).trans hnodes, hj.symm, h.id, h.kind⟩
  | close hb ho hout _ _ =>
    obtain ⟨above', hspine⟩ := h.around (hclose _ hb ho)
    subst hout
    exact .inside ⟨hspine, congrArg Tree.nodes hu, hj.symm, h.id, h.kind⟩

/-- A closing bracket amid a command, after which work goes on further out. -/
theorem Inside.givenUp (h : Inside r c id b above cur outer n d) (hs : b.Steady)
    (hclose : ∀ brace, item.kind.brace? = some brace → brace.isOpening = false → above ≠ [])
    (ht : Takes b.tree cur outer d item (u, .error (.recovered x j))) (hu : v.tree = u)
    (hj : v.focus = j) (hw : u.WellFormed) : Halfway r c id v (decide (j = rootId)) := by
  cases ht with
  | @cut _ _ _ _ _ _ _ kept _ block rest hb ho _ _ _ hblock =>
    obtain ⟨above', hspine⟩ := h.around (hclose _ hb ho)
    rw [hspine] at hblock
    obtain ⟨skipped, inner, -, hrest⟩ := nearestBlock_above (h.no_block hs.wellFormed) hblock
    have hnodes : ({ b.tree with nodes := plug (block :: rest) kept } : Tree).nodes =
      plug (block :: rest) kept := rfl
    have hne : block.node.id ≠ rootId := by
      rw [Ne, hw.id_eq_rootId_iff hnodes, hrest]
      simp
    have hspine' : block :: rest = (block :: inner) ++ _ := congrArg (List.cons _) hrest
    rw [decide_eq_false hne]
    exact .inside ⟨hspine', congrArg Tree.nodes hu, hj.symm, h.id, h.kind⟩
  | @abandon _ _ _ _ m _ e _ hb ho _ _ _ _ =>
    obtain ⟨above', hspine⟩ := h.around (hclose _ hb ho)
    have hawaits := hs.underway_focus h.nodes h.focus
    rw [hspine, List.append_cons] at hawaits
    rw [decide_eq_true rfl]
    refine .fallen (n := n) (d := plug (⟨cur.left, m, cur.right⟩ :: above') e) ?_ hj h.id
      (hawaits.awaits ⟨c, n, .nil⟩ (by simp)).entered
    rw [hu, hspine]
    exact plug_append (⟨cur.left, m, cur.right⟩ :: above') _ e

end Inside

theorem Steady.level_of_closing (hs : b.Steady) (hf : b.feed token = (v, .ok ())) {brace : Brace}
    (ht : token.brace? = some brace) (hb : brace.isOpening = false) : v.level + 1 = b.level := by
  have hlevel := hs.level_of_feed hf
  have hcount := Token.count_of_closing ht hb
  omega

/-- A token of a command that leaves its bracket open. -/
theorem Halfway.feed (h : Halfway r c id b fallen) (hs : b.Steady) (hopen : 0 < b.level)
    (hf : b.feed token = (v, .ok ())) (hopen' : 0 < v.level) :
    Halfway r c id v (fallen || b.falls token) := by
  have hw := hs.wellFormed
  have hw' := (hs.of_feed hf).wellFormed
  have hfeeds := hs.feeds_of_ok hf
  rw [falls_eq hf]
  cases h with
  | @fallen n d hnodes hroot hn he =>
    have hpending := level_at_root hs hroot
    rw [Bool.true_or]
    cases hfeeds with
    | passed _ _ =>
      exact (Halfway.fallen hnodes hroot hn he).passed (discard_tree ..) (discard_focus ..)
    | taken _ hzero _ => omega
    | givenUp _ hzero _ => omega
  | @inside above cur outer n d h =>
    -- the bracket of the command itself is not closed
    have hclose : ∀ {item}, Item.ofToken? token = .ok item → b.pending = 0 →
        ∀ brace, item.kind.brace? = some brace → brace.isOpening = false → above ≠ [] := by
      intro item hi hzero brace hb ho
      have hlevel := h.level hw
      have hlast := hs.level_of_closing hf ((Token.brace?_of_item hi).trans hb) ho
      exact List.ne_nil_of_length_pos (by omega)
    rw [Bool.false_or]
    cases hfeeds with
    | passed _ _ =>
      rw [discard_report, decide_eq_false (by simp)]
      exact (Halfway.inside h).passed (discard_tree ..) (discard_focus ..)
    | @taken item u j hi hzero hins =>
      have ht := hs.takes h.nodes h.focus item
      rw [hins] at ht
      rw [decide_eq_false (by simp)]
      exact h.taken hw (hclose hi hzero) ht rfl rfl
    | @givenUp item u x j warning hi hzero hins =>
      have ht := hs.takes h.nodes h.focus item
      rw [hins] at ht
      have hroot : (b.report.length < (b.report ++ [warning]).length ∧ j = rootId) ↔ j = rootId := by
        simp
      rw [decide_eq_decide.mpr hroot]
      exact h.givenUp hs (hclose hi hzero) ht rfl rfl hw'

/-- The tokens between the brackets of a command. -/
theorem Halfway.feedAll (ht : Token.Nested tokens) (h : Halfway r c id b fallen) (hs : b.Steady)
    (hopen : 0 < b.level) (hf : b.feedAll tokens = (v, .ok ())) :
    Halfway r c id v (fallen || b.fallsBack tokens) ∧ v.Steady ∧ v.level = b.level := by
  induction ht generalizing b v fallen with
  | nil =>
    cases hf
    rw [fallsBack, Bool.or_false]
    exact ⟨h, hs, rfl⟩
  | leaf hnone _ ih =>
    obtain ⟨w, hw, hrest⟩ := feedAll_cons_eq_ok_iff.mp hf
    have hlevel := hs.level_of_feed hw
    have hcount := Token.count_of_none hnone
    have hnext := h.feed hs hopen hw (by omega)
    obtain ⟨hv, hsteady, hl⟩ := ih hnext (hs.of_feed hw) (by omega) hrest
    rw [fallsBack_cons hw, ← Bool.or_assoc]
    exact ⟨hv, hsteady, by omega⟩
  | bracket ho hopening hc hclosing _ _ ihin ih =>
    obtain ⟨w, hw, hrest⟩ := feedAll_cons_eq_ok_iff.mp hf
    obtain ⟨x, hx, hrest⟩ := feedAll_append_eq_ok_iff.mp hrest
    obtain ⟨y, hy, hrest⟩ := feedAll_cons_eq_ok_iff.mp hrest
    have hup := Token.count_of_opening ho hopening
    have hlevel := hs.level_of_feed hw
    have hnext := h.feed hs hopen hw (by omega)
    obtain ⟨hin, hsx, hlx⟩ := ihin hnext (hs.of_feed hw) (by omega) hx
    have hdown := hsx.level_of_closing hy hc hclosing
    have hback := hin.feed hsx (by omega) hy (by omega)
    obtain ⟨hv, hsteady, hl⟩ := ih hback (hsx.of_feed hy) (by omega) hrest
    rw [fallsBack_cons hw, fallsBack_append hx, fallsBack_cons hy, ← Bool.or_assoc,
      ← Bool.or_assoc, ← Bool.or_assoc]
    exact ⟨hv, hsteady, by omega⟩

/-! ## After a command -/

/-- The last token of a command. -/
theorem Halfway.last (h : Halfway r c id b fallen) (hs : b.Steady) (hone : b.level = 1)
    (hf : b.feed token = (v, .ok ())) (hlast : v.level = 0) :
    ∃ n d, v.tree.nodes = plug [⟨.nil, r, .nil⟩] (c ++ .node n d .nil) ∧ n.id = id ∧
      n.Outcome d (fallen || b.falls token) := by
  have hw := hs.wellFormed
  have hfeeds := hs.feeds_of_ok hf
  have hlevel := hs.level_of_feed hf
  rw [falls_eq hf]
  cases h with
  | @fallen n d hnodes hroot hn he =>
    have hpending := level_at_root hs hroot
    rw [Bool.true_or]
    cases hfeeds with
    | passed _ _ => exact ⟨n, d, (congrArg Tree.nodes (discard_tree ..)).trans hnodes, hn, he⟩
    | taken _ hzero _ => omega
    | givenUp _ hzero _ => omega
  | @inside above cur outer n d h =>
    have hdepth := h.level hw
    obtain rfl : above = [] := List.eq_nil_of_length_eq_zero (by omega)
    obtain ⟨rfl, rfl⟩ := List.cons.inj h.spine
    obtain ⟨-, ha, -, hd⟩ := (hs.underway_focus h.nodes h.focus).around
    rw [Bool.false_or]
    cases hfeeds with
    | passed _ hp => omega
    | @taken item u j hi hzero hins =>
      have ht := hs.takes h.nodes h.focus item
      rw [hins] at ht
      rw [decide_eq_false (by simp)]
      cases ht with
      | leaf hb =>
        have hcount := Token.count_of_none ((Token.brace?_of_item hi).trans hb)
        omega
      | enter hb ho =>
        have hcount := Token.count_of_opening ((Token.brace?_of_item hi).trans hb) ho
        omega
      | close _ _ hout hy hatt =>
        obtain ⟨rfl, rfl⟩ := List.cons.inj hout
        obtain ⟨hid, hresult⟩ := ha.outcome_of_yields hd h.kind hy hatt
        exact ⟨_, _, rfl, hid.trans h.id, hresult⟩
    | @givenUp item u x j warning hi hzero hins =>
      have ht := hs.takes h.nodes h.focus item
      rw [hins] at ht
      cases ht with
      | cut _ _ _ _ _ hblock =>
        obtain ⟨hblock, skipped, hspine⟩ := nearestBlock_eq_some hblock
        exact absurd hblock (h.no_block hw _ (by simp [hspine]))
      | abandon _ _ hout hy hatt _ =>
        obtain ⟨rfl, rfl⟩ := List.cons.inj hout
        obtain ⟨hid, hresult⟩ := ha.outcome_of_yields hd h.kind hy hatt
        rw [decide_eq_true (by simp)]
        exact ⟨_, _, rfl, hid.trans h.id, hresult⟩

/-- A builder between two commands. -/
structure AtTop (r : Node) (c : Forest Node) (b : Builder) : Prop where
  steady : b.Steady
  nodes : b.tree.nodes = plug [⟨.nil, r, .nil⟩] c
  level : b.level = 0

theorem AtTop.command (h : AtTop r c b) (hg : Token.Command group)
    (hf : b.feedAll group = (v, .ok ())) : ∃ n d, AtTop r (c ++ .node n d .nil) v ∧
      n.id = b.tree.nextId ∧ n.Outcome d (b.fallsBack group) := by
  cases hg with
  | mk ht hc hclosing hin =>
    obtain ⟨hroot, hzero⟩ := eq_root_of_level h.steady h.level
    obtain ⟨w, hw, hrest⟩ := feedAll_cons_eq_ok_iff.mp hf
    obtain ⟨x, hx, hrest⟩ := feedAll_append_eq_ok_iff.mp hrest
    obtain ⟨y, hy, hrest⟩ := feedAll_cons_eq_ok_iff.mp hrest
    cases hrest
    obtain ⟨hhalf, hfalls, hone⟩ := h.steady.command_first h.nodes hroot hzero ht hw
    obtain ⟨hhalf, hsteady, hlevel⟩ := hhalf.feedAll hin (h.steady.of_feed hw) (by omega) hx
    have hlast := hsteady.level_of_closing hy hc hclosing
    obtain ⟨n, d, hnodes, hid, hout⟩ := hhalf.last hsteady (by omega) hy (by omega)
    refine ⟨n, d, ⟨hsteady.of_feed hy, hnodes, by omega⟩, hid, ?_⟩
    rw [fallsBack_cons hw, fallsBack_append hx, fallsBack_cons hy, fallsBack, hfalls, Bool.or_false,
      Bool.false_or]
    rw [Bool.false_or] at hout
    exact hout

/-- The trees that commands leave under the root. -/
inductive Listed : List (NodeId × Bool) → Forest Node → Prop where
  | nil : Listed [] .nil
  | cons {n : Node} {d f : Forest Node} {fallen : Bool} {entries : List (NodeId × Bool)} :
      n.Outcome d fallen → Listed entries f → Listed ((n.id, fallen) :: entries) (.node n d f)

theorem AtTop.commands (h : AtTop r c b) {groups : List (List Token)}
    (hg : ∀ group ∈ groups, Token.Command group) (hf : b.feedAll groups.flatten = (v, .ok ())) :
    ∃ f, AtTop r (c ++ f) v ∧ Listed (b.entries groups) f := by
  induction groups generalizing b c with
  | nil =>
    cases hf
    exact ⟨.nil, by rw [append_nil]; exact h, .nil⟩
  | cons group groups ih =>
    rw [List.flatten_cons] at hf
    obtain ⟨w, hw, hrest⟩ := feedAll_append_eq_ok_iff.mp hf
    obtain ⟨n, d, hnext, hid, hout⟩ := h.command (hg group (List.mem_cons_self ..)) hw
    obtain ⟨f, hv, hlisted⟩ := ih hnext (fun g hm => hg g (List.mem_cons_of_mem _ hm)) hrest
    refine ⟨.node n d f, ?_, ?_⟩
    · rw [append_assoc] at hv
      exact hv
    · rw [entries, hw, ← hid]
      exact .cons hout hlisted

end Builder
end BracketTree
