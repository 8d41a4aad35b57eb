import BracketTree.Proofs.Tree.Nameless

/-! Trees under construction that look alike. They differ in ids and scopes, and the second may have
further statements under its root, in front of those of the first. An insertion does the same to both
and leaves them alike, whatever comes of it. -/

namespace BracketTree
open Forest
set_option autoImplicit false

namespace Tree
open Node

/-! ## Places that look alike -/

/-- Two spines of open brackets with what stands in the innermost ones. Under the second root stand the
trees `before` and then what stands under the first. -/
inductive Alike (before : Forest Node) :
    List (Frame Node) → Forest Node → List (Frame Node) → Forest Node → Prop where
  | top {r r' : Node} {c c' : Forest Node} : r'.nameless = r.nameless →
      c'.map nameless = before ++ c.map nameless →
      Alike before [⟨.nil, r, .nil⟩] c [⟨.nil, r', .nil⟩] c'
  | inside {n n' : Node} {up up' : Frame Node} {outer outer' : List (Frame Node)}
      {left left' c c' : Forest Node} : Alike before (up :: outer) left (up' :: outer') left' →
      n'.nameless = n.nameless → c'.map nameless = c.map nameless →
      Alike before (⟨left, n, .nil⟩ :: up :: outer) c (⟨left', n', .nil⟩ :: up' :: outer') c'

variable {before : Forest Node} {fr fr' up up' : Frame Node}
  {outer outer' spine spine' : List (Frame Node)} {c c' d d' : Forest Node} {n n' m m' : Node}
  {P P' : Node → Forest Node → Prop} {t t' : Tree} {id id' : NodeId}

theorem Alike.node (h : Alike before (fr :: outer) c (fr' :: outer') c') :
    fr'.node.nameless = fr.node.nameless := by
  cases h with
  | top hr _ => exact hr
  | inside _ hn _ => exact hn

theorem Alike.length (h : Alike before spine c spine' c') : spine'.length = spine.length := by
  induction h with
  | top _ _ => rfl
  | inside _ _ _ ih => exact congrArg Nat.succ ih

theorem Alike.snoc (h : Alike before spine c spine' c') (hn : n'.nameless = n.nameless)
    (hd : d'.map nameless = d.map nameless) :
    Alike before spine (c ++ .node n d .nil) spine' (c' ++ .node n' d' .nil) := by
  cases h with
  | top hr hc =>
    refine .top hr ?_
    rw [map_append, map_append, map_node, map_node, hc, hn, hd]
    exact append_assoc _ _ _
  | inside hout hm hc =>
    refine .inside hout hm ?_
    rw [map_append, map_append, map_node, map_node, hc, hn, hd]

/-- One level outwards. -/
theorem Alike.around (h : Alike before (fr :: up :: outer) c (fr' :: spine') c') :
    ∃ up' outer', spine' = up' :: outer' ∧
      Alike before (up :: outer) fr.left (up' :: outer') fr'.left ∧ fr.right = .nil ∧
      fr'.right = .nil ∧ c'.map nameless = c.map nameless := by
  cases h with
  | inside hout _ hc => exact ⟨_, _, rfl, hout, rfl, rfl, hc⟩

theorem Alike.nearestBlock (h : Alike before spine c spine' c') :
    (Tree.nearestBlock c spine = none ∧ Tree.nearestBlock c' spine' = none) ∨
      ∃ kept block rest kept' block' rest', Tree.nearestBlock c spine = some (kept, block, rest) ∧
        Tree.nearestBlock c' spine' = some (kept', block', rest') ∧
        Alike before (block :: rest) kept (block' :: rest') kept' := by
  induction h with
  | @top r r' c c' hr hc =>
    unfold Tree.nearestBlock
    dsimp only
    rw [kind_eq_of_nameless hr]
    split
    · exact .inr ⟨_, _, _, _, _, _, rfl, rfl, .top hr hc⟩
    · exact .inl ⟨rfl, rfl⟩
  | @inside n n' up up' outer outer' left left' c c' hout hn hc ih =>
    unfold Tree.nearestBlock
    dsimp only
    rw [kind_eq_of_nameless hn]
    split
    · exact .inr ⟨_, _, _, _, _, _, rfl, rfl, .inside hout hn hc⟩
    · exact ih

/-- Seen from the root. -/
theorem Alike.whole (h : Alike before (fr :: outer) c (fr' :: outer') c') :
    ∃ r e r' e', plug (fr :: outer) c = plug [⟨.nil, r, .nil⟩] e ∧
      plug (fr' :: outer') c' = plug [⟨.nil, r', .nil⟩] e' ∧
      Alike before [⟨.nil, r, .nil⟩] e [⟨.nil, r', .nil⟩] e' := by
  induction outer generalizing fr fr' outer' c c' with
  | nil =>
    cases h with
    | top hr hc => exact ⟨_, _, _, _, rfl, rfl, .top hr hc⟩
  | cons up outer ih =>
    cases h with
    | inside hout hn hc =>
      have hup := ih (hout.snoc hn hc)
      exact hup

/-! ## The same insertion in both -/

theorem close_yield (hw : t.WellFormed) (h : t.nodes = plug (fr :: up :: outer) c) (item : Item)
    (b : Brace) : t.close fr.node item b = match fr.node.yield c item b with
      | .error e => (t, .error (.fatal (.shape e)))
      | .ok (m, d) =>
        { t with nodes := plug (⟨fr.left, m, fr.right⟩ :: up :: outer) d }.finish m.id up.node.id := by
  rw [close, parent?_focus hw.nodup h]
  unfold yield
  cases fr.node.kind.brace?.filter Brace.isOpening with
  | none => rfl
  | some opening =>
    simp only [List.head?_cons, Option.map_some]
    split
    · rfl
    split
    · rcases c with _ | ⟨first, inner, rest⟩
      · rw [elide_nil hw.nodup h]
      · cases inner with
        | nil =>
          rw [elide_node hw.nodup h]
          rfl
        | node k e s =>
          rw [elide_of_children hw.nodup h (by simp)]
          rfl
    · dsimp only
      rw [← h]

theorem yields_of_yield {item : Item} {b : Brace} {r : Node × Forest Node}
    (h : n.yield c item b = .ok r) : Yields n c b r.1 r.2 := by
  unfold yield at h
  cases ho : n.kind.brace?.filter Brace.isOpening with
  | none =>
    rw [ho] at h
    cases h
  | some opening =>
    have hbrace := (Option.filter_eq_some_iff.mp ho).1
    rw [ho] at h
    dsimp only at h
    split at h
    · cases h
    next hc =>
    have hcl : opening.closedBy b = true := by simpa using hc
    split at h
    · next hg =>
      rcases c with _ | ⟨first, _ | _, rest⟩
      · cases h
      · cases h
        exact .elide hbrace hcl hg rfl
      · cases h
    · next hg =>
      cases h
      exact .keep hbrace hcl (Bool.eq_false_iff.mpr hg)

/-- The tree after the setup that came to `r` in the place of its innermost bracket. -/
def conclude (t : Tree) (fr up : Frame Node) (outer : List (Frame Node))
    (r : (Node × Forest Node) × Except TreeError Unit) : Tree × Except InsertError NodeId :=
  match r, Tree.nearestBlock fr.left (up :: outer) with
  | ((m, e), .ok ()), _ =>
    ({ t with nodes := plug (⟨fr.left, m, fr.right⟩ :: up :: outer) e }, .ok up.node.id)
  | (_, .error x), some (kept, block, rest) =>
    ({ t with nodes := plug (block :: rest) kept }, .error (.recovered x block.node.id))
  | ((m, e), .error x), none =>
    ({ t with nodes := plug (⟨fr.left, m, fr.right⟩ :: up :: outer) e },
      .error (.recovered x rootId))

theorem insert_close (hw : t.WellFormed) (h : t.nodes = plug (fr :: up :: outer) c)
    (hu : Underway P (fr :: up :: outer) c) {item : Item} {b : Brace}
    (hi : item.kind.brace? = some b) (hb : b.isOpening = false) :
    t.insert fr.node.id item = match fr.node.close c item b with
      | .error e => (t, .error (.fatal (.shape e)))
      | .ok r => t.conclude fr up outer r := by
  rw [insert, get?_focus hw.nodup h, hi]
  dsimp only
  rw [hb, if_neg Bool.false_ne_true, close_yield hw h, Node.close]
  cases hy : fr.node.yield c item b with
  | error e => rfl
  | ok r =>
    obtain ⟨m, d⟩ := r
    have hyields : Yields fr.node c b m d := yields_of_yield hy
    obtain ⟨-, ha, -, hc⟩ := hu.around
    obtain ⟨hm, hd⟩ := hyields.closing ha hc
    have hnodes : ({ t with nodes := plug (⟨fr.left, m, fr.right⟩ :: up :: outer) d } : Tree).nodes =
      plug (⟨fr.left, m, fr.right⟩ :: up :: outer) d := rfl
    exact finish_attempt (hyields.wellFormed hw h) hnodes hm.inOrder
      (hd.imp fun _ _ ho => ho.inOrder) up.node.id

/-- Trees that are alike at two nodes. -/
def AlikeAt (before : Forest Node) (t : Tree) (focus : NodeId) (t' : Tree) (focus' : NodeId) : Prop :=
  ∃ fr outer c fr' outer' c', t.nodes = plug (fr :: outer) c ∧ fr.node.id = focus ∧
    t'.nodes = plug (fr' :: outer') c' ∧ fr'.node.id = focus' ∧
    Alike before (fr :: outer) c (fr' :: outer') c'

/-- Outcomes of two insertions that are the same but for ids: the trees are alike at the nodes where
work goes on, or the item is refused and the trees stay as they were. -/
inductive Parallel (before : Forest Node) (t t' : Tree) : Tree × Except InsertError NodeId →
    Tree × Except InsertError NodeId → Prop where
  | accepted {u u' : Tree} {id id' : NodeId} : AlikeAt before u id u' id' →
      Parallel before t t' (u, .ok id) (u', .ok id')
  | recovered {u u' : Tree} {x : TreeError} {id id' : NodeId} : AlikeAt before u id u' id' →
      Parallel before t t' (u, .error (.recovered x id)) (u', .error (.recovered x id'))
  | refused (x : TreeError) : Parallel before t t' (t, .error (.fatal x)) (t', .error (.fatal x))

/-- Brackets that look alike close alike. -/
theorem close_alike (hn : n'.nameless = n.nameless) (hc : c'.map nameless = c.map nameless)
    (item : Item) (b : Brace) :
    (∃ e, n.close c item b = .error e ∧ n'.close c' item b = .error e) ∨
      ∃ m d m' d' x, n.close c item b = .ok ((m, d), x) ∧ n'.close c' item b = .ok ((m', d'), x) ∧
        m'.nameless = m.nameless ∧ d'.map nameless = d.map nameless := by
  have hsame := close_nameless n' c' item b
  rw [hn, hc, close_nameless] at hsame
  generalize n.close c item b = r at hsame ⊢
  generalize n'.close c' item b = r' at hsame ⊢
  rcases r with e | ⟨⟨m, d⟩, x⟩ <;> rcases r' with e' | ⟨⟨m', d'⟩, x'⟩ <;>
    simp only [Except.map, reduceCtorEq, Except.error.injEq, Except.ok.injEq, Prod.mk.injEq] at hsame
  · exact .inl ⟨e, rfl, by rw [hsame]⟩
  · obtain ⟨⟨hm, hd⟩, rfl⟩ := hsame
    exact .inr ⟨m, d, m', d', x, rfl, rfl, hm.symm, hd.symm⟩

/-- A setup that comes to the same at places that are alike. -/
theorem Alike.conclude (hal : Alike before (fr :: up :: outer) c (fr' :: up' :: outer') c')
    {m m' : Node} {d d' : Forest Node} {x : Except TreeError Unit} (hm : m'.nameless = m.nameless)
    (hd : d'.map nameless = d.map nameless)
    (hwu : (t.conclude fr up outer ((m, d), x)).1.WellFormed)
    (hwu' : (t'.conclude fr' up' outer' ((m', d'), x)).1.WellFormed) :
    Parallel before t t' (t.conclude fr up outer ((m, d), x))
      (t'.conclude fr' up' outer' ((m', d'), x)) := by
  obtain ⟨up'', outer'', hs, hout, hr, hr', -⟩ := hal.around
  obtain ⟨rfl, rfl⟩ := List.cons.inj hs
  obtain ⟨left, n, right⟩ := fr
  obtain ⟨left', n', right'⟩ := fr'
  obtain rfl : right = .nil := hr
  obtain rfl : right' = .nil := hr'
  cases x with
  | ok => exact .accepted ⟨up, outer, _, up', outer', _, rfl, rfl, rfl, rfl, hout.snoc hm hd⟩
  | error x =>
    have hall := hout.inside hm hd
    unfold Tree.conclude at hwu hwu' ⊢
    rcases hout.nearestBlock with ⟨hb, hb'⟩ |
      ⟨kept, block, rest, kept', block', rest', hb, hb', hblock⟩
    · rw [hb] at hwu
      rw [hb'] at hwu'
      rw [hb, hb']
      obtain ⟨r, e, r', e', he, he', hroot⟩ := hall.whole
      refine .recovered ⟨_, _, _, _, _, _, he, ?_, he', ?_, hroot⟩
      · exact (hwu.id_eq_rootId_iff he).mpr rfl
      · exact (hwu'.id_eq_rootId_iff he').mpr rfl
    · rw [hb, hb']
      exact .recovered ⟨_, _, _, _, _, _, rfl, rfl, rfl, rfl, hblock⟩

/-- Insertion does the same at places that are alike. -/
theorem Alike.insert (hal : Alike before (fr :: outer) c (fr' :: outer') c') (hw : t.WellFormed)
    (hw' : t'.WellFormed) (h : t.nodes = plug (fr :: outer) c) (h' : t'.nodes = plug (fr' :: outer') c')
    (hu : Underway P (fr :: outer) c) (hu' : Underway P' (fr' :: outer') c') (item : Item) :
    Parallel before t t' (t.insert fr.node.id item) (t'.insert fr'.node.id item) := by
  have hget := get?_focus hw.nodup h
  have hget' := get?_focus hw'.nodup h'
  have hentrant : (t'.entrant fr'.node item).nameless = (t.entrant fr.node item).nameless := rfl
  cases hi : item.kind.brace? with
  | none =>
    have hitem : ∀ b, item.kind.brace? = some b → b.isOpening = true := by simp [hi]
    rw [Tree.insert, hget, Tree.insert, hget', hi]
    exact .accepted ⟨fr, outer, _, fr', outer', _, attach_focus hw h hitem, rfl,
      attach_focus hw' h' hitem, rfl, hal.snoc hentrant rfl⟩
  | some b =>
    cases hb : b.isOpening with
    | true =>
      have hitem : ∀ b, item.kind.brace? = some b → b.isOpening = true := by simpa [hi] using hb
      rw [Tree.insert, hget, Tree.insert, hget', hi]
      dsimp only
      rw [hb]
      exact .accepted ⟨⟨c, t.entrant fr.node item, .nil⟩, fr :: outer, .nil,
        ⟨c', t'.entrant fr'.node item, .nil⟩, fr' :: outer', .nil, attach_focus hw h hitem, rfl,
        attach_focus hw' h' hitem, rfl, hal.inside hentrant rfl⟩
    | false =>
      have hwu := (insert_edits t fr.node.id item).wellFormed hw
      have hwu' := (insert_edits t' fr'.node.id item).wellFormed hw'
      cases outer with
      | nil =>
        obtain rfl := List.eq_nil_of_length_eq_zero (Nat.succ.inj hal.length)
        have hlabel := toItem_eq_of_nameless hal.node
        rw [Tree.insert, hget, Tree.insert, hget', hi]
        dsimp only
        rw [hb, close, parent?_focus hw.nodup h, close, parent?_focus hw'.nodup h', hlabel]
        exact .refused _
      | cons up outer =>
        obtain ⟨up', outer', rfl, -, -, -, hc⟩ := hal.around
        rw [insert_close hw h hu hi hb] at hwu ⊢
        rw [insert_close hw' h' hu' hi hb] at hwu' ⊢
        rcases close_alike hal.node hc item b with ⟨e, he, he'⟩ |
          ⟨m, d, m', d', x, he, he', hm, hd⟩
        · rw [he, he']
          exact .refused _
        · rw [he] at hwu
          rw [he'] at hwu'
          rw [he, he']
          exact hal.conclude hm hd hwu hwu'

/-! ## What is printed -/

theorem print_eq (hlive : t.contains id = true) :
    t.print id = wrap (t.label id) ((t.below id).render fun n => n.label) := by
  obtain ⟨n, hn⟩ := Option.isSome_iff_exists.mp hlive
  obtain ⟨r, hr, rfl⟩ := Option.map_eq_some_iff.mp hn
  rw [print, label, hn, below, hr]

theorem contains_focus (hw : t.WellFormed) (h : t.nodes = plug (fr :: outer) c) :
    t.contains fr.node.id = true := by
  rw [contains, get?_focus hw.nodup h]
  rfl

/-- Trees that are alike somewhere are alike at the root. -/
theorem AlikeAt.root (h : AlikeAt before t id t' id') (hw : t.WellFormed) (hw' : t'.WellFormed) :
    AlikeAt before t rootId t' rootId := by
  obtain ⟨fr, outer, c, fr', outer', c', hn, -, hn', -, hal⟩ := h
  obtain ⟨r, e, r', e', he, he', hroot⟩ := hal.whole
  exact ⟨_, _, _, _, _, _, hn.trans he, (hw.id_eq_rootId_iff (hn.trans he)).mpr rfl, hn'.trans he',
    (hw'.id_eq_rootId_iff (hn'.trans he')).mpr rfl, hroot⟩

theorem AlikeAt.eq_rootId_iff (h : AlikeAt before t id t' id') (hw : t.WellFormed)
    (hw' : t'.WellFormed) : id' = rootId ↔ id = rootId := by
  obtain ⟨fr, outer, c, fr', outer', c', hn, rfl, hn', rfl, hal⟩ := h
  have hlength := hal.length
  rw [hw.id_eq_rootId_iff hn, hw'.id_eq_rootId_iff hn', ← List.length_eq_zero_iff,
    ← List.length_eq_zero_iff]
  simp only [List.length_cons, Nat.add_right_cancel_iff] at hlength
  rw [hlength]

theorem AlikeAt.label (h : AlikeAt before t id t' id') (hw : t.WellFormed) (hw' : t'.WellFormed) :
    t'.label id' = t.label id := by
  obtain ⟨fr, outer, c, fr', outer', c', hn, rfl, hn', rfl, hal⟩ := h
  rw [Tree.label, Tree.label, get?_focus hw.nodup hn, get?_focus hw'.nodup hn']
  exact congrArg Item.label (toItem_eq_of_nameless hal.node)

theorem AlikeAt.below (h : AlikeAt before t id t' id') (hw : t.WellFormed) (hw' : t'.WellFormed) :
    (t'.below id').map nameless =
      (if id = rootId then before else .nil) ++ (t.below id).map nameless := by
  obtain ⟨fr, outer, c, fr', outer', c', hn, rfl, hn', rfl, hal⟩ := h
  rw [below_focus hw.nodup hn, below_focus hw'.nodup hn']
  cases hal with
  | top _ hc =>
    rw [if_pos ((hw.id_eq_rootId_iff hn).mpr rfl)]
    exact hc
  | inside _ _ hc =>
    rw [if_neg fun hr => List.cons_ne_nil _ _ ((hw.id_eq_rootId_iff hn).mp hr)]
    exact hc

theorem AlikeAt.print (h : AlikeAt before t id t' id') (hw : t.WellFormed) (hw' : t'.WellFormed) :
    ∃ inner, t.print id = wrap (t.label id) inner ∧
      t'.print id' = wrap (t.label id)
        ((if id = rootId then before else .nil).render (fun n => n.label) ++ inner) := by
  have hbelow := h.below hw hw'
  have hlabel := h.label hw hw'
  obtain ⟨fr, outer, c, fr', outer', c', hn, rfl, hn', rfl, -⟩ := h
  refine ⟨_, print_eq (contains_focus hw hn), ?_⟩
  rw [print_eq (contains_focus hw' hn'), hlabel, ← render_nameless (t'.below _), hbelow,
    render_append, render_nameless]

end Tree

end BracketTree
