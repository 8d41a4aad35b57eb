import BracketTree.Forest

/-! Forests taken apart at one node. A spine is the way from a node out to the top: at each level
the siblings to the left, the node itself, and the siblings to the right. Every operation that
looks a node up is described by what it does to the two parts of `plug spine below`. -/

namespace BracketTree.Forest
set_option autoImplicit false

universe u v
variable {α : Type u} {β : Type v}

@[simp] theorem nil_append (g : Forest α) : nil ++ g = g := rfl

@[simp] theorem node_append (a : α) (c s g : Forest α) : node a c s ++ g = node a c (s ++ g) := rfl

@[simp] theorem append_nil (f : Forest α) : f ++ nil = f := by
  induction f with
  | nil => rfl
  | node a c s _ hs => rw [node_append, hs]

theorem append_assoc (f g h : Forest α) : f ++ g ++ h = f ++ (g ++ h) := by
  induction f with
  | nil => rfl
  | node a c s _ hs => simp only [node_append, hs]

@[simp] theorem preorder_nil : (nil : Forest α).preorder = [] := rfl

@[simp] theorem preorder_node (a : α) (c s : Forest α) :
    (node a c s).preorder = a :: (c.preorder ++ s.preorder) := rfl

@[simp] theorem preorder_leaf (a : α) : (leaf a).preorder = [a] := rfl

@[simp] theorem preorder_append (f g : Forest α) :
    (f ++ g).preorder = f.preorder ++ g.preorder := by
  induction f with
  | nil => rfl
  | node a c s _ hs => simp [hs]

@[simp] theorem roots_nil : (nil : Forest α).roots = [] := rfl

@[simp] theorem roots_node (a : α) (c s : Forest α) : (node a c s).roots = a :: s.roots := rfl

@[simp] theorem roots_append (f g : Forest α) : (f ++ g).roots = f.roots ++ g.roots := by
  induction f with
  | nil => rfl
  | node a c s _ hs => simp [hs]

theorem roots_sublist_preorder (f : Forest α) : f.roots.Sublist f.preorder := by
  induction f with
  | nil => exact .slnil
  | node a c s _ hs => exact .cons_cons a (hs.trans (List.sublist_append_right _ _))

theorem mem_preorder_of_mem_roots {a : α} {f : Forest α} (h : a ∈ f.roots) : a ∈ f.preorder :=
  (roots_sublist_preorder f).subset h

theorem exists_append_of_mem_roots {a : α} {f : Forest α} (h : a ∈ f.roots) :
    ∃ left c right, f = left ++ node a c right := by
  induction f with
  | nil => cases h
  | node b c s _ hs =>
    rcases List.mem_cons.mp h with rfl | h
    · exact ⟨.nil, c, s, rfl⟩
    · obtain ⟨left, d, right, rfl⟩ := hs h
      exact ⟨.node b c left, d, right, rfl⟩

/-- Every node stands in the tree of one of the roots. -/
theorem exists_append_of_mem_preorder {a : α} {f : Forest α} (h : a ∈ f.preorder) :
    ∃ left b c right, f = left ++ node b c right ∧ a ∈ (node b c nil).preorder := by
  induction f with
  | nil => cases h
  | node b c s _ hs =>
    simp only [preorder_node, List.mem_cons, List.mem_append] at h
    rcases h with rfl | h | h
    · exact ⟨.nil, a, c, s, rfl, by simp⟩
    · exact ⟨.nil, b, c, s, rfl, by simp [h]⟩
    · obtain ⟨left, b', c', right, rfl, hm⟩ := hs h
      exact ⟨.node b c left, b', c', right, rfl, hm⟩

@[simp] theorem map_nil (f : α → β) : (nil : Forest α).map f = nil := rfl

@[simp] theorem map_node (f : α → β) (a : α) (c s : Forest α) :
    (node a c s).map f = node (f a) (c.map f) (s.map f) := rfl

@[simp] theorem map_append (f : α → β) (g h : Forest α) : (g ++ h).map f = g.map f ++ h.map f := by
  induction g with
  | nil => rfl
  | node a c s _ hs => simp [hs]

@[simp] theorem preorder_map (f : α → β) (g : Forest α) :
    (g.map f).preorder = g.preorder.map f := by
  induction g with
  | nil => rfl
  | node a c s hc hs => simp [hc, hs]

@[simp] theorem roots_map (f : α → β) (g : Forest α) : (g.map f).roots = g.roots.map f := by
  induction g with
  | nil => rfl
  | node a c s _ hs => simp [hs]

theorem map_map {γ : Type v} (g : β → γ) (f : α → β) (c : Forest α) :
    (c.map f).map g = c.map (g ∘ f) := by
  induction c with
  | nil => rfl
  | node a c s hc hs => simp [hc, hs]

theorem map_of_forall_eq {f : α → α} {g : Forest α} (h : ∀ a ∈ g.preorder, f a = a) :
    g.map f = g := by
  induction g with
  | nil => rfl
  | node a c s hc hs =>
    simp only [preorder_node, List.mem_cons, List.mem_append] at h
    rw [map_node, h a (.inl rfl), hc fun b hb => h b (.inr (.inl hb)),
      hs fun b hb => h b (.inr (.inr hb))]

section Lookup
variable {p : α → Bool}

theorem find?_eq_none {f : Forest α} (h : ∀ a ∈ f.preorder, p a = false) : f.find? p = none := by
  induction f with
  | nil => rfl
  | node a c s hc hs =>
    simp only [preorder_node, List.mem_cons, List.mem_append] at h
    simp [find?, h a (.inl rfl), hc fun b hb => h b (.inr (.inl hb)),
      hs fun b hb => h b (.inr (.inr hb))]

theorem find?_append (f g : Forest α) : (f ++ g).find? p = (f.find? p).or (g.find? p) := by
  induction f with
  | nil => rfl
  | node a c s _ hs =>
    rw [node_append, find?, find?, hs]
    split
    · rfl
    · cases c.find? p <;> rfl

theorem pathUnder_eq_nil {f : Forest α} (h : ∀ a ∈ f.preorder, p a = false) (above : List α) :
    f.pathUnder p above = [] := by
  induction f generalizing above with
  | nil => rfl
  | node a c s hc hs =>
    simp only [preorder_node, List.mem_cons, List.mem_append] at h
    simp [pathUnder, h a (.inl rfl), hc fun b hb => h b (.inr (.inl hb)),
      hs fun b hb => h b (.inr (.inr hb))]

theorem pathUnder_append_of_left {f : Forest α} (h : ∀ a ∈ f.preorder, p a = false)
    (above : List α) (g : Forest α) : (f ++ g).pathUnder p above = g.pathUnder p above := by
  induction f with
  | nil => rfl
  | node a c s _ hs =>
    simp only [preorder_node, List.mem_cons, List.mem_append] at h
    simp [pathUnder, h a (.inl rfl), pathUnder_eq_nil fun b hb => h b (.inr (.inl hb)),
      hs fun b hb => h b (.inr (.inr hb))]

theorem mapChildren_eq_self {f : Forest α} (h : ∀ a ∈ f.preorder, p a = false)
    (g : Forest α → Forest α) : f.mapChildren p g = f := by
  induction f with
  | nil => rfl
  | node a c s hc hs =>
    simp only [preorder_node, List.mem_cons, List.mem_append] at h
    simp [mapChildren, h a (.inl rfl), hc fun b hb => h b (.inr (.inl hb)),
      hs fun b hb => h b (.inr (.inr hb))]

theorem mapChildren_append (g : Forest α → Forest α) (f f' : Forest α) :
    (f ++ f').mapChildren p g = f.mapChildren p g ++ f'.mapChildren p g := by
  induction f with
  | nil => rfl
  | node a c s _ hs => simp [mapChildren, hs]

theorem promote_of_false {a : α} (ha : p a = false) (c s : Forest α) :
    (node a c s).promote p = node a (c.promote p) (s.promote p) := by
  cases c <;> simp [promote, ha]

theorem promote_of_true {a : α} (ha : p a = true) (b : α) (d rest s : Forest α) :
    (node a (node b d rest) s).promote p = node b (d ++ rest) (s.promote p) := by
  simp [promote, ha]

theorem promote_eq_self {f : Forest α} (h : ∀ a ∈ f.preorder, p a = false) : f.promote p = f := by
  induction f with
  | nil => rfl
  | node a c s hc hs =>
    simp only [preorder_node, List.mem_cons, List.mem_append] at h
    rw [promote_of_false (h a (.inl rfl)), hc fun b hb => h b (.inr (.inl hb)),
      hs fun b hb => h b (.inr (.inr hb))]

theorem promote_append (f g : Forest α) : (f ++ g).promote p = f.promote p ++ g.promote p := by
  induction f with
  | nil => rfl
  | node a c s _ hs =>
    cases ha : p a with
    | false => simp [promote_of_false ha, hs]
    | true => cases c <;> simp [promote, ha, hs]

theorem takeUntil_append_node {f : Forest α} (h : ∀ a ∈ f.roots, p a = false) {b : α}
    (hb : p b = true) (c s : Forest α) : (f ++ node b c s).takeUntil p = f := by
  induction f with
  | nil => simp [takeUntil, hb]
  | node a d s _ hs =>
    simp only [roots_node, List.mem_cons] at h
    simp [takeUntil, h a (.inl rfl), hs fun x hx => h x (.inr hx)]

end Lookup

theorem find?_map (g : α → β) (p : β → Bool) (f : Forest α) :
    (f.map g).find? p = (f.find? (p ∘ g)).map fun r => (g r.1, r.2.map g) := by
  induction f with
  | nil => rfl
  | node a c s hc hs =>
    simp only [map_node, find?, hc, hs, Function.comp_apply]
    split
    · rfl
    · cases c.find? (p ∘ g) <;> rfl

structure Frame (α : Type u) where
  left : Forest α
  node : α
  right : Forest α

/-- Hangs `f` under the innermost node of a spine. -/
def plug : List (Frame α) → Forest α → Forest α
  | [], f => f
  | fr :: outer, f => plug outer (fr.left ++ node fr.node f fr.right)

/-- All that stands on a spine and beside it. -/
def beside : List (Frame α) → List α
  | [] => []
  | fr :: outer => fr.node :: (fr.left.preorder ++ fr.right.preorder ++ beside outer)

theorem nodes_sublist_beside (spine : List (Frame α)) :
    (spine.map Frame.node).Sublist (beside spine) := by
  induction spine with
  | nil => exact .slnil
  | cons fr outer ih => exact .cons_cons _ (ih.trans (List.sublist_append_right _ _))

theorem plug_append (inner outer : List (Frame α)) (f : Forest α) :
    plug (inner ++ outer) f = plug outer (plug inner f) := by
  induction inner generalizing f with
  | nil => rfl
  | cons fr inner ih => exact ih _

theorem preorder_plug_perm (spine : List (Frame α)) (f : Forest α) :
    (plug spine f).preorder.Perm (f.preorder ++ beside spine) := by
  classical
  induction spine generalizing f with
  | nil => simp [plug, beside]
  | cons fr outer ih =>
    refine (ih _).trans ?_
    rw [List.perm_iff_count]
    intro x
    simp only [beside, preorder_append, preorder_node, List.count_append, List.count_cons]
    omega

theorem mem_preorder_plug {fr : Frame α} {spine : List (Frame α)} (h : fr ∈ spine) (f : Forest α) :
    fr.node ∈ (plug spine f).preorder := by
  rw [(preorder_plug_perm _ _).mem_iff]
  exact List.mem_append_right _ ((nodes_sublist_beside _).subset (List.mem_map_of_mem h))

theorem exists_append_plug (g left right : Forest α) (a : α) (outer : List (Frame α))
    (c : Forest α) : ∃ left' right' outer',
      g ++ plug (⟨left, a, right⟩ :: outer) c = plug (⟨left', a, right'⟩ :: outer') c := by
  induction outer generalizing left right a c with
  | nil => exact ⟨g ++ left, right, [], (append_assoc _ _ _).symm⟩
  | cons fr outer ih =>
    obtain ⟨left', right', outer', h⟩ :=
      ih fr.left fr.right fr.node (left ++ node a c right)
    exact ⟨left, right, ⟨left', fr.node, right'⟩ :: outer', h⟩

theorem exists_spine {p : α → Bool} {f : Forest α} {a : α} {c : Forest α}
    (h : f.find? p = some (a, c)) :
    ∃ left right outer, f = plug (⟨left, a, right⟩ :: outer) c ∧ p a = true := by
  induction f generalizing a c with
  | nil => cases h
  | node b d s hd hs =>
    rw [find?] at h
    split at h
    · next hb =>
      cases h
      exact ⟨.nil, s, [], rfl, hb⟩
    · cases hf : d.find? p with
      | some r =>
        rw [hf] at h
        cases h
        obtain ⟨left, right, outer, rfl, ha⟩ := hd hf
        exact ⟨left, right, outer ++ [⟨.nil, b, s⟩], by rw [← List.cons_append, plug_append]; rfl, ha⟩
      | none =>
        rw [hf] at h
        obtain ⟨left, right, outer, rfl, ha⟩ := hs h
        obtain ⟨left', right', outer', he⟩ :=
          exists_append_plug (node b d .nil) left right a outer c
        exact ⟨left', right', outer', he, ha⟩

theorem forall_of_find?_eq_none {p : α → Bool} {f : Forest α} (h : f.find? p = none) :
    ∀ a ∈ f.preorder, p a = false := by
  induction f with
  | nil => simp
  | node b c s hc hs =>
    rw [find?] at h
    split at h
    · cases h
    next hb =>
    cases hf : c.find? p with
    | some r => simp [hf] at h
    | none =>
      rw [hf] at h
      intro a ha
      simp only [preorder_node, List.mem_cons, List.mem_append] at ha
      rcases ha with rfl | ha | ha
      · simpa using hb
      · exact hc hf a ha
      · exact hs h a ha

theorem exists_spine_of_mem {f : Forest α} {a : α} (h : a ∈ f.preorder) :
    ∃ left right outer c, f = plug (⟨left, a, right⟩ :: outer) c := by
  classical
  cases hf : f.find? fun b => decide (b = a) with
  | none => simpa using forall_of_find?_eq_none hf a h
  | some r =>
    obtain ⟨left, right, outer, he, ha⟩ := exists_spine (c := r.2) (a := r.1) hf
    exact ⟨left, right, outer, r.2, of_decide_eq_true ha ▸ he⟩

theorem exists_spine_below {spine : List (Frame α)} {c d : Forest α} {r : α}
    (h : plug spine c = node r d .nil) (hne : spine ≠ []) :
    ∃ inner, spine = inner ++ [⟨.nil, r, .nil⟩] ∧ d = plug inner c := by
  obtain ⟨inner, ⟨left, a, right⟩, rfl⟩ : ∃ inner fr, spine = inner ++ [fr] :=
    ⟨_, _, (List.dropLast_concat_getLast hne).symm⟩
  rw [plug_append] at h
  cases left with
  | nil =>
    obtain ⟨rfl, rfl, rfl⟩ := Forest.node.inj h
    exact ⟨inner, rfl, rfl⟩
  | node x y z =>
    obtain ⟨-, -, hz⟩ := Forest.node.inj h
    cases z <;> cases hz

/-- `p` holds of the innermost node of a spine and of nothing else on it or beside it. -/
structure Selects (p : α → Bool) (fr : Frame α) (outer : List (Frame α)) : Prop where
  here : p fr.node = true
  left : ∀ a ∈ fr.left.preorder, p a = false
  right : ∀ a ∈ fr.right.preorder, p a = false
  outer : ∀ a ∈ beside outer, p a = false

section Plug
variable {p : α → Bool}

theorem find?_plug {spine : List (Frame α)} (h : ∀ a ∈ beside spine, p a = false) (f : Forest α) :
    (plug spine f).find? p = f.find? p := by
  induction spine generalizing f with
  | nil => rfl
  | cons fr outer ih =>
    simp only [beside, List.mem_cons, List.mem_append] at h
    rw [plug, ih fun a ha => h a (.inr (.inr ha)), find?_append,
      find?_eq_none fun a ha => h a (.inr (.inl (.inl ha)))]
    have hr := find?_eq_none fun a ha => h a (.inr (.inl (.inr ha)))
    cases hf : f.find? p <;> simp [find?, h fr.node (.inl rfl), hr, hf]

theorem pathUnder_plug {spine : List (Frame α)} (h : ∀ a ∈ beside spine, p a = false)
    (f : Forest α) (above : List α) :
    (plug spine f).pathUnder p above = f.pathUnder p (spine.map Frame.node ++ above) := by
  induction spine generalizing f with
  | nil => rfl
  | cons fr outer ih =>
    simp only [beside, List.mem_cons, List.mem_append] at h
    rw [plug, ih fun a ha => h a (.inr (.inr ha)),
      pathUnder_append_of_left fun a ha => h a (.inr (.inl (.inl ha)))]
    have hr := pathUnder_eq_nil fun a ha => h a (.inr (.inl (.inr ha)))
    simp only [pathUnder, h fr.node (.inl rfl), hr, Bool.false_eq_true, if_false, List.map_cons,
      List.cons_append]
    split <;> simp_all

theorem mapChildren_plug {spine : List (Frame α)} (h : ∀ a ∈ beside spine, p a = false)
    (g : Forest α → Forest α) (f : Forest α) :
    (plug spine f).mapChildren p g = plug spine (f.mapChildren p g) := by
  induction spine generalizing f with
  | nil => rfl
  | cons fr outer ih =>
    simp only [beside, List.mem_cons, List.mem_append] at h
    rw [plug, ih fun a ha => h a (.inr (.inr ha)), mapChildren_append,
      mapChildren_eq_self fun a ha => h a (.inr (.inl (.inl ha)))]
    have hr := mapChildren_eq_self fun a ha => h a (.inr (.inl (.inr ha)))
    simp [mapChildren, h fr.node (.inl rfl), hr, plug]

theorem promote_plug {spine : List (Frame α)} (h : ∀ a ∈ beside spine, p a = false)
    (f : Forest α) : (plug spine f).promote p = plug spine (f.promote p) := by
  induction spine generalizing f with
  | nil => rfl
  | cons fr outer ih =>
    simp only [beside, List.mem_cons, List.mem_append] at h
    rw [plug, ih fun a ha => h a (.inr (.inr ha)), promote_append,
      promote_eq_self fun a ha => h a (.inr (.inl (.inl ha))),
      promote_of_false (h fr.node (.inl rfl)),
      promote_eq_self fun a ha => h a (.inr (.inl (.inr ha)))]
    rfl

variable {fr : Frame α} {outer : List (Frame α)}

theorem Selects.find? (h : Selects p fr outer) (c : Forest α) :
    (plug (fr :: outer) c).find? p = some (fr.node, c) := by
  rw [plug, find?_plug h.outer, find?_append, find?_eq_none h.left]
  simp [Forest.find?, h.here]

theorem Selects.path (h : Selects p fr outer) (c : Forest α) :
    (plug (fr :: outer) c).path p = fr.node :: outer.map Frame.node := by
  rw [Forest.path, plug, pathUnder_plug h.outer, pathUnder_append_of_left h.left]
  simp [pathUnder, h.here]

theorem Selects.mapChildren (h : Selects p fr outer) (g : Forest α → Forest α) (c : Forest α) :
    (plug (fr :: outer) c).mapChildren p g = plug (fr :: outer) (g c) := by
  rw [plug, mapChildren_plug h.outer, mapChildren_append, mapChildren_eq_self h.left]
  simp [Forest.mapChildren, h.here, mapChildren_eq_self h.right, plug]

theorem Selects.promote (h : Selects p fr outer) (b : α) (d rest : Forest α) :
    (plug (fr :: outer) (node b d rest)).promote p =
      plug (⟨fr.left, b, fr.right⟩ :: outer) (d ++ rest) := by
  rw [plug, promote_plug h.outer, promote_append, promote_eq_self h.left,
    promote_of_true h.here, promote_eq_self h.right]
  rfl

end Plug

def Frame.map (f : α → β) (fr : Frame α) : Frame β :=
  ⟨fr.left.map f, f fr.node, fr.right.map f⟩

theorem map_plug (f : α → β) (spine : List (Frame α)) (g : Forest α) :
    (plug spine g).map f = plug (spine.map (Frame.map f)) (g.map f) := by
  induction spine generalizing g with
  | nil => rfl
  | cons fr outer ih =>
    rw [plug, ih, map_append, map_node]
    rfl

theorem map_spine_eq_self {f : α → α} {spine : List (Frame α)} (h : ∀ a ∈ beside spine, f a = a) :
    spine.map (Frame.map f) = spine := by
  induction spine with
  | nil => rfl
  | cons fr outer ih =>
    simp only [beside, List.mem_cons, List.mem_append] at h
    rw [List.map_cons, ih fun a ha => h a (.inr (.inr ha)), Frame.map, h fr.node (.inl rfl),
      map_of_forall_eq fun a ha => h a (.inr (.inl (.inl ha))),
      map_of_forall_eq fun a ha => h a (.inr (.inl (.inr ha)))]

end BracketTree.Forest
