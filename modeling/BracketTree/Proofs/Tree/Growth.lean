import BracketTree.Proofs.Tree.Scopes

/-! Trees that differ in what stands last under one node. All other nodes keep what they hold, their
children and their ancestors. The ids of the nodes that are new were never used before. -/

namespace BracketTree
open Forest
set_option autoImplicit false

universe u

namespace Forest
variable {α : Type u} {p : α → Bool}

/-- The first node that satisfies `p`, with the top nodes under it. -/
def glance (p : α → Bool) (f : Forest α) : Option (α × List α) :=
  (f.find? p).map fun r => (r.1, r.2.roots)

theorem glance_append (f g : Forest α) : (f ++ g).glance p = (f.glance p).or (g.glance p) := by
  rw [glance, find?_append, glance, glance]
  cases f.find? p <;> rfl

theorem glance_node (a : α) (c s : Forest α) : (node a c s).glance p =
    if p a then some (a, c.roots) else (c.glance p).or (s.glance p) := by
  rw [glance, find?, glance, glance]
  split
  · rfl
  · cases c.find? p <;> rfl

theorem glance_eq_none {f : Forest α} (h : ∀ a ∈ f.preorder, p a = false) :
    f.glance p = none := by
  rw [glance, find?_eq_none h]
  rfl

theorem glance_plug (spine : List (Frame α)) {f g : Forest α} (hr : f.roots = g.roots)
    (h : f.glance p = g.glance p) : (plug spine f).glance p = (plug spine g).glance p := by
  induction spine generalizing f g with
  | nil => exact h
  | cons fr outer ih =>
    apply ih
    · simp
    · rw [glance_append, glance_append, glance_node, glance_node, hr, h]

theorem pathUnder_append (f g : Forest α) (above : List α) : (f ++ g).pathUnder p above =
    match f.pathUnder p above with
    | [] => g.pathUnder p above
    | up => up := by
  induction f with
  | nil => rfl
  | node a c s _ hs =>
    rw [node_append, pathUnder, pathUnder, hs]
    split
    · rfl
    · cases c.pathUnder p (a :: above) <;> rfl

theorem pathUnder_plug_congr (spine : List (Frame α)) {f g : Forest α}
    (h : ∀ above, f.pathUnder p above = g.pathUnder p above) (above : List α) :
    (plug spine f).pathUnder p above = (plug spine g).pathUnder p above := by
  induction spine generalizing f g with
  | nil => exact h above
  | cons fr outer ih =>
    apply ih
    intro above
    rw [pathUnder_append, pathUnder_append, pathUnder, pathUnder, h]

end Forest

namespace Tree

variable {t u : Tree} {fr fr' : Frame Node} {outer outer' : List (Frame Node)}
  {c c' s : Forest Node}

theorem get?_eq_glance (t : Tree) (id : NodeId) :
    t.get? id = (t.nodes.glance (Node.hasId id)).map Prod.fst := by
  rw [get?, glance, subtree?, Option.map_map]
  rfl

theorem children_eq_glance (t : Tree) (id : NodeId) :
    t.children id = ((t.nodes.glance (Node.hasId id)).elim [] Prod.snd).map Node.id := by
  rw [children, below, glance, subtree?]
  cases t.nodes.find? (Node.hasId id) <;> rfl

/-- `u` has every node of `t`, with the same children, save those of the node `focus`, and the same
ancestors. -/
structure GrowsAt (t u : Tree) (focus : NodeId) : Prop where
  kept : ∀ id n, t.get? id = some n → u.get? id = some n
  lineage : ∀ id, t.contains id = true → u.lineage id = t.lineage id
  children : ∀ id, t.contains id = true → id ≠ focus → u.children id = t.children id

theorem not_mem_ids_of_plug (hn : u.ids.Nodup) (ht : t.nodes = plug (fr :: outer) c)
    (hu : u.nodes = plug (fr :: outer) (c ++ s)) {n : Node} (hm : n ∈ s.preorder) :
    n.id ∉ t.ids := by
  intro hid
  rw [ids, ht, ((preorder_plug_perm _ _).map _).mem_iff, List.map_append, List.mem_append] at hid
  rw [nodup_ids_plug hu, preorder_append, List.append_assoc, List.map_append, List.map_append,
    List.nodup_append, List.nodup_append] at hn
  obtain ⟨-, ⟨-, -, hside⟩, hleft⟩ := hn
  have hs : n.id ∈ s.preorder.map Node.id := List.mem_map_of_mem hm
  rcases hid with hid | hid
  · exact hleft _ hid _ (List.mem_append_left _ hs) rfl
  · exact hside _ hs _ hid rfl

theorem growsAt_of_plug (hn : u.ids.Nodup) (htn : t.ids.Nodup) (ht : t.nodes = plug (fr :: outer) c)
    (hu : u.nodes = plug (fr :: outer) (c ++ s)) : t.GrowsAt u fr.node.id := by
  have hnew : ∀ id, t.contains id = true → ∀ n ∈ s.preorder, Node.hasId id n = false := by
    intro id hid n hm
    rw [hasId_eq_false_iff]
    rintro rfl
    exact not_mem_ids_of_plug hn ht hu hm ((contains_iff_mem_ids htn _).mp hid)
  have hglance : ∀ id, t.contains id = true → id ≠ fr.node.id →
      u.nodes.glance (Node.hasId id) = t.nodes.glance (Node.hasId id) := by
    intro id hid hne
    rw [hu, ht]
    refine glance_plug outer (by simp) ?_
    rw [glance_append, glance_append, glance_node, glance_node, glance_append,
      glance_eq_none (hnew id hid), Option.or_none,
      if_neg (by simpa using fun he => hne he.symm),
      if_neg (by simpa using fun he => hne he.symm)]
  refine ⟨fun id n hg => ?_, fun id hid => ?_, fun id hid hne => ?_⟩
  · by_cases hne : id = fr.node.id
    · subst hne
      rw [get?_focus hn hu, ← get?_focus htn ht, hg]
    · rw [get?_eq_glance, hglance id (by rw [contains, hg]; rfl) hne, ← get?_eq_glance, hg]
  · rw [Tree.lineage, Tree.lineage, hu, ht]
    refine pathUnder_plug_congr (fr :: outer) (fun above => ?_) []
    rw [pathUnder_append, pathUnder_eq_nil (hnew id hid)]
    cases c.pathUnder (Node.hasId id) above <;> rfl
  · rw [children_eq_glance, hglance id hid hne, ← children_eq_glance]

theorem children_of_plug (hn : u.ids.Nodup) (htn : t.ids.Nodup)
    (ht : t.nodes = plug (fr :: outer) c) (hu : u.nodes = plug (fr :: outer) (c ++ s)) :
    u.children fr.node.id = t.children fr.node.id ++ s.roots.map Node.id := by
  rw [children_focus hn hu, children_focus htn ht, roots_append, List.map_append]

/-! ## The spine of a node -/

/-- A forest whose ids are distinct splits at a top node in one way only. -/
theorem split_unique {left left' right right' : Forest Node} {n : Node}
    (hn : ((left ++ .node n c right).roots.map Node.id).Nodup)
    (he : left ++ .node n c right = left' ++ .node n c' right') :
    left = left' ∧ c = c' ∧ right = right' := by
  induction left generalizing left' with
  | nil =>
    cases left' with
    | nil =>
      obtain ⟨-, rfl, rfl⟩ := Forest.node.inj he
      exact ⟨rfl, rfl, rfl⟩
    | node m d rest =>
      rw [he] at hn
      obtain ⟨rfl, -, -⟩ := Forest.node.inj he
      simp at hn
  | node m d rest _ ih =>
    rw [node_append, roots_node, List.map_cons, List.nodup_cons] at hn
    cases left' with
    | nil =>
      obtain ⟨rfl, -, -⟩ := Forest.node.inj he
      simp at hn
    | node m' d' rest' =>
      obtain ⟨rfl, rfl, hrest⟩ := Forest.node.inj he
      obtain ⟨rfl, h⟩ := ih hn.2 hrest
      exact ⟨rfl, h⟩

theorem nodup_roots_of_plug {spine : List (Frame Node)} (hn : t.ids.Nodup)
    (h : t.nodes = plug spine c) : (c.roots.map Node.id).Nodup := by
  rw [ids, h, ((preorder_plug_perm spine c).map _).nodup_iff, List.map_append,
    List.nodup_append] at hn
  exact hn.1.sublist ((roots_sublist_preorder c).map _)

theorem plug_unique {spine spine' : List (Frame Node)} (hn : t.ids.Nodup)
    (h : t.nodes = plug spine c) (h' : t.nodes = plug spine' c')
    (hs : spine.map Frame.node = spine'.map Frame.node) : spine = spine' ∧ c = c' := by
  induction spine generalizing spine' c c' with
  | nil =>
    obtain rfl := List.map_eq_nil_iff.mp hs.symm
    exact ⟨rfl, h.symm.trans h'⟩
  | cons fr outer ih =>
    obtain ⟨⟨left', n', right'⟩, outer', rfl, hn', hs'⟩ := List.map_eq_cons_iff.mp hs.symm
    obtain rfl : n' = fr.node := hn'
    have hin : t.nodes = plug outer (fr.left ++ .node fr.node c fr.right) := h
    have hin' : t.nodes = plug outer' (left' ++ .node fr.node c' right') := h'
    obtain ⟨rfl, he⟩ := ih hin hin' hs'.symm
    obtain ⟨hl, rfl, hr⟩ := split_unique (nodup_roots_of_plug hn h) he
    refine ⟨?_, rfl⟩
    obtain ⟨left, n, right⟩ := fr
    obtain rfl : left = left' := hl
    obtain rfl : right = right' := hr
    rfl

theorem spine_unique (hn : t.ids.Nodup) (h : t.nodes = plug (fr :: outer) c)
    (h' : t.nodes = plug (fr' :: outer') c') (hid : fr.node.id = fr'.node.id) :
    fr = fr' ∧ outer = outer' ∧ c = c' := by
  have hlineage := (lineage_focus hn h).symm.trans (hid ▸ lineage_focus hn h')
  obtain ⟨hspine, rfl⟩ := plug_unique hn h h' hlineage
  obtain ⟨rfl, rfl⟩ := List.cons.inj hspine
  exact ⟨rfl, rfl, rfl⟩

/-! ## What edits leave -/

/-- `u` comes after `t`: no id and no scope is used again. -/
structure Later (t u : Tree) : Prop where
  nextId : t.nextId ≤ u.nextId
  ids : ∀ id ∈ u.ids, id ∈ t.ids ∨ t.nextId ≤ id
  scopes : ScopeTable.Extends t.scopes u.scopes

theorem Later.refl (t : Tree) : Later t t := ⟨Nat.le_refl _, fun _ => .inl, .refl _⟩

theorem Later.trans {v : Tree} (h : Later t u) (h' : Later u v) : Later t v := by
  refine ⟨h.nextId.trans h'.nextId, fun id hid => ?_,
    fun id s hs => h'.scopes id s (h.scopes id s hs)⟩
  rcases h'.ids id hid with hold | hnew
  · exact h.ids id hold
  · exact .inr (h.nextId.trans hnew)

theorem later_enterScope (t : Tree) (id : NodeId) (kind : Kind) (inherited : Option ScopeId) :
    Later t (t.enterScope id kind inherited) := by
  have hnext : (t.enterScope id kind inherited).nextId = t.nextId := by
    rw [enterScope]
    split <;> rfl
  refine ⟨Nat.le_of_eq hnext.symm, fun j hj => .inl ?_, extends_enterScope t id kind inherited⟩
  obtain ⟨m, hm, rfl⟩ := List.mem_map.mp hj
  rcases mem_enterScope hm with hold | ⟨n, hn, hid, -, hmid, -⟩
  · exact List.mem_map_of_mem hold
  · rw [hmid, ← hid]
    exact List.mem_map_of_mem hn

theorem later_modify (t : Tree) (id : NodeId) {f : Node → Node} (hf : ∀ n, (f n).id = n.id) :
    Later t (t.modify id f) :=
  ⟨Nat.le_refl _, fun _ hj => .inl (ids_modify hf t id ▸ hj), .refl _⟩

theorem later_of_subset (hsub : u.nodes.preorder ⊆ t.nodes.preorder)
    (hu : u = { t with nodes := u.nodes }) : Later t u := by
  refine ⟨?_, fun id hid => .inl (List.map_subset _ hsub hid), ?_⟩
  · rw [hu]
  · rw [hu]
    exact .refl _

theorem Edit.later (h : Edit t u) (hw : t.WellFormed) : Later t u := by
  cases h with
  | enter _ _ => exact later_enterScope ..
  | setUp => exact later_modify _ _ fun _ => rfl
  | analyse => exact later_modify _ _ fun _ => rfl
  | evaluate => exact later_modify _ _ fun _ => rfl
  | @attach n item hn hitem =>
    have hnext := (later_enterScope (t.append n.id item) t.nextId item.kind n.enclosing).nextId
    refine ⟨(Nat.le_succ _).trans hnext, fun id hid => ?_, extends_attach t n item⟩
    obtain ⟨m, hm, rfl⟩ := List.mem_map.mp hid
    rcases mem_attach hw hn hitem hm with hold | rfl
    · exact .inl (List.mem_map_of_mem hold)
    · exact .inr (Nat.le_refl _)
  | remove hu =>
    obtain ⟨hsub, he⟩ := removeFrom_subset hw.nodup hu
    exact later_of_subset hsub he
  | elide hn _ _ _ hu =>
    obtain ⟨hsub, he⟩ := elide_subset hw.nodup hn hu
    exact later_of_subset hsub he

theorem Edits.later (h : Edits t u) (hw : t.WellFormed) : Later t u := by
  induction h with
  | refl => exact .refl t
  | tail hbefore hlast ih => exact ih.trans (hlast.later (Edits.wellFormed hbefore hw))

end Tree
end BracketTree
