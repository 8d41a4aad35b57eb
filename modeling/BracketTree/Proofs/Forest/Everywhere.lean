import BracketTree.Proofs.Forest.Spine

/-! Properties of a node together with the trees under it, asked of the top nodes of a forest or of
all its nodes. -/

namespace BracketTree.Forest
set_option autoImplicit false

universe u v
variable {α : Type u} {β : Type v} {P Q : α → Forest α → Prop}

def mapRoots (f : α → α) : Forest α → Forest α
  | nil => nil
  | node a c s => node (f a) c (s.mapRoots f)

def Tops (P : α → Forest α → Prop) : Forest α → Prop
  | nil => True
  | node a c s => P a c ∧ s.Tops P

def Everywhere (P : α → Forest α → Prop) : Forest α → Prop
  | nil => True
  | node a c s => P a c ∧ c.Everywhere P ∧ s.Everywhere P

theorem everywhere_append (f g : Forest α) :
    (f ++ g).Everywhere P ↔ f.Everywhere P ∧ g.Everywhere P := by
  induction f with
  | nil => simp [Everywhere]
  | node a c s _ hs => simp [Everywhere, hs, and_assoc]

theorem Everywhere.tops {f : Forest α} (h : f.Everywhere P) : f.Tops P := by
  induction f with
  | nil => trivial
  | node a c s _ hs => exact ⟨h.1, hs h.2.2⟩

theorem everywhere_iff_tops (f : Forest α) :
    f.Everywhere P ↔ f.Tops fun a c => P a c ∧ c.Everywhere P := by
  induction f with
  | nil => rfl
  | node a c s _ hs => simp only [Everywhere, Tops, hs, and_assoc]

theorem tops_iff_roots (p : α → Prop) (f : Forest α) :
    (f.Tops fun a _ => p a) ↔ ∀ a ∈ f.roots, p a := by
  induction f with
  | nil => simp [Tops]
  | node a c s _ hs => simp [Tops, hs]

theorem everywhere_iff_preorder (p : α → Prop) (f : Forest α) :
    (f.Everywhere fun a _ => p a) ↔ ∀ a ∈ f.preorder, p a := by
  induction f with
  | nil => simp [Everywhere]
  | node a c s hc hs => simp [Everywhere, hc, hs, or_imp, forall_and]

theorem Everywhere.imp {f : Forest α} (h : f.Everywhere P) (hPQ : ∀ a c, P a c → Q a c) :
    f.Everywhere Q := by
  induction f with
  | nil => trivial
  | node a c s hc hs => exact ⟨hPQ a c h.1, hc h.2.1, hs h.2.2⟩

theorem Tops.imp {f : Forest α} (h : f.Tops P) (hPQ : ∀ a c, P a c → Q a c) : f.Tops Q := by
  induction f with
  | nil => trivial
  | node a c s _ hs => exact ⟨hPQ a c h.1, hs h.2⟩

theorem Tops.and {f : Forest α} (hP : f.Tops P) (hQ : f.Tops Q) :
    f.Tops fun a c => P a c ∧ Q a c := by
  induction f with
  | nil => trivial
  | node a c s _ hs => exact ⟨⟨hP.1, hQ.1⟩, hs hP.2 hQ.2⟩

theorem Tops.congr {R : α → Forest α → Prop} {f : Forest α} (hP : f.Tops P)
    (h : ∀ a c, P a c → (Q a c ↔ R a c)) : f.Tops Q ↔ f.Tops R := by
  induction f with
  | nil => rfl
  | node a c s _ hs => simp only [Tops, h a c hP.1, hs hP.2]

theorem tops_append (f g : Forest α) : (f ++ g).Tops P ↔ f.Tops P ∧ g.Tops P := by
  induction f with
  | nil => simp [Tops]
  | node a c s _ hs => simp [Tops, hs, and_assoc]

theorem tops_iff_split (f : Forest α) :
    f.Tops P ↔ ∀ left a c right, f = left ++ node a c right → P a c := by
  constructor
  · rintro h left a c right rfl
    exact ((tops_append _ _).mp h).2.1
  · intro h
    induction f with
    | nil => trivial
    | node a c s _ hs =>
      refine ⟨h .nil a c s rfl, hs ?_⟩
      rintro left b d right rfl
      exact h (.node a c left) b d right rfl

theorem tops_map (g : α → β) (P : β → Forest β → Prop) (f : Forest α) :
    (f.map g).Tops P ↔ f.Tops fun a c => P (g a) (c.map g) := by
  induction f with
  | nil => rfl
  | node a c s _ hs => simp only [map_node, Tops, hs]

theorem everywhere_mapRoots (g : α → α) (f : Forest α) :
    (f.mapRoots g).Everywhere P ↔ f.Tops fun a c => P (g a) c ∧ c.Everywhere P := by
  induction f with
  | nil => rfl
  | node a c s _ hs => simp only [Forest.mapRoots, Everywhere, Tops, hs, and_assoc]

/-- Top nodes may be changed; what stands under them stays. -/
theorem Everywhere.mapRoots {f : Forest α} {g : α → α} (h : f.Everywhere P) (hf : f.Tops Q)
    (hg : ∀ a c, P a c → Q a c → P (g a) c) : (f.mapRoots g).Everywhere P := by
  induction f with
  | nil => trivial
  | node a c s _ hs => exact ⟨hg a c h.1 hf.1, h.2.1, hs h.2.2 hf.2⟩

theorem Everywhere.of_plug (spine : List (Frame α)) {f : Forest α}
    (h : (plug spine f).Everywhere P) : f.Everywhere P := by
  induction spine generalizing f with
  | nil => exact h
  | cons fr outer ih => exact ((everywhere_append _ _).mp (ih h)).2.2.1

theorem map_mapRoots {g : α → β} {f : α → α} (h : ∀ a, g (f a) = g a) (c : Forest α) :
    (c.mapRoots f).map g = c.map g := by
  induction c with
  | nil => rfl
  | node a c s _ hs => rw [Forest.mapRoots, map_node, map_node, h, hs]

end BracketTree.Forest
