import BracketTree.Arena.Evaluate
import BracketTree.Arena.Insert

/-! Runs of actions on a table: what comes of an action, and the table that it leaves. There is one rule
for each way in which actions are put together, and one for each action on a single slot. -/

namespace BracketTree
set_option autoImplicit false

namespace Cell

def relist (children : List NodeId) (c : Cell) : Cell := { c with children := children }

def under (parent : NodeId) (c : Cell) : Cell := { c with parent := some parent }

end Cell

namespace Arena

/-- The process, started in the state `s`, ends with the outcome `r` in the state `s'`. -/
def Runs {σ ε α : Type} (x : Process σ ε α) (s : σ) (r : Except ε α) (s' : σ) : Prop :=
  x.run.run s = some (r, s')

section Rules
variable {σ ε ε' α β : Type} {x : Process σ ε α} {f : α → Process σ ε β} {s s' s'' : σ}
  {r : Except ε β} {v : α} {e : ε}

theorem runs_pure (v : α) (s : σ) : Runs (pure v : Process σ ε α) s (.ok v) s := rfl

theorem runs_throw (e : ε) (s : σ) : Runs (throw e : Process σ ε α) s (.error e) s := rfl

theorem runs_get (s : σ) : Runs (get : Process σ ε σ) s (.ok s) s := rfl

theorem runs_modify (g : σ → σ) (s : σ) : Runs (modify g : Process σ ε PUnit) s (.ok ()) (g s) := rfl

theorem Runs.bind (hx : Runs x s (.ok v) s') (hf : Runs (f v) s' r s'') : Runs (x >>= f) s r s'' := by
  rw [Runs] at hx hf ⊢
  rw [ExceptT.run_bind, StateT.run_bind, hx]
  exact hf

theorem Runs.bind_error (hx : Runs x s (.error e) s') : Runs (x >>= f) s (.error e) s' := by
  rw [Runs] at hx ⊢
  rw [ExceptT.run_bind, StateT.run_bind, hx]
  rfl

theorem Runs.result_unique {r r' : Except ε α} (h : Runs x s r s') (h' : Runs x s r' s'') :
    r = r' ∧ s' = s'' := by
  rw [Runs] at h h'
  simpa using h.symm.trans h'

/-- The rest of a list is worked through only when the first part has succeeded. -/
theorem runs_forM_cons {g : β → Process σ ε PUnit} {b : β} {rest : List β} {r : Except ε PUnit}
    (hb : Runs (g b) s (.ok ()) s') (hrest : Runs (rest.forM g) s' r s'') :
    Runs ((b :: rest).forM g) s r s'' :=
  hb.bind hrest

theorem runs_forM_cons_error {g : β → Process σ ε PUnit} {b : β} {rest : List β}
    (hb : Runs (g b) s (.error e) s') : Runs ((b :: rest).forM g) s (.error e) s' :=
  hb.bind_error

theorem Runs.of_singleton {g : β → Process σ ε PUnit} {b : β} {r : Except ε PUnit}
    (h : Runs ([b].forM g) s r s') : Runs (g b) s r s' := by
  have hsame : [b].forM g = g b := bind_pure_unit
  rwa [hsame] at h

end Rules

section Lifts
variable {ε ε' α : Type} {a b : Arena}

theorem Runs.adapt {x : Action ε α} {r : Except ε α} (h : Runs x a r b) (f : ε → ε') :
    Runs (ExceptT.adapt f x : Action ε' α) a (r.mapError f) b := by
  change (Except.mapError f <$> x.run).run a = _
  rw [StateT.run_map, h]
  rfl

theorem Runs.stage {x : Action StageError α} {r : Except StageError α} (h : Runs x a r b) :
    Runs (liftM x : Action TreeError α) a (r.mapError .stage) b :=
  h.adapt _

theorem Runs.fatal {x : Action TreeError α} {r : Except TreeError α} (h : Runs x a r b) :
    Runs (liftM x : Action InsertError α) a (r.mapError .fatal) b :=
  h.adapt _

theorem Runs.stage_fatal {x : Action StageError α} {r : Except StageError α} (h : Runs x a r b) :
    Runs (liftM x : Action InsertError α) a (r.mapError fun e => .fatal (.stage e)) b := by
  have hx := h.stage.fatal
  cases r <;> exact hx

theorem Runs.outcome {x : Action ε α} {r : Except ε α} (h : Runs x a r b) :
    Runs (outcome x : Action ε' (Except ε α)) a (.ok r) b := by
  change (Except.ok <$> x.run).run a = _
  rw [StateT.run_map, h]
  rfl

theorem Runs.onTable {σ : Type} {x : Action TreeError α} {r : Except TreeError α} (h : Runs x a r b)
    (s : σ) : Runs (onTable x) (a, s) r (b, s) := by
  change (x.run.run a).bind (fun p => some (p.1, (p.2, s))) = _
  rw [h]
  rfl

end Lifts

/-! ## Slots -/

section Slots
variable {a b : Arena} {id : NodeId} {c : Cell} {o : Option Cell}

theorem ext_cell (hsize : a.slots.size = b.slots.size) (hcell : ∀ id, a.cell? id = b.cell? id)
    (hscopes : a.scopes = b.scopes) : a = b := by
  obtain ⟨slots, scopes⟩ := a
  obtain ⟨slots', scopes'⟩ := b
  obtain rfl : scopes = scopes' := hscopes
  obtain rfl : slots = slots' := by
    refine Array.ext hsize fun id h h' => ?_
    have hid := hcell id
    simpa only [cell?, Array.getElem?_eq_getElem h, Array.getElem?_eq_getElem h', Option.join_some]
      using hid
  rfl

/-- Nothing is put where the table has no slot. -/
theorem cell?_put (h : a.slots.size ≤ id → o = none) (j : NodeId) :
    (a.put id o).cell? j = if j = id then o else a.cell? j := by
  rw [cell?, put, Array.getElem?_setIfInBounds]
  by_cases hj : j = id
  · rw [if_pos hj.symm, if_pos hj]
    split
    · rfl
    · next hid => rw [h (Nat.le_of_not_lt hid)]; rfl
  · rw [if_neg (Ne.symm hj), if_neg hj, cell?]

theorem cell?_of_size_le (h : a.slots.size ≤ id) : a.cell? id = none := by
  rw [cell?, Array.getElem?_eq_none h]
  rfl

theorem cell?_push (a : Arena) (c : Option Cell) (scopes : ScopeTable) (j : NodeId) :
    (Arena.mk (a.slots.push c) scopes).cell? j = if j = a.slots.size then c else a.cell? j := by
  rw [cell?, Array.getElem?_push]
  split <;> rfl

/-- Changes what is in a slot, if anything is. -/
def alter (a : Arena) (id : NodeId) (f : Cell → Cell) : Arena := a.put id ((a.cell? id).map f)

def alterAll (a : Arena) (ids : List NodeId) (f : Cell → Cell) : Arena :=
  ids.foldl (fun a id => a.alter id f) a

def clear (a : Arena) (ids : List NodeId) : Arena := ids.foldl (fun a id => a.put id none) a

@[simp] theorem size_put (a : Arena) (id : NodeId) (o : Option Cell) :
    (a.put id o).slots.size = a.slots.size :=
  Array.size_setIfInBounds

@[simp] theorem scopes_put (a : Arena) (id : NodeId) (o : Option Cell) :
    (a.put id o).scopes = a.scopes := rfl

@[simp] theorem size_alter (a : Arena) (id : NodeId) (f : Cell → Cell) :
    (a.alter id f).slots.size = a.slots.size :=
  Array.size_setIfInBounds

@[simp] theorem scopes_alter (a : Arena) (id : NodeId) (f : Cell → Cell) :
    (a.alter id f).scopes = a.scopes := rfl

theorem alter_congr {f g : Cell → Cell} (h : a.cell? id = some c) (hfg : f c = g c) :
    a.alter id f = a.alter id g := by
  rw [alter, alter, h, Option.map_some, Option.map_some, hfg]

@[simp] theorem size_alterAll (a : Arena) (ids : List NodeId) (f : Cell → Cell) :
    (a.alterAll ids f).slots.size = a.slots.size := by
  induction ids generalizing a with
  | nil => rfl
  | cons id rest ih => exact (ih _).trans (size_alter a id f)

@[simp] theorem scopes_alterAll (a : Arena) (ids : List NodeId) (f : Cell → Cell) :
    (a.alterAll ids f).scopes = a.scopes := by
  induction ids generalizing a with
  | nil => rfl
  | cons id rest ih => exact ih _

@[simp] theorem size_clear (a : Arena) (ids : List NodeId) :
    (a.clear ids).slots.size = a.slots.size := by
  induction ids generalizing a with
  | nil => rfl
  | cons id rest ih => exact (ih _).trans Array.size_setIfInBounds

@[simp] theorem scopes_clear (a : Arena) (ids : List NodeId) : (a.clear ids).scopes = a.scopes := by
  induction ids generalizing a with
  | nil => rfl
  | cons id rest ih => exact ih _

theorem cell?_alter (a : Arena) (id : NodeId) (f : Cell → Cell) (j : NodeId) :
    (a.alter id f).cell? j = if j = id then (a.cell? j).map f else a.cell? j := by
  rw [alter, cell?_put fun h => by rw [cell?_of_size_le h, Option.map_none]]
  split
  · next hj => rw [hj]
  · rfl

theorem cell?_alterAll {ids : List NodeId} (hn : ids.Nodup) (a : Arena) (f : Cell → Cell)
    (j : NodeId) :
    (a.alterAll ids f).cell? j = if j ∈ ids then (a.cell? j).map f else a.cell? j := by
  induction ids generalizing a with
  | nil => rfl
  | cons id rest ih =>
    obtain ⟨hid, hrest⟩ := List.nodup_cons.mp hn
    have hstep := ih hrest (a.alter id f)
    rw [alterAll, List.foldl_cons, ← alterAll, hstep, cell?_alter]
    by_cases hj : j = id
    · subst hj
      simp [hid]
    · simp [hj]

theorem cell?_clear (a : Arena) (ids : List NodeId) (j : NodeId) :
    (a.clear ids).cell? j = if j ∈ ids then none else a.cell? j := by
  induction ids generalizing a with
  | nil => rfl
  | cons id rest ih =>
    rw [clear, List.foldl_cons, ← clear, ih, cell?_put fun _ => rfl]
    by_cases hj : j = id <;> simp [hj]

theorem runs_cell (h : a.cell? id = some c) : Runs (cell id) a (.ok c) a := by
  refine (runs_get a).bind ?_
  rw [h]
  exact runs_pure c a

theorem runs_cell_none (h : a.cell? id = none) :
    Runs (cell id) a (.error (.noSuchNode id)) a := by
  refine (runs_get a).bind ?_
  rw [h]
  exact runs_throw _ a

theorem runs_update (h : a.cell? id = some c) (f : Cell → Cell) :
    Runs (update id f) a (.ok ()) (a.alter id f) := by
  rw [alter, h]
  exact (runs_cell h).bind (runs_modify _ a)

theorem runs_updateAll {ids : List NodeId} (f : Cell → Cell)
    (h : ∀ id ∈ ids, (a.cell? id).isSome = true) :
    Runs (ids.forM fun id => update id f) a (.ok ()) (a.alterAll ids f) := by
  induction ids generalizing a with
  | nil => exact runs_pure _ a
  | cons id rest ih =>
    obtain ⟨c, hc⟩ := Option.isSome_iff_exists.mp (h id List.mem_cons_self)
    refine runs_forM_cons (runs_update hc f) (ih fun j hj => ?_)
    rw [cell?_alter]
    have hlive := h j (List.mem_cons_of_mem id hj)
    split
    · rwa [Option.isSome_map]
    · exact hlive

theorem runs_takeChildren (h : a.cell? id = some c) :
    Runs (takeChildren id) a (.ok c.children) (a.alter id (.relist [])) :=
  (runs_cell h).bind ((runs_update h _).bind (runs_pure _ _))

end Slots
end Arena
end BracketTree
