import FlowTree.Eval.Meaning
import Mathlib.Data.List.Nodup

/-!
# Frames cell by cell

How many cells a frame has after a change, what its cells hold after several, and frames that agree
but for one slot.

## Main statements

* `Frame.cell_clearAll`, `Frame.cell_perform_of_mem`, `Frame.cell_perform_of_not_mem`,
  `Frame.cell_store_of_ne` — what the cells hold after emptying, copying and storing.
* `Frame.exists_writes_perform` — what a copy writes rests on what it reads.
* `Frame.SameBut.clearAll`, `Frame.SameBut.perform`, `Frame.SameBut.store` — agreement is kept.
-/

namespace FlowTree.Frame

variable {V : Type} {f f' : Frame V} {s t : SlotId}

/-! ## Size -/

@[simp] theorem size_put (f : Frame V) (s : SlotId) (c : Cell V) :
    (f.put s c).size = max f.size (s.index + 1) := by
  simp only [put, size, grown, Array.size_set, Array.size_append, Array.size_replicate]
  omega

@[simp] theorem size_clear (f : Frame V) (s : SlotId) : (f.clear s).size = f.size := by
  simp [clear, size]

@[simp] theorem size_clearAll (f : Frame V) (ss : List SlotId) : (f.clearAll ss).size = f.size := by
  unfold clearAll
  induction ss generalizing f with
  | nil => rfl
  | cons s rest ih => rw [List.foldl_cons, ih, size_clear]

/-! ## Cells after several changes -/

@[simp] theorem cell_clearAll (f : Frame V) (ss : List SlotId) (t : SlotId) :
    (f.clearAll ss).cell t = if t ∈ ss then .empty else f.cell t := by
  unfold clearAll
  induction ss generalizing f with
  | nil => simp
  | cons s rest ih =>
    rw [List.foldl_cons, ih, cell_clear]
    by_cases ht : t ∈ rest
    · simp [ht]
    · by_cases hst : s = t
      · simp [hst]
      · simp [ht, hst, Ne.symm hst]

theorem cell_foldl_put_of_not_mem {ws : List (SlotId × Cell V)} (ht : t ∉ ws.map Prod.fst)
    (f : Frame V) : (ws.foldl (fun g w => g.put w.1 w.2) f).cell t = f.cell t := by
  induction ws generalizing f with
  | nil => rfl
  | cons w rest ih =>
    rw [List.map_cons, List.mem_cons, not_or] at ht
    rw [List.foldl_cons, ih ht.2, cell_put, if_neg (Ne.symm ht.1)]

/-- Cells that are put one after the other, where no slot is put twice. -/
theorem cell_foldl_put_of_mem {ws : List (SlotId × Cell V)} (hn : (ws.map Prod.fst).Nodup)
    {w : SlotId × Cell V} (hw : w ∈ ws) (f : Frame V) :
    (ws.foldl (fun g w => g.put w.1 w.2) f).cell w.1 = w.2 := by
  induction ws generalizing f with
  | nil => cases hw
  | cons w' rest ih =>
    rw [List.map_cons, List.nodup_cons] at hn
    rw [List.foldl_cons]
    rcases List.mem_cons.1 hw with rfl | hw
    · rw [cell_foldl_put_of_not_mem hn.1, cell_put, if_pos rfl]
    · exact ih hn.2 hw _

theorem map_fst_writes [FrameValue V] (copy : ParallelCopy SlotId) (f : Frame V) :
    (copy.moves.map fun m => (m.dst, f.read m.src)).map Prod.fst = copy.defs := by
  simp [ParallelCopy.defs, Function.comp_def]

/-- What a copy leaves alone. -/
theorem cell_perform_of_not_mem [FrameValue V] {copy : ParallelCopy SlotId} (ht : t ∉ copy.defs)
    (f : Frame V) : (f.perform copy).cell t = f.cell t := by
  rw [perform_eq]
  exact cell_foldl_put_of_not_mem (map_fst_writes copy f ▸ ht) f

/-- What a copy writes, if no two of its moves go to one slot. -/
theorem cell_perform_of_mem [FrameValue V] {copy : ParallelCopy SlotId} (hn : copy.defs.Nodup)
    {m : Move SlotId} (hm : m ∈ copy.moves) (f : Frame V) :
    (f.perform copy).cell m.dst = f.read m.src := by
  rw [perform_eq]
  exact cell_foldl_put_of_mem (w := (m.dst, f.read m.src)) (map_fst_writes copy f ▸ hn)
    (List.mem_map.2 ⟨m, hm, rfl⟩) f

/-- On frames that agree where a copy reads, it writes the same. -/
theorem exists_writes_perform [FrameValue V] {copy : ParallelCopy SlotId}
    (h : ∀ s ∈ copy.uses, f.cell s = f'.cell s) :
    ∃ ws : List (SlotId × Cell V), ws.map Prod.fst = copy.defs ∧
      f.perform copy = ws.foldl (fun g w => g.put w.1 w.2) f ∧
      f'.perform copy = ws.foldl (fun g w => g.put w.1 w.2) f' := by
  have hread : ∀ m ∈ copy.moves, f.read m.src = f'.read m.src := by
    intro m hm
    cases hsrc : m.src with
    | const c => rfl
    | loc s => exact h s (List.mem_filterMap.2 ⟨m, hm, by simp [hsrc, Source.loc?]⟩)
  refine ⟨copy.moves.map fun m => (m.dst, f'.read m.src), map_fst_writes copy f', ?_, perform_eq f' copy⟩
  rw [perform_eq, List.map_congr_left fun m hm => by rw [hread m hm]]

@[simp] theorem perform_empty [FrameValue V] (f : Frame V) : f.perform ∅ = f := by
  rw [perform_eq]
  rfl

/-- Putting cells shrinks no frame. -/
theorem size_le_foldl_put (ws : List (SlotId × Cell V)) (f : Frame V) :
    f.size ≤ (ws.foldl (fun g w => g.put w.1 w.2) f).size := by
  induction ws generalizing f with
  | nil => exact Nat.le_refl _
  | cons w rest ih =>
    rw [List.foldl_cons]
    refine Nat.le_trans ?_ (ih _)
    rw [size_put]
    omega

theorem size_le_perform [FrameValue V] (f : Frame V) (copy : ParallelCopy SlotId) :
    f.size ≤ (f.perform copy).size := by
  rw [perform_eq]
  exact size_le_foldl_put _ f

/-! ## Stores -/

section Stores

variable {layout : Layout}

/-- A result goes to the slot of its value and nowhere else. -/
theorem cell_store_of_ne {v : Option ValueId} (h : v.bind layout.slotOf ≠ some t) (f : Frame V)
    (x : Option V) : (f.store layout v x).cell t = f.cell t := by
  unfold store
  split
  · rename_i s y hs
    have hne : s ≠ t := fun he => h (he ▸ hs)
    rw [set, cell_put, if_neg hne]
  · rfl

theorem size_le_store (f : Frame V) (v : Option ValueId) (x : Option V) :
    f.size ≤ (f.store layout v x).size := by
  unfold store
  split
  · rw [set, size_put]
    omega
  · exact Nat.le_refl _

theorem size_le_storeArgs (f : Frame V) (params : List ValueId) (args : List V) :
    f.size ≤ (f.storeArgs layout params args).size := by
  unfold storeArgs
  generalize params.zip args = sets
  induction sets generalizing f with
  | nil => exact Nat.le_refl _
  | cons p rest ih => exact Nat.le_trans (f.size_le_store _ _) (ih _)

end Stores

/-! ## Frames that agree but for one slot -/

/-- The frames have the same size and the same cells, but for the exit slot if there is one. -/
structure SameBut (exit : Option SlotId) (f f' : Frame V) : Prop where
  size : f.size = f'.size
  cell : ∀ s, exit ≠ some s → f.cell s = f'.cell s

namespace SameBut

variable {exit : Option SlotId}

theorem refl (exit : Option SlotId) (f : Frame V) : SameBut exit f f := ⟨rfl, fun _ _ => rfl⟩

theorem put (h : SameBut exit f f') (s : SlotId) (c : Cell V) :
    SameBut exit (f.put s c) (f'.put s c) := by
  refine ⟨by simp [h.size], fun t ht => ?_⟩
  rw [cell_put, cell_put, h.cell t ht]

theorem clearAll (h : SameBut exit f f') (ss : List SlotId) :
    SameBut exit (f.clearAll ss) (f'.clearAll ss) := by
  refine ⟨by simp [h.size], fun t ht => ?_⟩
  rw [cell_clearAll, cell_clearAll, h.cell t ht]

theorem store {layout : Layout} (h : SameBut exit f f') (v : Option ValueId) (x : Option V) :
    SameBut exit (f.store layout v x) (f'.store layout v x) := by
  unfold Frame.store
  split
  · exact h.put _ _
  · exact h

/-- A copy that does not read the exit slot keeps agreement. -/
theorem perform [FrameValue V] (h : SameBut exit f f') {copy : ParallelCopy SlotId}
    (hcopy : ∀ s ∈ copy.uses, exit ≠ some s) : SameBut exit (f.perform copy) (f'.perform copy) := by
  obtain ⟨ws, _, hf, hf'⟩ := exists_writes_perform fun s hs => h.cell s (hcopy s hs)
  have hputs : ∀ (ws : List (SlotId × Cell V)) {f f' : Frame V}, SameBut exit f f' →
      SameBut exit (ws.foldl (fun g w => g.put w.1 w.2) f)
        (ws.foldl (fun g w => g.put w.1 w.2) f') := by
    intro ws
    induction ws with
    | nil => exact fun h => h
    | cons w rest ih => exact fun h => ih (h.put w.1 w.2)
  rw [hf, hf']
  exact hputs ws h

end SameBut

end FlowTree.Frame
