import FlowTree.Proofs.EdgeMoves
import FlowTree.Proofs.Frames

/-!
# Copies on slots

A copy between values, performed on the slots of a frame.  A destination without a slot is not
written; a source without a slot reads as undefined; a move between values in one slot is left out.
All the same, where no two destinations share a slot, every destination that has one ends up with what
its source held before, and no other slot changes.

The order of the moves does not matter: the writes go to different slots, so they commute, and the
frames that they leave are equal, down to their size.

## Main statements

* `Frame.cell_perform_onSlots`, `Frame.cell_perform_onSlots_of_ne` — what the copy writes and leaves.
* `Frame.put_comm`, `Frame.perform_perm` — the order of the moves.
* `Frame.perform_onSlots` — a copy on slots does what the copy between values says.
-/

namespace FlowTree

variable {layout : Layout} {c c' : ParallelCopy ValueId} {m : Move ValueId} {s t : SlotId}

/-- The slots that are written are slots of destinations. -/
theorem ParallelCopy.exists_of_mem_defs_onSlots (h : s ∈ (c.onSlots layout).defs) :
    ∃ m ∈ c.moves, layout.slotOf m.dst = some s ∧ slotMove? layout m ≠ none := by
  obtain ⟨m', hm', rfl⟩ := List.mem_map.1 h
  obtain ⟨m, hm, hmove⟩ := List.mem_filterMap.1 hm'
  exact ⟨m, hm, (slotMove?_cases hmove).1, by simp [hmove]⟩

namespace Frame

variable {V : Type} [FrameValue V]

open ParallelCopy

/-- What the source of a move between values holds: a constant itself, a value what is in its slot,
and a value without a slot the undefined constant. -/
def held (f : Frame V) (layout : Layout) : Source ValueId → Cell V
  | .loc v => ((layout.slotOf v).map f.cell).getD (.value (FrameValue.ofConstant .undefined))
  | .const c => .value (FrameValue.ofConstant c)

/-! ## What is written -/

theorem read_slotSource_eq_held (f : Frame V) (layout : Layout) (src : Source ValueId) :
    f.read (slotSource layout src) = f.held layout src := by
  cases src with
  | const c => rfl
  | loc v =>
    simp only [slotSource, held]
    cases layout.slotOf v <;> rfl

/-- **A destination with a slot gets what its source held.** -/
theorem cell_perform_onSlots (hn : c.defs.Nodup) (hsep : layout.Separates c.defs)
    (hm : m ∈ c.moves) (hs : layout.slotOf m.dst = some s) (f : Frame V) :
    (f.perform (c.onSlots layout)).cell s = f.held layout m.src := by
  rw [← read_slotSource_eq_held]
  cases hmove : slotMove? layout m with
  | some m' =>
    obtain ⟨hdst, hsrc, _⟩ := slotMove?_cases hmove
    obtain rfl := Option.some.inj (hdst.symm.trans hs)
    rw [← hsrc]
    exact cell_perform_of_mem (nodup_defs_onSlots hn hsep) (List.mem_filterMap.2 ⟨m, hm, hmove⟩) f
  | none =>
    -- the move would stay in its slot, and no other move goes there
    rw [slotSource_of_slotMove?_eq_none hmove hs]
    refine cell_perform_of_not_mem (fun hmem => ?_) f
    obtain ⟨other, hother, hslot, hne⟩ := exists_of_mem_defs_onSlots hmem
    have hdst := hsep (List.mem_map_of_mem hother) (List.mem_map_of_mem hm) hslot hs
    rw [List.inj_on_of_nodup_map hn hother hm hdst] at hne
    exact hne hmove

/-- A slot of no destination is left alone. -/
theorem cell_perform_onSlots_of_ne (h : ∀ v ∈ c.defs, layout.slotOf v ≠ some s) (f : Frame V) :
    (f.perform (c.onSlots layout)).cell s = f.cell s := by
  refine cell_perform_of_not_mem (fun hmem => ?_) f
  obtain ⟨m, hm, hslot, _⟩ := exists_of_mem_defs_onSlots hmem
  exact h m.dst (List.mem_map_of_mem hm) hslot

/-! ## The order of the moves -/

omit [FrameValue V] in
theorem ext_cell {f f' : Frame V} (hsize : f.size = f'.size) (hcell : ∀ s, f.cell s = f'.cell s) :
    f = f' := by
  obtain ⟨cells⟩ := f
  obtain ⟨cells'⟩ := f'
  congr 1
  refine Array.ext hsize fun i hi hi' => ?_
  simpa [cell, hi, hi'] using hcell ⟨i⟩

omit [FrameValue V] in
/-- Writes to different slots commute. -/
theorem put_comm (hne : s ≠ t) (f : Frame V) (x y : Cell V) :
    (f.put s x).put t y = (f.put t y).put s x := by
  refine ext_cell ?_ fun r => ?_
  · simp only [size_put]
    omega
  · simp only [cell_put]
    by_cases hs : s = r
    · by_cases ht : t = r
      · exact absurd (hs.trans ht.symm) hne
      · simp [hs, ht]
    · simp [hs]

/-- **The order of the moves of a copy does not matter**, if no slot is written twice. -/
theorem perform_perm {copy copy' : ParallelCopy SlotId} (hn : copy.defs.Nodup)
    (hp : copy.moves.Perm copy'.moves) (f : Frame V) : f.perform copy = f.perform copy' := by
  rw [perform_eq, perform_eq]
  refine (hp.map _).foldl_eq' (fun w hw w' hw' g => ?_) f
  obtain ⟨m, hm, rfl⟩ := List.mem_map.1 hw
  obtain ⟨m', hm', rfl⟩ := List.mem_map.1 hw'
  by_cases he : m.dst = m'.dst
  · rw [List.inj_on_of_nodup_map hn hm hm' he]
  · exact put_comm he g _ _

/-- **A copy on slots does what the copy between values says.**  The destinations are distinct, and no
two of them share a slot.  Then, in whatever order the moves come, the slot of a destination ends up
with what its source held in the frame before, and every slot of no destination keeps what it held,
where a slot past the end holds nothing.  The frame that is left does not depend on the order.  What
is only read may share a slot with anything. -/
theorem perform_onSlots (hn : c.defs.Nodup) (hsep : layout.Separates c.defs)
    (hp : c'.moves.Perm c.moves) (f : Frame V) :
    (∀ m ∈ c.moves, ∀ s, layout.slotOf m.dst = some s →
      (f.perform (c'.onSlots layout)).cell s = f.held layout m.src) ∧
    (∀ s, (∀ v ∈ c.defs, layout.slotOf v ≠ some s) →
      (f.perform (c'.onSlots layout)).cell s = f.cell s) ∧
    f.perform (c'.onSlots layout) = f.perform (c.onSlots layout) := by
  have hsame : f.perform (c'.onSlots layout) = f.perform (c.onSlots layout) :=
    (perform_perm (nodup_defs_onSlots hn hsep) (hp.symm.filterMap _) f).symm
  refine ⟨fun m hm s hs => ?_, fun s hs => ?_, hsame⟩
  · rw [hsame]
    exact cell_perform_onSlots hn hsep hm hs f
  · rw [hsame]
    exact cell_perform_onSlots_of_ne hs f

/-- Two values that trade places, one of them past the end of a short frame; a destination and a
source without slots; a constant; and two values that share a slot. -/
def shuffle : ParallelCopy ValueId where
  moves := [⟨⟨0⟩, .loc ⟨1⟩⟩, ⟨⟨1⟩, .loc ⟨0⟩⟩, ⟨⟨2⟩, .loc ⟨0⟩⟩, ⟨⟨3⟩, .loc ⟨9⟩⟩, ⟨⟨4⟩, .const (.int 7)⟩,
    ⟨⟨5⟩, .loc ⟨6⟩⟩]

/-- The slots of the values of `shuffle`. -/
def shuffleLayout : Layout :=
  [(⟨0⟩, ⟨4⟩), (⟨1⟩, ⟨1⟩), (⟨3⟩, ⟨3⟩), (⟨4⟩, ⟨6⟩), (⟨5⟩, ⟨0⟩), (⟨6⟩, ⟨0⟩)].foldl
    (fun l p => l.assign p.1 p.2) (.ofCount 0)

theorem shuffle_perform : shuffle.defs.Nodup ∧ shuffleLayout.Separates shuffle.defs ∧
    ∃ f : Frame Constant,
      f = (Frame.mk #[.value (.int 10), .value (.int 11)]).perform
        (onSlots shuffleLayout ⟨shuffle.moves.reverse⟩) ∧
      f.cell ⟨4⟩ = .value (.int 11) ∧ f.cell ⟨1⟩ = .empty ∧ f.cell ⟨3⟩ = .value .undefined ∧
      f.cell ⟨6⟩ = .value (.int 7) ∧ f.cell ⟨0⟩ = .value (.int 10) ∧ f.cell ⟨5⟩ = .empty := by
  have hn : shuffle.defs.Nodup := by decide
  have hinj : ∀ v ∈ shuffle.defs, ∀ w ∈ shuffle.defs,
      shuffleLayout.slotOf v = shuffleLayout.slotOf w → shuffleLayout.slotOf v = none ∨ v = w := by
    decide
  have hsep : shuffleLayout.Separates shuffle.defs := fun v hv w hw s hvs hws =>
    (hinj v hv w hw (hvs.trans hws.symm)).resolve_left (by simp [hvs])
  obtain ⟨hmoved, hkept, _⟩ := perform_onSlots hn hsep (List.reverse_perm shuffle.moves)
    (⟨#[.value (.int 10), .value (.int 11)]⟩ : Frame Constant)
  refine ⟨hn, hsep, _, rfl, ?_, ?_, ?_, ?_, ?_, ?_⟩
  · exact hmoved ⟨⟨0⟩, .loc ⟨1⟩⟩ (by decide) ⟨4⟩ (by decide)
  · exact hmoved ⟨⟨1⟩, .loc ⟨0⟩⟩ (by decide) ⟨1⟩ (by decide)
  · exact hmoved ⟨⟨3⟩, .loc ⟨9⟩⟩ (by decide) ⟨3⟩ (by decide)
  · exact hmoved ⟨⟨4⟩, .const (.int 7)⟩ (by decide) ⟨6⟩ (by decide)
  · exact hmoved ⟨⟨5⟩, .loc ⟨6⟩⟩ (by decide) ⟨0⟩ (by decide)
  · exact hkept ⟨5⟩ (by decide)

end Frame

end FlowTree
