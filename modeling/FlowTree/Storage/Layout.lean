import FlowTree.Fault
import FlowTree.Program.Func

/-!
# Frame layouts

Where each value lives in a frame.  A value without a slot is not stored at all, and several values
may share a slot.  Every slot that a layout hands out is one that it has counted.
-/

namespace FlowTree

/-- Where each value lives in a frame. -/
structure Layout where
  slotOf : ValueId → Option SlotId
  slotCount : Nat
  slotOf_lt : ∀ {v s}, slotOf v = some s → s.index < slotCount

namespace Layout

/-- A layout with `slotCount` slots and no value in any of them. -/
def ofCount (slotCount : Nat) : Layout where
  slotOf _ := none
  slotCount
  slotOf_lt h := by cases h

/-- Every value of a function in a slot of its own, the one with its number. -/
def onePerValue (f : Func) : Layout where
  slotOf v := if v.index < f.valueCount then some ⟨v.index⟩ else none
  slotCount := f.valueCount
  slotOf_lt := by
    intro v s h
    split at h
    · cases h
      assumption
    · cases h

/-- The layout with value `v` placed in `slot`; the slots are counted up to it. -/
def assign (l : Layout) (v : ValueId) (slot : SlotId) : Layout where
  slotOf w := if w = v then some slot else l.slotOf w
  slotCount := max l.slotCount (slot.index + 1)
  slotOf_lt := by
    intro w s h
    split at h
    · cases h
      omega
    · have := l.slotOf_lt h
      omega

/-- The slots of those of the given values that have one, in order. -/
def slotsOf (l : Layout) (vs : List ValueId) : List SlotId := vs.filterMap l.slotOf

/-- The slot right behind the counted ones.  No value lives there; a layout that counts as many slots
as there are identifiers has none to spare. -/
def spare (l : Layout) : Checked SlotId := Ident.ofIndex .slot l.slotCount

/-- No value lives in the spare slot. -/
theorem slotOf_ne_spare {l : Layout} {s : SlotId} (h : l.spare = .ok s) (v : ValueId) :
    l.slotOf v ≠ some s := by
  intro hv
  have hlt := l.slotOf_lt hv
  unfold spare Ident.ofIndex at h
  split at h
  · cases h
    exact Nat.lt_irrefl _ hlt
  · cases h

end Layout

end FlowTree
