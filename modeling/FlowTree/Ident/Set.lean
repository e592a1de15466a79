import FlowTree.Fault

/-!
# Sets of identifiers

An `IdSet k` is a finite set of identifiers of one kind, held as the bits of one natural number.
Two sets with the same members are the same number, so equality of sets is decided by comparing
numbers and a fixed point is recognised without a search.

A set has no bound of its own.  Where a set lives inside a fixed universe, such as the slots of one
frame, `IdSet.insertBelow` checks the bound at every insertion.

## Main definitions

* `IdSet k` — a finite set of identifiers; `∅`, `∈`, `∪`, `∩` and `\` have their usual meaning.
* `IdSet.insert`, `IdSet.erase`, `IdSet.insertBelow` — one member more or less.
* `IdSet.toList` — the members, ascending.
* `IdSet.ext` — sets with the same members are equal.
-/

namespace FlowTree

/-- A finite set of identifiers of kind `k`: bit `n` is set when identifier `n` is a member. -/
structure IdSet (k : Kind) where
  bits : Nat
deriving DecidableEq, Repr

namespace IdSet

variable {k : Kind}

instance : Membership (Ident k) (IdSet k) := ⟨fun s i => s.bits.testBit i.index = true⟩

instance (i : Ident k) (s : IdSet k) : Decidable (i ∈ s) :=
  inferInstanceAs (Decidable (s.bits.testBit i.index = true))

instance : EmptyCollection (IdSet k) := ⟨⟨0⟩⟩

instance : Union (IdSet k) := ⟨fun s t => ⟨s.bits ||| t.bits⟩⟩

instance : Inter (IdSet k) := ⟨fun s t => ⟨s.bits &&& t.bits⟩⟩

instance : SDiff (IdSet k) := ⟨fun s t => ⟨s.bits ^^^ (s.bits &&& t.bits)⟩⟩

/-- The set with the one member `i`. -/
def single (i : Ident k) : IdSet k := ⟨1 <<< i.index⟩

def insert (i : Ident k) (s : IdSet k) : IdSet k := s ∪ single i

def erase (i : Ident k) (s : IdSet k) : IdSet k := s \ single i

/-- The set with `i` added, in a universe of `width` identifiers; a fault if `i` is outside it. -/
def insertBelow (width : Nat) (i : Ident k) (s : IdSet k) : Checked (IdSet k) :=
  if i.index < width then .ok (s.insert i) else .error .outOfBounds

def ofList (is : List (Ident k)) : IdSet k := is.foldl (fun s i => s.insert i) ∅

def isEmpty (s : IdSet k) : Bool := s.bits == 0

/-- The members, ascending. -/
def toList (s : IdSet k) : List (Ident k) :=
  ((List.range (s.bits.log2 + 1)).filter s.bits.testBit).map Ident.mk

def card (s : IdSet k) : Nat := s.toList.length

def isSubset (s t : IdSet k) : Bool := (s \ t).isEmpty

def isDisjoint (s t : IdSet k) : Bool := (s ∩ t).isEmpty

/-! ## Members -/

theorem mem_def {i : Ident k} {s : IdSet k} : i ∈ s ↔ s.bits.testBit i.index = true := Iff.rfl

/-- **Sets with the same members are equal.** -/
@[ext] theorem ext {s t : IdSet k} (h : ∀ i, i ∈ s ↔ i ∈ t) : s = t := by
  obtain ⟨a⟩ := s
  obtain ⟨b⟩ := t
  congr 1
  apply Nat.eq_of_testBit_eq
  intro n
  exact Bool.eq_iff_iff.2 (h ⟨n⟩)

@[simp] theorem not_mem_empty (i : Ident k) : ¬ i ∈ (∅ : IdSet k) := by
  change ¬ Nat.testBit 0 i.index = true
  simp

@[simp] theorem mem_union {i : Ident k} {s t : IdSet k} : i ∈ s ∪ t ↔ i ∈ s ∨ i ∈ t := by
  change Nat.testBit (s.bits ||| t.bits) i.index = true ↔ _
  simp [mem_def]

@[simp] theorem mem_inter {i : Ident k} {s t : IdSet k} : i ∈ s ∩ t ↔ i ∈ s ∧ i ∈ t := by
  change Nat.testBit (s.bits &&& t.bits) i.index = true ↔ _
  simp [mem_def]

@[simp] theorem mem_sdiff {i : Ident k} {s t : IdSet k} : i ∈ s \ t ↔ i ∈ s ∧ ¬ i ∈ t := by
  change Nat.testBit (s.bits ^^^ (s.bits &&& t.bits)) i.index = true ↔ _
  simp only [mem_def, Nat.testBit_xor, Nat.testBit_and]
  cases s.bits.testBit i.index <;> cases t.bits.testBit i.index <;> decide

@[simp] theorem mem_single {i j : Ident k} : i ∈ single j ↔ i = j := by
  change Nat.testBit (1 <<< j.index) i.index = true ↔ _
  simp only [Nat.one_shiftLeft, Nat.testBit_two_pow, decide_eq_true_eq]
  exact ⟨fun h => Ident.ext h.symm, fun h => h ▸ rfl⟩

@[simp] theorem mem_insert {i j : Ident k} {s : IdSet k} : i ∈ s.insert j ↔ i = j ∨ i ∈ s := by
  simp [insert, or_comm]

@[simp] theorem mem_erase {i j : Ident k} {s : IdSet k} : i ∈ s.erase j ↔ i ∈ s ∧ i ≠ j := by
  simp [erase]

theorem insertBelow_of_lt {width : Nat} {i : Ident k} {s : IdSet k} (h : i.index < width) :
    s.insertBelow width i = .ok (s.insert i) := by
  simp [insertBelow, h]

theorem mem_foldl_insert {i : Ident k} {is : List (Ident k)} {s : IdSet k} :
    i ∈ is.foldl (fun s j => s.insert j) s ↔ i ∈ is ∨ i ∈ s := by
  induction is generalizing s with
  | nil => simp
  | cons j rest ih =>
    rw [List.foldl_cons, ih, mem_insert, List.mem_cons]
    grind

@[simp] theorem mem_ofList {i : Ident k} {is : List (Ident k)} : i ∈ ofList is ↔ i ∈ is := by
  rw [ofList, mem_foldl_insert]
  simp

@[simp] theorem isEmpty_iff {s : IdSet k} : s.isEmpty = true ↔ s = ∅ := by
  obtain ⟨a⟩ := s
  change (a == 0) = true ↔ (⟨a⟩ : IdSet k) = ⟨0⟩
  simp

@[simp] theorem mem_toList {i : Ident k} {s : IdSet k} : i ∈ s.toList ↔ i ∈ s := by
  simp only [toList, List.mem_map, List.mem_filter, List.mem_range]
  constructor
  · rintro ⟨n, ⟨_, hn⟩, rfl⟩
    exact hn
  · intro h
    refine ⟨i.index, ⟨?_, h⟩, rfl⟩
    have hle : 2 ^ i.index ≤ s.bits := Nat.ge_two_pow_of_testBit h
    have hne : s.bits ≠ 0 := by
      intro h0
      rw [h0] at hle
      exact absurd hle (Nat.not_le.2 (Nat.two_pow_pos _))
    exact Nat.lt_succ_of_le ((Nat.le_log2 hne).2 hle)

@[simp] theorem isSubset_iff {s t : IdSet k} : s.isSubset t = true ↔ ∀ i ∈ s, i ∈ t := by
  simp only [isSubset, isEmpty_iff]
  constructor
  · intro h i hs
    cases Decidable.em (i ∈ t) with
    | inl ht => exact ht
    | inr ht => exact absurd (h ▸ mem_sdiff.2 ⟨hs, ht⟩) (not_mem_empty i)
  · intro h
    ext i
    simp only [mem_sdiff, not_mem_empty, iff_false]
    exact fun ⟨hs, ht⟩ => ht (h i hs)

@[simp] theorem isDisjoint_iff {s t : IdSet k} : s.isDisjoint t = true ↔ ∀ i ∈ s, ¬ i ∈ t := by
  simp only [isDisjoint, isEmpty_iff]
  constructor
  · intro h i hs ht
    exact absurd (h ▸ mem_inter.2 ⟨hs, ht⟩) (not_mem_empty i)
  · intro h
    ext i
    simp only [mem_inter, not_mem_empty, iff_false]
    exact fun ⟨hs, ht⟩ => h i hs ht

end IdSet

end FlowTree
