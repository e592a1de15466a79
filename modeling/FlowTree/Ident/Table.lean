import FlowTree.Fault

/-!
# Tables

A `Table k α` holds one entry for each of the first `size` identifiers of kind `k`.  Reading or
replacing an entry that the table does not have is a fault, so a result that came out of a table is
evidence that the identifier was in range.
-/

namespace FlowTree

/-- One entry for each of the first `size` identifiers of kind `k`. -/
structure Table (k : Kind) (α : Type) where
  entries : Array α
deriving DecidableEq, Repr

namespace Table

variable {k : Kind} {α β : Type}

instance : EmptyCollection (Table k α) := ⟨⟨#[]⟩⟩

def size (t : Table k α) : Nat := t.entries.size

def ofList (as : List α) : Table k α := ⟨as.toArray⟩

/-- The table with the same entry for each of the first `n` identifiers. -/
def replicate (n : Nat) (a : α) : Table k α := ⟨Array.replicate n a⟩

def toList (t : Table k α) : List α := t.entries.toList

/-- The identifiers that have an entry, ascending. -/
def idents (t : Table k α) : List (Ident k) := Ident.firsts t.size

def get? (t : Table k α) (i : Ident k) : Option α := t.entries[i.index]?

/-- The entry of `i`; a fault if there is none. -/
def get (t : Table k α) (i : Ident k) : Checked α :=
  match t.get? i with
  | some a => .ok a
  | none => .error .outOfBounds

/-- The table with the entry of `i` replaced; a fault if there is none. -/
def set (t : Table k α) (i : Ident k) (a : α) : Checked (Table k α) :=
  if h : i.index < t.entries.size then .ok ⟨t.entries.set i.index a h⟩ else .error .outOfBounds

def map (f : α → β) (t : Table k α) : Table k β := ⟨t.entries.map f⟩

/-! ## Reading back -/

theorem get_eq_ok_iff {t : Table k α} {i : Ident k} {a : α} :
    t.get i = .ok a ↔ t.get? i = some a := by
  unfold get
  cases t.get? i <;> simp

theorem get?_eq_none_iff {t : Table k α} {i : Ident k} :
    t.get? i = none ↔ t.size ≤ i.index := by
  simp [get?, size]

theorem exists_get_eq_ok {t : Table k α} {i : Ident k} (h : i.index < t.size) :
    ∃ a, t.get i = .ok a := by
  cases ha : t.get? i with
  | none => exact absurd (get?_eq_none_iff.1 ha) (Nat.not_le.2 h)
  | some a => exact ⟨a, get_eq_ok_iff.2 ha⟩

theorem exists_set_eq_ok {t : Table k α} {i : Ident k} (a : α) (h : i.index < t.size) :
    ∃ t', t.set i a = .ok t' := by
  have h' : i.index < t.entries.size := h
  exact ⟨_, dif_pos h'⟩

theorem size_of_set {t t' : Table k α} {i : Ident k} {a : α} (h : t.set i a = .ok t') :
    t'.size = t.size := by
  unfold set at h
  split at h
  · cases h
    simp [size]
  · cases h

/-- **An update is seen at its identifier and nowhere else.** -/
theorem get?_of_set {t t' : Table k α} {i j : Ident k} {a : α} (h : t.set i a = .ok t') :
    t'.get? j = if i = j then some a else t.get? j := by
  unfold set at h
  split at h
  · rename_i hi
    cases h
    by_cases hij : i = j
    · subst hij
      simp [get?]
    · have : i.index ≠ j.index := fun h => hij (Ident.ext h)
      simp [get?, hij, this]
  · cases h

@[simp] theorem size_ofList (as : List α) : (ofList as : Table k α).size = as.length := by
  simp [ofList, size]

@[simp] theorem get?_ofList (as : List α) (i : Ident k) :
    (ofList as : Table k α).get? i = as[i.index]? := by
  simp [ofList, get?]

@[simp] theorem size_replicate (n : Nat) (a : α) : (replicate n a : Table k α).size = n := by
  simp [replicate, size]

@[simp] theorem size_map (f : α → β) (t : Table k α) : (t.map f).size = t.size := by
  simp [map, size]

@[simp] theorem get?_map (f : α → β) (t : Table k α) (i : Ident k) :
    (t.map f).get? i = (t.get? i).map f := by
  simp [map, get?]

end Table

end FlowTree
