/-!
# Identifiers

Blocks, values, frame slots and loops are all named by small numbers.  An `Ident k` is such a
number together with the kind of thing it names, so that a slot is never taken for a value.

Identifiers are 32 bits wide.  The width is not a field: an `Ident` is a plain number, which keeps
every later definition free of proofs, and `Ident.ofIndex` is the one place where a position is
turned into an identifier and the width is checked.

## Main definitions

* `Kind` — what an identifier names.
* `Ident k` — an identifier of kind `k`; `BlockId`, `ValueId`, `SlotId` and `LoopId` are its four
  instances.
* `Ident.text` — the written form, such as `bb3` or `%7`.
* `BlockId.entry` — the block where every function starts.
-/

namespace FlowTree

/-- What an identifier names. -/
inductive Kind where
  | block
  | value
  | slot
  | loop
deriving DecidableEq, Repr

namespace Kind

/-- What stands before the number in the written form. -/
def sigil : Kind → String
  | block => "bb"
  | value => "%"
  | slot => "$"
  | loop => "loop"

/-- The name of the identifier type in messages. -/
def label : Kind → String
  | block => "BlockId"
  | value => "ValueId"
  | slot => "SlotId"
  | loop => "LoopId"

end Kind

/-- An identifier of kind `k`: a number counted from zero. -/
@[ext] structure Ident (k : Kind) where
  /-- The position of the named thing among those of its kind. -/
  index : Nat
deriving DecidableEq, Repr, Hashable

namespace Ident

variable {k : Kind}

instance : LawfulBEq (Ident k) := inferInstance

instance : Ord (Ident k) := ⟨fun a b => compare a.index b.index⟩

/-- The written form: the sigil of the kind, then the number. -/
def text (i : Ident k) : String :=
  k.sigil ++ toString i.index

/-- The first `n` identifiers, ascending. -/
def firsts (n : Nat) : List (Ident k) :=
  (List.range n).map Ident.mk

@[simp] theorem mem_firsts {n : Nat} {i : Ident k} : i ∈ firsts n ↔ i.index < n := by
  simp only [firsts, List.mem_map, List.mem_range]
  constructor
  · rintro ⟨j, hj, rfl⟩
    exact hj
  · intro h
    exact ⟨i.index, h, rfl⟩

@[simp] theorem length_firsts (n : Nat) : (firsts n : List (Ident k)).length = n := by
  simp [firsts]

/-- The identifiers of a list in ascending order, repetitions kept. -/
def sort (is : List (Ident k)) : List (Ident k) :=
  is.mergeSort fun a b => decide (a.index ≤ b.index)

@[simp] theorem mem_sort {is : List (Ident k)} {i : Ident k} : i ∈ sort is ↔ i ∈ is := by
  simp [sort]

end Ident

abbrev BlockId := Ident .block

abbrev ValueId := Ident .value

abbrev SlotId := Ident .slot

abbrev LoopId := Ident .loop

/-- The block where every function starts. -/
def BlockId.entry : BlockId := ⟨0⟩

end FlowTree
