import FlowTree.Ident.Basic

/-!
# Faults

A *fault* is a broken precondition: a look-up past the end of a table, an identifier that does not
fit its width, a draft edited out of order.  A fault is not an answer about the input; a function
that is wrong is refused (`Refusal`), and only misuse faults.

Every operation that has a precondition checks it and says so in its type, `Checked α`.  That an
analysis never faults is then a statement about its result and not a promise about its code.

## Main definitions

* `Fault`, `Fault.message` — the kinds of broken precondition and their wording.
* `Checked α` — a result, or the fault that prevented it.
* `Ident.ofIndex` — the identifier of a position, if the position fits.
* `bind_eq_ok`, `pure_eq_ok` — when a chain of steps has a result.
-/

namespace FlowTree

/-- A broken precondition. -/
inductive Fault where
  /-- The position does not fit an identifier of this kind. -/
  | tooWide (kind : Kind) (index : Nat)
  | outOfBounds
  | noSuchBlock (block : BlockId) (count : Nat)
  | latePhi (block : BlockId)
  | terminatedTwice (block : BlockId)
  | valuesUsedUp
  /-- More cells were asked for than memory can address. -/
  | tooLarge
  /-- Code handed in by the caller gave up, in its own words. -/
  | raised (words : String)
  /-- An iteration went past the number of rounds that was computed for it. -/
  | roundsUsedUp
deriving DecidableEq, Repr

def Fault.message : Fault → String
  | tooWide kind index => s!"{kind.label} index {index} exceeds u32::MAX"
  | outOfBounds => "index out of bounds"
  | noSuchBlock block count => s!"{block.text} out of bounds (have {count} blocks)"
  | latePhi block => s!"φ emitted after a non-φ instruction in {block.text}"
  | terminatedTwice block => s!"block {block.text} already terminated"
  | valuesUsedUp => "attempt to add with overflow"
  | tooLarge => "capacity overflow"
  | raised words => words
  | roundsUsedUp => "rounds used up"

/-- A result, or the fault that prevented it. -/
abbrev Checked := Except Fault

section Results

variable {ε α β : Type}

/-- A chain of steps has a result when every step has one. -/
theorem bind_eq_ok {x : Except ε α} {f : α → Except ε β} {b : β} :
    (x >>= f) = .ok b ↔ ∃ a, x = .ok a ∧ f a = .ok b := by
  cases x with
  | error e => simp [bind, Except.bind]
  | ok a => simp [bind, Except.bind]

@[simp] theorem ok_bind {a : α} {f : α → Except ε β} : ((.ok a : Except ε α) >>= f) = f a := rfl

@[simp] theorem pure_eq_ok {a b : α} : (pure a : Except ε α) = .ok b ↔ a = b := by
  simp [pure, Except.pure]

end Results

namespace Ident

/-- How many identifiers there are of one kind. -/
def capacity : Nat := 1 <<< 32

/-- The identifier of a position, if it fits. -/
def ofIndex (k : Kind) (index : Nat) : Checked (Ident k) :=
  if index < capacity then .ok ⟨index⟩ else .error (.tooWide k index)

theorem ofIndex_of_lt {k : Kind} {index : Nat} (h : index < capacity) :
    ofIndex k index = .ok ⟨index⟩ := by
  simp [ofIndex, h]

end Ident

end FlowTree
