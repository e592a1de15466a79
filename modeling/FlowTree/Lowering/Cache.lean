import FlowTree.Refusal

/-!
# Caches of lowered functions

A cache lowers the function of each key at most once, whoever asks first.  The first caller of a key
reserves its cell and lowers; the others wait until the result is published and share it.  A refusal
is published like a tree.  When lowering is broken off by a fault the cell is free again, and the
next caller tries.

What callers do is split into the steps that happen at one moment: asking for a key, reserving its
cell, and publishing or abandoning.  Callers interleave between these steps in any way;
`Cache.getOrLower` is the interleaving in which one caller has the cache to itself.

Trees are stamped with a serial number when they are published, so that callers can tell whether
they were given the same tree or only an equal one.

## Main definitions

* `Stamped`, `Lowered` — a published tree with its serial number, and a published result.
* `CacheCell`, `Cache` — the state of one key, and of all keys.
* `Cache.request`, `Cache.reserve`, `Cache.publish`, `Cache.abandon` — the steps of a caller.
* `Cache.getOrLower`, `Cache.get?` — the two ways to ask.
-/

namespace FlowTree

/-- A tree with the number of trees that were published before it. -/
structure Stamped (τ : Type) where
  serial : Nat
  tree : τ
deriving DecidableEq, Repr

/-- A published result. -/
abbrev Lowered (τ : Type) := Except Refusal (Stamped τ)

/-- The state of one key. -/
inductive CacheCell (τ : Type) where
  | free
  | reserved (caller : Nat)
  /-- The result is there for good. -/
  | published (result : Lowered τ)

/-- The cells of all keys that were asked for. -/
structure Cache (κ τ : Type) where
  /-- The cells, in the order in which the keys were first asked for. -/
  cells : List (κ × CacheCell τ) := []
  trees : Nat := 0

/-- What a caller finds in a cell. -/
inductive Reservation (τ : Type) where
  | ready (result : Lowered τ)
  /-- The caller is to lower. -/
  | granted
  | wait

namespace Cache

variable {κ τ : Type} [DecidableEq κ]

/-- The cell of a key, if the key was asked for. -/
def cell? (c : Cache κ τ) (key : κ) : Option (CacheCell τ) := c.cells.lookup key

def size (c : Cache κ τ) : Nat := c.cells.length

def setCell (c : Cache κ τ) (key : κ) (cell : CacheCell τ) : Cache κ τ :=
  { c with cells := c.cells.map fun entry => if entry.1 = key then (key, cell) else entry }

/-! ## Steps -/

/-- Ask for a key: from now on it has a cell. -/
def request (c : Cache κ τ) (key : κ) : Cache κ τ :=
  match c.cell? key with
  | some _ => c
  | none => { c with cells := c.cells ++ [(key, .free)] }

/-- Look into the cell of a key, and reserve it if it is free. -/
def reserve (c : Cache κ τ) (key : κ) (caller : Nat) : Reservation τ × Cache κ τ :=
  match c.cell? key with
  | some (.published result) => (.ready result, c)
  | some (.reserved _) => (.wait, c)
  | some .free => (.granted, c.setCell key (.reserved caller))
  | none => (.wait, c)

/-- Publish what lowering gave; a tree gets the next serial number. -/
def publish (c : Cache κ τ) (key : κ) (result : Except Refusal τ) : Lowered τ × Cache κ τ :=
  match result with
  | .ok tree =>
    let stamped : Lowered τ := .ok { serial := c.trees, tree }
    (stamped, { c.setCell key (.published stamped) with trees := c.trees + 1 })
  | .error r => (.error r, c.setCell key (.published (.error r)))

/-- Give a reserved cell back after lowering was broken off. -/
def abandon (c : Cache κ τ) (key : κ) : Cache κ τ := c.setCell key .free

/-! ## Asking -/

/-- The published result of a key, without lowering. -/
def get? (c : Cache κ τ) (key : κ) : Option (Lowered τ) :=
  match c.cell? key with
  | some (.published result) => some result
  | _ => none

/-- What a caller was given. -/
structure Answer (τ : Type) where
  lowered : Bool
  /-- The result, or the fault that broke lowering off. -/
  result : Checked (Lowered τ)

/-- Ask for a key and lower its function if nobody has, with no other caller in between. -/
def getOrLower (c : Cache κ τ) (key : κ) (lowering : Attempt τ) : Answer τ × Cache κ τ :=
  match (c.request key).reserve key 0 with
  | (.ready result, c) => ({ lowered := false, result := .ok result }, c)
  | (.wait, c) => ({ lowered := false, result := .error .roundsUsedUp }, c)
  | (.granted, c) =>
    match lowering with
    | .error (.fault f) => ({ lowered := true, result := .error f }, c.abandon key)
    | .error (.refused r) =>
      let (result, c) := c.publish key (.error r)
      ({ lowered := true, result := .ok result }, c)
    | .ok tree =>
      let (result, c) := c.publish key (.ok tree)
      ({ lowered := true, result := .ok result }, c)

/-- Several callers ask for one key, one after the other. -/
def getOrLowerEach (c : Cache κ τ) (key : κ) (lowering : Attempt τ) :
    Nat → List (Answer τ) × Cache κ τ
  | 0 => ([], c)
  | callers + 1 =>
    let (answer, c) := c.getOrLower key lowering
    let (answers, c) := getOrLowerEach c key lowering callers
    (answer :: answers, c)

end Cache

end FlowTree
