import FlowTree.Loop.Discovery

/-!
# Loop nesting

From what was discovered to loops that nest.  What the blocks reported misses blocks of an inner
loop that was complete before the outer loop was known, so every loop absorbs the loops whose
headers it holds, inner loops first.  Afterwards any two loops must be disjoint or nested.

The checks for a cycle of containment and for overlap make the result of this module right by itself.
No flow graph needs them: where the entry reports nothing, the loops can be put in order and do not
overlap after absorption (`Outlines.exists_order?_ofDiscovery`, `Outlines.Natural.clash?_eq_none`).

## Main definitions

* `Outline` — a loop's header and members.
* `Outlines.order?` — inner loops before the loops around them, or a cycle of containment.
* `Outlines.close` — members after absorption.
* `Outlines.parents` — the smallest loop around each loop.
* `Outlines.clash?` — the headers of two loops that overlap without nesting.
-/

namespace FlowTree

/-- The first of the elements for which `size` is least. -/
def smallest {α : Type} (size : α → Nat) : List α → Option α
  | [] => none
  | a :: rest =>
    match smallest size rest with
    | none => some a
    | some b => if size b < size a then some b else some a

/-- A loop's header and members. -/
structure Outline where
  id : LoopId
  header : BlockId
  /-- Its blocks, the header among them. -/
  members : BlockSet
deriving DecidableEq, Repr

/-- The outlines of all loops. -/
abbrev Outlines := Table .loop Outline

namespace Outline

/-- Whether `inner` is another loop whose header is in this loop. -/
def holds (outer inner : Outline) : Bool := inner.id ≠ outer.id && inner.header ∈ outer.members

/-- Whether the two loops are disjoint or one is inside the other. -/
def nests (a b : Outline) : Bool :=
  a.members.isDisjoint b.members || a.members.isSubset b.members || b.members.isSubset a.members

end Outline

namespace Outlines

/-- Every loop with its header and the blocks that reported it. -/
def ofDiscovery (d : Discovery) : Outlines :=
  Table.ofList <| d.headers.zipIdx.map fun (header, n) =>
    let reporting := d.reported.idents.zip d.reported.toList |>.filter fun entry => ⟨n⟩ ∈ entry.2
    { id := ⟨n⟩, header, members := IdSet.ofList (header :: reporting.map Prod.fst) }

/-- For each loop, the other loops whose headers it holds. -/
def holding (os : Outlines) : Adjacency .loop :=
  os.map fun outer => (os.toList.filter outer.holds).map Outline.id

/-- The loops, each after those whose headers it holds; or else loops that hold each other's
headers in a circle. -/
def order? (os : Outlines) : Checked (Except (List LoopId) (List LoopId)) := do
  let walk ← Walk.ofRoots os.holding os.idents
  match walk.cycle? [] with
  | some cycle => return .error cycle
  | none => return .ok walk.postorder

/-- Let every loop that holds the header of `l` absorb `l`. -/
def absorb (os : Outlines) (l : LoopId) : Checked Outlines := do
  let inner ← os.get l
  return os.map fun outer =>
    if outer.holds inner then { outer with members := outer.members ∪ inner.members } else outer

/-- Absorb all loops in the given order. -/
def close (os : Outlines) (order : List LoopId) : Checked Outlines := order.foldlM absorb os

/-- For each loop, the smallest other loop that holds its header, if there is one. -/
def parents (os : Outlines) : Table .loop (Option Outline) :=
  let sized := os.toList.map fun o => (o, o.members.card)
  os.map fun inner =>
    (smallest Prod.snd (sized.filter fun entry => entry.1.holds inner)).map Prod.fst

/-- The headers of two loops that do not nest, in a list of loops with their parents: a loop and a
later one, or a loop and its parent. -/
def clash? : List (Outline × Option Outline) → Option (List BlockId)
  | [] => none
  | (a, parent) :: later =>
    match later.find? fun entry => !a.nests entry.1 with
    | some (b, _) => some [a.header, b.header]
    | none =>
      match parent.filter fun p => !a.members.isSubset p.members with
      | some p => some [a.header, p.header]
      | none => clash? later

end Outlines

end FlowTree
