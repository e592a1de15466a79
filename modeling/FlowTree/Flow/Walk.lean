import FlowTree.Ident.Table

/-!
# Depth-first walks

A `Walk` is the record of a depth-first search: what the search found, successor by successor, in
the order in which it looked.  Each successor is met for the first time, or again while it is still
being explored, or again after it was finished.

The record is an ordinary tree, so whatever is to be computed along a search is a recursion on the
record.  The search itself is written once, in `Walk.explore`, and everything that follows one
search agrees on the order.

## Main definitions

* `Adjacency k` — for each identifier, the ones it leads to.
* `Walk k` — what a search found, in order.
* `Walk.explore` — the search.
* `Walk.ofRoots` — the search from a list of roots.
* `Walk.postorder` — the visited identifiers in the order in which they were finished.
* `Walk.cycle?` — the cycle that the first edge into an unfinished identifier closes.
-/

namespace FlowTree

/-- For each identifier, the ones it leads to, in order. -/
abbrev Adjacency (k : Kind) := Table k (List (Ident k))

/-- What a depth-first search found at the successors that it looked at, in order. -/
inductive Walk (k : Kind) where
  | done
  /-- `i` was met for the first time; `inner` is what was found from it, `rest` what came after. -/
  | descend (i : Ident k) (inner rest : Walk k)
  /-- `i` was met while it was still being explored. -/
  | back (i : Ident k) (rest : Walk k)
  /-- `i` was met after it was finished. -/
  | seen (i : Ident k) (rest : Walk k)
deriving DecidableEq, Repr

/-- How far a search has got with one identifier. -/
inductive Progress where
  | unvisited | active | finished
deriving DecidableEq, Repr

namespace Walk

variable {k : Kind}

/-! ## The search -/

/-- Look at the successors in a list, one after the other, and explore those that are met for the
first time.  Each round looks at one successor; running out of rounds is a fault. -/
def explore (graph : Adjacency k) :
    Nat → List (Ident k) → Table k Progress → Checked (Walk k × Table k Progress)
  | _, [], progress => .ok (.done, progress)
  | 0, _ :: _, _ => .error .roundsUsedUp
  | rounds + 1, i :: others, progress => do
    match ← progress.get i with
    | .unvisited =>
      let successors ← graph.get i
      let progress ← progress.set i .active
      let (inner, progress) ← explore graph rounds successors progress
      let progress ← progress.set i .finished
      let (rest, progress) ← explore graph rounds others progress
      return (.descend i inner rest, progress)
    | .active =>
      let (rest, progress) ← explore graph rounds others progress
      return (.back i rest, progress)
    | .finished =>
      let (rest, progress) ← explore graph rounds others progress
      return (.seen i rest, progress)

/-- Enough rounds for any search of a graph: no successor is looked at twice from the same place. -/
def roundsFor (graph : Adjacency k) (roots : List (Ident k)) : Nat :=
  roots.length + graph.toList.flatten.length

/-- The search from a list of roots, none of them visited before. -/
def ofRoots (graph : Adjacency k) (roots : List (Ident k)) : Checked (Walk k) := do
  let progress := Table.replicate graph.size Progress.unvisited
  let (walk, _) ← explore graph (roundsFor graph roots) roots progress
  return walk

/-! ## What a search tells -/

/-- The visited identifiers, the last finished first, in front of `earlier`. -/
def finished : Walk k → List (Ident k) → List (Ident k)
  | done, earlier => earlier
  | descend i inner rest, earlier => rest.finished (i :: inner.finished earlier)
  | back _ rest, earlier => rest.finished earlier
  | seen _ rest, earlier => rest.finished earlier

/-- The visited identifiers in the order in which they were finished. -/
def postorder (w : Walk k) : List (Ident k) := (w.finished []).reverse

/-- The cycle that the first edge into an unfinished identifier closes, from that identifier
onwards, if there is such an edge.  `path` holds the unfinished identifiers, the latest first. -/
def cycle? (path : List (Ident k)) : Walk k → Option (List (Ident k))
  | done => none
  | descend i inner rest => (inner.cycle? (i :: path)).or (rest.cycle? path)
  | back i _ => some (i :: (path.takeWhile (· ≠ i)).reverse)
  | seen _ rest => rest.cycle? path

/-! ## Postorder, part by part -/

theorem finished_eq (w : Walk k) (earlier : List (Ident k)) :
    w.finished earlier = w.finished [] ++ earlier := by
  induction w generalizing earlier with
  | done => rfl
  | descend i inner rest ihInner ihRest =>
    simp only [finished]
    rw [ihInner earlier, ihRest, ihRest (i :: inner.finished [])]
    simp
  | back i rest ih => exact ih earlier
  | seen i rest ih => exact ih earlier

@[simp] theorem postorder_done : (done : Walk k).postorder = [] := rfl

@[simp] theorem postorder_descend (i : Ident k) (inner rest : Walk k) :
    (descend i inner rest).postorder = inner.postorder ++ i :: rest.postorder := by
  simp only [postorder, finished]
  rw [finished_eq rest]
  simp

@[simp] theorem postorder_back (i : Ident k) (rest : Walk k) :
    (back i rest).postorder = rest.postorder := rfl

@[simp] theorem postorder_seen (i : Ident k) (rest : Walk k) :
    (seen i rest).postorder = rest.postorder := rfl

end Walk

end FlowTree
