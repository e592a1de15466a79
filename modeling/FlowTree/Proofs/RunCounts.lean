import FlowTree.Proofs.FlatDispatch
import FlowTree.Proofs.TreeShape

/-!
# What a run counts

The counters of a run are bumped by different dispatchers: blocks where they are executed, back edges
in the loop that finds its header at the first place, entries where a loop is entered as a node of
the dispatcher around it.  What they add up to does not depend on any of that.  It can be read off
the list of executed blocks and the loop forest, two neighbouring blocks at a time.

The step lemma is `Tree.At.arrive_eq`: the loops in progress at a block are the loops that hold it, so
what is counted on the way to the next block is what the forest says about the two blocks.

## Main statements

* `Tree.At.arrive_eq` — one step.
* `Tree.runFrom_counts` — a run from a block on.
* `Tree.run_counts` — a whole run.
-/

namespace FlowTree

variable {ν σ V E : Type}

/-! ## Counts of a list of blocks -/

/-- Whether going from `u` to `v` is going from inside a loop back to its header. -/
def LoopForest.isBackEdge (forest : LoopForest) (u v : BlockId) : Bool :=
  forest.loops.toList.any fun L => L.header = v && L.contains u

/-- Whether coming to `v` is entering a loop, where `before` is the block before it, if any: `v` heads
a loop that does not hold the block before. -/
def LoopForest.isEntry (forest : LoopForest) (before : Option BlockId) (v : BlockId) : Bool :=
  forest.loops.toList.any fun L => L.header = v && !before.any L.contains

/-- The counts of a run that executes the given blocks one after the other. -/
def Stats.ofBlocks (forest : LoopForest) (bs : List BlockId) : Stats where
  blocks := bs.length
  backEdges := (bs.zip bs.tail).countP fun e => forest.isBackEdge e.1 e.2
  loopEntries := ((none :: bs.map some).zip bs).countP fun e => forest.isEntry e.1 e.2

namespace Tree

variable {g : FlowGraph} {t : Tree ν} {p : Flat ν} {Ls : List Loop} {rep : BlockId → LoopNode ν}
  {forest : LoopForest} {u : BlockId}

/-! ## Steps -/

/-- At the first block there is no loop in progress. -/
theorem arrive_nil (hmem : ∀ L, L ∈ Ls ↔ L ∈ forest.loops.toList) (v : BlockId) (s : Stats) :
    s.arrive Ls [] v =
      { s with loopEntries := s.loopEntries + if forest.isEntry none v then 1 else 0 } := by
  simp [Stats.arrive, LoopForest.isEntry, hmem]

/-- **What is counted on the way to the next block.** -/
theorem At.arrive_eq {c : Cursor ν} {chain : List Loop} (hat : At p Ls rep u c chain)
    (hmem : ∀ L, L ∈ Ls ↔ L ∈ forest.loops.toList) (v : BlockId) (s : Stats) :
    s.arrive Ls chain v = { s with
      backEdges := s.backEdges + if forest.isBackEdge u v then 1 else 0
      loopEntries := s.loopEntries + if forest.isEntry (some u) v then 1 else 0 } := by
  have hback : (∃ L ∈ chain, L.header = v) ↔ forest.isBackEdge u v = true := by
    simp only [LoopForest.isBackEdge, List.any_eq_true, Bool.and_eq_true, decide_eq_true_eq,
      hat.mem_iff, hmem]
    grind
  have hentry : (∃ L ∈ Ls, L.header = v ∧ L ∉ chain) ↔ forest.isEntry (some u) v = true := by
    simp only [LoopForest.isEntry, List.any_eq_true, Bool.and_eq_true, decide_eq_true_eq,
      hat.mem_iff, hmem, Option.any_some]
    grind
  simp only [Stats.arrive, hback, hentry]

/-! ## Runs -/

section Runs

variable [FrameValue V] {run : Runner ν σ V E} (hd : Disperses g t p Ls rep)
  (hmem : ∀ L, L ∈ Ls ↔ L ∈ forest.loops.toList)

include hd hmem

/-- **A run that is over counted what its blocks say**, from the block at hand on. -/
theorem runFrom_counts (limit : Nat) {c : Cursor ν} {chain : List Loop} {s : RunState σ V}
    {result : Except (RunError E) (Option V)} (hu : g.Reachable u) (hat : At p Ls rep u c chain)
    (h : (t.runFrom run limit c s).1 = some result) :
    ∃ rest, (t.visitsFrom run limit c s).map Visit.block = u :: rest ∧
      (t.runFrom run limit c s).2.stats =
        { blocks := s.stats.blocks + (u :: rest).length
          backEdges := s.stats.backEdges +
            ((u :: rest).zip rest).countP fun e => forest.isBackEdge e.1 e.2
          loopEntries := s.stats.loopEntries +
            (((u :: rest).map some).zip rest).countP fun e => forest.isEntry e.1 e.2 } := by
  induction limit generalizing u c chain s with
  | zero => cases h
  | succ limit ih =>
    by_cases hgo : ∃ position next, (run c.block.node s.world s.frame).1 = .ok (.branch position) ∧
        c.block.successors[position]? = some next
    · obtain ⟨position, next, hbranch, hnext⟩ := hgo
      rcases hout : run c.block.node s.world s.frame with ⟨outcome, world, frame⟩
      rw [hout] at hbranch
      obtain rfl : outcome = .ok (.branch position) := hbranch
      obtain ⟨hedge, c', chain', frame', hat', _, hstep⟩ := runFrom_goes_on hd hu hat hout hnext
      obtain ⟨hr, hv⟩ := hstep limit
      rw [hr] at h
      obtain ⟨rest, hblocks, hstats⟩ := ih (hu.step hedge) hat' h
      refine ⟨next :: rest, ?_, ?_⟩
      · rw [hv, List.map_cons, hblocks, hd.id hat.block]
      · -- the step to `next` is the first pair of neighbours, the other pairs are those of the rest
        rw [hr, hstats, hat.arrive_eq hmem]
        simp only [RunState.countBlock, List.length_cons, List.map_cons, List.zip_cons_cons,
          List.countP_cons, Stats.mk.injEq]
        omega
    · obtain ⟨ended, _, hexecute⟩ := execute_ends fun position next hb hn =>
        hgo ⟨position, next, hb, hn⟩
      obtain ⟨hr, hv⟩ := runFrom_of_ends (t := t) hexecute limit
      refine ⟨[], ?_, ?_⟩
      · simp [hv, hd.id hat.block]
      · simp [hr, RunState.countBlock]

end Runs

/-- **The counters of a run are exact.**  Whatever the nodes do, when a run of a lowered function is
over, its counters are those of the list of blocks that it executed: their number; how often a block
in a loop is followed by the loop's header; and how often a loop's header is the first block or
follows a block outside the loop. -/
theorem run_counts [FrameValue V] {f : Func} {layout : Layout} {options : Options} {τ : Type}
    {create : Block → Decoration → StateM τ ν} {seed : τ}
    (h : ((lower f layout options create).run seed).1 = .ok t) :
    ∃ a, Analysis.ofFunc f layout options = .ok a ∧
      ∀ (run : Runner ν σ V E) (limit : Nat) (world : σ) (frame : Frame V)
        (result : Except (RunError E) (Option V)),
        (t.run run limit world frame).1 = some result →
        (t.run run limit world frame).2.stats =
          Stats.ofBlocks a.loops ((t.visits run limit world frame).map Visit.block) := by
  obtain ⟨a, p, Ls, rep, _, hl⟩ := lower_lowered h
  refine ⟨a, hl.planned.ofFunc_eq, fun run limit world frame result hover => ?_⟩
  obtain ⟨c, chain, hat, hbegins⟩ := run_begins hl.disperses run world frame
  obtain ⟨hr, hv⟩ := hbegins limit
  rw [hr] at hover ⊢
  obtain ⟨rest, hblocks, hstats⟩ := runFrom_counts hl.disperses (fun L => hl.mem_loops) limit
    (FlowGraph.reachable_entry a.graph) hat hover
  rw [hstats, hv, hblocks, arrive_nil fun L => hl.mem_loops]
  simp only [Stats.ofBlocks, List.tail_cons, List.map_cons, List.zip_cons_cons, List.countP_cons,
    Stats.mk.injEq]
  omega

/-- Edges to take through `nests`, round each of its loops. -/
def nestsRoute : List Nat := [0, 0, 0, 1, 0, 0, 1, 0, 2, 0, 1, 0, 3]

theorem run_nests_counts : ∃ (t : Tree Block) (a : Analysis),
    ((lower nests (.onePerValue nests) {} fun b _ => (pure b : StateM Unit Block)).run ()).1 = .ok t ∧
    Analysis.ofFunc nests (.onePerValue nests) {} = .ok a ∧
    (t.run listed 20 nestsRoute (t.newFrame : Frame Constant)).2.stats =
      { blocks := 14, backEdges := 4, loopEntries := 8 } ∧
    Stats.ofBlocks a.loops [⟨0⟩, ⟨1⟩, ⟨2⟩, ⟨2⟩, ⟨3⟩, ⟨4⟩, ⟨4⟩, ⟨3⟩, ⟨4⟩, ⟨1⟩, ⟨2⟩, ⟨3⟩, ⟨4⟩, ⟨5⟩] =
      { blocks := 14, backEdges := 4, loopEntries := 8 } := by
  have hrun : (((lower nests (.onePerValue nests) {} fun b _ =>
      (pure b : StateM Unit Block)).run ()).1.map fun t =>
        ((t.run listed 20 nestsRoute (t.newFrame : Frame Constant)).1,
          (t.run listed 20 nestsRoute (t.newFrame : Frame Constant)).2.stats,
          (t.visits listed 20 nestsRoute (t.newFrame : Frame Constant)).map Visit.block)) =
      .ok (some (.ok none), { blocks := 14, backEdges := 4, loopEntries := 8 },
        [⟨0⟩, ⟨1⟩, ⟨2⟩, ⟨2⟩, ⟨3⟩, ⟨4⟩, ⟨4⟩, ⟨3⟩, ⟨4⟩, ⟨1⟩, ⟨2⟩, ⟨3⟩, ⟨4⟩, ⟨5⟩]) := by
    decide +kernel
  cases ht : ((lower nests (.onePerValue nests) {} fun b _ =>
    (pure b : StateM Unit Block)).run ()).1 with
  | error e => rw [ht] at hrun; cases hrun
  | ok t =>
    rw [ht] at hrun
    have hall := Except.ok.inj hrun
    simp only [Prod.mk.injEq] at hall
    obtain ⟨hover, hstats, hblocks⟩ := hall
    obtain ⟨a, ha, hcounts⟩ := run_counts (σ := List Nat) (V := Constant) (E := Unit) ht
    have hcount := hcounts listed 20 nestsRoute t.newFrame _ hover
    rw [hblocks, hstats] at hcount
    exact ⟨t, a, rfl, ha, hstats, hcount.symm⟩

end Tree

end FlowTree
