import FlowTree.Proofs.Cursors

/-!
# Dispatch trees and flat dispatch

Running a dispatch tree comes to the same as going straight from block to block.

The two runs differ in one cell, the exit slot, through which the tree passes the name of a block
from a loop to the dispatcher around it.  Nodes are taken not to touch it; then a frame of the tree
and a frame of the flat run agree in every other cell (`Frame.SameBut`), and in that one as well if
it was empty at the start.

## Main statements

* `Tree.run_sameRun` — a whole run.
* `Tree.run_eq_flat_run` — a tree runs like the flat form of its function.
-/

namespace FlowTree

variable {ν σ V E : Type}

namespace Tree

variable {g : FlowGraph} {t : Tree ν} {p : Flat ν} {Ls : List Loop} {rep : BlockId → LoopNode ν}
  {clean : Prop} {u v : BlockId}

/-! ## Runs -/

/-- A visit of a tree and one of a flat run. -/
structure SameVisit (clean : Prop) (exit : Option SlotId) (x y : Visit σ V) : Prop where
  block : x.block = y.block
  world : x.world = y.world
  frame : Frame.Beside clean exit x.frame y.frame

/-- What a run of a tree and a flat run have in common: the result, the state, and the visits.  If
the run is over, it ended at the last visit. -/
structure SameRun (clean : Prop) (exit : Option SlotId) (p : Flat ν) (run : Runner ν σ V E)
    (r r₂ : Option (Except (RunError E) (Option V)) × RunState σ V) (vs vs₂ : List (Visit σ V)) :
    Prop where
  result : r.1 = r₂.1
  state : RunState.Beside clean exit r.2 r₂.2
  visits : List.Forall₂ (SameVisit clean exit) vs vs₂
  ends : ∀ {result}, r.1 = some result → ∃ v n, vs.getLast? = some v ∧
    p.blocks.get? v.block = some n ∧ n.Ends (run n.node v.world v.frame) result r.2

variable [FrameValue V] {run : Runner ν σ V E}

section Runs

variable (hd : Disperses g t p Ls rep)
  (hrun : ∀ {b n}, p.blocks.get? b = some n → Frame.Ignored t.exitSlot (run n.node))

include hd hrun

/-- A block that leads to another: the same copy is performed and the same slots are emptied in both
runs, and they come to the same block. -/
theorem next_at {c : Cursor ν} {chain : List Loop} {s s₂ : RunState σ V} {position : Nat}
    {next : BlockId} (hu : g.Reachable u) (hat : At p Ls rep u c chain)
    (hs : RunState.Beside clean t.exitSlot s s₂)
    (hbranch : (run c.block.node s.world s.frame).1 = .ok (.branch position))
    (hnext : c.block.successors[position]? = some next) :
    ∃ c' chain' s' s₂', At p Ls rep next c' chain' ∧ RunState.Beside clean t.exitSlot s' s₂' ∧
      ∀ limit, t.runFrom run (limit + 1) c s = t.runFrom run limit c' s' ∧
        t.visitsFrom run (limit + 1) c s =
          ⟨c.block.id, s.world, s.frame⟩ :: t.visitsFrom run limit c' s' ∧
        p.runFrom run (limit + 1) c.block s₂ = p.runFrom run limit c'.block s₂' ∧
        p.visitsFrom run (limit + 1) c.block s₂ =
          ⟨c.block.id, s₂.world, s₂.frame⟩ :: p.visitsFrom run limit c'.block s₂' := by
  have hig := hrun hat.block
  have hresult := hig.result (w := s.world) hs.frame.toSameBut
  have hworld := hig.world (w := s.world) hs.frame.toSameBut
  have hframe := hs.frame.act (w := s.world) hig
  rcases hout : run c.block.node s.world s.frame with ⟨result, world, frame⟩
  rcases hout₂ : run c.block.node s.world s₂.frame with ⟨result₂, world₂, frame₂⟩
  rw [hout, hout₂] at hresult hworld hframe
  rw [hout] at hbranch
  obtain rfl : result = .ok (.branch position) := hbranch
  obtain rfl : _ = result₂ := hresult
  obtain rfl : world = world₂ := hworld
  have hspares : (c.block.edges[position]?.getD ∅).Spares t.exitSlot := by
    cases hedge : c.block.edges[position]? with
    | none => constructor <;> intro _ h <;> cases h
    | some copy => exact hd.edges hat.block copy (List.mem_of_getElem? hedge)
  obtain ⟨_, c', chain', frame', hat', hrelayed, hgo⟩ := runFrom_goes_on hd hu hat hout hnext
  have hleft := hrelayed.beside ((hframe.perform hspares).clearAll c.block.clearAfter)
  have hs' : RunState.Beside clean t.exitSlot
      ⟨frame'.clearAll c'.block.clearBefore, world, s.countBlock.stats.arrive Ls chain next⟩
      (RunState.clear { s₂.countBlock with world, frame := (frame₂.perform
        (c.block.edges[position]?.getD ∅)).clearAll c.block.clearAfter } c'.block.clearBefore) :=
    ⟨hleft.clearAll _, rfl, congrArg (· + 1) hs.blocks⟩
  refine ⟨c', chain', _, _, hat', hs', fun limit => ?_⟩
  obtain ⟨hr, hv⟩ := hgo limit
  obtain ⟨hr₂, hv₂⟩ := Flat.runFrom_of_next (p := p) (s := s₂) (hs.world ▸ hout₂) hnext hat'.block limit
  exact ⟨hr, hv, hr₂, hv₂⟩

/-- A block at which the run is over: both runs end there in the same way. -/
theorem ends_sameRun (limit : Nat) {c : Cursor ν} {chain : List Loop} {s s₂ : RunState σ V}
    (hat : At p Ls rep u c chain) (hs : RunState.Beside clean t.exitSlot s s₂)
    (hstop : ∀ position next, (run c.block.node s.world s.frame).1 = .ok (.branch position) →
      c.block.successors[position]? ≠ some next) :
    SameRun clean t.exitSlot p run (t.runFrom run (limit + 1) c s)
      (p.runFrom run (limit + 1) c.block s₂) (t.visitsFrom run (limit + 1) c s)
      (p.visitsFrom run (limit + 1) c.block s₂) := by
  have hig := hrun hat.block
  have hresult := hig.result (w := s.world) hs.frame.toSameBut
  obtain ⟨result, hends, hexecute⟩ := execute_ends hstop
  obtain ⟨hr, hv⟩ := runFrom_of_ends (t := t) hexecute limit
  have hends₂ : c.block.Ends (run c.block.node s₂.world s₂.frame) result
      { s₂.countBlock with
        world := (run c.block.node s₂.world s₂.frame).2.1
        frame := (run c.block.node s₂.world s₂.frame).2.2 } := by
    refine ⟨rfl, rfl, ?_⟩
    rw [← hs.world, ← hresult]
    exact hends.result
  obtain ⟨hr₂, hv₂⟩ := Flat.runFrom_of_ends (p := p) hends₂ rfl limit
  rw [hr, hv, hr₂, hv₂]
  refine ⟨rfl, ⟨?_, ?_, congrArg (· + 1) hs.blocks⟩, .cons ⟨rfl, hs.world, hs.frame⟩ .nil,
    fun hend => ?_⟩
  · rw [← hs.world]
    exact hs.frame.act hig
  · rw [← hs.world]
    exact hig.world hs.frame.toSameBut
  · cases hend
    exact ⟨_, c.block, rfl, (hd.id hat.block).symm ▸ hat.block, hends⟩

/-- **From a block on, a tree runs like the flat form.** -/
theorem runFrom_sameRun (limit : Nat) {c : Cursor ν} {chain : List Loop} {s s₂ : RunState σ V}
    (hu : g.Reachable u) (hat : At p Ls rep u c chain)
    (hs : RunState.Beside clean t.exitSlot s s₂) :
    SameRun clean t.exitSlot p run (t.runFrom run limit c s) (p.runFrom run limit c.block s₂)
      (t.visitsFrom run limit c s) (p.visitsFrom run limit c.block s₂) := by
  induction limit generalizing u c chain s s₂ with
  | zero => exact ⟨rfl, hs, .nil, fun h => by cases h⟩
  | succ limit ih =>
    by_cases hgo : ∃ position next, (run c.block.node s.world s.frame).1 = .ok (.branch position) ∧
        c.block.successors[position]? = some next
    · obtain ⟨position, next, hbranch, hnext⟩ := hgo
      obtain ⟨c', chain', s', s₂', hat', hs', hruns⟩ := next_at hd hrun hu hat hs hbranch hnext
      obtain ⟨hr, hv, hr₂, hv₂⟩ := hruns limit
      have hedge : g.Edge u next := ⟨_, hd.successors hat.block, List.mem_of_getElem? hnext⟩
      have hrest := ih (hu.step hedge) hat' hs'
      rw [hr, hv, hr₂, hv₂]
      refine ⟨hrest.result, hrest.state, .cons ⟨rfl, hs.world, hs.frame⟩ hrest.visits,
        fun hend => ?_⟩
      obtain ⟨v, n, hlast, hn, hends⟩ := hrest.ends hend
      exact ⟨v, n, by rw [List.getLast?_cons, hlast]; rfl, hn, hends⟩
    · exact ends_sameRun hd hrun limit hat hs fun position next hb hn => hgo ⟨position, next, hb, hn⟩

/-- **A tree runs like the flat form**, from the entry. -/
theorem run_sameRun (clean : Prop) (limit : Nat) (world : σ) {frame : Frame V}
    (hsize : t.frameSize ≤ frame.size)
    (hclean : clean → ∀ s, t.exitSlot = some s → frame.cell s = .empty) :
    SameRun clean t.exitSlot p run (t.run run limit world frame) (p.run run limit world frame)
      (t.visits run limit world frame) (p.visits run limit world frame) := by
  obtain ⟨c, chain, hat, hbegins⟩ := run_begins hd run world frame
  obtain ⟨hr, hv⟩ := hbegins limit
  have hstart : Frame.Beside clean t.exitSlot frame frame :=
    ⟨.refl _ _, fun s hs => Nat.lt_of_lt_of_le (hd.exit_lt hs) hsize,
      fun hc s hs => ⟨hclean hc s hs, hclean hc s hs⟩⟩
  have hstate : RunState.Beside clean t.exitSlot
      ⟨frame.clearAll c.block.clearBefore, world, Stats.arrive Ls [] BlockId.entry {}⟩
      ⟨frame.clearAll c.block.clearBefore, world, {}⟩ :=
    ⟨hstart.clearAll c.block.clearBefore, rfl, rfl⟩
  have hrest := runFrom_sameRun hd hrun limit (FlowGraph.reachable_entry g) hat hstate
  rw [← hr, ← hv] at hrest
  simpa [Flat.run, Flat.visits, Flat.goto, hat.block, RunState.clear] using hrest

end Runs

/-! ## Lowered functions -/

/-- **A dispatch tree runs like the flat form of its function.**  Its nodes do not touch the exit
slot, and the frame has at least as many cells as the tree asks for.  Then, for any number of
blocks, both runs come to the same blocks, whose nodes find the same there but for the exit slot;
they have the same result, the same state of the caller's, the same number of blocks, and the same
frame but for the exit slot.  A run that is over ended at the last block, as that block's node said
and with the frame that it left, so it either returned or failed there.  If the exit slot was empty
at the start, it is empty whenever a node runs and at the end. -/
theorem run_eq_flat_run {f : Func} {layout : Layout} {options : Options} {τ : Type}
    {create : Block → Decoration → StateM τ ν} {seed : τ}
    (ht : ((lower f layout options create).run seed).1 = .ok t) :
    ∃ p : Flat ν, ((lowerFlat f layout options create).run seed).1 = .ok p ∧
      ∀ (run : Runner ν σ V E), (∀ n ∈ p.blocks.toList, Frame.Ignored t.exitSlot (run n.node)) →
      ∀ (limit : Nat) (world : σ) (frame : Frame V), t.frameSize ≤ frame.size →
        List.Forall₂ (fun x y => x.block = y.block ∧ x.world = y.world ∧
            x.frame.SameBut t.exitSlot y.frame)
          (t.visits run limit world frame) (p.visits run limit world frame) ∧
        (t.run run limit world frame).1 = (p.run run limit world frame).1 ∧
        (t.run run limit world frame).2.world = (p.run run limit world frame).2.world ∧
        (t.run run limit world frame).2.stats.blocks =
          (p.run run limit world frame).2.stats.blocks ∧
        (t.run run limit world frame).2.frame.SameBut t.exitSlot
          (p.run run limit world frame).2.frame ∧
        (∀ result, (t.run run limit world frame).1 = some result →
          ∃ v n, (t.visits run limit world frame).getLast? = some v ∧
            p.blocks.get? v.block = some n ∧
            n.Ends (run n.node v.world v.frame) result (t.run run limit world frame).2) ∧
        (∀ slot, t.exitSlot = some slot → frame.cell slot = .empty →
          (∀ v ∈ t.visits run limit world frame, v.frame.cell slot = .empty) ∧
          (t.run run limit world frame).2.frame.cell slot = .empty) := by
  obtain ⟨a, p, Ls, rep, hp, _, hd, _⟩ := lower_disperses ht
  refine ⟨p, hp, fun run hrun limit world frame hsize => ?_⟩
  have hig : ∀ {b n}, p.blocks.get? b = some n → Frame.Ignored t.exitSlot (run n.node) :=
    fun hn => hrun _ (Table.mem_toList.2 ⟨_, hn⟩)
  have hsame := run_sameRun hd hig False limit world hsize (fun h => h.elim)
  refine ⟨?_, hsame.result, hsame.state.world, hsame.state.blocks, hsame.state.frame.toSameBut,
    fun result hr => hsame.ends hr, ?_⟩
  · exact hsame.visits.imp fun x y h => ⟨h.block, h.world, h.frame.toSameBut⟩
  · intro slot hslot hempty
    have hclean := run_sameRun hd hig True limit world hsize
      (fun _ s hs => Option.some.inj (hslot.symm.trans hs) ▸ hempty)
    refine ⟨?_, (hclean.state.frame.empty trivial slot hslot).1⟩
    exact ((List.forall₂_and_left _ _).1
      (hclean.visits.imp fun x y h => ⟨(h.frame.empty trivial slot hslot).1, h⟩)).1

/-- A loop of one block in a loop of two, with an edge out of both at once. -/
def twoLoops : Func where
  name := "twoLoops"
  params := []
  valueCount := 0
  blocks := [
    { id := ⟨0⟩, instrs := [], terminator := .br ⟨1⟩ },
    { id := ⟨1⟩, instrs := [], terminator := .br ⟨2⟩ },
    { id := ⟨2⟩, instrs := [], terminator := .indirectBr (.const .null) [⟨2⟩, ⟨1⟩, ⟨3⟩] },
    { id := ⟨3⟩, instrs := [], terminator := .ret none }]

/-- The nodes take the edges that the caller's state lists, and return when the list is over. -/
def listed : Runner Block (List Nat) Constant Unit
  | _, [], f => (.ok (.ret none), [], f)
  | _, position :: rest, f => (.ok (.branch position), rest, f)

theorem run_twoLoops : ∃ (t : Tree Block) (p : Flat Block),
    ((lower twoLoops (.onePerValue twoLoops) {} fun b _ => (pure b : StateM Unit Block)).run ()).1 =
      .ok t ∧
    ((lowerFlat twoLoops (.onePerValue twoLoops) {} fun b _ => (pure b : StateM Unit Block)).run ()).1 =
      .ok p ∧
    (∀ n ∈ p.blocks.toList, Frame.Ignored t.exitSlot (listed n.node)) ∧
    t.frameSize ≤ (t.newFrame : Frame Constant).size ∧
    ((t.visits listed 9 [0, 0, 0, 1, 0, 2] t.newFrame).map Visit.block =
      [⟨0⟩, ⟨1⟩, ⟨2⟩, ⟨2⟩, ⟨1⟩, ⟨2⟩, ⟨3⟩]) ∧
    (t.run listed 9 [0, 0, 0, 1, 0, 2] t.newFrame).1 =
      (p.run listed 9 [0, 0, 0, 1, 0, 2] t.newFrame).1 ∧
    (t.run listed 9 [0, 0, 0, 1, 0, 2] t.newFrame).2.frame.SameBut t.exitSlot
      (p.run listed 9 [0, 0, 0, 1, 0, 2] t.newFrame).2.frame := by
  have hvisits : (((lower twoLoops (.onePerValue twoLoops) {} fun b _ =>
      (pure b : StateM Unit Block)).run ()).1.map fun t =>
        (t.visits listed 9 [0, 0, 0, 1, 0, 2] t.newFrame).map Visit.block) =
      .ok [⟨0⟩, ⟨1⟩, ⟨2⟩, ⟨2⟩, ⟨1⟩, ⟨2⟩, ⟨3⟩] := by decide +kernel
  cases ht : ((lower twoLoops (.onePerValue twoLoops) {} fun b _ =>
    (pure b : StateM Unit Block)).run ()).1 with
  | error e => rw [ht] at hvisits; cases hvisits
  | ok t =>
    rw [ht] at hvisits
    obtain ⟨p, hp, hsame⟩ := run_eq_flat_run (σ := List Nat) (V := Constant) (E := Unit) ht
    have hig : ∀ n ∈ p.blocks.toList, Frame.Ignored t.exitSlot (listed n.node) := by
      intro n _
      refine ⟨?_, ?_, ?_, ?_, ?_⟩ <;> rintro (_ | ⟨i, w⟩) f
      · exact fun _ => rfl
      · exact fun _ => rfl
      · exact fun _ => rfl
      · exact fun _ => rfl
      · exact fun h => h
      · exact fun h => h
      · exact fun _ => rfl
      · exact fun _ => rfl
      · exact fun _ h => h
      · exact fun _ h => h
    have hsize : t.frameSize ≤ (t.newFrame : Frame Constant).size := by
      simp [newFrame, Frame.ofSize, Frame.size]
    obtain ⟨_, hresult, _, _, hframe, _⟩ := hsame listed hig 9 [0, 0, 0, 1, 0, 2] t.newFrame hsize
    exact ⟨t, p, rfl, hp, hig, hsize, Except.ok.inj hvisits, hresult, hframe⟩

end Tree

end FlowTree
