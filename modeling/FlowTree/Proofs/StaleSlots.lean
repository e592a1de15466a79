import FlowTree.Proofs.Discipline
import FlowTree.Proofs.LoweredRuns

/-!
# What is dead cannot be observed

Whether dead slots are emptied, and what a frame holds in them, makes no difference to a run.

A function that is lowered twice, with different slots to be emptied, has the same loops, the same
copies on edges and the same live slots.  Two runs with the same disciplined nodes then go side by
side: at the start of each block their frames agree in the slots of values that are live there.  What
the block reads is live, so its node does the same in both.  What is live in the next block was live
before, or was written by the block or on the edge, and is not emptied; so the frames agree again.

The exit slots of the two trees hold no value, and nothing is said about them.

## Main statements

* `Lowering.Analysed.liveIn_eq` — what is live does not depend on what is emptied.
* `Liveness.Flows.agree_edge`, `Tree.Runs.agree_arrive` — one block, and the way to the next.
* `Tree.Runs.runFrom_sameCourse` — two runs side by side.
* `Tree.run_ignores_stale` — what is dead cannot be observed.
-/

namespace FlowTree

variable {ν ν' σ V E : Type} {layout : Layout} {f : Func} {options options' : Options}
  {a a' : Analysis} {b u next : BlockId}

/-! ## One analysis for both -/

namespace Lowering.Analysed

variable (h : Analysed f layout options a) (h' : Analysed f layout options' a')

include h h'

theorem graph_eq : a.graph = a'.graph := Except.ok.inj (h.graph.symm.trans h'.graph)

theorem slotCopies_eq : a.slotCopies = a'.slotCopies := by
  have hcopies := h.copies
  have hslots := h.slotCopies
  rw [graph_eq h h', h'.copies] at hcopies
  rw [graph_eq h h', ← Except.ok.inj hcopies, h'.slotCopies] at hslots
  exact (Except.ok.inj hslots).symm

theorem loops_eq (hloops : options.maxLoops = options'.maxLoops) : a.loops = a'.loops := by
  have hfound := h.loops
  rw [graph_eq h h', hloops, h'.loops] at hfound
  exact (Except.ok.inj hfound).symm

/-- **What is live does not depend on what is emptied.** -/
theorem liveIn_eq : a.liveness.liveIn = a'.liveness.liveIn := by
  obtain ⟨flows, order, _, hflows, horder, hin, _⟩ := Liveness.ofFunc_cases h.liveness
  obtain ⟨flows', order', _, hflows', horder', hin', _⟩ := Liveness.ofFunc_cases h'.liveness
  rw [graph_eq h h', slotCopies_eq h h', hflows'] at hflows
  rw [graph_eq h h', horder'] at horder
  obtain rfl := Except.ok.inj hflows
  obtain rfl := Except.ok.inj horder
  rw [graph_eq h h', hin'] at hin
  exact (Except.ok.inj hin).symm

end Lowering.Analysed

/-! ## One block -/

namespace Liveness

/-- A slot is live when block `b` starts, and some value lives in it. -/
def Matters (l : Liveness) (layout : Layout) (b : BlockId) (s : SlotId) : Prop :=
  l.LiveIn b s ∧ ∃ v, layout.slotOf v = some s

variable {l : Liveness} {copies : SlotCopies} {block : Block} {act : Act σ V E (Transfer V)}
  {frame frame' : Frame V}

/-- On frames that agree in what matters, a disciplined node does the same. -/
theorem Flows.same_of_agree (hflows : l.Flows f copies layout) (hblock : f.block? b = some block)
    (hact : block.Disciplined layout act) (hf : Frame.Agree (l.Matters layout b) frame frame') (w : σ) :
    ∃ e, Effect.ofBlock layout block = .ok e ∧
      Act.Same (fun r s => (l.Matters layout b s ∨ s ∈ e.writes) ∨ s ∈ block.terminator.writes layout r)
        (act w frame) (act w frame') := by
  obtain ⟨e, he, hlive⟩ := hflows.liveIn_iff hblock
  exact ⟨e, he, hact.same he (fun s hs hv => ⟨(hlive s).2 (.inl hs), hv⟩) hf w⟩

/-- **When control leaves a block**, the edge's copy makes the frames agree in what matters next. -/
theorem Flows.agree_edge [FrameValue V] (hflows : l.Flows f copies layout)
    (hblock : f.block? b = some block) (hid : block.id = b) (hact : block.Disciplined layout act)
    {position : Nat} (hnext : block.terminator.successors[position]? = some next)
    (hslots : ∀ s ∈ (copies.onEdge b position).uses, ∃ v, layout.slotOf v = some s) {w : σ}
    (hf : Frame.Agree (l.Matters layout b) frame frame')
    (hout : (act w frame).1 = .ok (.branch position)) :
    Frame.Agree (l.Matters layout next) ((act w frame).2.2.perform (copies.onEdge b position))
      ((act w frame').2.2.perform (copies.onEdge b position)) := by
  obtain ⟨e, he, hsame⟩ := hflows.same_of_agree hblock hact hf w
  have huses : ∀ s ∈ (copies.onEdge b position).uses, l.Matters layout b s ∨ s ∈ e.writes := by
    intro s hs
    have hneeded := hflows.of_needed hblock he ⟨position, next, hnext, .inl (hid.symm ▸ hs)⟩
    exact hneeded.imp_left fun hlive => ⟨hlive, hslots s hs⟩
  have hperformed := (hsame.frame _ hout).perform fun s hs => .inl (huses s hs)
  refine hperformed.mono fun s hs => ?_
  rcases hflows.of_liveIn_next hblock he hnext hs.1 with hdef | hresult | hheld
  · exact .inr (hid ▸ hdef)
  · exact .inl (.inr hresult)
  · exact .inl (.inl (hheld.imp_left fun hlive => ⟨hlive, hs.2⟩))

end Liveness

/-- How a run ends rests on how the last node does. -/
theorem BlockNode.Ends.result_eq {n : BlockNode ν} {n' : BlockNode ν'}
    {out out' : Except E (Transfer V) × σ × Frame V} {r r' : Except (RunError E) (Option V)}
    {s s' : RunState σ V} (h : n.Ends out r s) (h' : n'.Ends out' r' s') (hid : n.id = n'.id)
    (hout : out.1 = out'.1) : r = r' := by
  have hresult' := h'.result
  rw [← hout, ← hid] at hresult'
  rcases h.result with ⟨e, he, rfl⟩ | ⟨value, hv, rfl⟩ | ⟨position, hp, _, rfl⟩
  · simp only [he] at hresult'
    grind
  · simp only [hv] at hresult'
    grind
  · simp only [hp] at hresult'
    grind

namespace Tree

/-! ## Trees that run one function -/

/-- A tree runs the blocks of an analysed function with the copies of its edges, and empties nothing
that is live.  No value lives in its exit slot. -/
structure Runs (layout : Layout) (a : Analysis) (t : Tree ν) (p : Flat ν) (Ls : List Loop)
    (rep : BlockId → LoopNode ν) : Prop where
  disperses : Disperses a.graph t p Ls rep
  slotOf_ne : ∀ v s, layout.slotOf v = some s → t.exitSlot ≠ some s
  edge_eq : ∀ {b n}, p.blocks.get? b = some n → ∀ position,
    n.edges[position]?.getD ∅ = a.slotCopies.onEdge b position
  before : ∀ {b n s}, p.blocks.get? b = some n → s ∈ n.clearBefore → ¬ a.liveness.LiveIn b s
  after : ∀ {b n s next}, p.blocks.get? b = some n → next ∈ n.successors → s ∈ n.clearAfter →
    ¬ a.liveness.LiveIn next s

/-- Two states from which block `u` runs alike. -/
structure Alike (layout : Layout) (a : Analysis) (u : BlockId) (s s' : RunState σ V) : Prop where
  world : s.world = s'.world
  stats : s.stats = s'.stats
  frame : Frame.Agree (a.liveness.Matters layout u) s.frame s'.frame

/-- What two runs have in common: the result, the caller's state, the statistics and the blocks that
they come to. -/
structure SameCourse (r r' : Option (Except (RunError E) (Option V)) × RunState σ V)
    (vs vs' : List (Visit σ V)) : Prop where
  result : r.1 = r'.1
  world : r.2.world = r'.2.world
  stats : r.2.stats = r'.2.stats
  blocks : vs.map Visit.block = vs'.map Visit.block

variable {τ : Type} {create : Block → Decoration → StateM τ ν} {t : Tree ν} {t' : Tree ν'}
  {p : Flat ν} {p' : Flat ν'} {Ls : List Loop} {rep : BlockId → LoopNode ν}
  {rep' : BlockId → LoopNode ν'}

theorem Lowered.runs (hl : Lowered f layout options create t a p Ls rep) : Runs layout a t p Ls rep := by
  have hd := FlowGraph.ofFunc_describes hl.planned.graph
  have hflows := Liveness.ofFunc_flows hd hl.planned.liveness
  refine ⟨hl.disperses, hl.slotOf_ne, fun hn => (hl.planned.block hn).edge_eq,
    fun hn hs => hl.planned.not_liveIn_of_mem_clearBefore hflows hn hs, ?_⟩
  intro b n s next hn hnext hs
  obtain ⟨block, _, hblock, _⟩ := (hl.planned.block hn).node
  rw [(hl.planned.block hn).successors_eq hd hblock] at hnext
  obtain ⟨position, hposition⟩ := List.mem_iff_getElem?.1 hnext
  exact hl.planned.not_liveIn_of_mem_clearAfter hflows hn hblock hposition hs

namespace Runs

theorem congr (h : Runs layout a t p Ls rep) (hgraph : a'.graph = a.graph)
    (hcopies : a'.slotCopies = a.slotCopies) (hlive : a'.liveness.liveIn = a.liveness.liveIn) :
    Runs layout a' t p Ls rep := by
  have hliveIn : ∀ b s, a'.liveness.LiveIn b s ↔ a.liveness.LiveIn b s := by
    intro b s
    rw [Liveness.LiveIn, Liveness.LiveIn, hlive]
  refine ⟨hgraph ▸ h.disperses, h.slotOf_ne, ?_, ?_, ?_⟩
  · intro b n hn position
    rw [hcopies]
    exact h.edge_eq hn position
  · intro b n s hn hs
    rw [hliveIn]
    exact h.before hn hs
  · intro b n s next hn hnext hs
    rw [hliveIn]
    exact h.after hn hnext hs

section Pairs

variable (h : Runs layout a t p Ls rep) (h' : Runs layout a t' p' Ls rep')

include h h'

/-- **On the way to the next block** nothing that matters there is emptied or passed over. -/
theorem agree_arrive {n m : BlockNode ν} {n' m' : BlockNode ν'} (hn : p.blocks.get? u = some n)
    (hn' : p'.blocks.get? u = some n') (hm : p.blocks.get? next = some m)
    (hm' : p'.blocks.get? next = some m') (hnext : next ∈ n.successors)
    (hnext' : next ∈ n'.successors) {frame frame' frame₁ frame₁' : Frame V}
    (hf : Frame.Agree (a.liveness.Matters layout next) frame frame')
    (hr : Frame.Relayed t.exitSlot (frame.clearAll n.clearAfter) frame₁)
    (hr' : Frame.Relayed t'.exitSlot (frame'.clearAll n'.clearAfter) frame₁') :
    Frame.Agree (a.liveness.Matters layout next) (frame₁.clearAll m.clearBefore)
      (frame₁'.clearAll m'.clearBefore) := by
  have hafter : Frame.Agree (a.liveness.Matters layout next) (frame.clearAll n.clearAfter)
      (frame'.clearAll n'.clearAfter) := hf.clearAll
    (fun s hs hmatters => h.after hn hnext hs hmatters.1)
    (fun s hs hmatters => h'.after hn' hnext' hs hmatters.1)
  have hleft : Frame.Agree (a.liveness.Matters layout next) frame₁ frame₁' := by
    intro s hs
    obtain ⟨v, hv⟩ := hs.2
    rw [hr.cell s (h.slotOf_ne v s hv), hr'.cell s (h'.slotOf_ne v s hv)]
    exact hafter s hs
  exact hleft.clearAll (fun s hs hmatters => h.before hm hs hmatters.1)
    fun s hs hmatters => h'.before hm' hs hmatters.1

/-! ## Runs side by side -/

variable (han : Lowering.Analysed f layout options a)
  {acts : BlockId → Act σ V E (Transfer V)} {run : Runner ν σ V E} {run' : Runner ν' σ V E}
  (hacts : ∀ block ∈ f.blocks, block.Disciplined layout (acts block.id))
  (hrun : ∀ n ∈ t.blocks, run n.node = acts n.id) (hrun' : ∀ n ∈ t'.blocks, run' n.node = acts n.id)

include han hacts hrun hrun'

/-- At one block, both nodes run it, and they lead to the same blocks. -/
theorem nodes_at {c : Cursor ν} {c' : Cursor ν'} {chain chain' : List Loop}
    (hat : At p Ls rep u c chain) (hat' : At p' Ls rep' u c' chain') :
    ∃ block, f.block? u = some block ∧ block.Disciplined layout (acts u) ∧
      run c.block.node = acts u ∧ run' c'.block.node = acts u ∧
      c.block.successors = block.terminator.successors ∧
      c'.block.successors = block.terminator.successors := by
  have hd := FlowGraph.ofFunc_describes han.graph
  have hsuccs := h.disperses.successors hat.block
  obtain ⟨block, hblock, hterm⟩ := hd.successors_iff.1 hsuccs
  refine ⟨block, hblock, ?_, ?_, ?_, hterm.symm, ?_⟩
  · rw [← hd.id_eq hblock]
    exact hacts block (List.mem_of_getElem? hblock)
  · rw [hrun c.block (h.disperses.mem_blocks hat.block), h.disperses.id hat.block]
  · rw [hrun' c'.block (h'.disperses.mem_blocks hat'.block), h'.disperses.id hat'.block]
  · rw [hterm]
    exact Option.some.inj ((h'.disperses.successors hat'.block).symm.trans hsuccs)

variable [FrameValue V]

/-- A block that leads to another: both runs come to it, in states from which it runs alike. -/
theorem next_alike {c : Cursor ν} {c' : Cursor ν'} {chain chain' : List Loop} {s s' : RunState σ V}
    {position : Nat} (hu : a.graph.Reachable u) (hat : At p Ls rep u c chain)
    (hat' : At p' Ls rep' u c' chain') (hs : Alike layout a u s s')
    (hbranch : (run c.block.node s.world s.frame).1 = .ok (.branch position))
    (hnext : c.block.successors[position]? = some next) :
    ∃ d d' dchain dchain' s₁ s₁', At p Ls rep next d dchain ∧ At p' Ls rep' next d' dchain' ∧
      Alike layout a next s₁ s₁' ∧ ∀ limit,
        t.runFrom run (limit + 1) c s = t.runFrom run limit d s₁ ∧
        t.visitsFrom run (limit + 1) c s =
          ⟨c.block.id, s.world, s.frame⟩ :: t.visitsFrom run limit d s₁ ∧
        t'.runFrom run' (limit + 1) c' s' = t'.runFrom run' limit d' s₁' ∧
        t'.visitsFrom run' (limit + 1) c' s' =
          ⟨c'.block.id, s'.world, s'.frame⟩ :: t'.visitsFrom run' limit d' s₁' := by
  have hd := FlowGraph.ofFunc_describes han.graph
  have hflows := Liveness.ofFunc_flows hd han.liveness
  obtain ⟨block, hblock, hact, hnode, hnode', hsuccs, hsuccs'⟩ :=
    nodes_at h h' han hacts hrun hrun' hat hat'
  have hslots : ∀ s ∈ (a.slotCopies.onEdge u position).uses, ∃ v, layout.slotOf v = some s :=
    fun s hs => EdgeCopies.exists_slotOf_of_mem_uses han.slotCopies
      (h.disperses.successors hat.block) hnext hs
  rw [hsuccs] at hnext
  rw [hnode] at hbranch
  obtain ⟨_, _, hsame⟩ := hflows.same_of_agree hblock hact hs.frame s.world
  have hagree := hflows.agree_edge hblock (hd.id_eq hblock) hact hnext hslots hs.frame hbranch
  -- the node does the same in both runs, so they leave by the same edge
  rcases hout : acts u s.world s.frame with ⟨result, world, frame⟩
  rcases hout' : acts u s.world s'.frame with ⟨result', world', frame'⟩
  rw [hout, hout'] at hsame hagree
  rw [hout] at hbranch
  obtain rfl : result = .ok (.branch position) := hbranch
  obtain rfl : _ = result' := hsame.result
  obtain rfl : world = world' := hsame.world
  obtain ⟨_, d, dchain, left, hdat, hrelayed, hruns⟩ :=
    runFrom_goes_on h.disperses hu hat (hnode ▸ hout) (hsuccs ▸ hnext)
  obtain ⟨_, d', dchain', left', hdat', hrelayed', hruns'⟩ :=
    runFrom_goes_on h'.disperses hu hat' (hnode' ▸ hs.world ▸ hout') (hsuccs' ▸ hnext)
  rw [h.edge_eq hat.block] at hrelayed
  rw [h'.edge_eq hat'.block] at hrelayed'
  have hmem := List.mem_of_getElem? hnext
  have hframe := agree_arrive h h' hat.block hat'.block hdat.block hdat'.block (hsuccs ▸ hmem)
    (hsuccs' ▸ hmem) hagree hrelayed hrelayed'
  have hstats : s.countBlock.stats.arrive Ls chain next = s'.countBlock.stats.arrive Ls chain' next := by
    rw [RunState.countBlock, RunState.countBlock, hs.stats]
    refine Stats.arrive_congr (fun L hL => ((hat.mem_iff L).1 hL).1)
      (fun L hL => ((hat'.mem_iff L).1 hL).1) fun L _ _ => ?_
    rw [hat.mem_iff, hat'.mem_iff]
  have halike : Alike layout a next
      ⟨left.clearAll d.block.clearBefore, world, s.countBlock.stats.arrive Ls chain next⟩
      ⟨left'.clearAll d'.block.clearBefore, world, s'.countBlock.stats.arrive Ls chain' next⟩ :=
    ⟨rfl, hstats, hframe⟩
  refine ⟨d, d', dchain, dchain', _, _, hdat, hdat', halike, fun limit => ?_⟩
  exact ⟨(hruns limit).1, (hruns limit).2, (hruns' limit).1, (hruns' limit).2⟩

/-- A block at which the run is over: both runs end there in the same way. -/
theorem ends_sameCourse (limit : Nat) {c : Cursor ν} {c' : Cursor ν'} {chain chain' : List Loop}
    {s s' : RunState σ V} (hat : At p Ls rep u c chain) (hat' : At p' Ls rep' u c' chain')
    (hs : Alike layout a u s s')
    (hstop : ∀ position next, (run c.block.node s.world s.frame).1 = .ok (.branch position) →
      c.block.successors[position]? ≠ some next) :
    SameCourse (t.runFrom run (limit + 1) c s) (t'.runFrom run' (limit + 1) c' s')
      (t.visitsFrom run (limit + 1) c s) (t'.visitsFrom run' (limit + 1) c' s') := by
  have hd := FlowGraph.ofFunc_describes han.graph
  have hflows := Liveness.ofFunc_flows hd han.liveness
  have hid : c.block.id = c'.block.id :=
    (h.disperses.id hat.block).trans (h'.disperses.id hat'.block).symm
  obtain ⟨block, hblock, hact, hnode, hnode', hsuccs, hsuccs'⟩ :=
    nodes_at h h' han hacts hrun hrun' hat hat'
  obtain ⟨_, _, hsame⟩ := hflows.same_of_agree hblock hact hs.frame s.world
  -- the other node chooses the same position, so that run cannot go on either
  have hstop' : ∀ position next, (run' c'.block.node s'.world s'.frame).1 = .ok (.branch position) →
      c'.block.successors[position]? ≠ some next := by
    intro position next hbranch
    rw [hnode', ← hs.world, ← hsame.result, ← hnode] at hbranch
    rw [hsuccs', ← hsuccs]
    exact hstop position next hbranch
  obtain ⟨r, hends, hexecute⟩ := execute_ends hstop
  obtain ⟨r', hends', hexecute'⟩ := execute_ends hstop'
  rw [hnode] at hends hexecute
  rw [hnode', ← hs.world] at hends' hexecute'
  obtain rfl := hends.result_eq hends' hid hsame.result
  obtain ⟨hr, hv⟩ := runFrom_of_ends (t := t) hexecute limit
  obtain ⟨hr', hv'⟩ := runFrom_of_ends (t := t') hexecute' limit
  rw [hr, hv, hr', hv']
  refine ⟨rfl, hsame.world, ?_, congrArg (fun i => [i]) hid⟩
  simp only [RunState.countBlock, hs.stats]

/-- **From a block on, two runs take the same course.** -/
theorem runFrom_sameCourse (limit : Nat) {c : Cursor ν} {c' : Cursor ν'} {chain chain' : List Loop}
    {s s' : RunState σ V} (hu : a.graph.Reachable u) (hat : At p Ls rep u c chain)
    (hat' : At p' Ls rep' u c' chain') (hs : Alike layout a u s s') :
    SameCourse (t.runFrom run limit c s) (t'.runFrom run' limit c' s')
      (t.visitsFrom run limit c s) (t'.visitsFrom run' limit c' s') := by
  induction limit generalizing u c c' chain chain' s s' with
  | zero => exact ⟨rfl, hs.world, hs.stats, rfl⟩
  | succ limit ih =>
    by_cases hgo : ∃ position next, (run c.block.node s.world s.frame).1 = .ok (.branch position) ∧
        c.block.successors[position]? = some next
    · obtain ⟨position, next, hbranch, hnext⟩ := hgo
      obtain ⟨d, d', dchain, dchain', s₁, s₁', hdat, hdat', halike, hruns⟩ :=
        next_alike h h' han hacts hrun hrun' hu hat hat' hs hbranch hnext
      have hedge : a.graph.Edge u next :=
        ⟨_, h.disperses.successors hat.block, List.mem_of_getElem? hnext⟩
      have hid : c.block.id = c'.block.id :=
        (h.disperses.id hat.block).trans (h'.disperses.id hat'.block).symm
      have hrest := ih (hu.step hedge) hdat hdat' halike
      obtain ⟨hr, hv, hr', hv'⟩ := hruns limit
      rw [hr, hv, hr', hv']
      refine ⟨hrest.result, hrest.world, hrest.stats, ?_⟩
      rw [List.map_cons, List.map_cons, hrest.blocks, hid]
    · exact ends_sameCourse h h' han hacts hrun hrun' limit hat hat' hs
        fun position next hb hn => hgo ⟨position, next, hb, hn⟩

/-- **Two runs take the same course**, from frames that agree in what matters at the entry. -/
theorem run_sameCourse (limit : Nat) (world : σ) {frame frame' : Frame V}
    (hf : Frame.Agree (a.liveness.Matters layout BlockId.entry) frame frame') :
    SameCourse (t.run run limit world frame) (t'.run run' limit world frame')
      (t.visits run limit world frame) (t'.visits run' limit world frame') := by
  obtain ⟨c, chain, hat, hbegins⟩ := run_begins h.disperses run world frame
  obtain ⟨c', chain', hat', hbegins'⟩ := run_begins h'.disperses run' world frame'
  have hframe : Frame.Agree (a.liveness.Matters layout BlockId.entry)
      (frame.clearAll c.block.clearBefore) (frame'.clearAll c'.block.clearBefore) := hf.clearAll
    (fun s hs hmatters => h.before hat.block hs hmatters.1)
    (fun s hs hmatters => h'.before hat'.block hs hmatters.1)
  rw [(hbegins limit).1, (hbegins limit).2, (hbegins' limit).1, (hbegins' limit).2]
  exact runFrom_sameCourse h h' han hacts hrun hrun' limit (FlowGraph.reachable_entry a.graph) hat hat'
    ⟨rfl, rfl, hframe⟩

end Pairs

end Runs

/-- **What is dead cannot be observed.**  A function is lowered twice, with options that differ at most
in which slots are emptied, and the nodes that run its blocks are the same and disciplined.  On frames
that agree in what is live at the entry, both trees come to the same blocks, for any number of blocks,
and have the same result, the same state of the caller's and the same statistics. -/
theorem run_ignores_stale [FrameValue V] {τ' : Type} {create' : Block → Decoration → StateM τ' ν'}
    {seed : τ} {seed' : τ'} (ht : ((lower f layout options create).run seed).1 = .ok t)
    (ht' : ((lower f layout options' create').run seed').1 = .ok t')
    (hloops : options.maxLoops = options'.maxLoops) :
    ∃ a, Analysis.ofFunc f layout options = .ok a ∧
      ∀ (acts : BlockId → Act σ V E (Transfer V)) (run : Runner ν σ V E) (run' : Runner ν' σ V E),
        (∀ block ∈ f.blocks, block.Disciplined layout (acts block.id)) →
        (∀ n ∈ t.blocks, run n.node = acts n.id) → (∀ n ∈ t'.blocks, run' n.node = acts n.id) →
        ∀ (limit : Nat) (world : σ) (frame frame' : Frame V),
          (∀ s, a.liveness.LiveIn BlockId.entry s → frame.cell s = frame'.cell s) →
          (t.visits run limit world frame).map Visit.block =
            (t'.visits run' limit world frame').map Visit.block ∧
          (t.run run limit world frame).1 = (t'.run run' limit world frame').1 ∧
          (t.run run limit world frame).2.world = (t'.run run' limit world frame').2.world ∧
          (t.run run limit world frame).2.stats = (t'.run run' limit world frame').2.stats := by
  obtain ⟨a, p, Ls, rep, _, hl⟩ := lower_lowered ht
  obtain ⟨a', p', Ls', rep', _, hl'⟩ := lower_lowered ht'
  have han := hl.planned.toAnalysed
  have han' := hl'.planned.toAnalysed
  obtain rfl : Ls = Ls' := by
    have hsorted := hl.sorted
    rw [han.loops_eq han' hloops, hl'.sorted] at hsorted
    exact (Except.ok.inj hsorted).symm
  refine ⟨a, han.ofFunc_eq, fun acts run run' hacts hrun hrun' limit world frame frame' hf => ?_⟩
  -- the second tree runs by the analysis of the first, which differs in the clear sets only
  have hruns' := hl'.runs.congr (han.graph_eq han') (han.slotCopies_eq han') (han.liveIn_eq han')
  have hsame := hl.runs.run_sameCourse hruns' han hacts hrun hrun' limit world
    fun s hs => hf s hs.1
  exact ⟨hsame.blocks, hsame.result, hsame.world, hsame.stats⟩

/-- The nodes of `swaps` run their blocks on integers. -/
def swapsRunner : Runner Block Unit Constant EvalError :=
  fun block => integerMeaning.runBlock swapsLayout block

/-- What these nodes do, by block. -/
def swapsActs (b : BlockId) : Act Unit Constant EvalError (Transfer Constant) :=
  match swaps.block? b with
  | some block => swapsRunner block
  | none => fun w f => (.ok (.ret none), w, f)

/-- The argument of `swaps`, and what else a frame holds. -/
def swapsFrame (stale : List (SlotId × Cell Constant)) : Frame Constant :=
  stale.foldl (fun f w => f.put w.1 w.2) ⟨#[.value (.int 1)]⟩

/-- Something in the slots of a value that the loop sets and of the result of its call. -/
def swapsStale : List (SlotId × Cell Constant) := [(⟨2⟩, .value (.int 9)), (⟨5⟩, .value (.int 4))]

theorem run_swaps_ignores_stale : ∃ (t t' : Tree Block) (a : Analysis),
    ((lower swaps swapsLayout {} fun b _ => (pure b : StateM Unit Block)).run ()).1 = .ok t ∧
    ((lower swaps swapsLayout { clearDead := false, neverCleared := [⟨3⟩] } fun b _ =>
      (pure b : StateM Unit Block)).run ()).1 = .ok t' ∧
    Analysis.ofFunc swaps swapsLayout {} = .ok a ∧
    (∀ block ∈ swaps.blocks, block.Disciplined swapsLayout (swapsActs block.id)) ∧
    (∀ n ∈ t.blocks, swapsRunner n.node = swapsActs n.id) ∧
    (∀ n ∈ t'.blocks, swapsRunner n.node = swapsActs n.id) ∧
    (∀ s, a.liveness.LiveIn BlockId.entry s →
      (swapsFrame []).cell s = (swapsFrame swapsStale).cell s) ∧
    (t.visits swapsRunner 9 () (swapsFrame [])).map Visit.block = [⟨0⟩, ⟨1⟩, ⟨2⟩, ⟨3⟩, ⟨1⟩, ⟨4⟩, ⟨6⟩] ∧
    (t'.visits swapsRunner 9 () (swapsFrame swapsStale)).map Visit.block =
      [⟨0⟩, ⟨1⟩, ⟨2⟩, ⟨3⟩, ⟨1⟩, ⟨4⟩, ⟨6⟩] ∧
    (t.run swapsRunner 9 () (swapsFrame [])).1 = some (.ok (some (.int 8))) ∧
    (t'.run swapsRunner 9 () (swapsFrame swapsStale)).1 = some (.ok (some (.int 8))) ∧
    (t.run swapsRunner 9 () (swapsFrame [])).2.stats =
      (t'.run swapsRunner 9 () (swapsFrame swapsStale)).2.stats := by
  have hlower : (((lower swaps swapsLayout {} fun b _ =>
      (pure b : StateM Unit Block)).run ()).1.map fun t =>
        ((t.visits swapsRunner 9 () (swapsFrame [])).map Visit.block,
          (t.run swapsRunner 9 () (swapsFrame [])).1)) =
      .ok ([⟨0⟩, ⟨1⟩, ⟨2⟩, ⟨3⟩, ⟨1⟩, ⟨4⟩, ⟨6⟩], some (.ok (some (.int 8)))) := by decide +kernel
  have hlower' : (((lower swaps swapsLayout { clearDead := false, neverCleared := [⟨3⟩] }
      fun b _ => (pure b : StateM Unit Block)).run ()).1.map fun t => t.frameSize) = .ok 8 := by
    decide +kernel
  have hlive : ((Analysis.ofFunc swaps swapsLayout {}).map fun a =>
      (a.liveness.liveIn.get? BlockId.entry).map IdSet.toList) = .ok (some [⟨0⟩]) := by decide +kernel
  have hacts : ∀ block ∈ swaps.blocks, block.Disciplined swapsLayout (swapsActs block.id) := by
    have hat : ∀ block ∈ swaps.blocks, swaps.block? block.id = some block := by decide
    intro block hblock
    simp only [swapsActs, hat block hblock]
    exact Meaning.runBlock_disciplined integerMeaning_exact block
  have hnodes : ∀ {options : Options} {t : Tree Block}, ((lower swaps swapsLayout options
      fun b _ => (pure b : StateM Unit Block)).run ()).1 = .ok t →
        ∀ n ∈ t.blocks, swapsRunner n.node = swapsActs n.id := by
    intro options t ht n hn
    obtain ⟨_, _, _, _, _, hl⟩ := lower_lowered ht
    obtain ⟨block, _, _, hblock, _, hnode⟩ := hl.exists_create hn
    simp only [swapsActs, hblock, hnode]
    rfl
  cases ht : ((lower swaps swapsLayout {} fun b _ => (pure b : StateM Unit Block)).run ()).1 with
  | error e => rw [ht] at hlower; cases hlower
  | ok t =>
    cases ht' : ((lower swaps swapsLayout { clearDead := false, neverCleared := [⟨3⟩] }
      fun b _ => (pure b : StateM Unit Block)).run ()).1 with
    | error e => rw [ht'] at hlower'; cases hlower'
    | ok t' =>
      rw [ht] at hlower
      obtain ⟨hvisits, hreturned⟩ := Prod.mk.inj (Except.ok.inj hlower)
      obtain ⟨a, ha, hsame⟩ := run_ignores_stale (σ := Unit) (V := Constant) (E := EvalError) ht ht' rfl
      have hframe : ∀ s, a.liveness.LiveIn BlockId.entry s →
          (swapsFrame []).cell s = (swapsFrame swapsStale).cell s := by
        rintro s ⟨set, hset, hs⟩
        rw [ha] at hlive
        have hlist : (a.liveness.liveIn.get? BlockId.entry).map IdSet.toList = some [⟨0⟩] :=
          Except.ok.inj hlive
        rw [hset, Option.map_some, Option.some.injEq] at hlist
        rw [← IdSet.mem_toList, hlist, List.mem_singleton] at hs
        subst hs
        rfl
      obtain ⟨hblocks, hresult, _, hstats⟩ := hsame swapsActs swapsRunner swapsRunner hacts (hnodes ht)
        (hnodes ht') 9 () (swapsFrame []) (swapsFrame swapsStale) hframe
      exact ⟨t, t', a, rfl, rfl, ha, hacts, hnodes ht, hnodes ht', hframe, hvisits,
        hblocks.symm.trans hvisits, hreturned, hresult.symm.trans hreturned, hstats⟩

end Tree

end FlowTree
