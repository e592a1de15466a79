import FlowTree.Eval.Integer
import FlowTree.Proofs.FlatDispatch
import FlowTree.Proofs.HeldValues

/-!
# Lowered functions do what functions mean

A function that returns when it is run on values returns the same when it is lowered and its tree is
run on a frame.

A run on values is followed by a flat run, block by block: at the start of a block the frame holds
the values that live in its live slots.  The tree runs like the flat form, because the blocks of a
meaning touch no slots but those of values.

## Main statements

* `Frame.Holds.runBlock`, `Lowering.Planned.holds_next` — one block, and the way to the next.
* `Lowering.Planned.runFrom_evalFrom` — a flat run does what a run on values does.
* `Tree.run_eq_eval` — so does the run of a tree.
-/

namespace FlowTree

variable {ν σ V E : Type} {M : Meaning σ V E} {layout : Layout}

/-! ## One block -/

namespace Frame.Holds

variable [FrameValue V] {f : Func} {b : BlockId} {block : Block} {w w' : σ} {vals vals' : Values V}
  {frame : Frame V} {l : Liveness} {copies : SlotCopies}

/-- **A block runs on a frame as it does on values**, if the frame holds what is live at its start. -/
theorem runBlock (hinj : layout.Injective) (hflows : l.Flows f copies layout)
    (hblock : f.block? b = some block) (hslots : ∀ v ∈ block.reads, ∃ s, layout.slotOf v = some s)
    (h : Holds layout (l.LiveIn b) vals frame) {leave : Leave V}
    (heval : M.evalBlock block w vals = .ok (leave, w', vals')) :
    ∃ e frame', Effect.ofBlock layout block = .ok e ∧
      Holds layout (fun s => l.LiveIn b s ∨ s ∈ e.writes) vals' frame' ∧
      M.runBlock layout block w frame =
        match leave with
        | .ret value => (.ok (.ret value), w', frame')
        | .take position result => (.ok (.branch position), w',
            frame'.store layout (block.terminator.definesOn position) result) := by
  obtain ⟨e, he, hlive⟩ := hflows.liveIn_iff hblock
  obtain ⟨body, hbody, hwrites, hreads⟩ := Effect.ofBlock_cases he
  simp only [Meaning.evalBlock, bind_eq_ok, pure_eq_ok, Prod.mk.injEq] at heval
  obtain ⟨⟨w₁, vals₁⟩, hinstrs, ⟨leave, w₂⟩, hleave, rfl, rfl, rfl⟩ := heval
  have hin : ∀ s ∈ e.reads, l.LiveIn b s := fun s hs => (hlive s).2 (.inl hs)
  obtain ⟨frame', hrun, hheld⟩ := runInstrs hinj hbody (fun s hs => hin s ((hreads s).2 (.inl hs)))
    (fun v hv => hslots v (by simp [Block.reads, hv]))
    (h.mono fun s hs => hs.resolve_right (IdSet.not_mem_empty s)) hinstrs
  have hread : ∀ v ∈ block.terminator.uses, ∃ s, layout.slotOf v = some s ∧
      (l.LiveIn b s ∨ s ∈ body.writes) := by
    intro v hv
    obtain ⟨s, hs⟩ := hslots v (by simp [Block.reads, hv])
    refine ⟨s, hs, ?_⟩
    by_cases hw : s ∈ body.writes
    · exact .inr hw
    · exact .inl (hin s ((hreads s).2 (.inr ⟨List.mem_filterMap.2 ⟨v, hv, hs⟩, hw⟩)))
  have hleave' := M.leave_extends (hheld.read_extends hread) hleave
  refine ⟨e, frame', he, hwrites ▸ hheld, ?_⟩
  simp only [Meaning.runBlock, hrun, Meaning.runTerminator, hleave']
  cases leave <;> rfl

end Frame.Holds

/-! ## Runs -/

namespace Lowering.Planned

variable [FrameValue V] {τ : Type} {f : Func} {options : Options} {a : Analysis} {p : Flat ν}
  {create : Block → Decoration → StateM τ ν} {run : Runner ν σ V E} {b next : BlockId}
  {n m : BlockNode ν} {vals vals' : Values V}

/-- **On the way to the next block** the edge's copy is performed and dead slots are emptied, and
then the frame holds what is live there. -/
theorem holds_next (hp : Planned f layout options create a p) (hinj : layout.Injective)
    {block target : Block} (hblock : f.block? b = some block) (htarget : f.block? next = some target)
    (hslots : ∀ v ∈ target.reads, ∃ s, layout.slotOf v = some s) {position : Nat}
    (hnext : block.terminator.successors[position]? = some next) (hn : p.blocks.get? b = some n)
    (hm : p.blocks.get? next = some m) {e : Effect} (he : Effect.ofBlock layout block = .ok e)
    {frame : Frame V} {result : Option V}
    (h : frame.Holds layout (fun s => a.liveness.LiveIn b s ∨ s ∈ e.writes) vals)
    (harrive : M.arrive b target (vals.set (block.terminator.definesOn position) result) = .ok vals') :
    Frame.Holds layout (a.liveness.LiveIn next) vals'
      ((((frame.store layout (block.terminator.definesOn position) result).perform
        (n.edges[position]?.getD ∅)).clearAll n.clearAfter).clearAll m.clearBefore) := by
  have hd := FlowGraph.ofFunc_describes hp.graph
  have hflows := Liveness.ofFunc_flows hd hp.liveness
  have hsuccs : a.graph.succs.get? b = some block.terminator.successors :=
    hd.successors_iff.2 ⟨block, hblock, rfl⟩
  obtain ⟨hdistinct, hmoves⟩ := EdgeCopies.ofFunc_adds hd hp.copies
  have hcopy := (hp.block hn).edge_eq position
  -- by the flow equations, what the edge reads and what is live behind it is held
  have hid := hd.id_eq hblock
  have huses : ∀ s ∈ (a.slotCopies.onEdge b position).uses, a.liveness.LiveIn b s ∨ s ∈ e.writes :=
    fun s hs => hflows.of_needed hblock he ⟨position, next, hnext, .inl (hid.symm ▸ hs)⟩
  have hperformed := (h.store hinj (block.terminator.definesOn position) result).perform hinj
    (fun m => (hmoves b next m).trans ⟨fun ⟨t, ht, htakes⟩ =>
      Option.some.inj (htarget.symm.trans ht) ▸ htakes, fun htakes => ⟨target, htarget, htakes⟩⟩)
    (hdistinct (b, next)) (EdgeCopies.moves_onEdge hp.slotCopies hsuccs hnext)
    (EdgeCopies.nodup_defs_onEdge hinj hdistinct hp.slotCopies hsuccs hnext) hslots
    (fun s hs => .inl (huses s hs)) harrive
  rw [hcopy]
  refine ((hperformed.mono fun s hs => ?_).clearAll ?_).clearAll ?_
  · rcases hflows.of_liveIn_next hblock he hnext hs with hdef | hr | hheld
    · exact .inr (hid ▸ hdef)
    · exact .inl (.inr hr)
    · exact .inl (.inl hheld)
  · exact fun s hs => hp.not_liveIn_of_mem_clearAfter hflows hn hblock hnext hs
  · exact fun s hs => hp.not_liveIn_of_mem_clearBefore hflows hm hs

section Runs

variable (hp : Planned f layout options create a p) (hinj : layout.Injective)
  (hslots : ∀ block ∈ f.blocks, ∀ v ∈ block.reads, ∃ s, layout.slotOf v = some s)
  (hrun : ∀ block ∈ f.blocks, ∀ d seed, d.layout = layout →
    run ((create block d).run seed).1 = M.runBlock layout block)

include hp hinj hslots hrun

/-- **From a block on, a flat run does what a run on values does.** -/
theorem runFrom_evalFrom {rounds : Nat} {s : RunState σ V} {o : Outcome σ V}
    (hn : p.blocks.get? b = some n) (hheld : s.frame.Holds layout (a.liveness.LiveIn b) vals)
    (heval : M.evalFrom f rounds b s.world vals = .ok o) (limit : Nat)
    (hlimit : o.path.length ≤ limit) :
    (p.runFrom run limit n s).1 = some (.ok o.value) ∧
      (p.runFrom run limit n s).2.world = o.world ∧
      (p.runFrom run limit n s).2.stats.blocks = s.stats.blocks + o.path.length ∧
      (p.visitsFrom run limit n s).map Visit.block = o.path := by
  induction rounds generalizing b n s vals o limit with
  | zero => cases heval
  | succ rounds ih =>
    have hd := FlowGraph.ofFunc_describes hp.graph
    have hflows := Liveness.ofFunc_flows hd hp.liveness
    obtain ⟨block, hblock, hcases⟩ := Meaning.evalFrom_cases heval
    have hmem : block ∈ f.blocks := List.mem_of_getElem? hblock
    have hnode : run n.node = M.runBlock layout block := by
      obtain ⟨block', seed, hblock', hnode⟩ := (hp.block hn).node
      cases hblock.symm.trans hblock'
      exact hnode ▸ hrun block hmem _ _ rfl
    have hpos : 0 < o.path.length := by
      rcases hcases with ⟨_, _, _, _, rfl⟩ | ⟨_, _, _, _, _, _, _, _, _, _, _, _, _, rfl⟩ <;>
        exact Nat.succ_pos _
    obtain ⟨limit, rfl⟩ : ∃ k, limit = k + 1 :=
      ⟨limit - 1, (Nat.succ_pred_eq_of_pos (Nat.lt_of_lt_of_le hpos hlimit)).symm⟩
    rcases hcases with ⟨value, world, vals', hstep, rfl⟩ |
      ⟨position, result, world, vals₁, next, target, vals₂, rest, hstep, hnext, htarget, harrive,
        hrest, rfl⟩
    · obtain ⟨_, frame, _, _, hout⟩ := hheld.runBlock hinj hflows hblock (hslots block hmem) hstep
      have hends : n.Ends (run n.node s.world s.frame) (.ok value)
          { s.countBlock with world, frame } := by
        rw [hnode, hout]
        exact ⟨rfl, rfl, .inr (.inl ⟨value, rfl, rfl⟩)⟩
      obtain ⟨hr, hv⟩ := Flat.runFrom_of_ends (p := p) hends rfl limit
      rw [hr, hv]
      exact ⟨rfl, rfl, rfl, congrArg (fun c => [c]) (hp.block hn).id⟩
    · obtain ⟨e, frame, he, hheld₁, hout⟩ :=
        hheld.runBlock hinj hflows hblock (hslots block hmem) hstep
      obtain ⟨m, hm⟩ := hp.exists_block htarget
      have hsuccs : n.successors[position]? = some next := by
        rw [(hp.block hn).successors_eq hd hblock, hnext]
      have hheld₂ := hp.holds_next hinj hblock htarget (hslots target (List.mem_of_getElem? htarget))
        hnext hn hm he hheld₁ harrive
      obtain ⟨hr, hv⟩ := Flat.runFrom_of_next (p := p) (s := s) (hnode ▸ hout) hsuccs hm limit
      obtain ⟨hvalue, hworld, hblocks, hpath⟩ := ih (s := RunState.clear { s.countBlock with
        world, frame := _ } m.clearBefore) hm hheld₂ hrest limit (Nat.le_of_succ_le_succ hlimit)
      dsimp only at hr hv
      rw [hr, hv]
      refine ⟨hvalue, hworld, hblocks.trans ?_, congrArg₂ List.cons (hp.block hn).id hpath⟩
      simp only [RunState.clear, RunState.countBlock, List.length_cons]
      omega

/-- **A flat run does what a run on values does**, from the arguments on. -/
theorem run_eval {rounds : Nat} {world : σ} {args : List V} {o : Outcome σ V} (size : Nat)
    (heval : M.eval f rounds world args = .ok o) (limit : Nat) (hlimit : o.path.length ≤ limit) :
    let frame : Frame V := (Frame.ofSize size).storeArgs layout f.params args
    (p.run run limit world frame).1 = some (.ok o.value) ∧
      (p.run run limit world frame).2.world = o.world ∧
      (p.run run limit world frame).2.stats.blocks = o.path.length ∧
      (p.visits run limit world frame).map Visit.block = o.path := by
  intro frame
  have hd := FlowGraph.ofFunc_describes hp.graph
  have hflows := Liveness.ofFunc_flows hd hp.liveness
  obtain ⟨n, hn⟩ : ∃ n, p.blocks.get? BlockId.entry = some n :=
    Table.exists_get? (hp.size ▸ hd.nonempty)
  have hempty : Frame.Holds layout (a.liveness.LiveIn BlockId.entry) Values.none
      (Frame.ofSize size : Frame V) := fun _ _ _ _ _ h => nomatch h
  have hheld := (hempty.storeArgs hinj f.params args).clearAll
    fun s hs => hp.not_liveIn_of_mem_clearBefore hflows hn hs
  have hstart := hp.runFrom_evalFrom hinj hslots hrun (s := ⟨frame.clearAll n.clearBefore, world, {}⟩)
    hn hheld heval limit hlimit
  simpa [Flat.run, Flat.visits, Flat.goto, hn, RunState.clear] using hstart

end Runs

end Lowering.Planned

namespace Tree

/-- **A lowered function does what the function means.**  No two values share a slot, and every value
that is read has one; the nodes run their blocks by a meaning.  Whenever a run on values returns, the
tree returns the same value on a new frame with the arguments in place, with the same state and along
the same path, as soon as it may run as many blocks. -/
theorem run_eq_eval [FrameValue V] {f : Func} {options : Options} {τ : Type}
    {create : Block → Decoration → StateM τ ν} {seed : τ} {t : Tree ν} (run : Runner ν σ V E)
    (ht : ((lower f layout options create).run seed).1 = .ok t) (hinj : layout.Injective)
    (hslots : ∀ block ∈ f.blocks, ∀ v ∈ block.reads, ∃ s, layout.slotOf v = some s)
    (hrun : ∀ block ∈ f.blocks, ∀ d seed, d.layout = layout →
      run ((create block d).run seed).1 = M.runBlock layout block)
    {rounds : Nat} {world : σ} {args : List V} {o : Outcome σ V}
    (heval : M.eval f rounds world args = .ok o) (limit : Nat) (hlimit : o.path.length ≤ limit) :
    let frame : Frame V := t.newFrame.storeArgs layout f.params args
    (t.run run limit world frame).1 = some (.ok o.value) ∧
      (t.run run limit world frame).2.world = o.world ∧
      (t.run run limit world frame).2.stats.blocks = o.path.length ∧
      (t.visits run limit world frame).map Visit.block = o.path := by
  intro frame
  obtain ⟨a, p, Ls, rep, _, hp, hd, _, hexit⟩ := lower_disperses ht
  have hfree : ∀ v s, layout.slotOf v = some s → t.exitSlot ≠ some s :=
    fun v s hv hs => hexit v (by simp [hs]) (hv.trans hs.symm)
  have hig : ∀ {b n}, p.blocks.get? b = some n → Frame.Ignored t.exitSlot (run n.node) := by
    intro b n hn
    obtain ⟨block, seed, hblock, hnode⟩ := (hp.block hn).node
    rw [hnode, hrun block (List.mem_of_getElem? hblock) _ _ rfl]
    exact Meaning.runBlock_ignored hfree block
  have hsize : t.frameSize ≤ frame.size := by
    refine Nat.le_trans ?_ (Frame.size_le_storeArgs _ _ _)
    simp [newFrame, Frame.ofSize, Frame.size]
  have hsame := run_sameRun hd hig False limit world hsize fun h => h.elim
  obtain ⟨hvalue, hworld, hblocks, hpath⟩ :=
    hp.run_eval hinj hslots hrun t.frameSize heval limit hlimit
  refine ⟨hsame.result.trans hvalue, hsame.state.world.trans hworld,
    hsame.state.blocks.trans hblocks, Eq.trans ?_ hpath⟩
  rw [← List.forall₂_eq_eq_eq, List.forall₂_map_left_iff, List.forall₂_map_right_iff]
  exact hsame.visits.imp fun _ _ h => h.block

/-- Two values that change places on every round of a loop, as often as the argument says.  A call
counts the rounds, and its result is read where the call returns to.  The call after the loop unwinds,
and the first of the two values is returned. -/
def swaps : Func where
  name := "swaps"
  params := [⟨0⟩]
  valueCount := 7
  blocks := [
    { id := ⟨0⟩, instrs := [], terminator := .br ⟨1⟩ },
    { id := ⟨1⟩
      instrs := [
        .phi ⟨1⟩ [⟨⟨0⟩, .const (.int 0)⟩, ⟨⟨3⟩, .value ⟨5⟩⟩],
        .phi ⟨2⟩ [⟨⟨0⟩, .const (.int 7)⟩, ⟨⟨3⟩, .value ⟨3⟩⟩],
        .phi ⟨3⟩ [⟨⟨0⟩, .const (.int 8)⟩, ⟨⟨3⟩, .value ⟨2⟩⟩],
        .compare ⟨4⟩ .lt (.value ⟨1⟩) (.value ⟨0⟩)]
      terminator := .condBr (.value ⟨4⟩) ⟨2⟩ ⟨4⟩ },
    { id := ⟨2⟩
      instrs := []
      terminator := .invoke (some ⟨5⟩) "add" [.value ⟨1⟩, .const (.int 1)] ⟨3⟩ ⟨6⟩ },
    { id := ⟨3⟩, instrs := [], terminator := .br ⟨1⟩ },
    { id := ⟨4⟩
      instrs := []
      terminator := .invoke (some ⟨6⟩) "throw" [.value ⟨3⟩] ⟨5⟩ ⟨6⟩ },
    { id := ⟨5⟩, instrs := [], terminator := .ret (some (.value ⟨6⟩)) },
    { id := ⟨6⟩, instrs := [], terminator := .ret (some (.value ⟨2⟩)) }]

theorem run_swaps : ∃ (t : Tree Block) (o : Outcome Unit Constant),
    ((lower swaps (.onePerValue swaps) {} fun b _ => (pure b : StateM Unit Block)).run ()).1 = .ok t ∧
    (Layout.onePerValue swaps).Injective ∧
    (∀ block ∈ swaps.blocks, ∀ v ∈ block.reads, ∃ s, (Layout.onePerValue swaps).slotOf v = some s) ∧
    integerMeaning.eval swaps 13 () [.int 3] = .ok o ∧ o.path.length ≤ 13 ∧
    o.value = some (.int 8) ∧
    (t.run (fun b => integerMeaning.runBlock (.onePerValue swaps) b) 13 ()
      (t.newFrame.storeArgs (.onePerValue swaps) swaps.params [.int 3])).1 = some (.ok o.value) ∧
    (t.visits (fun b => integerMeaning.runBlock (.onePerValue swaps) b) 13 ()
      (t.newFrame.storeArgs (.onePerValue swaps) swaps.params [.int 3])).map Visit.block = o.path := by
  have hlower : (((lower swaps (.onePerValue swaps) {} fun b _ =>
      (pure b : StateM Unit Block)).run ()).1.map fun t => t.frameSize) = .ok 8 := by decide +kernel
  have heval : integerMeaning.eval swaps 13 () [.int 3] = .ok ⟨some (.int 8), (),
      [⟨0⟩, ⟨1⟩, ⟨2⟩, ⟨3⟩, ⟨1⟩, ⟨2⟩, ⟨3⟩, ⟨1⟩, ⟨2⟩, ⟨3⟩, ⟨1⟩, ⟨4⟩, ⟨6⟩]⟩ := by decide +kernel
  have hinj : (Layout.onePerValue swaps).Injective := Layout.onePerValue_injective swaps
  have hslots : ∀ block ∈ swaps.blocks, ∀ v ∈ block.reads,
      ∃ s, (Layout.onePerValue swaps).slotOf v = some s := by
    have hlt : ∀ block ∈ swaps.blocks, ∀ v ∈ block.reads, v.index < swaps.valueCount := by decide
    exact fun block hblock v hv => ⟨_, if_pos (hlt block hblock v hv)⟩
  cases ht : ((lower swaps (.onePerValue swaps) {} fun b _ =>
    (pure b : StateM Unit Block)).run ()).1 with
  | error e => rw [ht] at hlower; cases hlower
  | ok t =>
    have hrun := run_eq_eval (fun b => integerMeaning.runBlock (.onePerValue swaps) b) ht hinj hslots
      (fun _ _ _ _ _ => rfl) heval 13 (Nat.le_refl 13)
    exact ⟨t, _, rfl, hinj, hslots, heval, Nat.le_refl 13, rfl, hrun.1, hrun.2.2.2⟩

/-- A layout in which the call that unwinds would write to the slot of the value that is returned. -/
def swapsLayout : Layout := (Layout.onePerValue swaps).assign ⟨6⟩ ⟨2⟩

end Tree

end FlowTree
