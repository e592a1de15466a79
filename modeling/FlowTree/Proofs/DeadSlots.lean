import FlowTree.Proofs.Discipline
import FlowTree.Proofs.LoweredRuns

/-!
# Dead slots are empty

Where slots are emptied when nothing reads them any more, a frame retains nothing that is dead.

What a block finds is live in it.  When control leaves the block, a slot that is filled was live at
its start, or was written by the block or on the edge.  If no successor needs it, it is emptied after
the block.  If some successor needs it but not the one that runs next, it is emptied before that one.
So nothing stays but what is live in the next block, and what is never emptied because the caller said
so.

## Main statements

* `Liveness.ofFunc_empties` — the clear sets of a function have all that is dead.
* `Tree.Lowered.within_next`, `Tree.Lowered.visitsFrom_within` — one block, and a run.
* `Tree.run_retains_no_dead` — a lowered function retains nothing dead.
-/

namespace FlowTree

variable {ν σ V E : Type} {layout : Layout} {f : Func} {options : Options} {b next : BlockId}
  {s : SlotId}

/-! ## Frames that are empty but for some slots -/

/-- Only slots of `S` are filled. -/
def Frame.Within (S : SlotId → Prop) (f : Frame V) : Prop := ∀ s, f.cell s ≠ .empty → S s

namespace Frame.Within

variable {S S' : SlotId → Prop} {f f' : Frame V}

theorem mono (h : Within S f) (hS : ∀ s, S s → S' s) : Within S' f := fun s hs => hS s (h s hs)

theorem clearAll (h : Within S f) (ss : List SlotId) :
    Within (fun s => S s ∧ s ∉ ss) (f.clearAll ss) := by
  intro s hs
  rw [cell_clearAll] at hs
  split at hs
  · exact absurd rfl hs
  · rename_i hmem
    exact ⟨h s hs, hmem⟩

theorem perform [FrameValue V] (h : Within S f) (copy : ParallelCopy SlotId) :
    Within (fun s => S s ∨ s ∈ copy.defs) (f.perform copy) := by
  intro s hs
  by_cases hdef : s ∈ copy.defs
  · exact .inr hdef
  · rw [cell_perform_of_not_mem hdef] at hs
    exact .inl (h s hs)

/-- Passing names through the exit slot fills nothing. -/
theorem relayed {exit : Option SlotId} (h : Within S f) (hr : Relayed exit f f') : Within S f' := by
  intro s hs
  refine h s fun hempty => hs ?_
  by_cases he : exit = some s
  · rcases hr.passed s he with hp | hp
    · exact hp.trans hempty
    · exact hp
  · exact (hr.cell s he).trans hempty

/-- Running a block fills the slots that it may write. -/
theorem act {block : Block} {act : Act σ V E (Transfer V)} {w w' : σ} {position : Nat}
    (h : Within S f) (hw : block.WritesWithin layout act)
    (hout : act w f = (.ok (.branch position), w', f')) :
    Within (fun s => S s ∨ s ∈ layout.slotsOf (block.body.filterMap Instr.defines) ∨
      s ∈ layout.slotsOf (block.terminator.definesOn position).toList) f' := by
  intro s hs
  by_cases hbody : s ∈ layout.slotsOf (block.body.filterMap Instr.defines)
  · exact .inr (.inl hbody)
  by_cases hedge : s ∈ layout.slotsOf (block.terminator.definesOn position).toList
  · exact .inr (.inr hedge)
  have hcell := hw (congrArg Prod.fst hout) hbody hedge
  rw [hout] at hcell
  exact .inl (h s (hcell ▸ hs))

end Frame.Within

/-- In a new frame with the arguments in place, only parameters are set. -/
theorem Frame.within_storeArgs (layout : Layout) (size : Nat) (params : List ValueId) (args : List V) :
    Within (· ∈ layout.slotsOf params) ((ofSize size).storeArgs layout params args) := by
  have hempty : Within (· ∈ layout.slotsOf params) (ofSize size : Frame V) := by
    refine fun s hs => absurd ?_ hs
    simp only [ofSize, cell, Array.getElem?_replicate]
    split <;> rfl
  have hmem : ∀ p ∈ params.zip args, p.1 ∈ params := fun p hp => (List.of_mem_zip hp).1
  unfold storeArgs
  generalize params.zip args = sets at hmem ⊢
  generalize (ofSize size : Frame V) = f at hempty ⊢
  induction sets generalizing f with
  | nil => exact hempty
  | cons p rest ih =>
    refine ih (fun q hq => hmem q (List.mem_cons_of_mem p hq)) _ fun s hs => ?_
    by_contra hnot
    have hother : s ∉ layout.slotsOf (some p.1).toList := by
      intro hs'
      obtain ⟨v, hv, hvs⟩ := List.mem_filterMap.1 hs'
      obtain rfl : v = p.1 := by simpa using hv
      exact hnot (List.mem_filterMap.2 ⟨p.1, hmem p List.mem_cons_self, hvs⟩)
    rw [cell_store_of_not_mem hother] at hs
    exact hnot (hempty s hs)

/-! ## What the clear sets have -/

namespace Liveness

variable {l : Liveness} {g : FlowGraph} {copies : SlotCopies}

/-- A slot may be filled when block `b` starts: it is live there, or it is never emptied. -/
def Kept (l : Liveness) (options : Options) (b : BlockId) (s : SlotId) : Prop :=
  l.LiveIn b s ∨ s ∈ options.neverCleared

/-- Whatever is dead is emptied, unless it never is: before the entry the parameters that it does not
need, after a block what no successor needs, and before the next block what only others need. -/
structure Empties (l : Liveness) (f : Func) (copies : SlotCopies) (layout : Layout)
    (options : Options) : Prop where
  entry : ∀ {s}, s ∈ layout.slotsOf f.params → ¬ MemAt l.clearBefore BlockId.entry s →
    l.Kept options BlockId.entry s
  after : ∀ {b block position next s}, f.block? b = some block →
    block.terminator.successors[position]? = some next →
    (l.LiveIn b s ∨ s ∈ layout.slotsOf (block.body.filterMap Instr.defines) ∨
      s ∈ layout.slotsOf (block.terminator.definesOn position).toList ∨
      s ∈ (copies.onEdge b position).defs) →
    ¬ MemAt l.clearAfter b s →
    (∃ target ∈ block.terminator.successors, l.LiveIn target s) ∨ s ∈ options.neverCleared
  before : ∀ {b block next s}, f.block? b = some block → next ∈ block.terminator.successors →
    (∃ target ∈ block.terminator.successors, l.LiveIn target s) →
    ¬ MemAt l.clearBefore next s → l.Kept options next s

/-- **The clear sets of a function have all that is dead.** -/
theorem ofFunc_empties (hd : g.Describes f) (hdead : options.clearDead = true)
    (h : ofFunc f g copies layout options = .ok l) : l.Empties f copies layout options := by
  obtain ⟨flows, _, _, hflows, _, _, _, _, ⟨hoff, _⟩ | ⟨_, params, never, before, after, hsets⟩⟩ :=
    ofFunc_cases h
  · cases hdead.symm.trans hoff
  have hnever : ∀ {s}, s ∈ never → s ∈ options.neverCleared := fun hs =>
    (List.mem_filter.1 ((SlotSet.mem_ofSlots hsets.never_eq).1 hs)).1
  have hbefore : ∀ {b s}, b.index < g.size → ¬ MemAt l.clearBefore b s →
      (b = BlockId.entry ∧ s ∈ params ∨ ∃ a, g.preds.Edge b a ∧ MemAt l.liveOut a s) →
      l.Kept options b s := by
    intro b s hb hnot hneeded
    obtain ⟨set, hset, hr⟩ := get?_of_mapM_blocks hsets.before_eq hb
    rw [hsets.clearBefore_eq, memAt_iff hset, mem_beforeBlock hr] at hnot
    by_cases hlive : l.LiveIn b s
    · exact .inl hlive
    · exact .inr (hnever (not_not.1 fun hn => hnot ⟨hneeded, hlive, hn⟩))
  refine ⟨fun hs hnot => ?_, ?_, ?_⟩
  · exact hbefore hd.nonempty hnot (.inl ⟨rfl, (SlotSet.mem_ofSlots hsets.params_eq).2 hs⟩)
  · intro b block position next s hblock hnext hs hnot
    obtain ⟨flow, hflow, hof⟩ := getElem?_of_mapM hflows hblock
    obtain ⟨heffect, targets, htargets, _, hedges⟩ := BlockFlow.ofBlock_cases hof
    obtain ⟨body, hbody, hwrites, _⟩ := Effect.ofBlock_cases heffect
    have hid := hd.id_eq hblock
    obtain rfl : targets = block.terminator.successors := by
      rw [hid] at htargets
      exact Option.some.inj (htargets.symm.trans (hd.successors_iff.2 ⟨block, hblock, rfl⟩))
    obtain ⟨e, hmem, he⟩ := hedges position next hnext
    -- in the words of the block's flow, what is written
    have hfilled : MemAt l.liveIn b s ∨ s ∈ flow.effect.writes ∨
        ∃ target e, (target, e) ∈ flow.edges ∧ s ∈ e.writes := by
      rcases hs with hs | hs | hs | hs
      · exact .inl hs
      · exact .inr (.inl (hwrites ▸ (Effect.writes_of_foldlM_step hbody).2 (.inr hs)))
      · exact .inr (.inr ⟨next, e, hmem, (EdgeEffect.ofEdge_cases he s).1.2 (.inr hs)⟩)
      · rw [← hid] at hs
        exact .inr (.inr ⟨next, e, hmem, (EdgeEffect.ofEdge_cases he s).1.2 (.inl hs)⟩)
    have hb : b.index < g.size := hd.size_eq ▸ (List.getElem?_eq_some_iff.1 hblock).1
    obtain ⟨set, hset, hr⟩ := get?_of_mapM_blocks hsets.after_eq hb
    rw [hsets.clearAfter_eq, memAt_iff hset, mem_afterBlock (by rw [Table.get?_ofList, hflow]) hr,
      liveOut_iff hd h hblock] at hnot
    by_cases hlive : ∃ target ∈ block.terminator.successors, l.LiveIn target s
    · exact .inl hlive
    · exact .inr (hnever (not_not.1 fun hn => hnot ⟨hfilled, hlive, hn⟩))
  · intro b block next s hblock hnext hlive hnot
    have hedge : g.Edge b next := ⟨_, hd.successors_iff.2 ⟨block, hblock, rfl⟩, hnext⟩
    refine hbefore (hd.closed _ _ hedge) hnot (.inr ⟨b, (hd.preds_iff b next).2 hedge, ?_⟩)
    exact (liveOut_iff hd h hblock).2 hlive

end Liveness

/-! ## Runs -/

namespace Tree

namespace Lowered

variable {τ : Type} {create : Block → Decoration → StateM τ ν} {t : Tree ν} {a : Analysis}
  {p : Flat ν} {Ls : List Loop} {rep : BlockId → LoopNode ν} [FrameValue V]
  (hl : Lowered f layout options create t a p Ls rep) (hdead : options.clearDead = true)

include hl hdead

/-- **On the way to the next block** all that is dead there is emptied. -/
theorem within_next {n m : BlockNode ν} {block : Block} {act : Act σ V E (Transfer V)} {w w' : σ}
    {frame frame₁ frame₂ : Frame V} {position : Nat} (hn : p.blocks.get? b = some n)
    (hm : p.blocks.get? next = some m) (hblock : f.block? b = some block)
    (hnext : n.successors[position]? = some next) (hw : block.WritesWithin layout act)
    (hout : act w frame = (.ok (.branch position), w', frame₁))
    (hr : Frame.Relayed t.exitSlot
      ((frame₁.perform (n.edges[position]?.getD ∅)).clearAll n.clearAfter) frame₂)
    (h : Frame.Within (a.liveness.Kept options b) frame) :
    Frame.Within (a.liveness.Kept options next) (frame₂.clearAll m.clearBefore) := by
  have hd := FlowGraph.ofFunc_describes hl.planned.graph
  have hempties := Liveness.ofFunc_empties hd hdead hl.planned.liveness
  have hb := hl.planned.block hn
  rw [hb.successors_eq hd hblock] at hnext
  rw [hb.edge_eq] at hr
  -- what is still filled after the block is needed by a successor, if not by the next block
  have hleft : Frame.Within (fun s => (∃ target ∈ block.terminator.successors,
      a.liveness.LiveIn target s) ∨ s ∈ options.neverCleared) frame₂ := by
    refine Frame.Within.relayed (Frame.Within.mono
      (((h.act hw hout).perform _).clearAll n.clearAfter) ?_) hr
    rintro s ⟨hs, hnot⟩
    rw [hb.mem_clearAfter] at hnot
    rcases hs with ((hlive | hnever) | hbody | hresult) | hcopy
    · exact hempties.after hblock hnext (.inl hlive) hnot
    · exact .inr hnever
    · exact hempties.after hblock hnext (.inr (.inl hbody)) hnot
    · exact hempties.after hblock hnext (.inr (.inr (.inl hresult))) hnot
    · exact hempties.after hblock hnext (.inr (.inr (.inr hcopy))) hnot
  refine (hleft.clearAll m.clearBefore).mono ?_
  rintro s ⟨hlive | hnever, hnot⟩
  · rw [(hl.planned.block hm).mem_clearBefore] at hnot
    exact hempties.before hblock (List.mem_of_getElem? hnext) hlive hnot
  · exact .inr hnever

variable {run : Runner ν σ V E}
  (hrun : ∀ n ∈ t.blocks, ∀ block, f.block? n.id = some block → block.WritesWithin layout (run n.node))

include hrun

/-- **From a block on, nothing dead is retained.** -/
theorem visitsFrom_within (limit : Nat) {c : Cursor ν} {chain : List Loop} {s : RunState σ V}
    (hu : a.graph.Reachable b) (hat : At p Ls rep b c chain)
    (h : Frame.Within (a.liveness.Kept options b) s.frame) :
    ∀ v ∈ t.visitsFrom run limit c s, Frame.Within (a.liveness.Kept options v.block) v.frame := by
  induction limit generalizing b c chain s with
  | zero => exact fun v hv => absurd hv List.not_mem_nil
  | succ limit ih =>
    have hid := hl.disperses.id hat.block
    -- the run goes on along an edge, or this block is its last
    by_cases hgo : ∃ position next, (run c.block.node s.world s.frame).1 = .ok (.branch position) ∧
        c.block.successors[position]? = some next
    · obtain ⟨position, next, hbranch, hnext⟩ := hgo
      obtain ⟨block, _, hblock, _⟩ := (hl.planned.block hat.block).node
      have hw := hrun c.block (hl.disperses.mem_blocks hat.block) block (hid ▸ hblock)
      rcases hout : run c.block.node s.world s.frame with ⟨result, world, frame⟩
      rw [hout] at hbranch
      obtain rfl : result = .ok (.branch position) := hbranch
      obtain ⟨hedge, c', chain', frame', hat', hrelayed, hruns⟩ :=
        runFrom_goes_on hl.disperses hu hat hout hnext
      have hnextWithin := hl.within_next hdead hat.block hat'.block hblock hnext hw hout hrelayed h
      rw [(hruns limit).2]
      refine List.forall_mem_cons.2 ⟨?_, ih (hu.step hedge) hat' hnextWithin⟩
      rw [hid]
      exact h
    · obtain ⟨_, _, hexecute⟩ := execute_ends fun position next hb hn => hgo ⟨position, next, hb, hn⟩
      rw [(runFrom_of_ends (t := t) hexecute limit).2]
      refine List.forall_mem_singleton.2 ?_
      rw [hid]
      exact h

end Lowered

/-- **A lowered function retains nothing dead.**  Slots are emptied when nothing reads them any more,
and nodes write no slots but those of the values that their block and the edge taken define.  On a
frame in which only parameters are set, whenever a node runs, each slot that is not empty is live at
the start of its block or is one of those that are never emptied. -/
theorem run_retains_no_dead [FrameValue V] {τ : Type} {create : Block → Decoration → StateM τ ν}
    {seed : τ} {t : Tree ν} (ht : ((lower f layout options create).run seed).1 = .ok t)
    (hdead : options.clearDead = true) :
    ∃ a, Analysis.ofFunc f layout options = .ok a ∧ ∀ (run : Runner ν σ V E),
      (∀ n ∈ t.blocks, ∀ block, f.block? n.id = some block → block.WritesWithin layout (run n.node)) →
      ∀ (limit : Nat) (world : σ) (frame : Frame V),
        (∀ s, frame.cell s ≠ .empty → s ∈ layout.slotsOf f.params) →
        ∀ v ∈ t.visits run limit world frame, ∀ s, v.frame.cell s ≠ .empty →
          a.liveness.LiveIn v.block s ∨ s ∈ options.neverCleared := by
  obtain ⟨a, p, Ls, rep, _, hl⟩ := lower_lowered ht
  refine ⟨a, hl.planned.ofFunc_eq, fun run hrun limit world frame hframe => ?_⟩
  have hd := FlowGraph.ofFunc_describes hl.planned.graph
  have hempties := Liveness.ofFunc_empties hd hdead hl.planned.liveness
  obtain ⟨c, chain, hat, hbegins⟩ := run_begins hl.disperses run world frame
  have hparams : Frame.Within (· ∈ layout.slotsOf f.params) frame := hframe
  rw [(hbegins limit).2]
  refine hl.visitsFrom_within hdead hrun limit (FlowGraph.reachable_entry a.graph) hat
    ((hparams.clearAll c.block.clearBefore).mono ?_)
  rintro s ⟨hs, hnot⟩
  rw [(hl.planned.block hat.block).mem_clearBefore] at hnot
  exact hempties.entry hs hnot

theorem run_swaps_retains_no_dead : ∃ (t : Tree Block) (a : Analysis),
    ((lower swaps swapsLayout {} fun b _ => (pure b : StateM Unit Block)).run ()).1 = .ok t ∧
    Analysis.ofFunc swaps swapsLayout {} = .ok a ∧
    (∀ n ∈ t.blocks, ∀ block, swaps.block? n.id = some block → block.WritesWithin
      swapsLayout (integerMeaning.runBlock swapsLayout n.node)) ∧
    (∀ s, (t.newFrame.storeArgs swapsLayout swaps.params [.int 1] :
      Frame Constant).cell s ≠ .empty → s ∈ swapsLayout.slotsOf swaps.params) ∧
    (t.visits (fun b => integerMeaning.runBlock swapsLayout b) 9 ()
      (t.newFrame.storeArgs swapsLayout swaps.params [.int 1])).map Visit.block =
        [⟨0⟩, ⟨1⟩, ⟨2⟩, ⟨3⟩, ⟨1⟩, ⟨4⟩, ⟨6⟩] ∧
    ∀ v ∈ t.visits (fun b => integerMeaning.runBlock swapsLayout b) 9 ()
      (t.newFrame.storeArgs swapsLayout swaps.params [.int 1]),
      ∀ s, v.frame.cell s ≠ .empty → a.liveness.LiveIn v.block s ∨ s ∈ [] := by
  have hlower : (((lower swaps swapsLayout {} fun b _ =>
      (pure b : StateM Unit Block)).run ()).1.map fun t =>
        (t.visits (fun b => integerMeaning.runBlock swapsLayout b) 9 ()
          (t.newFrame.storeArgs swapsLayout swaps.params [.int 1])).map Visit.block) =
      .ok [⟨0⟩, ⟨1⟩, ⟨2⟩, ⟨3⟩, ⟨1⟩, ⟨4⟩, ⟨6⟩] := by decide +kernel
  cases ht : ((lower swaps swapsLayout {} fun b _ => (pure b : StateM Unit Block)).run ()).1 with
  | error e => rw [ht] at hlower; cases hlower
  | ok t =>
    rw [ht] at hlower
    have hnodes : ∀ n ∈ t.blocks, ∀ block, swaps.block? n.id = some block → block.WritesWithin
        swapsLayout (integerMeaning.runBlock swapsLayout n.node) := by
      intro n hn block hblock
      obtain ⟨_, _, _, _, _, hl⟩ := lower_lowered ht
      obtain ⟨block', _, _, hblock', _, hnode⟩ := hl.exists_create hn
      cases hblock.symm.trans hblock'
      rw [hnode]
      exact (Meaning.runBlock_disciplined integerMeaning_exact block).writesWithin
    obtain ⟨a, ha, hretains⟩ :=
      run_retains_no_dead (σ := Unit) (V := Constant) (E := EvalError) ht rfl
    have hframe := Frame.within_storeArgs swapsLayout t.frameSize swaps.params [Constant.int 1]
    exact ⟨t, a, rfl, ha, hnodes, hframe, Except.ok.inj hlower, hretains _ hnodes 9 () _ hframe⟩

end Tree

end FlowTree
