import FlowTree.Storage.Liveness
import FlowTree.Proofs.EdgeMoves

/-!
# Live slots

What a computed liveness says, slot by slot.

The sweeps stop when one of them changes nothing, so what they leave is a solution of the flow
equations: a slot is live at the start of a block if the block reads it before writing it, or does
not write it and it is needed on some edge out of the block.  On an edge a slot is needed if the
edge's copy reads it, or if it is live at the edge's end and nothing on the edge writes it.  What may
be emptied before a block or after it is live in none of the blocks that run next.

## Main statements

* `Effect.step_cases`, `Effect.ofBlock_cases` — what blocks read and write.
* `Liveness.settle_unchanged` — where the sweeps stop, nothing changes.
* `Liveness.mem_beforeBlock`, `Liveness.mem_afterBlock` — what the clear sets have.
* `Liveness.ofFunc_flows` — a computed liveness solves the flow equations.
-/

namespace FlowTree

variable {layout : Layout} {f : Func} {g : FlowGraph} {copies : SlotCopies} {options : Options}
  {width : Nat} {ss : List SlotId} {s : SlotId} {b : BlockId}

/-! ## Effects of blocks -/

theorem IdSet.eq_insert_of_insertBelow {k : Kind} {i : Ident k} {set set' : IdSet k}
    (h : set.insertBelow width i = .ok set') : set' = set.insert i := by
  unfold insertBelow at h
  split at h <;> cases h
  rfl

theorem SlotSet.mem_ofSlots {set : SlotSet} (h : ofSlots width ss = .ok set) : s ∈ set ↔ s ∈ ss := by
  refine foldlM_induction (fun passed (set : SlotSet) => s ∈ set ↔ s ∈ passed) h (by simp) ?_
  intro passed t later set set' _ hset hstep
  rw [IdSet.eq_insert_of_insertBelow hstep, IdSet.mem_insert, hset, List.mem_append,
    List.mem_singleton, or_comm]

namespace Effect

variable {e e' : Effect} {i : Instr} {is : List Instr} {block : Block}

theorem foldlM_read (h : ss.foldlM (read width) e = .ok e') :
    e'.writes = e.writes ∧ ∀ s, s ∈ e'.reads ↔ s ∈ e.reads ∨ s ∈ ss ∧ s ∉ e.writes := by
  refine foldlM_induction (fun passed c => c.writes = e.writes ∧
    ∀ s, s ∈ c.reads ↔ s ∈ e.reads ∨ s ∈ passed ∧ s ∉ e.writes) h ⟨rfl, by simp⟩ ?_
  rintro passed t later c c' - ⟨hw, hr⟩ hstep
  unfold read at hstep
  split at hstep
  · rename_i ht
    rw [pure_eq_ok] at hstep
    subst hstep
    refine ⟨hw, fun s => ?_⟩
    rw [hr, List.mem_append, List.mem_singleton, or_and_right, ← hw]
    grind
  · rename_i ht
    simp only [bind_eq_ok, pure_eq_ok] at hstep
    obtain ⟨reads, hreads, rfl⟩ := hstep
    refine ⟨hw, fun s => ?_⟩
    rw [IdSet.eq_insert_of_insertBelow hreads, IdSet.mem_insert, hr, List.mem_append,
      List.mem_singleton, ← hw]
    grind

theorem foldlM_write (h : ss.foldlM (write width) e = .ok e') :
    e'.reads = e.reads ∧ ∀ s, s ∈ e'.writes ↔ s ∈ e.writes ∨ s ∈ ss := by
  refine foldlM_induction (fun passed c => c.reads = e.reads ∧
    ∀ s, s ∈ c.writes ↔ s ∈ e.writes ∨ s ∈ passed) h ⟨rfl, by simp⟩ ?_
  rintro passed t later c c' - ⟨hr, hw⟩ hstep
  simp only [write, bind_eq_ok, pure_eq_ok] at hstep
  obtain ⟨writes, hwrites, rfl⟩ := hstep
  refine ⟨hr, fun s => ?_⟩
  rw [IdSet.eq_insert_of_insertBelow hwrites, IdSet.mem_insert, hw, List.mem_append,
    List.mem_singleton]
  grind

/-- What one instruction adds to the effect of those before it. -/
theorem step_cases (h : step layout e i = .ok e') :
    (∀ s, s ∈ e'.reads ↔ s ∈ e.reads ∨ s ∈ layout.slotsOf i.uses ∧ s ∉ e.writes) ∧
      ∀ s, s ∈ e'.writes ↔ s ∈ e.writes ∨ s ∈ layout.slotsOf i.defines.toList := by
  simp only [step, bind_eq_ok] at h
  obtain ⟨c, hread, hwrite⟩ := h
  obtain ⟨hc, hreads⟩ := foldlM_read hread
  obtain ⟨hc', hwrites⟩ := foldlM_write hwrite
  rw [hc']
  rw [hc] at hwrites
  exact ⟨hreads, hwrites⟩

theorem reads_of_foldlM_step (h : is.foldlM (step layout) e = .ok e') (hs : s ∈ e.reads) :
    s ∈ e'.reads := by
  refine foldlM_induction (fun _ (c : Effect) => s ∈ c.reads) h hs ?_
  intro passed i later c c' _ hc hstep
  exact ((step_cases hstep).1 s).2 (.inl hc)

/-- Instructions write the slots of what they define. -/
theorem writes_of_foldlM_step (h : is.foldlM (step layout) e = .ok e') :
    s ∈ e'.writes ↔ s ∈ e.writes ∨ s ∈ layout.slotsOf (is.filterMap Instr.defines) := by
  refine foldlM_induction (fun passed (c : Effect) => s ∈ c.writes ↔
    s ∈ e.writes ∨ s ∈ layout.slotsOf (passed.filterMap Instr.defines)) h (by simp [Layout.slotsOf]) ?_
  intro passed i later c c' _ hc hstep
  rw [(step_cases hstep).2, hc, or_assoc]
  simp only [Layout.slotsOf, List.filterMap_append, List.mem_append]
  cases hi : i.defines <;> simp [hi]

/-- The effect of a block is that of its instructions, and what its terminator reads besides. -/
theorem ofBlock_cases (h : ofBlock layout block = .ok e) :
    ∃ body, block.body.foldlM (step layout) {} = .ok body ∧ e.writes = body.writes ∧
      ∀ s, s ∈ e.reads ↔
        s ∈ body.reads ∨ s ∈ layout.slotsOf block.terminator.uses ∧ s ∉ body.writes := by
  simp only [ofBlock, bind_eq_ok] at h
  obtain ⟨body, hbody, hread⟩ := h
  exact ⟨body, hbody, foldlM_read hread⟩

end Effect

/-! ## Effects of edges -/

theorem EdgeEffect.ofEdge_cases {block : Block} {onEdges : List (ParallelCopy SlotId)}
    {position : Nat} {e : EdgeEffect} (h : ofEdge layout block onEdges position = .ok e) (s : SlotId) :
    (s ∈ e.writes ↔ s ∈ (onEdges[position]?.getD ∅).defs ∨
      s ∈ layout.slotsOf (block.terminator.definesOn position).toList) ∧
    (s ∈ e.reads ↔ s ∈ (onEdges[position]?.getD ∅).uses) := by
  simp only [ofEdge, bind_eq_ok, pure_eq_ok] at h
  obtain ⟨writes, hwrites, reads, hreads, rfl⟩ := h
  exact ⟨by rw [SlotSet.mem_ofSlots hwrites, List.mem_append], SlotSet.mem_ofSlots hreads⟩

/-- The flow of a block: its own effect, and that of the edge at each position. -/
theorem BlockFlow.ofBlock_cases {block : Block} {flow : BlockFlow}
    (h : ofBlock g copies layout block = .ok flow) :
    Effect.ofBlock layout block = .ok flow.effect ∧
      ∃ targets, g.succs.get? block.id = some targets ∧
        (∀ target e, (target, e) ∈ flow.edges → ∃ position, targets[position]? = some target ∧
          EdgeEffect.ofEdge layout block ((copies.get? block.id).getD []) position = .ok e) ∧
        ∀ position target, targets[position]? = some target → ∃ e, (target, e) ∈ flow.edges ∧
          EdgeEffect.ofEdge layout block ((copies.get? block.id).getD []) position = .ok e := by
  simp only [ofBlock, bind_eq_ok, pure_eq_ok] at h
  obtain ⟨effect, heffect, targets, htargets, edges, hedges, rfl⟩ := h
  refine ⟨heffect, targets, Table.get_eq_ok_iff.1 htargets, ?_, ?_⟩
  · intro target e hmem
    obtain ⟨⟨_, position⟩, ht, hstep⟩ := (mem_of_mapM hedges).1 hmem
    simp only [bind_eq_ok, pure_eq_ok, Prod.mk.injEq] at hstep
    obtain ⟨_, he, rfl, rfl⟩ := hstep
    exact ⟨position, List.mk_mem_zipIdx_iff_getElem?.1 ht, he⟩
  · intro position target ht
    obtain ⟨⟨_, e⟩, hedge, hstep⟩ := getElem?_of_mapM hedges (n := position)
      (a := (target, position)) (by simp [ht])
    simp only [bind_eq_ok, pure_eq_ok, Prod.mk.injEq] at hstep
    obtain ⟨_, he, rfl, rfl⟩ := hstep
    exact ⟨_, List.mem_of_getElem? hedge, he⟩

namespace Liveness

variable {live live' : Table .block SlotSet} {flow : BlockFlow} {flows : Table .block BlockFlow}
  {order : List BlockId}

/-! ## The flow equations -/

/-- A slot is in the set of a block. -/
def MemAt (sets : Table .block SlotSet) (b : BlockId) (s : SlotId) : Prop :=
  ∃ set, sets.get? b = some set ∧ s ∈ set

theorem memAt_iff {set : SlotSet} (h : live.get? b = some set) : MemAt live b s ↔ s ∈ set := by
  refine ⟨?_, fun hs => ⟨set, h, hs⟩⟩
  rintro ⟨set', h', hs⟩
  cases h.symm.trans h'
  exact hs

theorem mem_atEnd {needed : SlotSet} (h : atEnd live flow = .ok needed) :
    s ∈ needed ↔ ∃ target e, (target, e) ∈ flow.edges ∧
      (s ∈ e.reads ∨ MemAt live target s ∧ s ∉ e.writes) := by
  have key := foldlM_induction (fun passed (needed : SlotSet) => s ∈ needed ↔
    ∃ target e, (target, e) ∈ passed ∧ (s ∈ e.reads ∨ MemAt live target s ∧ s ∉ e.writes))
    h (by simp)
  refine key ?_
  rintro passed ⟨target, e⟩ later c c' - hc hstep
  simp only [bind_eq_ok, pure_eq_ok, Table.get_eq_ok_iff] at hstep
  obtain ⟨inTarget, htarget, rfl⟩ := hstep
  simp only [IdSet.mem_union, IdSet.mem_sdiff, hc, List.mem_append, List.mem_singleton, Prod.mk.injEq]
  rw [← memAt_iff htarget]
  grind

theorem mem_start {now : SlotSet} (h : start live flow = .ok now) :
    s ∈ now ↔ s ∈ flow.effect.reads ∨ s ∉ flow.effect.writes ∧ ∃ target e, (target, e) ∈ flow.edges ∧
      (s ∈ e.reads ∨ MemAt live target s ∧ s ∉ e.writes) := by
  simp only [start, bind_eq_ok, pure_eq_ok] at h
  obtain ⟨needed, hneeded, rfl⟩ := h
  rw [IdSet.mem_union, IdSet.mem_sdiff, mem_atEnd hneeded]
  grind

theorem mem_union {all : SlotSet} {bs : List BlockId} (h : union live bs = .ok all) :
    s ∈ all ↔ ∃ b ∈ bs, MemAt live b s := by
  refine foldlM_induction (fun passed (all : SlotSet) => s ∈ all ↔ ∃ b ∈ passed, MemAt live b s)
    h (by simp) ?_
  rintro passed b later c c' - hc hstep
  simp only [bind_eq_ok, pure_eq_ok, Table.get_eq_ok_iff] at hstep
  obtain ⟨set, hset, rfl⟩ := hstep
  rw [IdSet.mem_union, hc, ← memAt_iff hset]
  grind

/-! ## Where the sweeps stop -/

/-- A sweep that notes no change has changed nothing: every block was up to date. -/
theorem sweep_unchanged (h : sweep flows order live = .ok (live', false)) :
    live' = live ∧ ∀ b ∈ order, ∃ flow now, flows.get? b = some flow ∧ live.get? b = some now ∧
      start live flow = .ok now := by
  have key := foldlM_induction (fun passed (c : Table .block SlotSet × Bool) => c.2 = false →
    c.1 = live ∧ ∀ b ∈ passed, ∃ flow now, flows.get? b = some flow ∧ live.get? b = some now ∧
      start live flow = .ok now) h (fun _ => ⟨rfl, by simp⟩)
  refine key ?_ rfl
  rintro passed b later ⟨c, changed⟩ c' - hc hstep hfalse
  simp only [update, bind_eq_ok, Table.get_eq_ok_iff] at hstep
  obtain ⟨flow, hflow, now, hnow, old, hold, hstep⟩ := hstep
  split at hstep
  · rename_i heq
    rw [pure_eq_ok] at hstep
    subst hstep heq
    obtain ⟨rfl, hpassed⟩ := hc hfalse
    refine ⟨rfl, fun b' hb' => ?_⟩
    rcases List.mem_append.1 hb' with hb' | hb'
    · exact hpassed b' hb'
    · cases List.mem_singleton.1 hb'
      exact ⟨flow, now, hflow, hold, hnow⟩
  · simp only [bind_eq_ok, pure_eq_ok] at hstep
    obtain ⟨_, _, rfl⟩ := hstep
    cases hfalse

/-- **Where the sweeps stop, every block is up to date.** -/
theorem settle_unchanged {rounds : Nat} (h : settle flows order rounds live = .ok live') :
    ∀ b ∈ order, ∃ flow now, flows.get? b = some flow ∧ live'.get? b = some now ∧
      start live' flow = .ok now := by
  induction rounds generalizing live with
  | zero => cases h
  | succ rounds ih =>
    simp only [settle, bind_eq_ok] at h
    obtain ⟨⟨next, changed⟩, hsweep, h⟩ := h
    cases changed with
    | true => exact ih h
    | false =>
      rw [pure_eq_ok] at h
      subst h
      obtain ⟨rfl, hall⟩ := sweep_unchanged hsweep
      exact hall

/-- Every block has its turn in a sweep. -/
theorem mem_sweepOrder (h : sweepOrder g = .ok order) (hb : b.index < g.size) : b ∈ order := by
  simp only [sweepOrder, FlowGraph.reachable, bind_eq_ok, pure_eq_ok] at h
  obtain ⟨_, ⟨post, hpost, rfl⟩, post', hpost', rfl⟩ := h
  cases hpost.symm.trans hpost'
  by_cases hmem : b ∈ post
  · exact List.mem_append_left _ hmem
  · refine List.mem_append_right _ (List.mem_filter.2 ⟨Table.mem_idents.2 hb, ?_⟩)
    simpa using hmem

/-! ## Liveness of a function -/

/-- A slot is live when block `b` starts. -/
def LiveIn (l : Liveness) (b : BlockId) (s : SlotId) : Prop := MemAt l.liveIn b s

theorem isLiveIn_eq_ok {l : Liveness} {live : Bool} (h : l.isLiveIn b s = .ok live) :
    l.LiveIn b s ↔ live = true := by
  simp only [isLiveIn, bind_eq_ok, pure_eq_ok, Table.get_eq_ok_iff] at h
  obtain ⟨set, hset, rfl⟩ := h
  rw [LiveIn, memAt_iff hset, decide_eq_true_eq]

/-- A slot is needed at the end of block `b`: on the edge at some position it is read, or it is live
where the edge leads and not written on it. -/
def Needed (l : Liveness) (copies : SlotCopies) (layout : Layout) (block : Block) (s : SlotId) : Prop :=
  ∃ position target, block.terminator.successors[position]? = some target ∧
    (s ∈ (copies.onEdge block.id position).uses ∨
      l.LiveIn target s ∧ s ∉ (copies.onEdge block.id position).defs ∧
        s ∉ layout.slotsOf (block.terminator.definesOn position).toList)

/-- The liveness solves the flow equations of a function, and nothing that may be emptied is live in
the block that runs next. -/
structure Flows (l : Liveness) (f : Func) (copies : SlotCopies) (layout : Layout) : Prop where
  liveIn_iff : ∀ {b block}, f.block? b = some block → ∃ e, Effect.ofBlock layout block = .ok e ∧
    ∀ s, l.LiveIn b s ↔ s ∈ e.reads ∨ s ∉ e.writes ∧ l.Needed copies layout block s
  before : ∀ {b s}, MemAt l.clearBefore b s → ¬ l.LiveIn b s
  after : ∀ {b block s}, f.block? b = some block → MemAt l.clearAfter b s →
    ∀ target ∈ block.terminator.successors, ¬ l.LiveIn target s

/-- What is needed at the end of a block is live at its start, or the block writes it. -/
theorem Flows.of_needed {l : Liveness} {block : Block} {e : Effect} (h : l.Flows f copies layout)
    (hblock : f.block? b = some block) (he : Effect.ofBlock layout block = .ok e)
    (hs : l.Needed copies layout block s) : l.LiveIn b s ∨ s ∈ e.writes := by
  obtain ⟨e', he', hlive⟩ := h.liveIn_iff hblock
  cases he.symm.trans he'
  by_cases hw : s ∈ e.writes
  · exact .inr hw
  · exact .inl ((hlive s).2 (.inr ⟨hw, hs⟩))

/-- What is live behind an edge is written on the edge, or live where it starts, or written there. -/
theorem Flows.of_liveIn_next {l : Liveness} {block : Block} {e : Effect} {position : Nat}
    {next : BlockId} (h : l.Flows f copies layout) (hblock : f.block? b = some block)
    (he : Effect.ofBlock layout block = .ok e)
    (hnext : block.terminator.successors[position]? = some next) (hs : l.LiveIn next s) :
    s ∈ (copies.onEdge block.id position).defs ∨
      s ∈ layout.slotsOf (block.terminator.definesOn position).toList ∨
      l.LiveIn b s ∨ s ∈ e.writes := by
  by_cases hdef : s ∈ (copies.onEdge block.id position).defs
  · exact .inl hdef
  by_cases hresult : s ∈ layout.slotsOf (block.terminator.definesOn position).toList
  · exact .inr (.inl hresult)
  · exact .inr (.inr (h.of_needed hblock he ⟨position, next, hnext, .inr ⟨hs, hdef, hresult⟩⟩))

/-- What is needed at the end of a block, as the flow of the block has it. -/
theorem needed_iff {l : Liveness} (hd : g.Describes f) {block : Block} (hblock : f.block? b = some block)
    (h : BlockFlow.ofBlock g copies layout block = .ok flow) :
    l.Needed copies layout block s ↔ ∃ target e, (target, e) ∈ flow.edges ∧
      (s ∈ e.reads ∨ MemAt l.liveIn target s ∧ s ∉ e.writes) := by
  obtain ⟨_, targets, htargets, hof, hat⟩ := BlockFlow.ofBlock_cases h
  rw [hd.id_eq hblock] at htargets
  obtain ⟨block', hblock', rfl⟩ := hd.successors_iff.1 htargets
  cases hblock.symm.trans hblock'
  constructor
  · rintro ⟨position, target, ht, hs⟩
    obtain ⟨e, hmem, he⟩ := hat position target ht
    obtain ⟨hw, hr⟩ := EdgeEffect.ofEdge_cases he s
    refine ⟨target, e, hmem, ?_⟩
    rw [hw, hr, not_or]
    exact hs
  · rintro ⟨target, e, hmem, hs⟩
    obtain ⟨position, ht, he⟩ := hof target e hmem
    obtain ⟨hw, hr⟩ := EdgeEffect.ofEdge_cases he s
    rw [hw, hr, not_or] at hs
    exact ⟨position, target, ht, hs⟩

theorem not_memAt_replicate {n : Nat} : ¬ MemAt (Table.replicate n ∅) b s := by
  rintro ⟨set, hset, hs⟩
  rw [Table.get?_replicate hset] at hs
  exact IdSet.not_mem_empty s hs

/-- What may be emptied before a block: what was passed to it or needed on some way to it, if it is
not live there. -/
theorem mem_beforeBlock {liveIn liveOut : Table .block SlotSet} {params never set : SlotSet}
    (h : beforeBlock g liveIn liveOut params never b = .ok set) :
    s ∈ set ↔ (b = BlockId.entry ∧ s ∈ params ∨ ∃ a, g.preds.Edge b a ∧ MemAt liveOut a s) ∧
      ¬ MemAt liveIn b s ∧ s ∉ never := by
  simp only [beforeBlock, FlowGraph.predecessors, bind_eq_ok, pure_eq_ok, Table.get_eq_ok_iff] at h
  obtain ⟨sources, hsources, needed, hneeded, here, hhere, rfl⟩ := h
  have hpassed : s ∈ (if b = BlockId.entry then params else ∅) ↔ b = BlockId.entry ∧ s ∈ params := by
    split <;> simp [*]
  have hedges : (∃ a ∈ sources, MemAt liveOut a s) ↔ ∃ a, g.preds.Edge b a ∧ MemAt liveOut a s := by
    simp [Adjacency.Edge, hsources]
  rw [IdSet.mem_sdiff, IdSet.mem_sdiff, IdSet.mem_union, mem_union hneeded, hpassed, hedges,
    memAt_iff hhere, and_assoc]

/-- What may be emptied after a block: what it held or wrote, if no successor needs it. -/
theorem mem_afterBlock {liveIn liveOut : Table .block SlotSet} {never set : SlotSet}
    (hflow : flows.get? b = some flow) (h : afterBlock flows liveIn liveOut never b = .ok set) :
    s ∈ set ↔ (MemAt liveIn b s ∨ s ∈ flow.effect.writes ∨
      ∃ target e, (target, e) ∈ flow.edges ∧ s ∈ e.writes) ∧ ¬ MemAt liveOut b s ∧ s ∉ never := by
  simp only [afterBlock, bind_eq_ok, pure_eq_ok, Table.get_eq_ok_iff] at h
  obtain ⟨flow', hflow', here, hhere, out, hout, rfl⟩ := h
  cases hflow.symm.trans hflow'
  have hedges : ∀ {add : SlotSet → BlockId × EdgeEffect → SlotSet},
      (∀ all edge, add all edge = all ∪ edge.2.writes) →
      ∀ (edges : List (BlockId × EdgeEffect)) (all : SlotSet), s ∈ edges.foldl add all ↔
        s ∈ all ∨ ∃ target e, (target, e) ∈ edges ∧ s ∈ e.writes := by
    intro add hadd edges
    induction edges with
    | nil => simp
    | cons edge rest ih =>
      intro all
      rw [List.foldl_cons, ih, hadd, IdSet.mem_union]
      grind
  rw [IdSet.mem_sdiff, IdSet.mem_sdiff, IdSet.mem_union, IdSet.mem_union, hedges fun _ _ => rfl,
    memAt_iff hhere, memAt_iff hout]
  grind [IdSet.not_mem_empty]

/-- The clear sets of a function, block by block. -/
structure ClearSets (l : Liveness) (f : Func) (g : FlowGraph) (layout : Layout) (options : Options)
    (flows : Table .block BlockFlow) (params never : SlotSet) (before after : List SlotSet) : Prop where
  never_eq : SlotSet.ofSlots layout.slotCount
    (options.neverCleared.filter fun s => s.index < layout.slotCount) = .ok never
  params_eq : SlotSet.ofSlots layout.slotCount (layout.slotsOf f.params) = .ok params
  before_eq : g.blocks.mapM (beforeBlock g l.liveIn l.liveOut params never) = .ok before
  after_eq : g.blocks.mapM (afterBlock flows l.liveIn l.liveOut never) = .ok after
  clearBefore_eq : l.clearBefore = Table.ofList before
  clearAfter_eq : l.clearAfter = Table.ofList after

/-- The parts of a liveness. -/
theorem ofFunc_cases {l : Liveness} (h : ofFunc f g copies layout options = .ok l) :
    ∃ flows order outs,
      f.blocks.mapM (BlockFlow.ofBlock g copies layout) = .ok flows ∧ sweepOrder g = .ok order ∧
      settle (Table.ofList flows) order (g.size * layout.slotCount + 1) (Table.replicate g.size ∅) =
        .ok l.liveIn ∧
      g.succs.toList.mapM (union l.liveIn) = .ok outs ∧ l.liveOut = Table.ofList outs ∧
      ((options.clearDead = false ∧ l.clearBefore = Table.replicate g.size ∅ ∧
          l.clearAfter = Table.replicate g.size ∅) ∨
        options.clearDead = true ∧ ∃ params never before after,
          l.ClearSets f g layout options (Table.ofList flows) params never before after) := by
  simp only [ofFunc, bind_eq_ok] at h
  obtain ⟨flows, hflows, order, horder, liveIn, hin, outs, hout, h⟩ := h
  split at h
  · rename_i hdead
    simp only [bind_eq_ok, pure_eq_ok] at h
    obtain ⟨never, hnever, params, hparams, before, hbefore, after, hafter, rfl⟩ := h
    exact ⟨flows, order, outs, hflows, horder, hin, hout, rfl, .inr ⟨hdead, params, never, before,
      after, hnever, hparams, hbefore, hafter, rfl, rfl⟩⟩
  · rename_i hdead
    rw [pure_eq_ok] at h
    subst h
    exact ⟨flows, order, outs, hflows, horder, hin, hout, rfl,
      .inl ⟨Bool.eq_false_iff.2 hdead, rfl, rfl⟩⟩

/-- The sets of a table that was made by a loop over all blocks. -/
theorem get?_of_mapM_blocks {sets : List SlotSet} {r : BlockId → Checked SlotSet}
    (h : g.blocks.mapM r = .ok sets) (hb : b.index < g.size) :
    ∃ set, (Table.ofList sets).get? b = some set ∧ r b = .ok set := by
  have hget : g.blocks[b.index]? = some b := Table.getElem?_idents hb
  obtain ⟨set, hset, hr⟩ := getElem?_of_mapM h hget
  exact ⟨set, by rw [Table.get?_ofList, hset], hr⟩

theorem exists_of_memAt_ofList {sets : List SlotSet} {r : BlockId → Checked SlotSet}
    (h : g.blocks.mapM r = .ok sets) (hs : MemAt (Table.ofList sets) b s) :
    ∃ set, r b = .ok set ∧ s ∈ set := by
  obtain ⟨set, hset, hmem⟩ := hs
  have hb : b.index < g.size := by
    have hlt := Table.lt_of_get? hset
    rw [Table.size_ofList, ← (mapM_eq_ok.1 h).length_eq] at hlt
    simpa [FlowGraph.blocks, FlowGraph.size, Table.idents] using hlt
  obtain ⟨set', hset', hr⟩ := get?_of_mapM_blocks h hb
  cases hset.symm.trans hset'
  exact ⟨set, hr, hmem⟩

/-- What is live once control has left a block is live in some successor. -/
theorem liveOut_iff {l : Liveness} (hd : g.Describes f)
    (h : ofFunc f g copies layout options = .ok l) {block : Block} (hblock : f.block? b = some block) :
    MemAt l.liveOut b s ↔ ∃ target ∈ block.terminator.successors, l.LiveIn target s := by
  obtain ⟨_, _, outs, _, _, _, houts, hlout, _⟩ := ofFunc_cases h
  obtain ⟨out, hout, hunion⟩ := getElem?_of_mapM houts
    ((Table.getElem?_toList _ _).trans (hd.successors_iff.2 ⟨block, hblock, rfl⟩))
  have hget : l.liveOut.get? b = some out := by rw [hlout, Table.get?_ofList, hout]
  rw [memAt_iff hget, mem_union hunion]
  rfl

/-- A computed liveness is up to date at every block. -/
theorem ofFunc_upToDate {l : Liveness} {block : Block} (hd : g.Describes f)
    (h : ofFunc f g copies layout options = .ok l) (hblock : f.block? b = some block) :
    ∃ flow now, BlockFlow.ofBlock g copies layout block = .ok flow ∧ l.liveIn.get? b = some now ∧
      start l.liveIn flow = .ok now := by
  obtain ⟨flows, order, _, hflows, horder, hin, _⟩ := ofFunc_cases h
  obtain ⟨flow, hflow, hof⟩ := getElem?_of_mapM hflows hblock
  have hlt : b.index < g.size := by
    rw [hd.size_eq]
    exact (List.getElem?_eq_some_iff.1 hblock).1
  obtain ⟨flow', now, hflow', hnow, hstart⟩ := settle_unchanged hin b (mem_sweepOrder horder hlt)
  rw [Table.get?_ofList, hflow] at hflow'
  cases hflow'
  exact ⟨flow, now, hof, hnow, hstart⟩

/-- **A computed liveness solves the flow equations.** -/
theorem ofFunc_flows {l : Liveness} (hd : g.Describes f)
    (h : ofFunc f g copies layout options = .ok l) : l.Flows f copies layout := by
  obtain ⟨flows, _, _, hflows, _, _, _, _, hclear⟩ := ofFunc_cases h
  refine ⟨?_, ?_, ?_⟩
  · intro b block hblock
    obtain ⟨flow, now, hof, hnow, hstart⟩ := ofFunc_upToDate hd h hblock
    refine ⟨flow.effect, (BlockFlow.ofBlock_cases hof).1, fun s => ?_⟩
    rw [LiveIn, memAt_iff hnow, mem_start hstart, needed_iff hd hblock hof]
  · intro b s hs
    rcases hclear with ⟨_, hb, _⟩ | ⟨_, params, never, before, after, hsets⟩
    · rw [hb] at hs
      exact absurd hs not_memAt_replicate
    · rw [hsets.clearBefore_eq] at hs
      obtain ⟨set, hset, hmem⟩ := exists_of_memAt_ofList hsets.before_eq hs
      exact ((mem_beforeBlock hset).1 hmem).2.1
  · intro b block s hblock hs target htarget hlive
    rcases hclear with ⟨_, _, hb⟩ | ⟨_, params, never, before, after, hsets⟩
    · rw [hb] at hs
      exact absurd hs not_memAt_replicate
    · rw [hsets.clearAfter_eq] at hs
      obtain ⟨set, hset, hmem⟩ := exists_of_memAt_ofList hsets.after_eq hs
      obtain ⟨flow, hflow, _⟩ := getElem?_of_mapM hflows hblock
      have hout := ((mem_afterBlock (by rw [Table.get?_ofList, hflow]) hset).1 hmem).2.1
      exact hout ((liveOut_iff hd h hblock).2 ⟨target, htarget, hlive⟩)

end Liveness

end FlowTree
