import FlowTree.Lowering.Lower
import FlowTree.Proofs.LiveSlots

/-!
# Lowering without dispatchers

A function can be lowered to its blocks alone: the same analysis and the same executable nodes, but
no loop is folded.  Control then goes straight from block to block.  This is what a dispatch tree is
compared with.

## Main definitions

* `Flat`, `lowerFlat` — a function lowered to its blocks.
* `Lowering.Analysed` — what an analysis consists of.
* `Lowering.Planned` — what the blocks of a lowered function are.
-/

namespace FlowTree

/-- A function lowered to its blocks. -/
structure Flat (ν : Type) where
  blocks : Table .block (BlockNode ν)

/-- Lower a function to its blocks, with `create` making the executable node of each. -/
def lowerFlat {m : Type → Type} [Monad m] {ν : Type} (f : Func) (layout : Layout)
    (options : Options) (create : Block → Decoration → m ν) : m (Attempt (Flat ν)) := do
  match Lowering.plan f layout options with
  | .error stop => return .error stop
  | .ok (_, plans) =>
    let blocks ← plans.mapM fun p => return p.withNode (← create p.block p.decoration)
    return .ok ⟨Table.ofList blocks⟩

namespace Lowering

variable {f : Func} {layout : Layout} {options : Options} {a : Analysis} {τ ν : Type}
  {create : Block → Decoration → StateM τ ν}

/-- The parts of an analysis, each from the parts before it. -/
structure Analysed (f : Func) (layout : Layout) (options : Options) (a : Analysis) : Prop where
  graph : FlowGraph.ofFunc f = .ok a.graph
  loops : LoopForest.ofGraph a.graph options.maxLoops = .ok a.loops
  copies : EdgeCopies.ofFunc f a.graph = .ok a.copies
  slotCopies : a.copies.onSlots a.graph layout = .ok a.slotCopies
  liveness : Liveness.ofFunc f a.graph a.slotCopies layout options = .ok a.liveness

theorem ofFunc_analysed (h : Analysis.ofFunc f layout options = .ok a) :
    Analysed f layout options a := by
  simp only [Analysis.ofFunc, bind_eq_ok, liftM_eq_ok, pure_eq_ok] at h
  obtain ⟨graph, hgraph, loops, hloops, copies, hcopies, slotCopies, hslots, liveness, hlive, rfl⟩ := h
  exact ⟨hgraph, hloops, hcopies, hslots, hlive⟩

theorem Analysed.ofFunc_eq (h : Analysed f layout options a) :
    Analysis.ofFunc f layout options = .ok a := by
  simp only [Analysis.ofFunc, bind_eq_ok, liftM_eq_ok, pure_eq_ok]
  exact ⟨a.graph, h.graph, a.loops, h.loops, a.copies, h.copies, a.slotCopies, h.slotCopies,
    a.liveness, h.liveness, rfl⟩

/-- What is done around block `b`, as a block of the function and with an executable node that
`create` made for it. -/
structure PlannedBlock (f : Func) (layout : Layout) (a : Analysis)
    (create : Block → Decoration → StateM τ ν) (b : BlockId) (n : BlockNode ν) : Prop where
  id : n.id = b
  node : ∃ block seed, f.block? b = some block ∧
    n.node = ((create block ⟨layout, n.clearBefore, n.clearAfter, n.edges⟩).run seed).1
  successors : a.graph.succs.get? b = some n.successors
  edges : a.slotCopies.get? b = some n.edges
  clearBefore : (a.liveness.clearBefore.get? b).map IdSet.toList = some n.clearBefore
  clearAfter : (a.liveness.clearAfter.get? b).map IdSet.toList = some n.clearAfter

/-- The blocks of a lowered function are those that were planned. -/
structure Planned (f : Func) (layout : Layout) (options : Options)
    (create : Block → Decoration → StateM τ ν) (a : Analysis) (p : Flat ν) : Prop
    extends Analysed f layout options a where
  size : p.blocks.size = a.graph.size
  block : ∀ {b n}, p.blocks.get? b = some n → PlannedBlock f layout a create b n

theorem planBlock_cases {b : Block} {plan : BlockPlan} (h : planBlock a layout b = .ok plan) :
    plan.block = b ∧ plan.decoration.layout = layout ∧
      a.slotCopies.get? b.id = some plan.decoration.edges ∧
      (a.liveness.clearBefore.get? b.id).map IdSet.toList = some plan.decoration.clearBefore ∧
      (a.liveness.clearAfter.get? b.id).map IdSet.toList = some plan.decoration.clearAfter ∧
      a.graph.succs.get? b.id = some plan.successors := by
  simp only [planBlock, Liveness.slotsBefore, Liveness.slotsAfter, FlowGraph.successors, bind_eq_ok,
    pure_eq_ok, Table.get_eq_ok_iff] at h
  obtain ⟨edges, hedges, _, ⟨before, hbefore, rfl⟩, _, ⟨after, hafter, rfl⟩, successors, hsucc, rfl⟩ := h
  exact ⟨rfl, rfl, hedges, by simp [hbefore], by simp [hafter], hsucc⟩

/-- The nodes made one after the other stand beside their plans. -/
theorem forall₂_create (create : Block → Decoration → StateM τ ν) (plans : List BlockPlan)
    (seed : τ) :
    List.Forall₂ (fun (plan : BlockPlan) n => ∃ seed,
      n = plan.withNode ((create plan.block plan.decoration).run seed).1) plans
      (((plans.mapM fun p => return p.withNode (← create p.block p.decoration) :
        StateM τ (List (BlockNode ν))).run seed).1) := by
  induction plans generalizing seed with
  | nil => exact .nil
  | cons plan rest ih =>
    rw [List.mapM_cons]
    exact .cons ⟨seed, rfl⟩ (ih ((create plan.block plan.decoration).run seed).2)

theorem plan_planned {plans : List BlockPlan} (h : plan f layout options = .ok (a, plans))
    (seed : τ) :
    Planned f layout options create a ⟨Table.ofList
      (((plans.mapM fun p => return p.withNode (← create p.block p.decoration) :
        StateM τ (List (BlockNode ν))).run seed).1)⟩ := by
  simp only [plan, bind_eq_ok, liftM_eq_ok, pure_eq_ok, Prod.mk.injEq] at h
  obtain ⟨a', ha, plans', hplans, rfl, rfl⟩ := h
  have hcreate := forall₂_create create plans' seed
  have hplan := mapM_eq_ok.1 hplans
  have han := ofFunc_analysed ha
  have hd := FlowGraph.ofFunc_describes han.graph
  generalize ((plans'.mapM fun p => return p.withNode (← create p.block p.decoration) :
    StateM τ (List (BlockNode ν))).run seed).1 = ns at hcreate ⊢
  refine ⟨han, ?_, ?_⟩
  · rw [Table.size_ofList, ← hcreate.length_eq, ← hplan.length_eq, hd.size_eq]
  · intro b n hn
    rw [Table.get?_ofList] at hn
    obtain ⟨hlt, rfl⟩ := List.getElem?_eq_some_iff.1 hn
    have hlt' : b.index < plans'.length := hcreate.length_eq ▸ hlt
    have hlt'' : b.index < f.blocks.length := hplan.length_eq ▸ hlt'
    obtain ⟨seed', hseed⟩ := (List.forall₂_iff_get.1 hcreate).2 b.index hlt' hlt
    have hcases := planBlock_cases ((List.forall₂_iff_get.1 hplan).2 b.index hlt'' hlt')
    have hblock : f.block? b = some (f.blocks.get ⟨b.index, hlt''⟩) :=
      List.getElem?_eq_getElem hlt''
    have hid := hd.id_eq hblock
    generalize f.blocks.get ⟨b.index, hlt''⟩ = block at hcases hblock hid
    generalize plans'.get ⟨b.index, hlt'⟩ = plan at hseed hcases
    obtain ⟨rfl, hlayout, hedges, hbefore, hafter, hsucc⟩ := hcases
    rw [hid] at hedges hbefore hafter hsucc
    have hn' : ns[b.index] = plan.withNode ((create plan.block plan.decoration).run seed').1 := hseed
    rw [hn']
    refine ⟨hid, ⟨_, seed', hblock, ?_⟩, hsucc, hedges, hbefore, hafter⟩
    rw [← hlayout]
    rfl

/-! ## What is done around a block -/

namespace PlannedBlock

variable {b : BlockId} {n : BlockNode ν}

/-- A node leads where its block does. -/
theorem successors_eq (hb : PlannedBlock f layout a create b n) (hd : a.graph.Describes f)
    {block : Block} (hblock : f.block? b = some block) :
    n.successors = block.terminator.successors :=
  Option.some.inj (hb.successors.symm.trans (hd.successors_iff.2 ⟨block, hblock, rfl⟩))

/-- The copy on the edge at a position. -/
theorem edge_eq (hb : PlannedBlock f layout a create b n) (position : Nat) :
    n.edges[position]?.getD ∅ = a.slotCopies.onEdge b position := by
  rw [SlotCopies.onEdge, hb.edges]
  rfl

theorem mem_clearBefore (hb : PlannedBlock f layout a create b n) {s : SlotId} :
    s ∈ n.clearBefore ↔ Liveness.MemAt a.liveness.clearBefore b s := by
  obtain ⟨set, hset, heq⟩ := Option.map_eq_some_iff.1 hb.clearBefore
  rw [← heq, IdSet.mem_toList, Liveness.memAt_iff hset]

theorem mem_clearAfter (hb : PlannedBlock f layout a create b n) {s : SlotId} :
    s ∈ n.clearAfter ↔ Liveness.MemAt a.liveness.clearAfter b s := by
  obtain ⟨set, hset, heq⟩ := Option.map_eq_some_iff.1 hb.clearAfter
  rw [← heq, IdSet.mem_toList, Liveness.memAt_iff hset]

end PlannedBlock

namespace Planned

variable {b next : BlockId} {n : BlockNode ν} {p : Flat ν}

/-- What is emptied before a block is not live in it. -/
theorem not_liveIn_of_mem_clearBefore (hp : Planned f layout options create a p)
    (hflows : a.liveness.Flows f a.slotCopies layout) (hn : p.blocks.get? b = some n) {s : SlotId}
    (hs : s ∈ n.clearBefore) : ¬ a.liveness.LiveIn b s :=
  hflows.before ((hp.block hn).mem_clearBefore.1 hs)

/-- What is emptied after a block is not live in any block that can be next. -/
theorem not_liveIn_of_mem_clearAfter (hp : Planned f layout options create a p)
    (hflows : a.liveness.Flows f a.slotCopies layout) (hn : p.blocks.get? b = some n) {block : Block}
    (hblock : f.block? b = some block) {position : Nat}
    (hnext : block.terminator.successors[position]? = some next) {s : SlotId}
    (hs : s ∈ n.clearAfter) : ¬ a.liveness.LiveIn next s :=
  hflows.after hblock ((hp.block hn).mem_clearAfter.1 hs) next (List.mem_of_getElem? hnext)

theorem exists_block (hp : Planned f layout options create a p) {block : Block}
    (hblock : f.block? b = some block) : ∃ n, p.blocks.get? b = some n := by
  refine Table.exists_get? ?_
  rw [hp.size, (FlowGraph.ofFunc_describes hp.graph).size_eq]
  exact (List.getElem?_eq_some_iff.1 hblock).1

end Planned

end Lowering

/-- **A tree is assembled from the blocks that make the flat form of the same function.** -/
theorem lower_cases {f : Func} {layout : Layout} {options : Options} {τ ν : Type}
    {create : Block → Decoration → StateM τ ν} {seed : τ} {t : Tree ν}
    (h : ((lower f layout options create).run seed).1 = .ok t) :
    ∃ a p, ((lowerFlat f layout options create).run seed).1 = .ok p ∧
      Lowering.Planned f layout options create a p ∧
      Lowering.assemble f layout a p.blocks.toList = .ok t := by
  unfold lower at h
  unfold lowerFlat
  cases hplan : Lowering.plan f layout options with
  | error e =>
    rw [hplan] at h
    cases h
  | ok r =>
    obtain ⟨a, plans⟩ := r
    rw [hplan] at h
    refine ⟨a, _, rfl, Lowering.plan_planned hplan seed, ?_⟩
    rw [Table.toList_ofList]
    exact h

end FlowTree
