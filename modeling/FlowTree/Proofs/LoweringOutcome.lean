import FlowTree.Proofs.Reducibility
import FlowTree.Proofs.TreeShape

/-!
# When lowering succeeds

After its analysis a function can still be refused in three places: when no order of the loops is
found, when two loops overlap, and when a loop's header is no longer there at the loop's turn.  None of
them ever happens.  Loops that are discovered without a report at the entry are natural loops, which
nest; and an order with inner loops first leaves every header in place until its loop is folded.

What remains is the exit slot.  A tree with loops needs one slot beside those of the layout, and a
layout that uses up all slot identifiers has none to give: the analysis of such a function has a
result, and its lowering faults.

## Main statements

* `Lowering.exists_planBlocks` — after the analysis every block can be planned.
* `Lowering.exists_foldLoop`, `Lowering.exists_foldLoops` — every loop can be folded.
* `lower_outcome` — how lowering ends.
-/

namespace FlowTree

/-- There is a slot to spare, or no loop to need it. -/
def Layout.Serves (layout : Layout) (forest : LoopForest) : Prop :=
  forest.size = 0 ∨ layout.slotCount < Ident.capacity

/-- The clear sets have an entry for every block. -/
theorem Liveness.exists_clearSets {f : Func} {g : FlowGraph} {copies : SlotCopies} {layout : Layout}
    {options : Options} {l : Liveness} {b : BlockId} (h : ofFunc f g copies layout options = .ok l)
    (hb : b.index < g.size) :
    (∃ before, l.clearBefore.get? b = some before) ∧ ∃ after, l.clearAfter.get? b = some after := by
  obtain ⟨_, _, _, _, _, _, _, _, hclear⟩ := ofFunc_cases h
  rcases hclear with ⟨_, hbefore, hafter⟩ | ⟨_, _, _, _, _, hsets⟩
  · rw [hbefore, hafter]
    exact ⟨Table.exists_get? (by simpa using hb), Table.exists_get? (by simpa using hb)⟩
  · rw [hsets.clearBefore_eq, hsets.clearAfter_eq]
    obtain ⟨before, hbefore, _⟩ := get?_of_mapM_blocks hsets.before_eq hb
    obtain ⟨after, hafter, _⟩ := get?_of_mapM_blocks hsets.after_eq hb
    exact ⟨⟨before, hbefore⟩, ⟨after, hafter⟩⟩

/-- The blocks of a function are numbered in order. -/
theorem FlowGraph.Describes.map_id {f : Func} {g : FlowGraph} (hd : g.Describes f) :
    f.blocks.map Block.id = Ident.firsts f.blocks.length := by
  have hids : (Table.ofList f.blocks).toList.map Block.id = Ident.firsts _ :=
    Table.map_toList_eq_firsts fun {b block} h =>
      Ident.ext (hd.id ((Table.get?_ofList _ b).symm.trans h))
  rwa [Table.toList_ofList, Table.size_ofList] at hids

namespace Lowering

variable {ν : Type} {g : FlowGraph} {Ls Q later : List Loop} {L : Loop}
  {p : Table .block (BlockNode ν)} {rep : BlockId → LoopNode ν} {nodes nodes' : TopNodes ν}

/-! ## Planning -/

/-- **After the analysis every block can be planned.** -/
theorem exists_planBlocks {f : Func} {layout : Layout} {options : Options} {a : Analysis}
    (ha : Analysed f layout options a) : ∃ plans, planBlocks f a layout = .ok plans := by
  have hd := FlowGraph.ofFunc_describes ha.graph
  refine exists_mapM_eq_ok fun block hblock => ?_
  obtain ⟨n, hn⟩ := List.mem_iff_getElem?.1 hblock
  have hid : f.block? block.id = some block := by
    rw [Func.block?, hd.id hn]
    exact hn
  have hsucc := hd.successors_iff.2 ⟨block, hid, rfl⟩
  obtain ⟨⟨before, hbefore⟩, ⟨after, hafter⟩⟩ :=
    Liveness.exists_clearSets ha.liveness (Table.lt_of_get? hsucc)
  have hedges := EdgeCopies.onSlots_cases ha.slotCopies hsucc
  simp only [planBlock, Liveness.slotsBefore, Liveness.slotsAfter, FlowGraph.successors, bind_eq_ok,
    pure_eq_ok, Table.get_eq_ok_iff]
  exact ⟨_, _, hedges, _, ⟨before, hbefore, rfl⟩, _, ⟨after, hafter, rfl⟩, _, hsucc, rfl⟩

/-! ## Folding -/

/-- Nodes can be taken out wherever there is a place for them. -/
theorem exists_takeNodes {bs : List BlockId} (h : ∀ b ∈ bs, b.index < nodes.size) :
    ∃ r, takeNodes nodes bs = .ok r := by
  have hstep : ∀ b ∈ bs, ∀ state : TopNodes ν × List (BlockId × Node ν),
      state.1.size = nodes.size →
      ∃ state', takeNode state b = .ok state' ∧ state'.1.size = nodes.size := by
    rintro b hb ⟨left, taken⟩ hsize
    have hlt : b.index < left.size := hsize ▸ h b hb
    obtain ⟨entry, hentry⟩ := Table.exists_get_eq_ok hlt
    cases entry with
    | none => exact ⟨(left, taken), bind_eq_ok.2 ⟨none, hentry, rfl⟩, hsize⟩
    | some node =>
      obtain ⟨left', hset⟩ := Table.exists_set_eq_ok none hlt
      exact ⟨(left', taken ++ [(b, node)]),
        bind_eq_ok.2 ⟨some node, hentry, bind_eq_ok.2 ⟨left', hset, rfl⟩⟩,
        (Table.size_of_set hset).trans hsize⟩
  obtain ⟨r, hr, _⟩ := exists_foldlM_eq_ok
    (fun state : TopNodes ν × List (BlockId × Node ν) => state.1.size = nodes.size)
    (b := (nodes, [])) rfl hstep
  exact ⟨r, hr⟩

/-- If the header's node is taken, it is taken first. -/
theorem place?_header {taken : List (BlockId × Node ν)} {node : Node ν}
    (hsub : (taken.map Prod.fst).Sublist L.members) (hbody : L.header ∉ L.body)
    (hmem : (L.header, node) ∈ taken) : (loopNode L taken).place? L.header = some 0 := by
  have hhead : L.header ∈ taken.map Prod.fst := List.mem_map.2 ⟨_, hmem, rfl⟩
  rcases List.sublist_cons_iff.1 hsub with hs | ⟨rest, heq, _⟩
  · exact absurd (hs.subset hhead) hbody
  · cases taken with
    | nil => cases heq
    | cons first rest' =>
      have hfirst : first.1 = L.header := (List.cons.inj heq).1
      simp [loopNode, LoopNode.place?, List.zipIdx_cons, hfirst]

section Fold

variable (hs : LoopForest.Sorted g Ls) (hlt : ∀ L ∈ Ls, ∀ b ∈ L.members, b.index < p.size)
  (hbody : ∀ L ∈ Ls, L.header ∉ L.body)

include hs hlt hbody

/-- **A loop can be folded when its turn comes**: its header is not hidden, so its node is there. -/
theorem exists_foldLoop (hsplit : Ls = Q ++ L :: later) (hf : Folded p Ls Q rep nodes) :
    ∃ nodes', foldLoop nodes L = .ok nodes' := by
  have hL : L ∈ Ls := by rw [hsplit]; simp
  obtain ⟨⟨left, taken⟩, htake⟩ : ∃ r, takeNodes nodes L.members = .ok r :=
    exists_takeNodes fun b hb => hf.size.symm ▸ hlt L hL b hb
  have ht := takeNodes_taken htake
  have hhead : L.header ∈ L.members := List.mem_cons_self
  obtain ⟨node, hnode, _⟩ := hf.shown (hlt L hL _ hhead) (not_hidden_header hs hsplit)
  have hplace := place?_header ht.sublist (hbody L hL) ((ht.mem_iff _ _).2 ⟨hhead, hnode⟩)
  obtain ⟨nodes', hset⟩ := Table.exists_set_eq_ok (t := left) (i := L.header)
    (some (Node.loop (loopNode L taken))) (by rw [ht.size]; exact ht.lt _ hhead)
  refine ⟨nodes', ?_⟩
  simp only [foldLoop, bind_eq_ok, liftM_eq_ok]
  exact ⟨_, htake, by rw [if_pos hplace, liftM_eq_ok]; exact hset⟩

/-- **All loops can be folded**, inner loops first. -/
theorem exists_foldLoops : ∃ nodes,
    Ls.foldlM foldLoop (Table.ofList (p.toList.map fun n => some (Node.block n))) = .ok nodes := by
  -- over what is left of the list, while what has been folded is known
  have key : ∀ later Q nodes, Ls = Q ++ later → (∃ rep, Folded p Ls Q rep nodes) →
      ∃ nodes', later.foldlM foldLoop nodes = .ok nodes' := by
    intro later
    induction later with
    | nil => exact fun Q nodes _ _ => ⟨nodes, rfl⟩
    | cons L later ih =>
      rintro Q nodes hsplit ⟨rep, hf⟩
      obtain ⟨nodes', hfold⟩ := exists_foldLoop hs hlt hbody hsplit hf
      obtain ⟨nodes'', hrest⟩ := ih (Q ++ [L]) nodes' (by simp [hsplit])
        (foldLoop_folded hs hsplit hf hfold)
      exact ⟨nodes'', by rw [List.foldlM_cons, hfold]; exact hrest⟩
  exact key Ls [] _ rfl (exists_folded_nil p Ls)

end Fold

/-! ## Assembling -/

section Assemble

variable {f : Func} {layout : Layout} {options : Options} {a : Analysis} {flat : Flat ν} {τ : Type}
  {create : Block → Decoration → StateM τ ν}

/-- How the last step ends: with a tree, or without a slot to spare. -/
theorem assemble_outcome (hp : Planned f layout options create a flat) :
    ((∃ t, assemble f layout a flat.blocks.toList = .ok t) ↔ layout.Serves a.loops) ∧
    (¬ layout.Serves a.loops →
      assemble f layout a flat.blocks.toList = .error (.fault (.tooWide .slot layout.slotCount))) := by
  have hnat := LoopForest.ofGraph_natural hp.loops
  have hnest := LoopForest.ofGraph_nested hp.loops
  have hshaped := (FlowGraph.ofFunc_describes hp.graph).toShaped
  obtain ⟨Ls, hLs⟩ := hnat.exists_sorted
  have hs := hnat.sorted hLs
  have hlt : ∀ L ∈ Ls, ∀ b ∈ L.members, b.index < flat.blocks.size := by
    intro L hL b hb
    rw [hp.size]
    exact hshaped.lt_of_reachable
      (((hs.contains_iff hL).1 ((hs.mem_members hL).1 hb)).reachable (hs.reachable hL))
  obtain ⟨nodes, hnodes⟩ := exists_foldLoops hs hlt
    fun L hL => hnest.header_not_mem ((hnat.mem_sorted hLs).1 hL)
  simp only [assemble, Layout.Serves, LoopForest.size, hLs, liftM_ok, ok_bind, hnodes, Layout.spare,
    Ident.ofIndex]
  by_cases hzero : a.loops.loops.size = 0
  · simp only [hzero, if_true, true_or, not_true, false_implies, and_true, iff_true]
    exact ⟨_, rfl⟩
  · by_cases hwide : layout.slotCount < Ident.capacity
    · simp only [hzero, hwide, if_true, if_false, or_true, not_true, false_implies, and_true, iff_true]
      exact ⟨_, rfl⟩
    · simp only [hzero, hwide, if_false, or_self, not_false_eq_true, iff_false, forall_const]
      refine ⟨?_, rfl⟩
      rintro ⟨t, ht⟩
      cases ht

/-- Making the nodes calls `create` for each block and for nothing else. -/
theorem snd_create (create : Block → Decoration → StateM τ ν) (plans : List BlockPlan) (seed : τ) :
    ((plans.mapM fun p => return p.withNode (← create p.block p.decoration) :
      StateM τ (List (BlockNode ν))).run seed).2 =
    (((plans.map fun p => (p.block, p.decoration)).mapM fun x => create x.1 x.2 :
      StateM τ (List ν)).run seed).2 := by
  induction plans generalizing seed with
  | nil => rfl
  | cons plan rest ih =>
    rw [List.mapM_cons, List.map_cons, List.mapM_cons]
    exact ih ((create plan.block plan.decoration).run seed).2

/-- What is left of lowering when the analysis has a result. -/
theorem lower_of_ofFunc (create : Block → Decoration → StateM τ ν) (seed : τ)
    (ha : Analysis.ofFunc f layout options = .ok a) :
    ∃ plans, plan f layout options = .ok (a, plans) ∧ plans.map BlockPlan.block = f.blocks ∧
      (lower f layout options create).run seed =
        (assemble f layout a (((plans.mapM fun p => return p.withNode (← create p.block p.decoration) :
            StateM τ (List (BlockNode ν))).run seed).1),
          ((plans.mapM fun p => return p.withNode (← create p.block p.decoration) :
            StateM τ (List (BlockNode ν))).run seed).2) := by
  obtain ⟨plans, hplans⟩ := exists_planBlocks (ofFunc_analysed ha)
  have hplan : plan f layout options = .ok (a, plans) := by
    simp only [plan, bind_eq_ok, liftM_eq_ok, pure_eq_ok]
    exact ⟨a, ha, plans, hplans, rfl⟩
  refine ⟨plans, hplan, ?_, ?_⟩
  · rw [← List.forall₂_eq_eq_eq, List.forall₂_map_left_iff]
    exact ((mapM_eq_ok.1 hplans).imp fun b plan h => (planBlock_cases h).1).flip
  · rw [lower, hplan]
    rfl

end Assemble

end Lowering

/-- **How lowering ends.**  Where the entry reports no loop, the loops of a graph can be put in order
and do not overlap.  A function whose analysis stops is lowered to the same stop, and no node is
made.  A function whose analysis has a result gets one node for each block, in order; there is a tree,
unless there are loops and the layout has no slot to spare. -/
theorem lower_outcome :
    (∀ (g : FlowGraph) (limit : Option Nat) (w : Walk .block) (d : Discovery),
      g.walk = .ok w → Discovery.ofWalk limit g.size w = .ok (∅, d) →
      ∃ order os, (Outlines.ofDiscovery d).order? = .ok (.ok order) ∧
        (Outlines.ofDiscovery d).close order = .ok os ∧
        Outlines.clash? (os.toList.zip os.parents.toList) = none) ∧
    ∀ (f : Func) (layout : Layout) (options : Options) {τ ν : Type}
      (create : Block → Decoration → StateM τ ν) (seed : τ),
      ((∃ t, ((lower f layout options create).run seed).1 = .ok t) ↔
        ∃ a, Analysis.ofFunc f layout options = .ok a ∧ layout.Serves a.loops) ∧
      (∀ stop, Analysis.ofFunc f layout options = .error stop →
        (lower f layout options create).run seed = (.error stop, seed)) ∧
      ∀ a, Analysis.ofFunc f layout options = .ok a →
        f.blocks.map Block.id = Ident.firsts f.blocks.length ∧
        (∃ ds : List Decoration, ds.length = f.blocks.length ∧
          ((lower f layout options create).run seed).2 =
            (((f.blocks.zip ds).mapM fun x => create x.1 x.2).run seed).2) ∧
        (¬ layout.Serves a.loops → ((lower f layout options create).run seed).1 =
          .error (.fault (.tooWide .slot layout.slotCount))) := by
  refine ⟨fun g limit w d hw hd => ?_, fun f layout options τ ν create seed => ?_⟩
  · obtain ⟨order, os, horder, hclose, hn⟩ := LoopForest.exists_outlines hw hd
    exact ⟨order, os, horder, hclose, hn.clash?_eq_none⟩
  · cases ha : Analysis.ofFunc f layout options with
    | error stop =>
      have hlower : (lower f layout options create).run seed = (.error stop, seed) := by
        rw [lower, Lowering.plan, ha]
        rfl
      simp [hlower]
    | ok a =>
      obtain ⟨plans, hplans, hblocks, hlower⟩ := Lowering.lower_of_ofFunc create seed ha
      have hplanned : Lowering.Planned f layout options create a _ := Lowering.plan_planned hplans seed
      have hserves := Lowering.assemble_outcome hplanned
      rw [Table.toList_ofList] at hserves
      have hzip : f.blocks.zip (plans.map BlockPlan.decoration) =
          plans.map fun p => (p.block, p.decoration) := by
        rw [← hblocks, List.zip_map']
      refine ⟨?_, ?_, ?_⟩
      · rw [hlower, hserves.1]
        constructor
        · exact fun h => ⟨a, rfl, h⟩
        · rintro ⟨a', ha', h⟩
          cases ha'
          exact h
      · intro stop h
        cases h
      · intro a' h
        cases h
        refine ⟨?_, ⟨plans.map BlockPlan.decoration, ?_, ?_⟩, ?_⟩
        · exact (FlowGraph.ofFunc_describes (Lowering.ofFunc_analysed ha).graph).map_id
        · rw [← hblocks, List.length_map, List.length_map]
        · rw [hlower, hzip, ← Lowering.snd_create]
        · rw [hlower]
          exact hserves.2

/-- A node is its block, and the blocks are noted as their nodes are made. -/
def Lowering.noting (b : Block) (_ : Decoration) : StateM (List BlockId) Block := do
  modify (b.id :: ·)
  return b

theorem lower_nests_outcome : ∃ a, Analysis.ofFunc Tree.nests (.onePerValue Tree.nests) {} = .ok a ∧
    (Layout.onePerValue Tree.nests).Serves a.loops ∧
    (∃ t, ((lower Tree.nests (.onePerValue Tree.nests) {} Lowering.noting).run []).1 = .ok t) ∧
    ((lower Tree.nests (.onePerValue Tree.nests) {} Lowering.noting).run []).2 =
      [⟨5⟩, ⟨4⟩, ⟨3⟩, ⟨2⟩, ⟨1⟩, ⟨0⟩] ∧
    ∃ ds : List Decoration, ds.length = 6 ∧
      (((Tree.nests.blocks.zip ds).mapM fun x => Lowering.noting x.1 x.2).run []).2 =
        [⟨5⟩, ⟨4⟩, ⟨3⟩, ⟨2⟩, ⟨1⟩, ⟨0⟩] := by
  have hrun : (Analysis.ofFunc Tree.nests (.onePerValue Tree.nests) {}).map (fun _ => ()) =
      .ok () := by decide +kernel
  have hnoted : ((lower Tree.nests (.onePerValue Tree.nests) {} Lowering.noting).run []).2 =
      [⟨5⟩, ⟨4⟩, ⟨3⟩, ⟨2⟩, ⟨1⟩, ⟨0⟩] := by decide +kernel
  obtain ⟨hiff, _, hok⟩ := lower_outcome.2 Tree.nests (.onePerValue Tree.nests) {} Lowering.noting []
  cases ha : Analysis.ofFunc Tree.nests (.onePerValue Tree.nests) {} with
  | error e => rw [ha] at hrun; cases hrun
  | ok a =>
    have hserves : (Layout.onePerValue Tree.nests).Serves a.loops := .inr (by decide)
    obtain ⟨_, ⟨ds, hlen, hcalls⟩, _⟩ := hok a ha
    exact ⟨a, rfl, hserves, hiff.2 ⟨a, ha, hserves⟩, hnoted, ds, hlen, hcalls.symm.trans hnoted⟩

/-- One block that leads to itself. -/
def spin : Func where
  name := "spin"
  params := [⟨0⟩]
  valueCount := 1
  blocks := [{ id := ⟨0⟩, instrs := [], terminator := .br ⟨0⟩ }]

/-- With as many slots as there are identifiers the analysis succeeds and lowering does not. -/
theorem lower_spin_faults :
    (∃ a, Analysis.ofFunc spin (.ofCount Ident.capacity) { clearDead := false } = .ok a) ∧
    ((lower spin (.ofCount Ident.capacity) { clearDead := false } fun b _ =>
      (pure b : StateM Unit Block)).run ()).1 = .error (.fault (.tooWide .slot Ident.capacity)) := by
  have hrun : (Analysis.ofFunc spin (.ofCount Ident.capacity) { clearDead := false }).map
      (fun a => a.loops.size) = .ok 1 := by decide +kernel
  have hlower : ((lower spin (.ofCount Ident.capacity) { clearDead := false } fun b _ =>
      (pure b : StateM Unit Block)).run ()).1.map (fun _ => ()) =
      .error (.fault (.tooWide .slot Ident.capacity)) := by decide +kernel
  constructor
  · cases ha : Analysis.ofFunc spin (.ofCount Ident.capacity) { clearDead := false } with
    | error e => rw [ha] at hrun; cases hrun
    | ok a => exact ⟨a, rfl⟩
  · cases ht : ((lower spin (.ofCount Ident.capacity) { clearDead := false } fun b _ =>
      (pure b : StateM Unit Block)).run ()).1 with
    | error e =>
      rw [ht] at hlower
      exact congrArg Except.error (Except.error.inj hlower)
    | ok t => rw [ht] at hlower; cases hlower

end FlowTree
