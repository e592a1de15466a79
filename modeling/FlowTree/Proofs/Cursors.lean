import FlowTree.Proofs.EdgeMoves
import FlowTree.Proofs.ExitSlot
import FlowTree.Proofs.FlatRuns
import FlowTree.Proofs.Folding

/-!
# Where a run stands

A tree keeps the loops in progress on a path.  The invariant `Tree.At` ties that path to the block
at hand: the loops on it are exactly the loops that hold the block, inner loops first.  When control
moves along an edge, every loop that holds the target, and that the target does not head, holds the
source as well, because control enters a loop at its header.  So the first loop on the path that has
a place for the target is the one that has it, and if there is none the outermost dispatcher has it.

Nothing is asked of the nodes here: they may do to the frame what they like, the exit slot included.

## Main statements

* `Tree.goto_arrives` — going to a block, from anywhere.
* `Tree.run_begins`, `Tree.runFrom_of_ends`, `Tree.runFrom_goes_on` — a run begins at the entry, and
  at each block it ends or goes on along an edge.
* `Tree.lower_lowered` — what a lowered function is.
-/

namespace FlowTree

variable {ν σ V E : Type}

/-! ## Counting -/

/-- What going to block `v` adds, where `chain` has the loops in progress: a back edge if `v` heads
one of them, a loop entry if it heads another loop. -/
def Stats.arrive (Ls chain : List Loop) (v : BlockId) (s : Stats) : Stats :=
  { s with
    backEdges := s.backEdges + if ∃ L ∈ chain, L.header = v then 1 else 0
    loopEntries := s.loopEntries + if ∃ L ∈ Ls, L.header = v ∧ L ∉ chain then 1 else 0 }

namespace Stats

variable {Ls chain chain' : List Loop} {v : BlockId} {s : Stats}

/-- Only which loops are in progress counts, and of those only the ones of the function. -/
theorem arrive_congr (hsub : ∀ L ∈ chain, L ∈ Ls) (hsub' : ∀ L ∈ chain', L ∈ Ls)
    (h : ∀ L ∈ Ls, L.header = v → (L ∈ chain ↔ L ∈ chain')) :
    s.arrive Ls chain v = s.arrive Ls chain' v := by
  have hback : (∃ L ∈ chain, L.header = v) ↔ ∃ L ∈ chain', L.header = v :=
    ⟨fun ⟨L, hL, he⟩ => ⟨L, (h L (hsub L hL) he).1 hL, he⟩,
      fun ⟨L, hL, he⟩ => ⟨L, (h L (hsub' L hL) he).2 hL, he⟩⟩
  have hentry : (∃ L ∈ Ls, L.header = v ∧ L ∉ chain) ↔ ∃ L ∈ Ls, L.header = v ∧ L ∉ chain' := by
    constructor <;> rintro ⟨L, hL, he, hnot⟩
    · exact ⟨L, hL, he, fun hmem => hnot ((h L hL he).2 hmem)⟩
    · exact ⟨L, hL, he, fun hmem => hnot ((h L hL he).1 hmem)⟩
  simp only [arrive, hback, hentry]

end Stats

/-! ## The exit slot -/

/-- The frame `f'` is the frame `f` after names of blocks have been passed through the exit slot, if
any were. -/
structure Frame.Relayed (exit : Option SlotId) (f f' : Frame V) : Prop where
  cell : ∀ s, exit ≠ some s → f'.cell s = f.cell s
  passed : ∀ s, exit = some s → f'.cell s = f.cell s ∨ f'.cell s = .empty
  size : (∀ s, exit = some s → s.index < f.size) → f'.size = f.size

namespace Frame.Relayed

variable {exit : Option SlotId} {f f' f'' : Frame V}

theorem refl (exit : Option SlotId) (f : Frame V) : Relayed exit f f :=
  ⟨fun _ _ => rfl, fun _ _ => .inl rfl, fun _ => rfl⟩

theorem relay {slot : SlotId} (hslot : exit = some slot) (f : Frame V) (c : Cell V) :
    Relayed exit f ((f.put slot c).clear slot) := by
  refine ⟨fun s hs => ?_, fun s hs => ?_, fun hlt => ?_⟩
  · have hne : slot ≠ s := fun he => hs (he ▸ hslot)
    rw [cell_clear, if_neg hne, cell_put, if_neg hne]
  · obtain rfl : slot = s := Option.some.inj (hslot.symm.trans hs)
    exact .inr (by simp)
  · have := hlt slot hslot
    rw [size_clear, size_put]
    omega

theorem trans (h : Relayed exit f f') (h' : Relayed exit f' f'') : Relayed exit f f'' := by
  refine ⟨fun s hs => (h'.cell s hs).trans (h.cell s hs), fun s hs => ?_, fun hlt => ?_⟩
  · rcases h'.passed s hs with he | he
    · rw [he]
      exact h.passed s hs
    · exact .inr he
  · rw [h'.size fun s hs => by rw [h.size hlt]; exact hlt s hs, h.size hlt]

theorem beside {clean : Prop} {g : Frame V} (h : Relayed exit f f') (hb : Beside clean exit f g) :
    Beside clean exit f' g := by
  have hsize := h.size hb.inRange
  refine ⟨⟨hsize.trans hb.size, fun s hs => (h.cell s hs).trans (hb.cell s hs)⟩, ?_, ?_⟩
  · exact fun s hs => hsize ▸ hb.inRange s hs
  · intro hc s hs
    obtain ⟨hf, hg⟩ := hb.empty hc s hs
    refine ⟨?_, hg⟩
    rcases h.passed s hs with he | he
    · exact he.trans hf
    · exact he

end Frame.Relayed

/-- The place of another block is not the first. -/
theorem Lowering.Dispatches.place_ne_zero {p : Table .block (BlockNode ν)} {Ls : List Loop}
    {rep : BlockId → LoopNode ν} {L : Loop} {v : BlockId} {k : Nat} (h : Dispatches p Ls rep L)
    (hv : v ≠ L.header) (hk : (rep L.header).place? v = some k) : k ≠ 0 := by
  rintro rfl
  obtain ⟨taken, hmade, _⟩ := h.made
  have hheader := h.header
  rw [hmade] at hheader hk
  obtain ⟨_, hfirst⟩ := getElem?_of_place? hheader
  obtain ⟨_, hfirst'⟩ := getElem?_of_place? hk
  rw [hfirst] at hfirst'
  cases hfirst'
  exact hv rfl

namespace Tree

/-! ## Positions -/

variable {g : FlowGraph} {t : Tree ν} {p : Flat ν} {Ls : List Loop} {rep : BlockId → LoopNode ν}
  {u v : BlockId}

/-- A tree dispatches the blocks of the flat form: its loops are folded, and what it does around a
block is what the flat form does. -/
structure Disperses (g : FlowGraph) (t : Tree ν) (p : Flat ν) (Ls : List Loop)
    (rep : BlockId → LoopNode ν) : Prop where
  shaped : g.Shaped
  sorted : LoopForest.Sorted g Ls
  folded : Lowering.Folded p.blocks Ls Ls rep t.nodes
  exit : Ls ≠ [] → ∃ slot, t.exitSlot = some slot
  exit_lt : ∀ {slot}, t.exitSlot = some slot → slot.index < t.frameSize
  size : p.blocks.size = g.size
  id : ∀ {b n}, p.blocks.get? b = some n → n.id = b
  successors : ∀ {b n}, p.blocks.get? b = some n → g.succs.get? b = some n.successors
  clearBefore : ∀ {b n}, p.blocks.get? b = some n → t.slotsBefore b = n.clearBefore
  edges : ∀ {b n}, p.blocks.get? b = some n → ∀ copy ∈ n.edges, copy.Spares t.exitSlot

/-- The blocks of the flat form are in the tree. -/
theorem Disperses.mem_blocks (hd : Disperses g t p Ls rep) {n : BlockNode ν}
    (hn : p.blocks.get? v = some n) : n ∈ t.blocks :=
  hd.folded.allBlocks.mem_iff.2 (Table.mem_toList.2 ⟨v, hn⟩)

/-- A cursor at block `v`: the loops on its path are those that hold `v`, inner loops first. -/
structure At (p : Flat ν) (Ls : List Loop) (rep : BlockId → LoopNode ν) (v : BlockId)
    (c : Cursor ν) (chain : List Loop) : Prop where
  block : p.blocks.get? v = some c.block
  path : c.path = chain.map fun L => rep L.header
  mem_iff : ∀ L, L ∈ chain ↔ L ∈ Ls ∧ L.contains v = true
  inner_first : chain.Pairwise fun L M => M.contains L.header = true ∧ L ≠ M

/-- The loops in progress when control goes to block `v`, inner loops first: those that hold `v`
without being headed by it are among them. -/
structure Around (Ls : List Loop) (v : BlockId) (chain : List Loop) : Prop where
  mem : ∀ L ∈ chain, L ∈ Ls
  owners : ∀ L ∈ Ls, L.contains v = true → v ≠ L.header → L ∈ chain
  inner_first : chain.Pairwise fun L M => M.contains L.header = true ∧ L ≠ M

namespace Around

variable {L : Loop} {rest : List Loop}

/-- With a loop that has a place for the block, the loops around it hold the block as well. -/
theorem contains (h : Around Ls v (L :: rest)) (hs : LoopForest.Sorted g Ls)
    (hdirect : Lowering.Direct Ls L v) : ∀ M ∈ L :: rest, M.contains v = true := by
  intro M hM
  rcases List.mem_cons.1 hM with rfl | hM
  · exact hdirect.1
  · have hin := (List.pairwise_cons.1 h.inner_first).1 M hM
    exact hs.trans (h.mem M (List.mem_cons_of_mem L hM)) (h.mem L List.mem_cons_self) hin.1 hdirect.1

/-- None of them but the first can be headed by the block. -/
theorem header_ne (h : Around Ls v (L :: rest)) (hs : LoopForest.Sorted g Ls)
    (hdirect : Lowering.Direct Ls L v) (hne : v ≠ L.header) : ∀ M ∈ L :: rest, M.header ≠ v := by
  intro M hM he
  rcases List.mem_cons.1 hM with rfl | hM
  · exact hne he.symm
  · subst he
    have hin := (List.pairwise_cons.1 h.inner_first).1 M hM
    exact hin.2 (hs.antisymm (h.mem L List.mem_cons_self) (h.mem M (List.mem_cons_of_mem L hM))
      hdirect.1 hin.1)

/-- A loop without a place for the block does not hold it: a loop inside it that did would come
before it. -/
theorem not_contains (h : Around Ls v (L :: rest)) (hs : LoopForest.Sorted g Ls)
    (hdirect : ¬ Lowering.Direct Ls L v) : L.contains v = false := by
  by_contra hc
  rw [Bool.not_eq_false] at hc
  refine hdirect ⟨hc, fun M hM hne hMh hMv => ?_⟩
  by_contra hvh
  rcases List.mem_cons.1 (h.owners M hM hMv hvh) with rfl | hmem
  · exact hne rfl
  · have hin := (List.pairwise_cons.1 h.inner_first).1 M hmem
    exact hne (hs.antisymm (h.mem L List.mem_cons_self) hM hMh hin.1).symm

/-- A loop that does not hold the block can be left. -/
theorem tail (h : Around Ls v (L :: rest)) (hout : L.contains v = false) : Around Ls v rest := by
  refine ⟨fun M hM => h.mem M (List.mem_cons_of_mem L hM), ?_, (List.pairwise_cons.1 h.inner_first).2⟩
  intro M hM hc hne
  refine (List.mem_cons.1 (h.owners M hM hc hne)).resolve_left ?_
  rintro rfl
  rw [hout] at hc
  cases hc

end Around

section Moves

variable (hd : Disperses g t p Ls rep)

include hd

/-- Entering what stands for `v` inside the loops of `chain`, which are those around `v` but for
the loop that `v` heads. -/
theorem enter_at {chain : List Loop} {node : Node ν}
    (hnode : Lowering.StandsFor p.blocks Ls rep v node) (ha : Around Ls v chain)
    (hchain : ∀ L ∈ chain, L.contains v = true ∧ L.header ≠ v) (s : RunState σ V) :
    ∃ c chain', At p Ls rep v c chain' ∧
      (t.enter node (chain.map fun L => rep L.header) s :
        Except (RunError E) (Cursor ν) × RunState σ V) =
          (.ok c, { s with stats := s.stats.arrive Ls chain v }) := by
  have hnotback : ¬ ∃ L ∈ chain, L.header = v := fun ⟨L, hL, he⟩ => (hchain L hL).2 he
  cases hnode with
  | @block n hno hn =>
    have hnotentry : ¬ ∃ L ∈ Ls, L.header = v ∧ L ∉ chain := fun ⟨L, hL, he, _⟩ => hno L hL he
    refine ⟨⟨n, chain.map fun L => rep L.header⟩, chain, ⟨hn, rfl, ?_, ha.inner_first⟩, ?_⟩
    · intro L
      refine ⟨fun hL => ⟨ha.mem L hL, (hchain L hL).1⟩, fun hL => ?_⟩
      exact ha.owners L hL.1 hL.2 (hno L hL.1).symm
    · simp only [Stats.arrive, if_neg hnotback, if_neg hnotentry]
      rfl
  | @loop M hM he =>
    subst he
    have hentry : ∃ L ∈ Ls, L.header = M.header ∧ L ∉ chain :=
      ⟨M, hM, rfl, fun hL => hnotback ⟨M, hL, rfl⟩⟩
    obtain ⟨n, hn, hfirst⟩ := (hd.folded.loops hM).first
    obtain ⟨slot, hslot⟩ := hd.exit (List.ne_nil_of_mem hM)
    refine ⟨⟨n, (M :: chain).map fun L => rep L.header⟩, M :: chain, ⟨hn, rfl, ?_, ?_⟩, ?_⟩
    · intro L
      rw [List.mem_cons]
      constructor
      · rintro (rfl | hL)
        · exact ⟨hM, hd.sorted.contains_header hM⟩
        · exact ⟨ha.mem L hL, (hchain L hL).1⟩
      · rintro ⟨hL, hc⟩
        by_cases hh : M.header = L.header
        · exact .inl (hd.sorted.header_inj hL hM hh.symm)
        · exact .inr (ha.owners L hL hc hh)
    · refine List.pairwise_cons.2 ⟨fun L hL => ⟨(hchain L hL).1, ?_⟩, ha.inner_first⟩
      rintro rfl
      exact (hchain M hL).2 rfl
    · rcases hrep : rep M.header with ⟨id, header, body, places, exits⟩
      rw [hrep] at hfirst
      cases body with
      | nil => cases hfirst
      | cons first others =>
        obtain rfl : first = .block n := Option.some.inj hfirst
        simp only [enter, hslot, List.map_cons, hrep, Stats.arrive, if_neg hnotback, if_pos hentry]
        rfl

/-- Going to a block from inside a loop that has a place for it. -/
theorem goto_place {L : Loop} {rest : List Loop} (ha : Around Ls v (L :: rest))
    (hdirect : Lowering.Direct Ls L v) (s : RunState σ V) :
    ∃ c chain, At p Ls rep v c chain ∧
      (t.goto ((L :: rest).map fun L => rep L.header) v s :
        Except (RunError E) (Cursor ν) × RunState σ V) =
          (.ok c, { s with
            frame := s.frame.clearAll (t.slotsBefore v)
            stats := s.stats.arrive Ls (L :: rest) v }) := by
  have hL : L ∈ Ls := ha.mem L List.mem_cons_self
  have hdisp := hd.folded.loops hL
  have hcontains := ha.contains hd.sorted hdirect
  by_cases hh : v = L.header
  · subst hh
    have hback : ∃ M ∈ L :: rest, M.header = L.header := ⟨L, List.mem_cons_self, rfl⟩
    have hnotentry : ¬ ∃ M ∈ Ls, M.header = L.header ∧ M ∉ L :: rest := by
      rintro ⟨M, hM, he, hMne⟩
      exact hMne (List.mem_cons.2 (.inl (hd.sorted.header_inj hM hL he)))
    obtain ⟨n, hn, hfirst⟩ := hdisp.first
    refine ⟨⟨n, (L :: rest).map fun L => rep L.header⟩, L :: rest, ⟨hn, rfl, ?_, ha.inner_first⟩, ?_⟩
    · intro M
      refine ⟨fun hM => ⟨ha.mem M hM, hcontains M hM⟩, fun hM => ?_⟩
      by_cases hMh : L.header = M.header
      · exact List.mem_cons.2 (.inl (hd.sorted.header_inj hM.1 hL hMh.symm))
      · exact ha.owners M hM.1 hM.2 hMh
    · simp only [List.map_cons, goto, hdisp.header, hfirst, enter, Stats.arrive, if_pos hback,
        if_neg hnotentry]
      rfl
  · obtain ⟨k, node, hk, hbody, hst⟩ := hdisp.place hdirect hh
    have hheads := ha.header_ne hd.sorted hdirect hh
    obtain ⟨c, chain, hat, henter⟩ := enter_at (E := E) hd hst ha
      (fun M hM => ⟨hcontains M hM, hheads M hM⟩) (s.clear (t.slotsBefore v))
    refine ⟨c, chain, hat, ?_⟩
    simp only [List.map_cons, goto, hk, hbody, RunState.countPlace, if_neg (hdisp.place_ne_zero hh hk)]
    exact henter

/-- Going to a block when no loop is in progress. -/
theorem goto_outermost (hv : v.index < g.size) (ha : Around Ls v []) (s : RunState σ V) :
    ∃ c chain, At p Ls rep v c chain ∧
      (t.goto [] v s : Except (RunError E) (Cursor ν) × RunState σ V) =
        (.ok c, { s with
          frame := s.frame.clearAll (t.slotsBefore v), stats := s.stats.arrive Ls [] v }) := by
  have hshown : ¬ Lowering.Hidden Ls v := by
    rintro ⟨M, hM, hc, hne⟩
    cases ha.owners M hM hc hne
  obtain ⟨node, hnode, hst⟩ := hd.folded.shown (hd.size ▸ hv) hshown
  obtain ⟨c, chain, hat, henter⟩ := enter_at (E := E) hd hst ha (fun L hL => by cases hL)
    (s.clear (t.slotsBefore v))
  refine ⟨c, chain, hat, ?_⟩
  simp only [goto, node?, hnode, Option.join_some]
  exact henter

/-- A loop that has no place for a block is left, and the block's name is passed on. -/
theorem goto_of_absent {L : Loop} {rest : List Loop} (hL : L ∈ Ls)
    (hdirect : ¬ Lowering.Direct Ls L v) (s : RunState σ V) :
    ∃ slot, t.exitSlot = some slot ∧
      (t.goto ((L :: rest).map fun L => rep L.header) v s :
        Except (RunError E) (Cursor ν) × RunState σ V) =
          t.goto (rest.map fun L => rep L.header) v
            { s with frame := (s.frame.put slot (.block v)).clear slot } := by
  obtain ⟨slot, hslot⟩ := hd.exit (List.ne_nil_of_mem hL)
  have htake : (s.frame.put slot (.block v)).takeBlock slot =
      (some v, (s.frame.put slot (.block v)).clear slot) := by
    simp [Frame.takeBlock]
  refine ⟨slot, hslot, ?_⟩
  simp only [List.map_cons, goto, (hd.folded.loops hL).absent hdirect, hslot, htake]

/-- **Going to a block.**  Loops that have no place for it are left one after the other; then what is
dead before it is emptied. -/
theorem goto_arrives {chain : List Loop} (hv : v.index < g.size) (ha : Around Ls v chain)
    (s : RunState σ V) :
    ∃ c chain' frame, At p Ls rep v c chain' ∧ Frame.Relayed t.exitSlot s.frame frame ∧
      (t.goto (chain.map fun L => rep L.header) v s :
        Except (RunError E) (Cursor ν) × RunState σ V) =
          (.ok c, { s with
            frame := frame.clearAll c.block.clearBefore, stats := s.stats.arrive Ls chain v }) := by
  induction chain generalizing s with
  | nil =>
    obtain ⟨c, chain', hat, hgoto⟩ := goto_outermost (E := E) hd hv ha s
    rw [hd.clearBefore hat.block] at hgoto
    exact ⟨c, chain', s.frame, hat, .refl _ _, hgoto⟩
  | cons L rest ih =>
    by_cases hdirect : Lowering.Direct Ls L v
    · obtain ⟨c, chain', hat, hgoto⟩ := goto_place (E := E) hd ha hdirect s
      rw [hd.clearBefore hat.block] at hgoto
      exact ⟨c, chain', s.frame, hat, .refl _ _, hgoto⟩
    · have hL : L ∈ Ls := ha.mem L List.mem_cons_self
      have hout := ha.not_contains hd.sorted hdirect
      have hne : L.header ≠ v := by
        rintro rfl
        rw [hd.sorted.contains_header hL] at hout
        cases hout
      obtain ⟨slot, hslot, hleave⟩ := goto_of_absent (E := E) hd hL hdirect s
      obtain ⟨c, chain', frame, hat, hrelayed, hgoto⟩ :=
        ih (ha.tail hout) { s with frame := (s.frame.put slot (.block v)).clear slot }
      refine ⟨c, chain', frame, hat, (Frame.Relayed.relay hslot s.frame _).trans hrelayed, ?_⟩
      have hstats : s.stats.arrive Ls (L :: rest) v = s.stats.arrive Ls rest v := by
        refine Stats.arrive_congr ha.mem (ha.tail hout).mem fun M _ he => ?_
        rw [List.mem_cons, or_iff_right]
        rintro rfl
        exact hne he
      rw [hleave, hgoto, hstats]

/-- When control goes along an edge, the loops in progress are those around the edge's start. -/
theorem At.around {c : Cursor ν} {chain : List Loop} (hat : At p Ls rep u c chain)
    (hu : g.Reachable u) (huv : g.Edge u v) : Around Ls v chain :=
  ⟨fun L hL => ((hat.mem_iff L).1 hL).1,
    fun L hL hc hne => (hat.mem_iff L).2 ⟨hL, hd.sorted.of_edge hL hu huv hc hne⟩, hat.inner_first⟩

/-- The first cursor is at the entry. -/
theorem start_at (s : RunState σ V) :
    ∃ c chain, At p Ls rep BlockId.entry c chain ∧
      (t.start s : Except (RunError E) (Cursor ν) × RunState σ V) = (.ok c, { s with
        frame := s.frame.clearAll c.block.clearBefore
        stats := s.stats.arrive Ls [] BlockId.entry }) := by
  have haround : Around Ls BlockId.entry [] :=
    ⟨fun _ hL => absurd hL List.not_mem_nil,
      fun L hL hc hne => absurd (hd.sorted.eq_header_of_entry hL hc) hne, .nil⟩
  obtain ⟨c, chain, hat, hgoto⟩ := goto_outermost (E := E) hd
    (hd.shaped.lt_of_reachable (FlowGraph.reachable_entry g)) haround s
  rw [hd.clearBefore hat.block] at hgoto
  exact ⟨c, chain, hat, hgoto⟩

end Moves

/-! ## Steps -/

section Steps

variable [FrameValue V] {run : Runner ν σ V E}

/-- Where a block leads, told by what its node does. -/
theorem execute_branch {n : BlockNode ν} {s : RunState σ V} {position : Nat} {next : BlockId}
    {world : σ} {frame : Frame V}
    (hout : run n.node s.world s.frame = (.ok (.branch position), world, frame))
    (hnext : n.successors[position]? = some next) :
    n.execute run s = (.ok (.inl next), { s.countBlock with
      world, frame := (frame.perform (n.edges[position]?.getD ∅)).clearAll n.clearAfter }) := by
  simp only [BlockNode.execute, RunState.countBlock, hout, hnext]
  cases n.edges[position]? with
  | none => simp [RunState.clear]
  | some copy => rfl

/-- Where a run ends, told by what the last node does. -/
theorem execute_ends {n : BlockNode ν} {s : RunState σ V}
    (h : ∀ position next, (run n.node s.world s.frame).1 = .ok (.branch position) →
      n.successors[position]? ≠ some next) :
    ∃ result, n.Ends (run n.node s.world s.frame) result { s.countBlock with
        world := (run n.node s.world s.frame).2.1, frame := (run n.node s.world s.frame).2.2 } ∧
      n.execute run s = (result.map .inr, { s.countBlock with
        world := (run n.node s.world s.frame).2.1, frame := (run n.node s.world s.frame).2.2 }) := by
  rcases hout : run n.node s.world s.frame with ⟨result, world, frame⟩
  rw [hout] at h
  simp only [BlockNode.execute, RunState.countBlock, hout]
  cases result with
  | error e => exact ⟨.error (.node n.id e), ⟨rfl, rfl, .inl ⟨e, rfl, rfl⟩⟩, rfl⟩
  | ok transfer =>
    cases transfer with
    | ret value => exact ⟨.ok value, ⟨rfl, rfl, .inr (.inl ⟨value, rfl, rfl⟩)⟩, rfl⟩
    | branch position =>
      have hnone : n.successors[position]? = none := by
        rw [Option.eq_none_iff_forall_ne_some]
        exact fun next => h position next rfl
      simp only [hnone]
      exact ⟨.error (.invalidSuccessor n.id position),
        ⟨rfl, rfl, .inr (.inr ⟨position, rfl, hnone, rfl⟩)⟩, rfl⟩

/-- A run of a tree that ends at the block at hand. -/
theorem runFrom_of_ends {c : Cursor ν} {s s' : RunState σ V}
    {result : Except (RunError E) (Option V)}
    (h : c.block.execute run s = (result.map .inr, s')) (limit : Nat) :
    t.runFrom run (limit + 1) c s = (some result, s') ∧
      t.visitsFrom run (limit + 1) c s = [⟨c.block.id, s.world, s.frame⟩] := by
  cases result <;> simp [runFrom, visitsFrom, step, h, Except.map]

/-- A run of a tree that goes on. -/
theorem runFrom_of_next {c c' : Cursor ν} {s s₁ s' : RunState σ V} {next : BlockId}
    (h : c.block.execute run s = (.ok (.inl next), s₁))
    (hgoto : (t.goto c.path next s₁ : Except (RunError E) (Cursor ν) × RunState σ V) = (.ok c', s'))
    (limit : Nat) :
    t.runFrom run (limit + 1) c s = t.runFrom run limit c' s' ∧
      t.visitsFrom run (limit + 1) c s =
        ⟨c.block.id, s.world, s.frame⟩ :: t.visitsFrom run limit c' s' := by
  simp [runFrom, visitsFrom, step, h, hgoto]

variable (hd : Disperses g t p Ls rep)

include hd

/-- **A run begins at the entry.** -/
theorem run_begins (run : Runner ν σ V E) (world : σ) (frame : Frame V) :
    ∃ c chain, At p Ls rep BlockId.entry c chain ∧ ∀ limit,
      t.run run limit world frame = t.runFrom run limit c
        ⟨frame.clearAll c.block.clearBefore, world, Stats.arrive Ls [] BlockId.entry {}⟩ ∧
      t.visits run limit world frame = t.visitsFrom run limit c
        ⟨frame.clearAll c.block.clearBefore, world, Stats.arrive Ls [] BlockId.entry {}⟩ := by
  obtain ⟨c, chain, hat, hstart⟩ := start_at (E := E) hd ({ world, frame } : RunState σ V)
  refine ⟨c, chain, hat, fun limit => ?_⟩
  simp only [Tree.run, visits, hstart, and_self]

/-- **A run goes on along an edge.**  The edge's copy is performed, what is dead after the block is
emptied, loops are left, and what is dead before the next block is emptied. -/
theorem runFrom_goes_on {c : Cursor ν} {chain : List Loop} {s : RunState σ V} {position : Nat}
    {next : BlockId} {world : σ} {frame : Frame V} (hu : g.Reachable u) (hat : At p Ls rep u c chain)
    (hout : run c.block.node s.world s.frame = (.ok (.branch position), world, frame))
    (hnext : c.block.successors[position]? = some next) :
    g.Edge u next ∧ ∃ c' chain' frame', At p Ls rep next c' chain' ∧
      Frame.Relayed t.exitSlot
        ((frame.perform (c.block.edges[position]?.getD ∅)).clearAll c.block.clearAfter) frame' ∧
      ∀ limit, t.runFrom run (limit + 1) c s = t.runFrom run limit c'
          ⟨frame'.clearAll c'.block.clearBefore, world, s.countBlock.stats.arrive Ls chain next⟩ ∧
        t.visitsFrom run (limit + 1) c s = ⟨c.block.id, s.world, s.frame⟩ ::
          t.visitsFrom run limit c'
            ⟨frame'.clearAll c'.block.clearBefore, world, s.countBlock.stats.arrive Ls chain next⟩ := by
  have hedge : g.Edge u next := ⟨_, hd.successors hat.block, List.mem_of_getElem? hnext⟩
  obtain ⟨c', chain', frame', hat', hrelayed, hgoto⟩ := goto_arrives (E := E) hd
    (hd.shaped.lt_of_reachable (hu.step hedge)) (hat.around hd hu hedge)
    { s.countBlock with
      world, frame := (frame.perform (c.block.edges[position]?.getD ∅)).clearAll c.block.clearAfter }
  rw [← hat.path] at hgoto
  exact ⟨hedge, c', chain', frame', hat', hrelayed,
    fun limit => runFrom_of_next (execute_branch hout hnext) hgoto limit⟩

end Steps

/-! ## Lowered functions -/

/-- What a tree is made of, apart from its nodes. -/
theorem assemble_cases {f : Func} {layout : Layout} {a : Analysis} {blocks : List (BlockNode ν)}
    (h : Lowering.assemble f layout a blocks = .ok t) :
    ∃ Ls, a.loops.sorted = .ok Ls ∧
      Ls.foldlM Lowering.foldLoop (Table.ofList (blocks.map fun b => some (Node.block b))) =
        .ok t.nodes ∧
      t.clearBefore = a.liveness.clearBefore.map IdSet.toList ∧
      t.frameSize = layout.slotCount + t.exitSlot.toList.length ∧
      (∀ slot, t.exitSlot = some slot → layout.spare = .ok slot) ∧
      (a.loops.size ≠ 0 → ∃ slot, t.exitSlot = some slot) := by
  simp only [Lowering.assemble, bind_eq_ok, liftM_eq_ok] at h
  obtain ⟨Ls, hLs, nodes, hnodes, h⟩ := h
  refine ⟨Ls, hLs, ?_⟩
  split at h
  · rename_i hzero
    cases h
    refine ⟨hnodes, rfl, rfl, ?_, fun h => absurd hzero h⟩
    intro slot hslot
    cases hslot
  · cases hspare : layout.spare with
    | error e =>
      rw [hspare] at h
      cases h
    | ok slot =>
      rw [hspare] at h
      cases h
      refine ⟨hnodes, rfl, rfl, ?_, fun _ => ⟨slot, rfl⟩⟩
      intro slot' hslot'
      cases hslot'
      rfl

/-- What a tree was made from: the analysis of a function, its blocks, its loops in the order in which
they were folded, and the nodes of the loops, by header.  No value lives in the exit slot. -/
structure Lowered {τ : Type} (f : Func) (layout : Layout) (options : Options)
    (create : Block → Decoration → StateM τ ν) (t : Tree ν) (a : Analysis) (p : Flat ν)
    (Ls : List Loop) (rep : BlockId → LoopNode ν) : Prop where
  planned : Lowering.Planned f layout options create a p
  sorted : a.loops.sorted = .ok Ls
  disperses : Disperses a.graph t p Ls rep
  slotCount_le : layout.slotCount ≤ t.frameSize
  slotOf_ne : ∀ v s, layout.slotOf v = some s → t.exitSlot ≠ some s

/-- **What a lowered function is.** -/
theorem lower_lowered {f : Func} {layout : Layout} {options : Options} {τ : Type}
    {create : Block → Decoration → StateM τ ν} {seed : τ}
    (h : ((lower f layout options create).run seed).1 = .ok t) :
    ∃ a p Ls rep, ((lowerFlat f layout options create).run seed).1 = .ok p ∧
      Lowered f layout options create t a p Ls rep := by
  obtain ⟨a, p, hp, hplanned, hassemble⟩ := lower_cases h
  obtain ⟨Ls, hLs, hfold, hclear, hsize, hspare, hexit⟩ := assemble_cases hassemble
  have hnatural := LoopForest.ofGraph_natural hplanned.loops
  have hsorted := hnatural.sorted hLs
  obtain ⟨rep, hfolded⟩ := Lowering.foldLoops_folded hsorted hfold
  have hslot : ∀ v slot, layout.slotOf v = some slot → t.exitSlot ≠ some slot :=
    fun v slot hv he => Layout.slotOf_ne_spare (hspare slot he) v hv
  refine ⟨a, p, Ls, rep, hp, hplanned, hLs,
    ⟨?_, hsorted, hfolded, ?_, ?_, hplanned.size, ?_, ?_, ?_, ?_⟩, by omega, hslot⟩
  · exact (FlowGraph.ofFunc_describes hplanned.graph).toShaped
  · intro hne
    obtain ⟨L, hL⟩ := List.exists_mem_of_ne_nil Ls hne
    obtain ⟨l, _, hl⟩ := (mem_of_mapM hLs).1 hL
    have hlt := Table.lt_of_get? (Table.get_eq_ok_iff.1 hl)
    exact hexit (Nat.ne_of_gt (Nat.zero_lt_of_lt hlt))
  · intro slot hs
    have hidx := hspare slot hs
    unfold Layout.spare Ident.ofIndex at hidx
    split at hidx <;> cases hidx
    rw [hsize, hs]
    exact Nat.lt_succ_self _
  · exact fun hn => (hplanned.block hn).id
  · exact fun hn => (hplanned.block hn).successors
  · intro b n hn
    have hbefore := (hplanned.block hn).clearBefore
    rw [slotsBefore, hclear, Table.get?_map, hbefore]
    rfl
  · intro b n hn copy hcopy
    have hedges := EdgeCopies.onSlots_cases hplanned.slotCopies (hplanned.block hn).successors
    rw [Option.some.inj ((hplanned.block hn).edges.symm.trans hedges)] at hcopy
    obtain ⟨target, _, rfl⟩ := List.mem_map.1 hcopy
    cases a.copies.get? b target with
    | none => constructor <;> intro _ h <;> cases h
    | some c =>
      constructor
      · intro s hs
        obtain ⟨v, hv⟩ := ParallelCopy.exists_slotOf_of_mem (.inl hs)
        exact hslot v s hv
      · intro s hs
        obtain ⟨v, hv⟩ := ParallelCopy.exists_slotOf_of_mem (.inr hs)
        exact hslot v s hv

/-- The nodes of a tree are those that were made for its blocks. -/
theorem Lowered.exists_create {τ : Type} {f : Func} {layout : Layout} {options : Options}
    {create : Block → Decoration → StateM τ ν} {a : Analysis}
    (hl : Lowered f layout options create t a p Ls rep) {n : BlockNode ν} (hn : n ∈ t.blocks) :
    ∃ block d seed, f.block? n.id = some block ∧ d.layout = layout ∧
      n.node = ((create block d).run seed).1 := by
  obtain ⟨b, hb⟩ := Table.mem_toList.1 (hl.disperses.folded.allBlocks.mem_iff.1 hn)
  obtain ⟨block, seed, hblock, hnode⟩ := (hl.planned.block hb).node
  exact ⟨block, _, seed, (hl.planned.block hb).id.symm ▸ hblock, rfl, hnode⟩

/-- A lowered function disperses its blocks. -/
theorem lower_disperses {f : Func} {layout : Layout} {options : Options} {τ : Type}
    {create : Block → Decoration → StateM τ ν} {seed : τ}
    (h : ((lower f layout options create).run seed).1 = .ok t) :
    ∃ a p Ls rep, ((lowerFlat f layout options create).run seed).1 = .ok p ∧
      Lowering.Planned f layout options create a p ∧ Disperses a.graph t p Ls rep ∧
      layout.slotCount ≤ t.frameSize ∧ ∀ v, t.exitSlot ≠ none → layout.slotOf v ≠ t.exitSlot := by
  obtain ⟨a, p, Ls, rep, hp, hl⟩ := lower_lowered h
  refine ⟨a, p, Ls, rep, hp, hl.planned, hl.disperses, hl.slotCount_le, fun v hne he => ?_⟩
  cases hexit : t.exitSlot with
  | none => exact hne hexit
  | some slot => exact hl.slotOf_ne v slot (he.trans hexit) hexit

end Tree

end FlowTree
