import FlowTree.Proofs.FaultFree

/-!
# Liveness through a block

What is live before a block depends on what is live after it, and there are two ways to tell.  One
goes back through the block, instruction by instruction: what an instruction writes is not live before
it, what it reads is.  The other goes through the block once, forwards, and keeps two sets, what was
read before it was written and what was written; from these it can be told for every set that may be
live after the block.

The sweeps take the second way, and the two ways agree.  An effect is read as a map from what is live
after to what is live before, and the effect of the instructions passed so far is the map of the way
back through them.  One instruction more is nearer to the end, so its map is applied first.  Slots
that several values share, a slot that is written again, or an operand in the slot of the result need
no case of their own, because both ways speak of slots only.

## Main statements

* `Effect.liveBefore_step`, `Effect.liveBefore_foldlM_step` — one instruction more, and many.
* `Effect.ofBlock_eq_liveBefore` — the effect of a block tells what the way back through it tells.
* `Liveness.liveIn_eq_liveBefore` — so does a computed liveness.
-/

namespace FlowTree

variable {layout : Layout} {width : Nat} {vs : List ValueId} {s : SlotId} {live : SlotSet}
  {i : Instr} {is : List Instr} {block : Block}

/-! ## The way back -/

/-- The slots of those of the given values that have one. -/
def Layout.slotSet (layout : Layout) (vs : List ValueId) : SlotSet := IdSet.ofList (layout.slotsOf vs)

@[simp] theorem Layout.mem_slotSet : s ∈ layout.slotSet vs ↔ s ∈ layout.slotsOf vs := IdSet.mem_ofList

/-- What is live before an instruction, if `live` is live after it.  A slot that is both written and
read is live: an instruction reads before it writes. -/
def Instr.liveBefore (layout : Layout) (i : Instr) (live : SlotSet) : SlotSet :=
  (live \ layout.slotSet i.defines.toList) ∪ layout.slotSet i.uses

/-- What is live at the start of a block, if `live` is live behind its terminator. -/
def Block.liveBefore (layout : Layout) (b : Block) (live : SlotSet) : SlotSet :=
  b.body.foldr (Instr.liveBefore layout) (live ∪ layout.slotSet b.terminator.uses)

/-! ## Effects as maps -/

namespace Effect

variable {e e' : Effect}

/-- What is live before something with a given effect, if `live` is live after it. -/
def liveBefore (e : Effect) (live : SlotSet) : SlotSet := (live \ e.writes) ∪ e.reads

theorem mem_liveBefore : s ∈ e.liveBefore live ↔ s ∈ live ∧ s ∉ e.writes ∨ s ∈ e.reads := by
  simp [liveBefore]

/-- The effect of nothing leaves live what is live. -/
@[simp] theorem liveBefore_empty (live : SlotSet) : ({} : Effect).liveBefore live = live := by
  ext s
  simp [mem_liveBefore]

/-- Reading some values makes their slots live where they are read. -/
theorem liveBefore_reads (h : (layout.slotsOf vs).foldlM (read width) e = .ok e') (live : SlotSet) :
    e'.liveBefore live = e.liveBefore (live ∪ layout.slotSet vs) := by
  obtain ⟨hwrites, hreads⟩ := foldlM_read h
  ext s
  simp only [mem_liveBefore, hwrites, hreads, IdSet.mem_union, Layout.mem_slotSet]
  tauto

/-- **One instruction more comes first on the way back.** -/
theorem liveBefore_step (h : step layout e i = .ok e') (live : SlotSet) :
    e'.liveBefore live = e.liveBefore (i.liveBefore layout live) := by
  obtain ⟨hreads, hwrites⟩ := step_cases h
  ext s
  simp only [mem_liveBefore, hwrites, hreads, Instr.liveBefore, IdSet.mem_union, IdSet.mem_sdiff,
    Layout.mem_slotSet]
  tauto

/-- The effect of instructions is the way back through them, and then through what was passed before
them. -/
theorem liveBefore_foldlM_step (h : is.foldlM (step layout) e = .ok e') (live : SlotSet) :
    e'.liveBefore live = e.liveBefore (is.foldr (Instr.liveBefore layout) live) := by
  -- the effect so far stays general: the scan starts the rest from what the first instruction leaves
  induction is generalizing e with
  | nil =>
    rw [List.foldlM_nil, pure_eq_ok] at h
    rw [h, List.foldr_nil]
  | cons i is ih =>
    rw [List.foldlM_cons, bind_eq_ok] at h
    obtain ⟨passed, hstep, hrest⟩ := h
    rw [ih hrest, liveBefore_step hstep, List.foldr_cons]

/-- The effect of a block is the way back through it. -/
theorem liveBefore_ofBlock (h : ofBlock layout block = .ok e) (live : SlotSet) :
    e.liveBefore live = block.liveBefore layout live := by
  simp only [ofBlock, bind_eq_ok] at h
  obtain ⟨body, hbody, hterminator⟩ := h
  rw [liveBefore_reads hterminator, liveBefore_foldlM_step hbody, liveBefore_empty, Block.liveBefore]

/-- **The effect of a block tells what the way back through it tells.**  Every block has an effect,
which names only slots of the frame; and whatever is live after the block, taking away what the block
writes and adding what it reads first gives the same as going back through it, instruction by
instruction. -/
theorem ofBlock_eq_liveBefore (layout : Layout) (block : Block) :
    ∃ e, ofBlock layout block = .ok e ∧ e.Below layout.slotCount ∧
      ∀ live : SlotSet, (live \ e.writes) ∪ e.reads = block.liveBefore layout live := by
  obtain ⟨e, he, hbelow⟩ := exists_ofBlock layout block
  exact ⟨e, he, hbelow, fun live => liveBefore_ofBlock he live⟩

-- a sum in the slot of one of its operands, where the other operand has no slot
example :
    (ofBlock (((Layout.ofCount 2).assign ⟨0⟩ ⟨0⟩).assign ⟨1⟩ ⟨0⟩)
      { id := ⟨0⟩
        instrs := [.binary ⟨1⟩ .add (.value ⟨0⟩) (.value ⟨2⟩)]
        terminator := .ret (some (.value ⟨1⟩)) }).map
      (fun e => (IdSet.ofList [⟨1⟩] \ e.writes) ∪ e.reads) = .ok (IdSet.ofList [⟨0⟩, ⟨1⟩]) := by
  decide

end Effect

/-! ## Computed liveness -/

namespace Liveness

variable {f : Func} {g : FlowGraph} {copies : SlotCopies} {options : Options} {l : Liveness}
  {b : BlockId}

/-- **What is computed to be live at the start of a block is what the way back through it tells**, from
what is needed at its end. -/
theorem liveIn_eq_liveBefore (hd : g.Describes f) (h : ofFunc f g copies layout options = .ok l)
    (hblock : f.block? b = some block) :
    ∃ needed, l.liveIn.get? b = some (block.liveBefore layout needed) ∧
      ∀ s, s ∈ needed ↔ l.Needed copies layout block s := by
  obtain ⟨flow, now, hflow, hnow, hstart⟩ := ofFunc_upToDate hd h hblock
  simp only [start, bind_eq_ok, pure_eq_ok] at hstart
  obtain ⟨needed, hneeded, rfl⟩ := hstart
  refine ⟨needed, ?_, fun s => ?_⟩
  · rw [hnow, ← Effect.liveBefore_ofBlock (BlockFlow.ofBlock_cases hflow).1, Effect.liveBefore]
  · rw [mem_atEnd hneeded, needed_iff hd hblock hflow]

end Liveness

end FlowTree
