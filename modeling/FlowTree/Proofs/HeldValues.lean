import FlowTree.Proofs.Frames
import FlowTree.Proofs.LiveSlots
import FlowTree.Proofs.ValueRuns

/-!
# Values in frames

How a frame stands for values.  A frame need not hold every value that is set: a slot may have been
emptied once it was dead.  It holds the values that live in some slots, and which slots these are
changes as a block runs.  At the start they are the live ones; an instruction adds the slot that it
writes, and by the flow equations it reads no others.  On the way to the next block the edge's copy
does to the slots what arriving does to the values, and then the live slots of that block are among
those that are held.

For all this no two values may share a slot, and every value that is read needs one.
-/

namespace FlowTree.Frame

variable {σ V E : Type} {layout : Layout} {S S' : SlotId → Prop} {vals vals' : Values V} {f : Frame V}

/-- In the slots of `S`, the frame holds the values that live there, as far as they are set. -/
def Holds (layout : Layout) (S : SlotId → Prop) (vals : Values V) (f : Frame V) : Prop :=
  ∀ ⦃v s x⦄, layout.slotOf v = some s → S s → vals v = some x → f.cell s = .value x

namespace Holds

theorem mono (h : Holds layout S vals f) (hS : ∀ s, S' s → S s) : Holds layout S' vals f :=
  fun _ _ _ hv hs hx => h hv (hS _ hs) hx

theorem clearAll (h : Holds layout S vals f) {ss : List SlotId} (hss : ∀ s ∈ ss, ¬ S s) :
    Holds layout S vals (f.clearAll ss) := by
  intro v s x hv hs hx
  rw [cell_clearAll, if_neg fun hmem => hss s hmem hs]
  exact h hv hs hx

/-! ## Results -/

/-- A result that is stored is held in the slot of its value. -/
theorem store (hinj : layout.Injective) (h : Holds layout S vals f) (v : Option ValueId)
    (x : Option V) :
    Holds layout (fun s => S s ∨ s ∈ layout.slotsOf v.toList) (vals.set v x)
      (f.store layout v x) := by
  intro u s y hu hs hy
  rw [Values.set_apply] at hy
  split at hy
  · rename_i hv
    subst hv hy
    simp [Frame.store, hu, Frame.set]
  · rename_i hv
    have hother : v.bind layout.slotOf ≠ some s := by
      intro hw
      obtain ⟨w, rfl, hws⟩ := Option.bind_eq_some_iff.1 hw
      exact hv (congrArg some (hinj hws hu))
    have hS : S s := by
      refine hs.resolve_right fun hmem => ?_
      obtain ⟨w, hw, hws⟩ := List.mem_filterMap.1 hmem
      exact hv (Option.mem_toList.1 hw ▸ congrArg some (hinj hws hu))
    rw [cell_store_of_ne hother]
    exact h hu hS hy

/-- Arguments that are stored are held. -/
theorem storeArgs (hinj : layout.Injective) (h : Holds layout S vals f) (params : List ValueId)
    (args : List V) :
    Holds layout S (vals.setAll (params.zip args)) (f.storeArgs layout params args) := by
  unfold Frame.storeArgs Values.setAll
  generalize params.zip args = sets
  induction sets generalizing vals f with
  | nil => exact h
  | cons p rest ih => exact ih ((h.store hinj (some p.1) (some p.2)).mono fun s hs => .inl hs)

variable [FrameValue V] {M : Meaning σ V E}

/-! ## Instructions -/

/-- What can be read from the values can be read from the frame. -/
theorem read_extends (h : Holds layout S vals f) {xs : List Operand}
    (hxs : ∀ v ∈ xs.filterMap Operand.value?, ∃ s, layout.slotOf v = some s ∧ S s) :
    Reader.Extends xs (M.readValue vals) (M.read layout f) := by
  intro x hx y hy
  cases x with
  | const c => exact hy
  | value v =>
    obtain ⟨s, hs, hS⟩ := hxs v (List.mem_filterMap.2 ⟨_, hx, rfl⟩)
    simp [Meaning.read, hs, Frame.get?, h hs hS (Meaning.readValue_value.1 hy)]

/-- **Instructions run on a frame as they do on values**, and what they write is held besides. -/
theorem runInstrs (hinj : layout.Injective) {is : List Instr} {e e' : Effect} {w w' : σ}
    (he : is.foldlM (Effect.step layout) e = .ok e') (hreads : ∀ s ∈ e'.reads, S s)
    (hslots : ∀ v ∈ is.flatMap Instr.uses, ∃ s, layout.slotOf v = some s)
    (h : Holds layout (fun s => S s ∨ s ∈ e.writes) vals f)
    (heval : M.evalInstrs is w vals = .ok (w', vals')) :
    ∃ f', M.runInstrs layout is w f = (.ok (), w', f') ∧
      Holds layout (fun s => S s ∨ s ∈ e'.writes) vals' f' := by
  induction is generalizing e w vals f with
  | nil =>
    rw [List.foldlM_nil, pure_eq_ok] at he
    rw [Meaning.evalInstrs, pure_eq_ok, Prod.mk.injEq] at heval
    obtain ⟨rfl, rfl⟩ := heval
    subst he
    exact ⟨f, rfl, h⟩
  | cons i rest ih =>
    rw [List.foldlM_cons, bind_eq_ok] at he
    obtain ⟨c, hstep, hrest⟩ := he
    simp only [Meaning.evalInstrs, bind_eq_ok] at heval
    obtain ⟨⟨x, w₁⟩, hinstr, heval⟩ := heval
    rw [List.flatMap_cons] at hslots
    obtain ⟨hcreads, hcwrites⟩ := Effect.step_cases hstep
    -- an operand was written by the block, or is read before that and so held from the start
    have hread : ∀ v ∈ i.uses, ∃ s, layout.slotOf v = some s ∧ (S s ∨ s ∈ e.writes) := by
      intro v hv
      obtain ⟨s, hs⟩ := hslots v (List.mem_append_left _ hv)
      refine ⟨s, hs, ?_⟩
      by_cases hw : s ∈ e.writes
      · exact .inr hw
      · refine .inl (hreads s (Effect.reads_of_foldlM_step hrest ((hcreads s).2 (.inr ⟨?_, hw⟩))))
        exact List.mem_filterMap.2 ⟨v, hv, hs⟩
    have hinstr' := M.instr_extends (h.read_extends hread) hinstr
    have hheld : Holds layout (fun s => S s ∨ s ∈ c.writes) _ _ :=
      (h.store hinj i.defines x).mono fun s hs => by
        rw [hcwrites] at hs
        exact or_assoc.2 hs
    obtain ⟨f', hrun, hf'⟩ := ih hrest (fun v hv => hslots v (List.mem_append_right _ hv)) hheld heval
    exact ⟨f', by simp only [Meaning.runInstrs, hinstr', hrun], hf'⟩

/-! ## Edges -/

/-- What a φ takes, read from the frame. -/
theorem read_slotSource (h : Holds layout S vals f) {operand : Operand} {x : V}
    (hslot : ∀ v, operand = .value v → ∃ s, layout.slotOf v = some s ∧ S s)
    (hread : M.readValue vals operand = .ok x) :
    f.read (ParallelCopy.slotSource layout (Source.ofOperand operand)) = .value x := by
  cases operand with
  | const c =>
    cases hread
    rfl
  | value v =>
    obtain ⟨s, hs, hS⟩ := hslot v rfl
    simp only [Source.ofOperand, ParallelCopy.slotSource, hs]
    exact h hs hS (Meaning.readValue_value.1 hread)

/-- **The copy of an edge does to slots what arriving does to values.** -/
theorem perform (hinj : layout.Injective) {source : BlockId} {target : Block}
    {moves : List (Move ValueId)} {copy : ParallelCopy SlotId}
    (hmoves : ∀ m, m ∈ moves ↔ target.Takes source m) (hdistinct : (moves.map Move.dst).Nodup)
    (hcopy : copy.moves = moves.filterMap (ParallelCopy.slotMove? layout)) (hdefs : copy.defs.Nodup)
    (hslots : ∀ v ∈ target.reads, ∃ s, layout.slotOf v = some s) (huses : ∀ s ∈ copy.uses, S s)
    (h : Holds layout S vals f) (harrive : M.arrive source target vals = .ok vals') :
    Holds layout (fun s => S s ∨ s ∈ copy.defs) vals' (f.perform copy) := by
  intro v s x hv hs hx
  by_cases hdef : s ∈ copy.defs
  · obtain ⟨m', hm', rfl⟩ := List.mem_map.1 hdef
    rw [cell_perform_of_mem hdefs hm']
    obtain ⟨m, hm, hslot⟩ := List.mem_filterMap.1 (hcopy ▸ hm')
    obtain ⟨hdst, hsrc, _⟩ := ParallelCopy.slotMove?_cases hslot
    obtain rfl : m.dst = v := hinj hdst hv
    rcases Meaning.arrive_cases harrive m.dst with ⟨operand, y, htakes, hread, hy⟩ | ⟨hnone, _⟩
    · -- the move into the value is the only one, so it reads the operand that the φ takes
      have hm_eq : ⟨m.dst, Source.ofOperand operand⟩ = m :=
        List.inj_on_of_nodup_map hdistinct ((hmoves _).2 htakes) hm rfl
      cases hx.symm.trans hy
      rw [hsrc, ← hm_eq]
      refine h.read_slotSource ?_ hread
      rintro u rfl
      obtain ⟨t, ht⟩ := hslots u (htakes.mem_reads rfl)
      refine ⟨t, ht, huses t (List.mem_filterMap.2 ⟨m', hm', ?_⟩)⟩
      rw [hsrc, ← hm_eq]
      simp [Source.ofOperand, ParallelCopy.slotSource, ht, Source.loc?]
    · exact absurd rfl (hnone m ((hmoves m).1 hm))
  · rw [cell_perform_of_not_mem hdef]
    have hS := hs.resolve_right hdef
    rcases Meaning.arrive_cases harrive v with ⟨operand, y, htakes, hread, hy⟩ | ⟨_, hsame⟩
    · -- the φ is not written, so it takes its own value
      cases hx.symm.trans hy
      have hnone : ParallelCopy.slotMove? layout ⟨v, Source.ofOperand operand⟩ = none := by
        rw [Option.eq_none_iff_forall_ne_some]
        intro m' hm'
        refine hdef (List.mem_map.2 ⟨m', ?_, ?_⟩)
        · rw [hcopy]
          exact List.mem_filterMap.2 ⟨_, (hmoves _).2 htakes, hm'⟩
        · exact Option.some.inj ((ParallelCopy.slotMove?_cases hm').1.symm.trans hv)
      obtain ⟨u, hu, hus⟩ := ParallelCopy.slotSource_eq_loc
        (ParallelCopy.slotSource_of_slotMove?_eq_none hnone hv)
      obtain rfl : u = v := hinj hus hv
      cases operand with
      | const c => cases hu
      | value w =>
        cases hu
        exact h hv hS (Meaning.readValue_value.1 hread)
    · exact h hv hS (hsame ▸ hx)

end Holds

end FlowTree.Frame
