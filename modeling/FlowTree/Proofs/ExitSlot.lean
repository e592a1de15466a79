import FlowTree.Proofs.Frames

/-!
# The exit slot

A tree passes the name of a block from a loop to the dispatcher around it through one cell, the exit
slot.  No value lives there, so running a block by a meaning neither reads nor writes it, and neither
do the copies on edges.  Two runs that differ in nothing but this cell go on side by side.

## Main statements

* `Frame.Beside.act`, `Frame.Beside.perform`, `Frame.Beside.clearAll` — they stay side by side.
* `Meaning.runBlock_ignored` — running a block by a meaning does not touch the exit slot.
-/

namespace FlowTree

variable {σ V E α β : Type}

/-! ## Running a node -/

/-- Running a node neither reads nor writes the exit slot: what it does is the same on frames that
agree but for that slot, and it leaves the slot as it finds it. -/
structure Frame.Ignored {α : Type} (exit : Option SlotId) (act : σ → Frame V → α × σ × Frame V) :
    Prop where
  result : ∀ {w f f'}, SameBut exit f f' → (act w f).1 = (act w f').1
  world : ∀ {w f f'}, SameBut exit f f' → (act w f).2.1 = (act w f').2.1
  frame : ∀ {w f f'}, SameBut exit f f' → SameBut exit (act w f).2.2 (act w f').2.2
  keeps : ∀ {w f s}, exit = some s → (act w f).2.2.cell s = f.cell s
  inRange : ∀ {w f s}, exit = some s → s.index < f.size → s.index < (act w f).2.2.size

section Meanings

variable {M : Meaning σ V E} {layout : Layout} {exit : Option SlotId}

namespace Frame.Ignored

theorem skip (result : σ → α) (world : σ → σ) :
    Ignored exit fun w (f : Frame V) => (result w, world w, f) :=
  ⟨fun _ => rfl, fun _ => rfl, fun h => h, fun _ => rfl, fun _ h => h⟩

/-- What ignores the exit slot can be done one after the other. -/
theorem seq {act : σ → Frame V → α × σ × Frame V} (next : α → σ → Frame V → β × σ × Frame V)
    (h : Ignored exit act) (hnext : ∀ a, Ignored exit (next a)) :
    Ignored exit fun w f => next (act w f).1 (act w f).2.1 (act w f).2.2 := by
  constructor
  · intro w f f' hf
    rw [h.result hf, h.world hf]
    exact (hnext _).result (h.frame hf)
  · intro w f f' hf
    rw [h.result hf, h.world hf]
    exact (hnext _).world (h.frame hf)
  · intro w f f' hf
    rw [h.result hf, h.world hf]
    exact (hnext _).frame (h.frame hf)
  · intro w f s hs
    rw [(hnext _).keeps hs, h.keeps hs]
  · intro w f s hs hlt
    exact (hnext _).inRange hs (h.inRange hs hlt)

variable (hfree : ∀ v s, layout.slotOf v = some s → exit ≠ some s)

include hfree

theorem store (v : Option ValueId) (x : Option V) (a : α) (w : σ) :
    Ignored exit fun (_ : σ) (f : Frame V) => (a, w, f.store layout v x) := by
  refine ⟨fun _ => rfl, fun _ => rfl, fun h => h.store v x, ?_, ?_⟩
  · intro _ f s hs
    refine cell_store_of_ne (fun hv => ?_) f x
    obtain ⟨u, _, hu⟩ := Option.bind_eq_some_iff.1 hv
    exact hfree u s hu hs
  · exact fun _ hlt => Nat.lt_of_lt_of_le hlt (size_le_store _ v x)

/-- What is read from a frame is the same on frames that agree but for the exit slot.  So it is enough
to know, for all that can be read, what is done then. -/
theorem reading [FrameValue V] (M : Meaning σ V E) {act : σ → Frame V → α × σ × Frame V}
    (h : ∀ w read, ∃ act', Ignored exit act' ∧ ∀ f, M.read layout f = read → act w f = act' w f) :
    Ignored exit act := by
  have hread : ∀ {f f' : Frame V}, SameBut exit f f' → M.read layout f = M.read layout f' := by
    intro f f' hf
    funext x
    cases x with
    | const c => rfl
    | value v =>
      simp only [Meaning.read]
      split
      · rfl
      · rename_i s hs
        simp only [Frame.get?, hf.cell s (hfree v s hs)]
  constructor
  · intro w f f' hf
    obtain ⟨act', hact, heq⟩ := h w (M.read layout f)
    rw [heq f rfl, heq f' (hread hf).symm]
    exact hact.result hf
  · intro w f f' hf
    obtain ⟨act', hact, heq⟩ := h w (M.read layout f)
    rw [heq f rfl, heq f' (hread hf).symm]
    exact hact.world hf
  · intro w f f' hf
    obtain ⟨act', hact, heq⟩ := h w (M.read layout f)
    rw [heq f rfl, heq f' (hread hf).symm]
    exact hact.frame hf
  · intro w f s hs
    obtain ⟨act', hact, heq⟩ := h w (M.read layout f)
    rw [heq f rfl]
    exact hact.keeps hs
  · intro w f s hs hlt
    obtain ⟨act', hact, heq⟩ := h w (M.read layout f)
    rw [heq f rfl]
    exact hact.inRange hs hlt

end Frame.Ignored

namespace Meaning

variable [FrameValue V] (hfree : ∀ v s, layout.slotOf v = some s → exit ≠ some s)

include hfree

theorem runInstrs_ignored (is : List Instr) : Frame.Ignored exit (M.runInstrs layout is) := by
  induction is with
  | nil => exact Frame.Ignored.skip (fun _ => Except.ok ()) fun w => w
  | cons i rest ih =>
    refine .reading hfree M fun w read => ?_
    rcases hinstr : M.instr w read i with e | ⟨x, w'⟩
    · exact ⟨_, .skip (fun _ => Except.error e) fun _ => w,
        fun f hf => by simp only [runInstrs, hf, hinstr]⟩
    · exact ⟨_, .seq (fun _ => M.runInstrs layout rest) (.store hfree i.defines x () w') fun _ => ih,
        fun f hf => by simp only [runInstrs, hf, hinstr]⟩

theorem runTerminator_ignored (t : Terminator) :
    Frame.Ignored exit (M.runTerminator layout t) := by
  refine .reading hfree M fun w read => ?_
  rcases hleave : M.leave w read t with e | ⟨value | ⟨position, result⟩, w'⟩
  · exact ⟨_, .skip (fun _ => Except.error e) fun _ => w,
      fun f hf => by simp only [runTerminator, hf, hleave]⟩
  · exact ⟨_, .skip (fun _ => Except.ok (.ret value)) fun _ => w',
      fun f hf => by simp only [runTerminator, hf, hleave]⟩
  · exact ⟨_, .store hfree (t.definesOn position) result (Except.ok (.branch position)) w',
      fun f hf => by simp only [runTerminator, hf, hleave]⟩

/-- **Running a block does not touch the exit slot**, where no value lives. -/
theorem runBlock_ignored (b : Block) : Frame.Ignored exit (M.runBlock layout b) := by
  have hseq := (runInstrs_ignored (M := M) hfree b.body).seq (fun r w f =>
    match r with
    | .error e => ((.error e : Except E (Transfer V)), w, f)
    | .ok () => M.runTerminator layout b.terminator w f) fun r => by
      cases r with
      | error e => exact Frame.Ignored.skip (fun _ => Except.error e) fun w => w
      | ok _ => exact runTerminator_ignored hfree b.terminator
  have heq : M.runBlock layout b = fun w f =>
      match (M.runInstrs layout b.body w f).1 with
      | .error e => (.error e, (M.runInstrs layout b.body w f).2.1, (M.runInstrs layout b.body w f).2.2)
      | .ok () => M.runTerminator layout b.terminator (M.runInstrs layout b.body w f).2.1
          (M.runInstrs layout b.body w f).2.2 := by
    funext w f
    unfold runBlock
    split <;> simp_all
  rw [heq]
  exact hseq

end Meaning

end Meanings

/-! ## Two runs -/

/-- A copy neither reads nor writes the exit slot. -/
structure ParallelCopy.Spares (exit : Option SlotId) (copy : ParallelCopy SlotId) : Prop where
  uses : ∀ s ∈ copy.uses, exit ≠ some s
  defs : ∀ s ∈ copy.defs, exit ≠ some s

/-- The frame of a tree and that of a flat run: they agree but for the exit slot, which exists, and
which is empty in both if `clean` holds. -/
structure Frame.Beside (clean : Prop) (exit : Option SlotId) (f f' : Frame V) : Prop
    extends Frame.SameBut exit f f' where
  inRange : ∀ s, exit = some s → s.index < f.size
  empty : clean → ∀ s, exit = some s → f.cell s = .empty ∧ f'.cell s = .empty

namespace Frame.Beside

variable {clean : Prop} {exit : Option SlotId} {f f' : Frame V}

theorem clearAll (h : Beside clean exit f f') (ss : List SlotId) :
    Beside clean exit (f.clearAll ss) (f'.clearAll ss) := by
  refine ⟨h.toSameBut.clearAll ss, ?_, ?_⟩
  · intro s hs
    rw [size_clearAll]
    exact h.inRange s hs
  · intro hc s hs
    obtain ⟨h₁, h₂⟩ := h.empty hc s hs
    simp [h₁, h₂]

theorem perform [FrameValue V] (h : Beside clean exit f f') {copy : ParallelCopy SlotId}
    (hcopy : copy.Spares exit) : Beside clean exit (f.perform copy) (f'.perform copy) := by
  have hkeep : ∀ (g : Frame V) s, exit = some s → (g.perform copy).cell s = g.cell s :=
    fun g s hs => cell_perform_of_not_mem (fun hmem => hcopy.defs s hmem hs) g
  refine ⟨h.toSameBut.perform hcopy.uses, ?_, ?_⟩
  · intro s hs
    exact Nat.lt_of_lt_of_le (h.inRange s hs) (size_le_perform f copy)
  · intro hc s hs
    rw [hkeep f s hs, hkeep f' s hs]
    exact h.empty hc s hs

theorem act {α : Type} {act : σ → Frame V → α × σ × Frame V} {w : σ}
    (h : Beside clean exit f f') (ha : Ignored exit act) :
    Beside clean exit (act w f).2.2 (act w f').2.2 := by
  refine ⟨ha.frame h.toSameBut, fun s hs => ha.inRange hs (h.inRange s hs), ?_⟩
  intro hc s hs
  rw [ha.keeps hs, ha.keeps hs]
  exact h.empty hc s hs

end Frame.Beside

/-- The states of a run of a tree and of a flat run. -/
structure RunState.Beside (clean : Prop) (exit : Option SlotId) (s s' : RunState σ V) : Prop where
  frame : Frame.Beside clean exit s.frame s'.frame
  world : s.world = s'.world
  blocks : s.stats.blocks = s'.stats.blocks

end FlowTree
