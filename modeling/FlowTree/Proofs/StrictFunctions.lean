import FlowTree.Proofs.DraftedFunctions
import FlowTree.Proofs.FlatLowering
import FlowTree.Proofs.Sweeps
import FlowTree.Proofs.ValueRuns

/-!
# Strict functions

A function is strict if on every path from its entry every value that is read is a parameter or has
been written before.  φs are written on the edges that lead to them, all at once; and the result of a
call that may unwind is written where the call returns normally, before the φs there are.

What is live at the entry of a strict function ought to be parameters.  Liveness has the result of a
call written together with the φs and not before them, though.  So a φ that takes over the result on
the edge where it is returned counts as a read of what was there before the call; and if nothing on
the way to the call has written the result, it is live all the way back to the entry.  There is no
other exception.

## Main statements

* `Func.strict_of_certified` — certified functions are strict.
* `Lowering.Analysed.exposed_of_liveIn` — what is live is exposed.
* `Lowering.Analysed.liveIn_entry_of_handsOver` — a result that is handed over is live at the entry.
* `Func.liveIn_entry_iff` — what is live at the entry of a strict function.
-/

namespace FlowTree

/-! ## Reads and writes -/

/-- What happens to a value. -/
inductive Usage where
  | read (v : ValueId)
  | write (v : ValueId)
deriving DecidableEq, Repr

namespace Usage

variable {known known' : List ValueId} {as bs : List Usage} {v : ValueId}

/-- Every value that is read is known, or has been written before. -/
def Covered (known : List ValueId) : List Usage → Prop
  | [] => True
  | read v :: rest => v ∈ known ∧ Covered known rest
  | write v :: rest => Covered (v :: known) rest

instance decidableCovered : (known : List ValueId) → (as : List Usage) → Decidable (Covered known as)
  | _, [] => inferInstanceAs (Decidable True)
  | known, read v :: rest =>
    have := decidableCovered known rest
    inferInstanceAs (Decidable (v ∈ known ∧ Covered known rest))
  | known, write v :: rest => decidableCovered (v :: known) rest

theorem Covered.mono (h : Covered known as) (hsub : ∀ v ∈ known, v ∈ known') : Covered known' as := by
  induction as generalizing known known' with
  | nil => trivial
  | cons a rest ih =>
    cases a with
    | read v => exact ⟨hsub v h.1, ih h.2 hsub⟩
    | write v =>
      refine ih (show Covered (v :: known) rest from h) fun w hw => ?_
      rcases List.mem_cons.1 hw with rfl | hw
      · exact List.mem_cons_self
      · exact List.mem_cons_of_mem _ (hsub w hw)

/-- What was written before is known afterwards. -/
theorem Covered.append (has : Covered known as) (hbs : Covered known' bs)
    (hknown : ∀ v ∈ known', v ∈ known ∨ write v ∈ as) : Covered known (as ++ bs) := by
  induction as generalizing known with
  | nil => exact hbs.mono fun v hv => (hknown v hv).resolve_right (by simp)
  | cons a rest ih =>
    cases a with
    | read v => exact ⟨has.1, ih has.2 fun w hw => by simpa using hknown w hw⟩
    | write v =>
      refine ih (show Covered (v :: known) rest from has) fun w hw => ?_
      rcases hknown w hw with hw | hw
      · exact .inl (List.mem_cons_of_mem _ hw)
      · rcases List.mem_cons.1 hw with heq | hw
        · cases heq
          exact .inl List.mem_cons_self
        · exact .inr hw

/-- A value is read before it is written. -/
def ReadFirst (v : ValueId) (as : List Usage) : Prop :=
  ∃ before after, as = before ++ read v :: after ∧ write v ∉ before

theorem ReadFirst.append (h : ReadFirst v as) (bs : List Usage) : ReadFirst v (as ++ bs) := by
  obtain ⟨before, after, rfl, hbefore⟩ := h
  exact ⟨before, after ++ bs, by simp, hbefore⟩

theorem ReadFirst.prepend (h : ReadFirst v bs) (has : write v ∉ as) : ReadFirst v (as ++ bs) := by
  obtain ⟨before, after, rfl, hbefore⟩ := h
  refine ⟨as ++ before, after, by simp, ?_⟩
  rw [List.mem_append, not_or]
  exact ⟨has, hbefore⟩

theorem readFirst_map_read {vs : List ValueId} (hv : v ∈ vs) : ReadFirst v (vs.map read) := by
  obtain ⟨before, after, rfl⟩ := List.append_of_mem hv
  exact ⟨before.map read, after.map read, by simp, by simp⟩

/-- What is read before it is written has to be known. -/
theorem Covered.mem_of_readFirst (h : Covered known as) (hv : ReadFirst v as) : v ∈ known := by
  obtain ⟨before, after, rfl, hbefore⟩ := hv
  induction before generalizing known with
  | nil => exact h.1
  | cons a rest ih =>
    rw [List.mem_cons, not_or] at hbefore
    cases a with
    | read w => exact ih hbefore.2 h.2
    | write w =>
      rcases List.mem_cons.1 (ih hbefore.2 (show Covered (w :: known) _ from h)) with rfl | hmem
      · exact absurd rfl hbefore.1
      · exact hmem

end Usage

open Usage

/-- An instruction reads before it writes. -/
def Instr.usages (i : Instr) : List Usage := i.uses.map read ++ i.defines.toList.map write

/-- What a block reads and writes, its φs left out. -/
def Block.usages (b : Block) : List Usage :=
  b.body.flatMap Instr.usages ++ b.terminator.uses.map read

/-- What the φs of a block do when control arrives from `source`. -/
def Block.arrivals (b : Block) (source : BlockId) : List (Move ValueId) :=
  b.phis.flatMap fun i => i.defines.toList.flatMap fun dst =>
    (i.incoming.filter (·.source = source)).map fun x => ⟨dst, .ofOperand x.operand⟩

/-- What is read and written on the edge of a block at `position`, which leads to `next`: the result of
a call is written, then the φs read, and then they are written. -/
def Block.leave (b : Block) (position : Nat) (next : Block) : List Usage :=
  (b.terminator.definesOn position).toList.map write ++
    (((next.arrivals b.id).filterMap fun m => m.src.loc?).map read ++
      (next.arrivals b.id).map fun m => write m.dst)

theorem Block.mem_arrivals {b : Block} {source : BlockId} {m : Move ValueId} :
    m ∈ b.arrivals source ↔ b.Takes source m := by
  simp only [arrivals, List.mem_flatMap, List.mem_map, List.mem_filter, decide_eq_true_eq,
    Option.mem_toList, Takes]
  constructor
  · rintro ⟨i, hi, dst, hdst, x, ⟨hx, hsource⟩, rfl⟩
    cases i with
    | phi dst' incoming =>
      cases hdst
      exact ⟨dst, incoming, hi, x, hx, hsource, rfl⟩
    | _ => cases hx
  · rintro ⟨dst, incoming, hi, x, hx, hsource, rfl⟩
    exact ⟨_, hi, dst, rfl, x, ⟨hx, hsource⟩, rfl⟩

theorem Block.write_mem_usages {b : Block} {v : ValueId} :
    write v ∈ b.usages ↔ v ∈ b.body.filterMap Instr.defines := by
  simp [usages, Instr.usages]

theorem Block.write_mem_leave {b next : Block} {position : Nat} {v : ValueId} :
    write v ∈ b.leave position next ↔ b.terminator.definesOn position = some v ∨
      ∃ m ∈ next.arrivals b.id, m.dst = v := by
  simp [leave]

/-- A terminator only writes on the first of its edges. -/
theorem Terminator.eq_zero_of_definesOn {t : Terminator} {position : Nat} {v : ValueId}
    (h : t.definesOn position = some v) : position = 0 := by
  unfold definesOn at h
  split at h
  · rfl
  · cases h

/-! ## Paths -/

namespace Func

variable {f : Func} {b : BlockId} {block : Block} {as : List Usage} {v : ValueId}

/-- What is read and written on a path from the entry to the end of a block. -/
inductive Path (f : Func) : BlockId → List Usage → Prop where
  | entry {block : Block} (hblock : f.block? BlockId.entry = some block) :
      Path f BlockId.entry block.usages
  | step {b next : BlockId} {block target : Block} {as : List Usage} {position : Nat}
      (path : Path f b as) (hblock : f.block? b = some block)
      (hnext : block.terminator.successors[position]? = some next)
      (htarget : f.block? next = some target) :
      Path f next (as ++ block.leave position target ++ target.usages)

/-- No path reads a value that is not a parameter and has not been written. -/
def Strict (f : Func) : Prop := ∀ b as, f.Path b as → Covered f.params as

theorem Path.exists_suffix (h : f.Path b as) (hblock : f.block? b = some block) :
    ∃ before, as = before ++ block.usages := by
  cases h with
  | entry hblock' =>
    cases hblock.symm.trans hblock'
    exact ⟨[], rfl⟩
  | step _ _ _ htarget =>
    cases hblock.symm.trans htarget
    exact ⟨_, rfl⟩

/-- `known` has values that are surely written when a block starts: no block reads anything else too
early, nor does an edge, and each edge has written what is known behind it. -/
def Certified (f : Func) (known : BlockId → List ValueId) : Prop :=
  (∀ v ∈ known BlockId.entry, v ∈ f.params) ∧ ∀ p ∈ f.blocks.zipIdx,
    Covered (known ⟨p.2⟩) p.1.usages ∧ ∀ edge ∈ p.1.terminator.successors.zipIdx,
      ∀ target ∈ (f.block? edge.1).toList,
        Covered (known ⟨p.2⟩) (p.1.usages ++ p.1.leave edge.2 target) ∧
        ∀ v ∈ known edge.1, v ∈ known ⟨p.2⟩ ∨ write v ∈ p.1.usages ++ p.1.leave edge.2 target

instance (known : BlockId → List ValueId) : Decidable (f.Certified known) := instDecidableAnd

/-- **Certified functions are strict.** -/
theorem strict_of_certified (known : BlockId → List ValueId) (h : f.Certified known) : f.Strict := by
  obtain ⟨hentry, hblocks⟩ := h
  -- before each block everything is covered, and what is known of the block has been written
  have key : ∀ b as, f.Path b as → ∃ before block, f.block? b = some block ∧
      as = before ++ block.usages ∧ Covered f.params before ∧
      ∀ v ∈ known b, v ∈ f.params ∨ write v ∈ before := by
    intro b as hpath
    induction hpath with
    | entry hblock => exact ⟨[], _, hblock, rfl, trivial, fun v hv => .inl (hentry v hv)⟩
    | @step b next block target as position _ hblock hnext htarget ih =>
      obtain ⟨before, block', hblock', rfl, hcovered, hknown⟩ := ih
      cases hblock.symm.trans hblock'
      obtain ⟨_, hedges⟩ := hblocks (block, b.index) (List.mk_mem_zipIdx_iff_getElem?.2 hblock)
      obtain ⟨hedge, hwritten⟩ := hedges (next, position) (List.mk_mem_zipIdx_iff_getElem?.2 hnext)
        target (by simp [htarget])
      refine ⟨before ++ (block.usages ++ block.leave position target), target, htarget,
        by simp, hcovered.append hedge hknown, fun v hv => ?_⟩
      rw [List.mem_append]
      rcases hwritten v hv with hv | hv
      · exact (hknown v hv).imp_right .inl
      · exact .inr (.inr hv)
  intro b as hpath
  obtain ⟨before, block, hblock, rfl, hcovered, hknown⟩ := key b as hpath
  exact hcovered.append
    (hblocks (block, b.index) (List.mk_mem_zipIdx_iff_getElem?.2 hblock)).1 hknown

/-- On the way to a call that returns `v` nothing has written `v`, and on the edge where the call
returns normally a φ moves `v` to another counted value. -/
def HandsOver (f : Func) (v : ValueId) : Prop :=
  ∃ b as block next target m, f.Path b as ∧ write v ∉ as ∧ f.block? b = some block ∧
    block.terminator.definesOn 0 = some v ∧ block.terminator.successors[0]? = some next ∧
    f.block? next = some target ∧ m ∈ target.arrivals b ∧ m.src = .loc v ∧ m.dst ≠ v ∧
    m.dst.index < f.valueCount

/-! ## Exposed values -/

/-- A value is read on a path from the start of block `b` before it is written, where the result of a
call is only written together with the φs. -/
inductive Exposed (f : Func) (v : ValueId) : BlockId → Prop where
  | here {b : BlockId} {block : Block} (hblock : f.block? b = some block)
      (hread : ReadFirst v block.usages) : Exposed f v b
  | onEdge {b next : BlockId} {block target : Block} {position : Nat} {m : Move ValueId}
      (hblock : f.block? b = some block) (hkept : write v ∉ block.usages)
      (hnext : block.terminator.successors[position]? = some next)
      (htarget : f.block? next = some target) (hm : m ∈ target.arrivals b) (hsrc : m.src = .loc v)
      (hresult : block.terminator.definesOn position = some v →
        m.dst ≠ v ∧ m.dst.index < f.valueCount) : Exposed f v b
  | beyond {b next : BlockId} {block target : Block} {position : Nat}
      (hblock : f.block? b = some block) (hkept : write v ∉ block.usages)
      (hnext : block.terminator.successors[position]? = some next)
      (htarget : f.block? next = some target) (hleft : write v ∉ block.leave position target)
      (hexposed : Exposed f v next) : Exposed f v b

/-- In a strict function, a value that is exposed where nothing has written it is a parameter or handed
over. -/
theorem Exposed.of_strict (h : f.Exposed v b) (hstrict : f.Strict)
    (hid : ∀ {b block}, f.block? b = some block → block.id = b) {before : List Usage}
    (hpath : ∀ block, f.block? b = some block → f.Path b (before ++ block.usages))
    (hbefore : write v ∉ before) : v ∈ f.params ∨ f.HandsOver v := by
  induction h generalizing before with
  | here hblock hread =>
    exact .inl ((hstrict _ _ (hpath _ hblock)).mem_of_readFirst (hread.prepend hbefore))
  | @onEdge b next block target position m hblock hkept hnext htarget hm hsrc hresult =>
    have hwritten : write v ∉ before ++ block.usages := by simp [hbefore, hkept]
    by_cases hdefines : block.terminator.definesOn position = some v
    · obtain rfl := Terminator.eq_zero_of_definesOn hdefines
      obtain ⟨hne, hlt⟩ := hresult hdefines
      exact .inr ⟨b, _, block, next, target, m, hpath _ hblock, hwritten, hblock, hdefines, hnext,
        htarget, hm, hsrc, hne, hlt⟩
    · -- the φ reads after what the call has written, which is something else
      refine .inl ((hstrict _ _ ((hpath _ hblock).step hblock hnext htarget)).mem_of_readFirst ?_)
      refine ReadFirst.append (ReadFirst.prepend ?_ hwritten) _
      refine ReadFirst.prepend (ReadFirst.append (readFirst_map_read ?_) _) (by simpa using hdefines)
      refine List.mem_filterMap.2 ⟨m, (hid hblock).symm ▸ hm, by rw [hsrc]; rfl⟩
  | @beyond b next block target position hblock hkept hnext htarget hleft _ ih =>
    have hpath' : ∀ target', f.block? next = some target' →
        f.Path next (before ++ block.usages ++ block.leave position target ++ target'.usages) := by
      intro target' htarget'
      cases htarget.symm.trans htarget'
      exact (hpath _ hblock).step hblock hnext htarget
    exact ih hpath' (by simp [hbefore, hkept, hleft])

end Func

/-! ## Slots and values -/

theorem Source.loc?_eq_some {α : Type} {src : Source α} {x : α} :
    src.loc? = some x ↔ src = .loc x := by
  cases src <;> simp [loc?]

theorem Layout.slotOf_onePerValue {f : Func} {v : ValueId} {s : SlotId} :
    (onePerValue f).slotOf v = some s ↔ v.index < f.valueCount ∧ s = ⟨v.index⟩ := by
  simp only [onePerValue]
  split <;> simp [*, eq_comm]

namespace Effect

variable {layout : Layout} {block : Block} {e : Effect} {s : SlotId} {v : ValueId}

theorem mem_writes_instrs {is : List Instr} (h : is.foldlM (step layout) {} = .ok e) :
    s ∈ e.writes ↔ s ∈ layout.slotsOf (is.filterMap Instr.defines) :=
  (writes_of_foldlM_step h).trans (or_iff_right (IdSet.not_mem_empty s))

/-- Without shared slots, a block writes a slot where it writes the value that lives there. -/
theorem mem_writes_iff (hinj : layout.Injective) (he : ofBlock layout block = .ok e)
    (hv : layout.slotOf v = some s) : s ∈ e.writes ↔ Usage.write v ∈ block.usages := by
  obtain ⟨body, hbody, hwrites, _⟩ := ofBlock_cases he
  rw [hwrites, mem_writes_instrs hbody, Block.write_mem_usages, Layout.slotsOf, List.mem_filterMap]
  refine ⟨?_, fun hmem => ⟨v, hmem, hv⟩⟩
  rintro ⟨w, hmem, hw⟩
  cases hinj hv hw
  exact hmem

/-- A slot that is read behind instructions that do not write it. -/
theorem exists_readFirst_uses {is : List Instr} {vs : List ValueId} (hs : s ∈ layout.slotsOf vs)
    (hw : s ∉ layout.slotsOf (is.filterMap Instr.defines)) : ∃ v, layout.slotOf v = some s ∧
      ReadFirst v (is.flatMap Instr.usages ++ vs.map Usage.read) := by
  obtain ⟨v, hv, hslot⟩ := List.mem_filterMap.1 hs
  refine ⟨v, hslot, (readFirst_map_read hv).prepend fun hmem => hw ?_⟩
  refine List.mem_filterMap.2 ⟨v, ?_, hslot⟩
  simpa [Instr.usages] using hmem

theorem exists_readFirst_instrs {is : List Instr} (h : is.foldlM (step layout) {} = .ok e)
    (hs : s ∈ e.reads) :
    ∃ v, layout.slotOf v = some s ∧ ReadFirst v (is.flatMap Instr.usages) := by
  have hall : is.foldlM (step layout) {} = .ok e ∧ (s ∈ e.reads → ∃ v, layout.slotOf v = some s ∧
      ReadFirst v (is.flatMap Instr.usages)) := by
    refine foldlM_induction (fun passed (c : Effect) => passed.foldlM (step layout) {} = .ok c ∧
      (s ∈ c.reads → ∃ v, layout.slotOf v = some s ∧ ReadFirst v (passed.flatMap Instr.usages)))
      h ⟨rfl, fun hs => absurd hs (IdSet.not_mem_empty s)⟩ ?_
    rintro passed i later c c' - ⟨hc, hreads⟩ hstep
    refine ⟨by simp [List.foldlM_append, hc, hstep], fun hs => ?_⟩
    rw [List.flatMap_append, List.flatMap_singleton]
    rcases ((step_cases hstep).1 s).1 hs with hs | ⟨hs, hw⟩
    · obtain ⟨v, hv, hfirst⟩ := hreads hs
      exact ⟨v, hv, hfirst.append _⟩
    · rw [mem_writes_instrs hc] at hw
      obtain ⟨v, hv, hfirst⟩ := exists_readFirst_uses hs hw
      refine ⟨v, hv, ?_⟩
      rw [Instr.usages, ← List.append_assoc]
      exact hfirst.append _
  exact hall.2 hs

/-- What a block reads before writing it is a slot of a value that it reads before writing it. -/
theorem exists_readFirst (he : ofBlock layout block = .ok e) (hs : s ∈ e.reads) :
    ∃ v, layout.slotOf v = some s ∧ ReadFirst v block.usages := by
  obtain ⟨body, hbody, _, hreads⟩ := ofBlock_cases he
  rcases (hreads s).1 hs with hs | ⟨hs, hw⟩
  · obtain ⟨v, hv, hfirst⟩ := exists_readFirst_instrs hbody hs
    exact ⟨v, hv, hfirst.append _⟩
  · rw [mem_writes_instrs hbody] at hw
    exact exists_readFirst_uses hs hw

end Effect

/-! ## What is live at the entry -/

section Entry

variable {f : Func} {options : Options} {a : Analysis} {b next : BlockId} {block target : Block}
  {position : Nat} {s : SlotId} {v : ValueId}

variable (ha : Lowering.Analysed f (.onePerValue f) options a)

include ha

/-- The slot moves on an edge are those of its φs. -/
theorem Lowering.Analysed.mem_moves_onEdge (hblock : f.block? b = some block)
    (hnext : block.terminator.successors[position]? = some next)
    (htarget : f.block? next = some target) {m' : Move SlotId} :
    m' ∈ (a.slotCopies.onEdge b position).moves ↔
      ∃ m ∈ target.arrivals b, ParallelCopy.slotMove? (.onePerValue f) m = some m' := by
  have hd := FlowGraph.ofFunc_describes ha.graph
  rw [EdgeCopies.moves_onEdge ha.slotCopies (hd.successors_iff.2 ⟨block, hblock, rfl⟩) hnext,
    List.mem_filterMap]
  refine exists_congr fun m => and_congr_left fun _ => ?_
  rw [(EdgeCopies.ofFunc_adds hd ha.copies).2, Block.mem_arrivals]
  constructor
  · rintro ⟨target', htarget', htakes⟩
    cases htarget.symm.trans htarget'
    exact htakes
  · exact fun htakes => ⟨target, htarget, htakes⟩

/-- **What is live is exposed.** -/
theorem Lowering.Analysed.exposed_of_liveIn (hs : a.liveness.LiveIn b s) :
    ∃ v, (Layout.onePerValue f).slotOf v = some s ∧ f.Exposed v b := by
  have hd := FlowGraph.ofFunc_describes ha.graph
  have hinj := Layout.onePerValue_injective f
  refine Liveness.liveIn_induction
    (P := fun b s => ∃ v, (Layout.onePerValue f).slotOf v = some s ∧ f.Exposed v b)
    hd ha.liveness ?_ hs
  intro b block e s hblock he hneeds
  rcases hneeds with hs | ⟨hw, position, next, hnext, hneeds⟩
  · obtain ⟨v, hv, hfirst⟩ := Effect.exists_readFirst he hs
    exact ⟨v, hv, .here hblock hfirst⟩
  obtain ⟨target, htarget⟩ : ∃ target, f.block? next = some target := by
    have hlt := hd.closed b next
      ⟨_, hd.successors_iff.2 ⟨block, hblock, rfl⟩, List.mem_of_getElem? hnext⟩
    rw [← FlowGraph.size, hd.size_eq] at hlt
    exact ⟨_, List.getElem?_eq_getElem hlt⟩
  have hmoves {m' : Move SlotId} : m' ∈ (a.slotCopies.onEdge b position).moves ↔ _ :=
    ha.mem_moves_onEdge hblock hnext htarget
  rcases hneeds with hs | ⟨⟨v, hv, hexposed⟩, hdefs, hresult⟩
  · obtain ⟨m', hm', hloc⟩ := List.mem_filterMap.1 hs
    rw [Source.loc?_eq_some] at hloc
    obtain ⟨m, hm, hmove⟩ := hmoves.1 hm'
    obtain ⟨hdst, hsource, hne⟩ := ParallelCopy.slotMove?_cases hmove
    obtain ⟨v, hsrc, hv⟩ := ParallelCopy.slotSource_eq_loc (hsource.symm.trans hloc)
    refine ⟨v, hv, .onEdge hblock ((Effect.mem_writes_iff hinj he hv).not.1 hw) hnext htarget hm hsrc
      fun _ => ⟨fun heq => ?_, (Layout.slotOf_onePerValue.1 hdst).1⟩⟩
    rw [heq, hv] at hdst
    cases hdst
    exact hne hloc
  · have hkept := (Effect.mem_writes_iff hinj he hv).not.1 hw
    have hdefines : block.terminator.definesOn position ≠ some v := by
      intro h
      exact hresult (by simp [Layout.slotsOf, h, hv])
    by_cases harrives : ∃ m ∈ target.arrivals b, m.dst = v
    · obtain ⟨m, hm, rfl⟩ := harrives
      cases hmove : ParallelCopy.slotMove? (.onePerValue f) m with
      | some m' =>
        cases hv.symm.trans (ParallelCopy.slotMove?_cases hmove).1
        exact absurd (List.mem_map.2 ⟨m', hmoves.2 ⟨m, hm, hmove⟩, rfl⟩) hdefs
      | none =>
        -- the φ takes the value from itself, which is a read all the same
        obtain ⟨w, hsrc, hw⟩ := ParallelCopy.slotSource_eq_loc
          (ParallelCopy.slotSource_of_slotMove?_eq_none hmove hv)
        cases hinj hw hv
        exact ⟨_, hv, .onEdge hblock hkept hnext htarget hm hsrc fun h => absurd h hdefines⟩
    · refine ⟨v, hv, .beyond hblock hkept hnext htarget ?_ hexposed⟩
      rw [Block.write_mem_leave, hd.id_eq hblock, not_or]
      exact ⟨hdefines, harrives⟩

/-- What is needed at the end of a path that does not write it is live at the start of the last
block. -/
theorem Lowering.Analysed.liveIn_of_needed {as : List Usage} (hpath : f.Path b as)
    (hblock : f.block? b = some block) (hv : (Layout.onePerValue f).slotOf v = some s)
    (hkept : write v ∉ as) (hs : a.liveness.Needed a.slotCopies (.onePerValue f) block s) :
    a.liveness.LiveIn b s := by
  have hd := FlowGraph.ofFunc_describes ha.graph
  obtain ⟨e, he, hlive⟩ := (Liveness.ofFunc_flows hd ha.liveness).liveIn_iff hblock
  obtain ⟨before, rfl⟩ := hpath.exists_suffix hblock
  have hw : s ∉ e.writes := by
    rw [Effect.mem_writes_iff (Layout.onePerValue_injective f) he hv]
    exact fun h => hkept (List.mem_append_right _ h)
  exact (hlive s).2 (.inr ⟨hw, hs⟩)

/-- What nothing on a path writes is live at the entry, if it is live where the path ends. -/
theorem Lowering.Analysed.liveIn_entry_of_path {as : List Usage} (hpath : f.Path b as)
    (hv : (Layout.onePerValue f).slotOf v = some s) (hkept : write v ∉ as)
    (hs : a.liveness.LiveIn b s) : a.liveness.LiveIn BlockId.entry s := by
  have hd := FlowGraph.ofFunc_describes ha.graph
  have hinj := Layout.onePerValue_injective f
  induction hpath with
  | entry => exact hs
  | @step b next block target as position hpath hblock hnext htarget ih =>
    rw [List.mem_append, List.mem_append, not_or, not_or, Block.write_mem_leave,
      hd.id_eq hblock, not_or] at hkept
    obtain ⟨⟨has, hdefines, harrives⟩, _⟩ := hkept
    refine ih has (ha.liveIn_of_needed hpath hblock hv has
      ⟨position, next, hnext, .inr ⟨hs, ?_, ?_⟩⟩)
    · rw [hd.id_eq hblock]
      intro hdefs
      obtain ⟨m', hm', rfl⟩ := List.mem_map.1 hdefs
      obtain ⟨m, hm, hmove⟩ := (ha.mem_moves_onEdge hblock hnext htarget).1 hm'
      exact harrives ⟨m, hm, hinj (ParallelCopy.slotMove?_cases hmove).1 hv⟩
    · intro hresult
      obtain ⟨w, hmem, hw⟩ := List.mem_filterMap.1 hresult
      cases hinj hw hv
      exact hdefines (by simpa using hmem)

/-- A result that is handed over is live at the entry. -/
theorem Lowering.Analysed.liveIn_entry_of_handsOver (hv : (Layout.onePerValue f).slotOf v = some s)
    (h : f.HandsOver v) : a.liveness.LiveIn BlockId.entry s := by
  have hd := FlowGraph.ofFunc_describes ha.graph
  have hinj := Layout.onePerValue_injective f
  obtain ⟨b, as, block, next, target, m, hpath, has, hblock, _, hnext, htarget, hm, hsrc, hne, hlt⟩ := h
  have hdst : (Layout.onePerValue f).slotOf m.dst = some ⟨m.dst.index⟩ :=
    Layout.slotOf_onePerValue.2 ⟨hlt, rfl⟩
  obtain ⟨m', hmove⟩ : ∃ m', ParallelCopy.slotMove? (.onePerValue f) m = some m' := by
    refine Option.ne_none_iff_exists'.1 fun hnone => hne ?_
    obtain ⟨w, hsrc', hw⟩ := ParallelCopy.slotSource_eq_loc
      (ParallelCopy.slotSource_of_slotMove?_eq_none hnone hdst)
    cases hsrc.symm.trans hsrc'
    exact hinj hdst hw
  have hsource : m'.src = .loc s := by
    rw [(ParallelCopy.slotMove?_cases hmove).2.1, hsrc]
    simp [ParallelCopy.slotSource, hv]
  refine ha.liveIn_entry_of_path hpath hv has
    (ha.liveIn_of_needed hpath hblock hv has ⟨0, next, hnext, .inl ?_⟩)
  rw [hd.id_eq hblock]
  exact List.mem_filterMap.2 ⟨m', (ha.mem_moves_onEdge hblock hnext htarget).2 ⟨m, hm, hmove⟩,
    Source.loc?_eq_some.2 hsource⟩

end Entry

/-- **What is live at the entry of a strict function**, besides parameters, are the results of calls
that are handed over, and nothing else. -/
theorem Func.liveIn_entry_iff {f : Func} {options : Options} {a : Analysis}
    (ha : Analysis.ofFunc f (.onePerValue f) options = .ok a) (hstrict : f.Strict) {s : SlotId}
    (hparams : ∀ v ∈ f.params, (Layout.onePerValue f).slotOf v ≠ some s) :
    a.liveness.LiveIn BlockId.entry s ↔
      ∃ v, (Layout.onePerValue f).slotOf v = some s ∧ f.HandsOver v := by
  have ha := Lowering.ofFunc_analysed ha
  have hd := FlowGraph.ofFunc_describes ha.graph
  constructor
  · intro hs
    obtain ⟨v, hv, hexposed⟩ := ha.exposed_of_liveIn hs
    have hpath : ∀ block, f.block? BlockId.entry = some block →
        f.Path BlockId.entry ([] ++ block.usages) := fun _ hblock => .entry hblock
    rcases hexposed.of_strict hstrict hd.id_eq hpath (by simp) with hmem | hover
    · exact absurd hv (hparams v hmem)
    · exact ⟨v, hv, hover⟩
  · rintro ⟨v, hv, hover⟩
    exact ha.liveIn_entry_of_handsOver hv hover

namespace Func

/-- A loop around a call, the result of which is handed over where the call returns. -/
def polls : Func where
  name := "polls"
  params := [⟨0⟩]
  valueCount := 6
  blocks := [
    { id := ⟨0⟩, instrs := [], terminator := .br ⟨1⟩ },
    { id := ⟨1⟩
      instrs := [.phi ⟨1⟩ [⟨⟨0⟩, .const (.int 0)⟩, ⟨⟨2⟩, .value ⟨4⟩⟩]]
      terminator := .invoke (some ⟨2⟩) "get" [.value ⟨0⟩, .value ⟨1⟩] ⟨2⟩ ⟨3⟩ },
    { id := ⟨2⟩
      instrs := [.phi ⟨3⟩ [⟨⟨1⟩, .value ⟨2⟩⟩], .binary ⟨4⟩ .add (.value ⟨3⟩) (.value ⟨1⟩)]
      terminator := .condBr (.value ⟨4⟩) ⟨1⟩ ⟨3⟩ },
    { id := ⟨3⟩
      instrs := [.phi ⟨5⟩ [⟨⟨1⟩, .value ⟨1⟩⟩, ⟨⟨2⟩, .value ⟨3⟩⟩]]
      terminator := .ret (some (.value ⟨5⟩)) }]

theorem polls_strict : polls.Strict :=
  strict_of_certified
    (fun b => [[⟨0⟩], [⟨0⟩, ⟨1⟩], [⟨0⟩, ⟨1⟩, ⟨3⟩], [⟨5⟩]][b.index]?.getD []) (by decide)

theorem liveIn_entry_polls : ∃ a, Analysis.ofFunc polls (.onePerValue polls) {} = .ok a ∧
    polls.Strict ∧ a.liveness.LiveIn BlockId.entry ⟨2⟩ ∧ ¬ a.liveness.LiveIn BlockId.entry ⟨1⟩ ∧
    (∃ v, (Layout.onePerValue polls).slotOf v = some ⟨2⟩ ∧ polls.HandsOver v) ∧
    ¬ ∃ v, (Layout.onePerValue polls).slotOf v = some ⟨1⟩ ∧ polls.HandsOver v := by
  have hrun : (Analysis.ofFunc polls (.onePerValue polls) {}).map (fun a =>
      (a.liveness.isLiveIn BlockId.entry ⟨1⟩, a.liveness.isLiveIn BlockId.entry ⟨2⟩)) =
      .ok (.ok false, .ok true) := by decide +kernel
  cases ha : Analysis.ofFunc polls (.onePerValue polls) {} with
  | error e => rw [ha] at hrun; cases hrun
  | ok a =>
    rw [ha] at hrun
    obtain ⟨hdead, hlive⟩ := Prod.mk.inj (Except.ok.inj hrun)
    have hdead := (Liveness.isLiveIn_eq_ok hdead).not.2 (by decide)
    have hlive := (Liveness.isLiveIn_eq_ok hlive).2 rfl
    exact ⟨a, rfl, polls_strict, hlive, hdead,
      (liveIn_entry_iff ha polls_strict (by decide)).1 hlive,
      (liveIn_entry_iff ha polls_strict (by decide)).not.1 hdead⟩

/-- Without a loop, and without parameters. -/
def relays : Func where
  name := "f"
  params := []
  valueCount := 2
  blocks := [
    { id := ⟨0⟩, instrs := [], terminator := .invoke (some ⟨0⟩) "get" [] ⟨1⟩ ⟨2⟩ },
    { id := ⟨1⟩
      instrs := [.phi ⟨1⟩ [⟨⟨0⟩, .value ⟨0⟩⟩]]
      terminator := .ret (some (.value ⟨1⟩)) },
    { id := ⟨2⟩, instrs := [], terminator := .ret none }]

/-- Nothing is read too early, all values are counted, and what is live at the entry is not a
parameter. -/
theorem liveIn_entry_relays : relays.Strict ∧
    (∀ v ∈ relays.defined ++ relays.blocks.flatMap Block.reads, v.index < relays.valueCount) ∧
    ∃ a, Analysis.ofFunc relays (.onePerValue relays) {} = .ok a ∧
      a.liveness.LiveIn BlockId.entry ⟨0⟩ ∧
      ∀ v ∈ relays.params, (Layout.onePerValue relays).slotOf v ≠ some ⟨0⟩ := by
  have hrun : (Analysis.ofFunc relays (.onePerValue relays) {}).map (fun a =>
      a.liveness.isLiveIn BlockId.entry ⟨0⟩) = .ok (.ok true) := by decide +kernel
  have hstrict : relays.Strict := strict_of_certified
    (fun b => if b.index = 1 then [⟨1⟩] else []) (by decide)
  refine ⟨hstrict, by decide, ?_⟩
  cases ha : Analysis.ofFunc relays (.onePerValue relays) {} with
  | error e => rw [ha] at hrun; cases hrun
  | ok a =>
    rw [ha] at hrun
    exact ⟨a, rfl, (Liveness.isLiveIn_eq_ok (Except.ok.inj hrun)).2 rfl, by decide⟩

end Func

end FlowTree
