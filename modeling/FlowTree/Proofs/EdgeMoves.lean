import FlowTree.Storage.EdgeCopies
import FlowTree.Proofs.GraphShape
import Mathlib.Data.List.Nodup

/-!
# Moves on edges

What the copies on edges are, between values and between slots.

The copies of a function are collected φ by φ and predecessor by predecessor.  Each step adds one
move to one edge, or finds it there; so in the end the moves on an edge are those that the φs at its
end ask for, and no value is written twice.

## Main statements

* `EdgeCopies.ofFunc_adds` — the moves on the edges of a function.
* `EdgeCopies.ofFunc_error`, `EdgeCopies.ofFunc_outcome` — why the copies of a function could not be
  collected.
* `EdgeCopies.onSlots_cases` — the slot copies of a block's edges, by position.
* `ParallelCopy.slotMove?_cases` — a move between slots comes from a move between values.
* `ParallelCopy.nodup_defs_onSlots` — without shared slots, no slot is written twice.
-/

namespace FlowTree

variable {layout : Layout}

namespace ParallelCopy

theorem slotMove?_cases {m : Move ValueId} {m' : Move SlotId} (h : slotMove? layout m = some m') :
    layout.slotOf m.dst = some m'.dst ∧ m'.src = slotSource layout m.src ∧
      m'.src ≠ .loc m'.dst := by
  unfold slotMove? at h
  split at h
  · cases h
  · rename_i dst hdst
    dsimp only at h
    split at h
    · cases h
    · rename_i htrivial
      cases h
      exact ⟨hdst, rfl, by simpa [Move.isTrivial] using htrivial⟩

/-- A move that has no counterpart, though its destination has a slot, would stay in that slot. -/
theorem slotSource_of_slotMove?_eq_none {m : Move ValueId} {s : SlotId}
    (h : slotMove? layout m = none) (hs : layout.slotOf m.dst = some s) :
    slotSource layout m.src = .loc s := by
  simp only [slotMove?, hs] at h
  split at h
  · rename_i htrivial
    simpa [Move.isTrivial] using htrivial
  · cases h

theorem slotSource_eq_loc {src : Source ValueId} {s : SlotId} (h : slotSource layout src = .loc s) :
    ∃ v, src = .loc v ∧ layout.slotOf v = some s := by
  cases src with
  | const c => cases h
  | loc v =>
    refine ⟨v, rfl, ?_⟩
    simp only [slotSource] at h
    split at h
    · cases h
      assumption
    · cases h

/-- The slots of a copy are slots of values. -/
theorem exists_slotOf_of_mem {c : ParallelCopy ValueId} {s : SlotId}
    (h : s ∈ (c.onSlots layout).uses ∨ s ∈ (c.onSlots layout).defs) : ∃ v, layout.slotOf v = some s := by
  rcases h with h | h
  · obtain ⟨m', hm', hs⟩ := List.mem_filterMap.1 h
    obtain ⟨m, _, hm⟩ := List.mem_filterMap.1 hm'
    obtain ⟨_, hsrc, _⟩ := slotMove?_cases hm
    cases hsource : m'.src with
    | const c =>
      rw [hsource] at hs
      cases hs
    | loc s' =>
      rw [hsource] at hs hsrc
      cases hs
      obtain ⟨v, _, hv⟩ := slotSource_eq_loc hsrc.symm
      exact ⟨v, hv⟩
  · obtain ⟨m', hm', rfl⟩ := List.mem_map.1 h
    obtain ⟨m, _, hm⟩ := List.mem_filterMap.1 hm'
    exact ⟨m.dst, (slotMove?_cases hm).1⟩

end ParallelCopy

/-- The copy on the edge of block `b` at a position. -/
def SlotCopies.onEdge (copies : SlotCopies) (b : BlockId) (position : Nat) : ParallelCopy SlotId :=
  ((copies.get? b).getD [])[position]?.getD ∅

/-- No two values share a slot. -/
def Layout.Injective (layout : Layout) : Prop :=
  ∀ ⦃v w s⦄, layout.slotOf v = some s → layout.slotOf w = some s → v = w

/-- No two of the values share a slot. -/
def Layout.Separates (layout : Layout) (vs : List ValueId) : Prop :=
  ∀ ⦃v⦄, v ∈ vs → ∀ ⦃w⦄, w ∈ vs → ∀ ⦃s⦄,
    layout.slotOf v = some s → layout.slotOf w = some s → v = w

/-- Without shared slots, no slot is written twice. -/
theorem ParallelCopy.nodup_defs_onSlots {c : ParallelCopy ValueId} (hn : c.defs.Nodup)
    (hsep : layout.Separates c.defs) : (c.onSlots layout).defs.Nodup := by
  rw [defs, onSlots, List.Nodup, List.pairwise_map, List.pairwise_filterMap]
  rw [defs, List.Nodup, List.pairwise_map] at hn
  refine List.Pairwise.imp_of_mem ?_ hn
  intro m₁ m₂ hm₁ hm₂ hne m₁' h₁ m₂' h₂ he
  have hslot := (slotMove?_cases h₁).1
  rw [he] at hslot
  exact hne (hsep (List.mem_map_of_mem hm₁) (List.mem_map_of_mem hm₂) hslot (slotMove?_cases h₂).1)

theorem Layout.onePerValue_injective (f : Func) : (Layout.onePerValue f).Injective := by
  have hindex : ∀ v s, (onePerValue f).slotOf v = some s → s.index = v.index := by
    intro v s hv
    simp only [onePerValue] at hv
    split at hv <;> cases hv
    rfl
  exact fun v w s hv hw => Ident.ext ((hindex v s hv).symm.trans (hindex w s hw))

/-- On arrival from `source`, a φ of the block sets `m.dst` to `m.src`. -/
def Block.Takes (block : Block) (source : BlockId) (m : Move ValueId) : Prop :=
  ∃ dst incoming, Instr.phi dst incoming ∈ block.phis ∧
    ∃ i ∈ incoming, i.source = source ∧ m = ⟨dst, Source.ofOperand i.operand⟩

namespace EdgeCopies

variable {e e' : EdgeCopies} {g : FlowGraph} {f : Func} {b : BlockId} {edge : BlockId × BlockId}
  {m : Move ValueId}

/-! ## Collecting moves -/

def movesOn (e : EdgeCopies) (edge : BlockId × BlockId) : List (Move ValueId) :=
  ((e.entries.lookup edge).map ParallelCopy.moves).getD []

/-- No value is written twice on an edge. -/
def Distinct (e : EdgeCopies) : Prop := ∀ edge, ((e.movesOn edge).map Move.dst).Nodup

/-- `e'` has the moves of `e` and those of `new`, and writes no value twice if `e` does not. -/
structure Adds (new : BlockId × BlockId → Move ValueId → Prop) (e e' : EdgeCopies) : Prop where
  mem_iff : ∀ {edge m}, m ∈ e'.movesOn edge ↔ m ∈ e.movesOn edge ∨ new edge m
  distinct : e.Distinct → e'.Distinct

theorem lookup_push (entries : List ((BlockId × BlockId) × ParallelCopy ValueId))
    (edge edge' : BlockId × BlockId) (m : Move ValueId) :
    (entries.map fun entry => if entry.1 = edge then (edge, entry.2.push m) else entry).lookup edge' =
      if edge' = edge then (entries.lookup edge).map (·.push m) else entries.lookup edge' := by
  induction entries with
  | nil => simp
  | cons entry rest ih =>
    obtain ⟨key, copy⟩ := entry
    by_cases hkey : key = edge
    · subst hkey
      by_cases he : edge' = key
      · simp [he]
      · have hne : (edge' == key) = false := by simpa using he
        simp [List.lookup_cons, hne, ih, he]
    · by_cases he : edge' = edge
      · subst he
        have hne : (edge' == key) = false := by simpa using Ne.symm hkey
        simp [List.lookup_cons, hkey, hne, ih]
      · simp [List.lookup_cons, hkey, ih, he]

/-- Adding a move: it is there already, or comes behind moves into other values. -/
theorem add?_lookup (h : e.add? edge m = some e') :
    e' = e ∧ m ∈ e.movesOn edge ∨ m.dst ∉ (e.movesOn edge).map Move.dst ∧
      ∀ edge', e'.entries.lookup edge' =
        if edge' = edge then some ⟨e.movesOn edge ++ [m]⟩ else e.entries.lookup edge' := by
  unfold add? at h
  split at h
  · rename_i hnone
    cases h
    refine .inr ⟨by simp [movesOn, hnone], fun edge' => ?_⟩
    by_cases he : edge' = edge
    · simp [movesOn, he, hnone, List.lookup_append]
    · have hne : (edge' == edge) = false := by simpa using he
      simp [he, List.lookup_append, List.lookup_cons, hne]
  · rename_i copy hcopy
    have hmoves : e.movesOn edge = copy.moves := by simp [movesOn, hcopy]
    split at h
    · rename_i hsource
      cases h
      rw [ParallelCopy.sourceOf?, Option.map_eq_none_iff, List.find?_eq_none] at hsource
      refine .inr ⟨by simpa [hmoves] using hsource, fun edge' => ?_⟩
      rw [lookup_push, hcopy, hmoves]
      rfl
    · rename_i src hsource
      split at h
      · rename_i hsrc
        cases h
        obtain ⟨m', hm', rfl⟩ := Option.map_eq_some_iff.1 hsource
        have hdst : m'.dst = m.dst := by simpa using List.find?_some hm'
        have heq : m' = m := by
          cases m'
          cases m
          simp_all
        exact .inl ⟨rfl, hmoves ▸ heq ▸ List.mem_of_find?_eq_some hm'⟩
      · cases h

theorem add?_cases (h : e.add? edge m = some e') :
    e' = e ∧ m ∈ e.movesOn edge ∨ m.dst ∉ (e.movesOn edge).map Move.dst ∧
      ∀ edge', e'.movesOn edge' = if edge' = edge then e.movesOn edge ++ [m] else e.movesOn edge' := by
  refine (add?_lookup h).imp_right fun hnew => ⟨hnew.1, fun edge' => ?_⟩
  rw [movesOn, hnew.2]
  split <;> rfl

theorem add?_adds (h : e.add? edge m = some e') :
    Adds (fun edge' m' => edge' = edge ∧ m' = m) e e' := by
  rcases add?_cases h with ⟨rfl, hm⟩ | ⟨hfresh, hmoves⟩
  · refine ⟨?_, fun hd => hd⟩
    intro edge' m'
    constructor
    · exact .inl
    · rintro (hm' | ⟨rfl, rfl⟩)
      · exact hm'
      · exact hm
  · constructor
    · intro edge' m'
      rw [hmoves]
      split
      · rename_i he
        simp [he]
      · rename_i he
        simp [he]
    · intro hd edge'
      rw [hmoves]
      split
      · rw [List.map_append, List.nodup_append]
        refine ⟨hd edge, List.nodup_singleton _, ?_⟩
        rintro dst hdst _ hmem rfl
        exact hfresh (List.mem_singleton.1 hmem ▸ hdst)
      · exact hd edge'

theorem Adds.of_iff {new new' : BlockId × BlockId → Move ValueId → Prop} (h : Adds new e e')
    (hiff : ∀ edge m, new edge m ↔ new' edge m) : Adds new' e e' :=
  ⟨fun {edge m} => h.mem_iff.trans (or_congr_right (hiff edge m)), h.distinct⟩

/-- A loop adds what its steps add. -/
theorem foldlM_adds {α : Type} {step : EdgeCopies → α → Attempt EdgeCopies} {as : List α}
    (new : α → BlockId × BlockId → Move ValueId → Prop) (h : as.foldlM step e = .ok e')
    (hstep : ∀ a ∈ as, ∀ c c', step c a = .ok c' → Adds (new a) c c') :
    Adds (fun edge m => ∃ a ∈ as, new a edge m) e e' := by
  refine foldlM_induction (fun passed c => Adds (fun edge m => ∃ a ∈ passed, new a edge m) e c)
    h ⟨by simp, fun hd => hd⟩ ?_
  rintro passed a later c c' rfl hc hc'
  have hadd := hstep a (by simp) c c' hc'
  refine ⟨fun {edge m} => ?_, fun hd => hadd.distinct (hc.distinct hd)⟩
  rw [hadd.mem_iff, hc.mem_iff]
  simp only [List.mem_append, List.mem_singleton]
  grind

/-- One operand of a φ is added: its block is a predecessor, and the move could be added. -/
theorem addIncoming_cases {dst : ValueId} {i : Incoming} (h : addIncoming g b dst e i = .ok e') :
    g.preds.Edge b i.source ∧
      e.add? (i.source, b) ⟨dst, Source.ofOperand i.operand⟩ = some e' := by
  simp only [addIncoming, bind_eq_ok, liftM_eq_ok] at h
  obtain ⟨preds, hpreds, h⟩ := h
  split at h
  · rename_i hsource
    split at h
    · rename_i hadd
      rw [pure_eq_ok] at h
      exact ⟨⟨preds, Table.get_eq_ok_iff.1 hpreds, hsource⟩, h ▸ hadd⟩
    · cases h
  · cases h

/-- The φs of a block are added: none is late. -/
theorem addBlock_cases {block : Block} (h : addBlock g e block = .ok e') :
    ¬ (∃ i ∈ block.body, i.isPhi = true) ∧ block.phis.foldlM (addPhi g block.id) e = .ok e' := by
  unfold addBlock at h
  split at h
  · cases h
  · rename_i hlate
    exact ⟨fun hphi => hlate (List.any_eq_true.2 hphi), h⟩

theorem addIncoming_adds {dst : ValueId} {i : Incoming} (h : addIncoming g b dst e i = .ok e') :
    Adds (fun edge m => edge = (i.source, b) ∧ m = ⟨dst, Source.ofOperand i.operand⟩) e e' :=
  add?_adds (addIncoming_cases h).2

theorem addBlock_adds {block : Block} (h : addBlock g e block = .ok e') :
    Adds (fun edge m => edge.2 = block.id ∧ block.Takes edge.1 m) e e' := by
  refine (foldlM_adds (fun i edge m => ∃ dst incoming, i = Instr.phi dst incoming ∧
    ∃ i ∈ incoming, edge = (i.source, block.id) ∧ m = ⟨dst, Source.ofOperand i.operand⟩)
    (addBlock_cases h).2 ?_).of_iff ?_
  · intro i _ c c' hstep
    cases i with
    | phi dst incoming =>
      refine (foldlM_adds _ hstep fun i _ c c' h => addIncoming_adds h).of_iff fun edge m => ?_
      simp
    | _ =>
      rw [addPhi, pure_eq_ok] at hstep
      · exact hstep ▸ ⟨by simp, fun hd => hd⟩
      · simp
  · rintro ⟨source, target⟩ m
    simp only [Block.Takes, Prod.mk.injEq]
    grind

/-- **The moves on an edge are those that the φs at its end ask for**, and no value is written twice. -/
theorem ofFunc_adds (hd : g.Describes f) (h : ofFunc f g = .ok e) :
    e.Distinct ∧ ∀ source target m, m ∈ e.movesOn (source, target) ↔
      ∃ block, f.block? target = some block ∧ block.Takes source m := by
  have hadds := foldlM_adds _ h fun block _ c c' hstep => addBlock_adds hstep
  have hempty : ∀ edge, movesOn {} edge = [] := fun _ => rfl
  refine ⟨hadds.distinct fun edge => by simp [hempty], fun source target m => ?_⟩
  rw [hadds.mem_iff, hempty]
  constructor
  · rintro (hm | ⟨block, hmem, htarget, htakes⟩)
    · cases hm
    · obtain rfl : target = block.id := htarget
      exact ⟨block, hd.block?_id hmem, htakes⟩
  · rintro ⟨block, hblock, htakes⟩
    exact .inr ⟨block, List.mem_of_getElem? hblock, (hd.id_eq hblock).symm, htakes⟩

/-! ## Refusals -/

theorem addIncoming_error {dst : ValueId} {i : Incoming} {stop : Stop}
    (h : addIncoming g b dst e i = .error stop) :
    (∃ fault, g.predecessors b = .error fault ∧ stop = .fault fault) ∨
      stop = .refused (.malformed b (.notPredecessor dst i.source)) ∨
      stop = .refused (.malformed b (.conflictingValues dst i.source)) := by
  cases hpreds : g.predecessors b with
  | error fault =>
    rw [addIncoming, hpreds] at h
    cases h
    exact .inl ⟨fault, rfl, rfl⟩
  | ok preds =>
    simp only [addIncoming, hpreds, liftM_ok, ok_bind] at h
    split at h
    · split at h
      · cases h
      · cases h
        exact .inr (.inr rfl)
    · cases h
      exact .inr (.inl rfl)

/-- Where the copies of a function cannot be collected, a φ is late, or what one of the leading φs
takes from a predecessor cannot be added. -/
theorem ofFunc_error {stop : Stop} (h : ofFunc f g = .error stop) : ∃ block ∈ f.blocks,
    (∃ i ∈ block.body, i.isPhi = true) ∧ stop = .refused (.malformed block.id .latePhi) ∨
      ∃ dst incoming, Instr.phi dst incoming ∈ block.phis ∧ ∃ i ∈ incoming, ∃ e,
        addIncoming g block.id dst e i = .error stop := by
  obtain ⟨block, hblock, e, -, h⟩ := exists_of_foldlM_eq_error (fun _ => True) h trivial
    fun _ _ _ _ _ _ => trivial
  refine ⟨block, hblock, ?_⟩
  unfold addBlock at h
  split at h
  · rename_i hlate
    cases h
    exact .inl ⟨List.any_eq_true.1 hlate, rfl⟩
  · obtain ⟨instr, hinstr, e, -, h⟩ := exists_of_foldlM_eq_error (fun _ => True) h trivial
      fun _ _ _ _ _ _ => trivial
    unfold addPhi at h
    split at h
    · rename_i dst incoming
      obtain ⟨i, hi, e, -, h⟩ := exists_of_foldlM_eq_error (fun _ => True) h trivial
        fun _ _ _ _ _ _ => trivial
      exact .inr ⟨dst, incoming, hinstr, i, hi, e, h⟩
    · cases h

/-- Copies can be collected, or the function is refused as malformed. -/
theorem ofFunc_outcome (hd : g.Describes f) :
    (∃ e, ofFunc f g = .ok e) ∨ ∃ b defect, ofFunc f g = .error (.refused (.malformed b defect)) := by
  cases h : ofFunc f g with
  | ok e => exact .inl ⟨e, rfl⟩
  | error stop =>
    refine .inr ?_
    obtain ⟨block, hblock, ⟨_, rfl⟩ | ⟨dst, incoming, _, i, _, e, hadd⟩⟩ := ofFunc_error h
    · exact ⟨_, _, rfl⟩
    · rcases addIncoming_error hadd with ⟨fault, hfault, _⟩ | rfl | rfl
      · -- the predecessors of the block are known, as there is a block
        obtain ⟨n, hn⟩ := List.mem_iff_getElem?.1 hblock
        have hlt : block.id.index < g.preds.size := by
          rw [hd.preds_size, hd.size_eq, hd.id hn]
          exact (List.getElem?_eq_some_iff.1 hn).1
        obtain ⟨preds, hpreds⟩ := Table.exists_get_eq_ok hlt
        cases hpreds.symm.trans hfault
      · exact ⟨_, _, rfl⟩
      · exact ⟨_, _, rfl⟩

/-! ## On slots -/

theorem exists_onSlots (e : EdgeCopies) (g : FlowGraph) (layout : Layout) :
    ∃ copies, e.onSlots g layout = .ok copies := by
  simp only [onSlots, bind_eq_ok, pure_eq_ok]
  rw [exists_comm]
  simp only [exists_and_left, exists_eq', and_true]
  refine exists_mapM_eq_ok fun b hb => ?_
  obtain ⟨targets, htargets⟩ := Table.exists_get_eq_ok (Table.mem_idents.1 hb)
  exact ⟨_, bind_eq_ok.2 ⟨targets, htargets, rfl⟩⟩

/-- The slot copies of a block's edges, by position. -/
theorem onSlots_cases {copies : SlotCopies} {targets : List BlockId}
    (h : e.onSlots g layout = .ok copies) (hb : g.succs.get? b = some targets) :
    copies.get? b = some (targets.map fun target =>
      ((e.get? b target).map (ParallelCopy.onSlots layout)).getD ∅) := by
  simp only [onSlots, bind_eq_ok, pure_eq_ok] at h
  obtain ⟨lists, hlists, rfl⟩ := h
  obtain ⟨edges, hedges, hstep⟩ := Table.get?_ofList_of_forall₂ (mapM_eq_ok.1 hlists)
    (Table.lt_of_get? hb)
  simp only [bind_eq_ok, pure_eq_ok, FlowGraph.successors, Table.get_eq_ok_iff] at hstep
  obtain ⟨targets', htargets', rfl⟩ := hstep
  cases hb.symm.trans htargets'
  exact hedges

/-- The moves between slots on an edge come from the moves between values. -/
theorem moves_onEdge {copies : SlotCopies} {targets : List BlockId} {position : Nat} {target : BlockId}
    (h : e.onSlots g layout = .ok copies) (hb : g.succs.get? b = some targets)
    (ht : targets[position]? = some target) :
    (copies.onEdge b position).moves =
      (e.movesOn (b, target)).filterMap (ParallelCopy.slotMove? layout) := by
  simp only [SlotCopies.onEdge, onSlots_cases h hb, Option.getD_some, List.getElem?_map, ht,
    Option.map_some, movesOn, get?]
  cases e.entries.lookup (b, target) <;> rfl

/-- What is read on an edge are slots of values. -/
theorem exists_slotOf_of_mem_uses {copies : SlotCopies} {targets : List BlockId} {position : Nat}
    {target : BlockId} {s : SlotId} (h : e.onSlots g layout = .ok copies)
    (hb : g.succs.get? b = some targets) (ht : targets[position]? = some target)
    (hs : s ∈ (copies.onEdge b position).uses) : ∃ v, layout.slotOf v = some s := by
  rw [ParallelCopy.uses, moves_onEdge h hb ht] at hs
  exact ParallelCopy.exists_slotOf_of_mem (c := ⟨e.movesOn (b, target)⟩) (.inl hs)

/-- Without shared slots, no slot is written twice on an edge. -/
theorem nodup_defs_onEdge {copies : SlotCopies} {targets : List BlockId} {position : Nat}
    {target : BlockId} (hinj : layout.Injective) (hdistinct : e.Distinct)
    (h : e.onSlots g layout = .ok copies) (hb : g.succs.get? b = some targets)
    (ht : targets[position]? = some target) : (copies.onEdge b position).defs.Nodup := by
  have hsep : layout.Separates (ParallelCopy.mk (e.movesOn (b, target))).defs :=
    fun _ _ _ _ _ hv hw => hinj hv hw
  rw [ParallelCopy.defs, moves_onEdge h hb ht]
  exact ParallelCopy.nodup_defs_onSlots (hdistinct (b, target)) hsep

end EdgeCopies

end FlowTree
