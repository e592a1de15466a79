import FlowTree.Proofs.Dominance
import FlowTree.Proofs.Tables
import Mathlib.Data.List.Nodup

/-!
# The shape of flow graphs

What the graph of a function is, read off the function: its successors are those of the terminators,
blocks stand where their names say, and no edge leads outside.
-/

namespace FlowTree.FlowGraph

open Relation

variable {f : Func} {g : FlowGraph} {a b : BlockId}

/-- A graph with an entry, in which edges lead to blocks and every block has predecessors, if only
none. -/
structure Shaped (g : FlowGraph) : Prop where
  closed : Walk.Closed g.succs
  preds_size : g.preds.size = g.size
  nonempty : 0 < g.size

/-- The graph has the edges of the function, forwards and backwards, and the blocks stand where their
names say. -/
structure Describes (g : FlowGraph) (f : Func) : Prop extends Shaped g where
  succs : g.succs = Table.ofList (f.blocks.map fun b => b.terminator.successors)
  id : ∀ {n} {b : Block}, f.blocks[n]? = some b → b.id.index = n
  preds_iff : ∀ a b, g.preds.Edge b a ↔ g.Edge a b

/-- Noting an edge adds it to the predecessors and changes nothing else. -/
theorem addEdge_cases {preds preds' : Adjacency .block} (h : addEdge preds a b = .ok preds') :
    preds'.size = preds.size ∧ ∀ i j, preds'.Edge i j ↔ preds.Edge i j ∨ i = b ∧ j = a := by
  simp only [addEdge, bind_eq_ok, Table.get_eq_ok_iff] at h
  obtain ⟨known, hknown, h⟩ := h
  split at h
  · rename_i hmem
    rw [pure_eq_ok] at h
    subst h
    refine ⟨rfl, fun i j => ⟨.inl, ?_⟩⟩
    rintro (hij | ⟨rfl, rfl⟩)
    · exact hij
    · exact ⟨known, hknown, hmem⟩
  · refine ⟨Table.size_of_set h, fun i j => ?_⟩
    simp only [Adjacency.Edge, Table.get?_of_set h]
    by_cases hi : b = i
    · subst hi
      simp [hknown]
    · simp [hi, Ne.symm hi]

/-- A block whose place and successors are in order keeps the number of blocks, and is noted as a
predecessor of its successors. -/
theorem addBlock_cases {count : Nat} {preds preds' : Adjacency .block} {block : Block} {n : Nat}
    (h : addBlock count preds (block, n) = .ok preds') :
    block.id.index = n ∧ (∀ t ∈ block.terminator.successors, t.index < count) ∧
      preds'.size = preds.size ∧
      ∀ i j, preds'.Edge i j ↔ preds.Edge i j ∨ i ∈ block.terminator.successors ∧ j = block.id := by
  simp only [addBlock] at h
  split at h
  · rename_i hid
    refine ⟨hid, ?_⟩
    refine foldlM_induction (fun passed c => (∀ t ∈ passed, t.index < count) ∧
      c.size = preds.size ∧ ∀ i j, c.Edge i j ↔ preds.Edge i j ∨ i ∈ passed ∧ j = block.id) h
      ⟨by simp, rfl, by simp⟩ ?_
    rintro passed t later c c' - ⟨hlt, hsize, hedges⟩ hstep
    unfold addTarget at hstep
    split at hstep
    · rename_i ht
      obtain ⟨hsize', hedges'⟩ := addEdge_cases (liftM_eq_ok.1 hstep)
      refine ⟨?_, hsize'.trans hsize, fun i j => ?_⟩
      · simpa [or_imp, forall_and] using ⟨hlt, ht⟩
      · rw [hedges', hedges, List.mem_append, List.mem_singleton, or_and_right, or_assoc]
    · cases hstep
  · cases h

theorem ofFunc_describes (h : ofFunc f = .ok g) : g.Describes f := by
  simp only [ofFunc] at h
  split at h
  · cases h
  rename_i hcount
  simp only [bind_eq_ok, pure_eq_ok] at h
  obtain ⟨preds, hpreds, rfl⟩ := h
  have hall : (∀ p ∈ f.blocks.zipIdx, p.1.id.index = p.2 ∧
      ∀ t ∈ p.1.terminator.successors, t.index < f.blocks.length) ∧
      preds.size = f.blocks.length ∧ ∀ i j, preds.Edge i j ↔
        ∃ p ∈ f.blocks.zipIdx, i ∈ p.1.terminator.successors ∧ j = p.1.id := by
    refine foldlM_induction (fun passed c => (∀ p ∈ passed, p.1.id.index = p.2 ∧
      ∀ t ∈ p.1.terminator.successors, t.index < f.blocks.length) ∧
      c.size = f.blocks.length ∧ ∀ i j, c.Edge i j ↔
        ∃ p ∈ passed, i ∈ p.1.terminator.successors ∧ j = p.1.id) hpreds
      ⟨by simp, Table.size_replicate _ _, ?_⟩ ?_
    · intro i j
      simp only [List.not_mem_nil, false_and, exists_false, iff_false]
      rintro ⟨js, hjs, hj⟩
      rw [Table.get?_replicate hjs] at hj
      cases hj
    · rintro passed ⟨block, n⟩ later c c' - ⟨hpassed, hsize, hedges⟩ hstep
      obtain ⟨hid, htargets, hsize', hedges'⟩ := addBlock_cases hstep
      refine ⟨?_, hsize'.trans hsize, fun i j => ?_⟩
      · intro p hp
        rcases List.mem_append.1 hp with hp | hp
        · exact hpassed p hp
        · cases List.mem_singleton.1 hp
          exact ⟨hid, htargets⟩
      · simp [hedges', hedges, or_and_right, exists_or]
  obtain ⟨hblocks, hsize, hedges⟩ := hall
  have hid : ∀ {n} {b : Block}, f.blocks[n]? = some b → b.id.index = n :=
    fun hblock => (hblocks _ (List.mk_mem_zipIdx_iff_getElem?.2 hblock)).1
  have hsuccs : ∀ {i j : BlockId},
      Adjacency.Edge (Table.ofList (f.blocks.map fun b => b.terminator.successors)) i j ↔
        ∃ block : Block, f.blocks[i.index]? = some block ∧ j ∈ block.terminator.successors := by
    intro i j
    simp [Adjacency.Edge]
  refine ⟨⟨?_, ?_, ?_⟩, rfl, hid, fun i j => ?_⟩
  · intro i j hij
    obtain ⟨block, hblock, hj⟩ := hsuccs.1 hij
    simpa using (hblocks _ (List.mk_mem_zipIdx_iff_getElem?.2 hblock)).2 j hj
  · simpa [size] using hsize
  · simpa [size] using Nat.pos_of_ne_zero hcount
  · rw [hedges]
    refine Iff.trans ?_ hsuccs.symm
    constructor
    · rintro ⟨⟨block, n⟩, hmem, hj, rfl⟩
      have hblock := List.mk_mem_zipIdx_iff_getElem?.1 hmem
      exact ⟨block, hid hblock ▸ hblock, hj⟩
    · rintro ⟨block, hblock, hj⟩
      exact ⟨(block, i.index), List.mk_mem_zipIdx_iff_getElem?.2 hblock, hj, Ident.ext (hid hblock).symm⟩

/-! ## Functions without a graph -/

theorem exists_addEdge {preds : Adjacency .block} (hb : b.index < preds.size) :
    ∃ preds', addEdge preds a b = .ok preds' := by
  obtain ⟨known, hknown⟩ := Table.exists_get_eq_ok hb
  by_cases hmem : a ∈ known
  · exact ⟨preds, by simp [addEdge, hknown, hmem]⟩
  · obtain ⟨preds', h⟩ := Table.exists_set_eq_ok (known ++ [a]) hb
    exact ⟨preds', by simp [addEdge, hknown, hmem, h]⟩

/-- With a table that is wide enough, a block is to blame itself: for its place, or for a successor
that is not there. -/
theorem addBlock_error {count : Nat} {preds : Adjacency .block} {block : Block} {n : Nat}
    {stop : Stop} (hsize : preds.size = count) (h : addBlock count preds (block, n) = .error stop) :
    block.id.index ≠ n ∧ stop = .refused (.malformed block.id (.misplaced n)) ∨
      ∃ t ∈ block.terminator.successors, count ≤ t.index ∧
        stop = .refused (.malformed block.id (.noSuchSuccessor t)) := by
  simp only [addBlock] at h
  split at h
  · have hkeep : ∀ t ∈ block.terminator.successors, ∀ c c', c.size = count →
        addTarget count block.id c t = .ok c' → c'.size = count := by
      intro t _ c c' hc hstep
      unfold addTarget at hstep
      split at hstep
      · exact (addEdge_cases (liftM_eq_ok.1 hstep)).1.trans hc
      · cases hstep
    obtain ⟨t, ht, c, hc, hfail⟩ :=
      exists_of_foldlM_eq_error (fun c => c.size = count) h hsize hkeep
    refine .inr ⟨t, ht, ?_⟩
    unfold addTarget at hfail
    split at hfail
    · rename_i hlt
      obtain ⟨c', hc'⟩ := exists_addEdge (a := block.id) (hc ▸ hlt)
      rw [hc'] at hfail
      cases hfail
    · rename_i hge
      cases hfail
      exact ⟨Nat.le_of_not_lt hge, rfl⟩
  · rename_i hid
    cases h
    exact .inl ⟨hid, rfl⟩

theorem ofFunc_error {stop : Stop} (h : ofFunc f = .error stop) :
    f.blocks = [] ∧ stop = .refused (.malformed BlockId.entry .noBlocks) ∨
      ∃ n block, f.blocks[n]? = some block ∧
        (block.id.index ≠ n ∧ stop = .refused (.malformed block.id (.misplaced n)) ∨
          ∃ t ∈ block.terminator.successors, f.blocks.length ≤ t.index ∧
            stop = .refused (.malformed block.id (.noSuchSuccessor t))) := by
  simp only [ofFunc] at h
  split at h
  · rename_i hcount
    cases h
    exact .inl ⟨List.eq_nil_of_length_eq_zero hcount, rfl⟩
  right
  cases hpreds : f.blocks.zipIdx.foldlM (addBlock f.blocks.length)
      (Table.replicate f.blocks.length []) with
  | ok preds =>
    rw [hpreds] at h
    cases h
  | error e =>
    rw [hpreds] at h
    cases h
    obtain ⟨⟨block, n⟩, hmem, c, hc, hfail⟩ := exists_of_foldlM_eq_error
      (fun c => c.size = f.blocks.length) hpreds (Table.size_replicate _ _)
      fun p _ c c' hc hstep => (addBlock_cases hstep).2.2.1.trans hc
    exact ⟨n, block, List.mk_mem_zipIdx_iff_getElem?.1 hmem, addBlock_error hc hfail⟩

namespace Describes

theorem size_eq (hd : g.Describes f) : g.size = f.blocks.length := by
  rw [size, hd.succs, Table.size_ofList, List.length_map]

/-- The successors of a block are those of its terminator. -/
theorem successors_iff (hd : g.Describes f) {targets : List BlockId} :
    g.succs.get? b = some targets ↔
      ∃ block, f.block? b = some block ∧ block.terminator.successors = targets := by
  rw [hd.succs, Table.get?_ofList, List.getElem?_map, Option.map_eq_some_iff]
  rfl

theorem id_eq (hd : g.Describes f) {block : Block} (hb : f.block? b = some block) :
    block.id = b :=
  Ident.ext (hd.id hb)

theorem block?_id (hd : g.Describes f) {block : Block} (hb : block ∈ f.blocks) :
    f.block? block.id = some block := by
  obtain ⟨n, hn⟩ := List.mem_iff_getElem?.1 hb
  rw [Func.block?, hd.id hn, hn]

theorem nodup_ids (hd : g.Describes f) : (f.blocks.map Block.id).Nodup := by
  rw [List.Nodup, List.pairwise_map, List.pairwise_iff_getElem]
  intro m n hm hn hlt he
  have hm' := hd.id (List.getElem?_eq_getElem hm)
  have hn' := hd.id (List.getElem?_eq_getElem hn)
  rw [he] at hm'
  omega

/-- Of a loop over all blocks, what is said for one name is what the block of that name says. -/
theorem flatMap_blocks (hd : g.Describes f) {α : Type} (said : Block → List α) (b : BlockId) :
    (f.blocks.flatMap fun block => if b = block.id then said block else []) =
      ((f.block? b).map said).getD [] := by
  cases hb : f.block? b with
  | none =>
    refine List.flatMap_eq_nil_iff.2 fun block hblock => if_neg ?_
    rintro rfl
    cases hb.symm.trans (hd.block?_id hblock)
  | some block =>
    -- the name stands nowhere before and nowhere behind
    obtain rfl := hd.id_eq hb
    obtain ⟨before, after, hsplit⟩ := List.append_of_mem (List.mem_of_getElem? hb)
    have hnodup := hd.nodup_ids
    rw [hsplit, List.map_append, List.map_cons, List.nodup_middle, List.nodup_cons,
      ← List.map_append] at hnodup
    have hother : ∀ other ∈ before ++ after,
        (if block.id = other.id then said other else []) = [] := by
      refine fun other hmem => if_neg fun he => hnodup.1 ?_
      rw [he]
      exact List.mem_map_of_mem hmem
    rw [hsplit, List.flatMap_append, List.flatMap_cons,
      List.flatMap_eq_nil_iff.2 fun other h => hother other (List.mem_append_left _ h),
      List.flatMap_eq_nil_iff.2 fun other h => hother other (List.mem_append_right _ h)]
    simp

end Describes

/-- Control only gets to blocks of the graph. -/
theorem Shaped.lt_of_reachable (hs : g.Shaped) (hb : g.Reachable b) : b.index < g.size := by
  rcases (reachable_iff.1 hb).cases_tail with rfl | ⟨c, _, hcb⟩
  · exact hs.nonempty
  · exact hs.closed c b hcb

end FlowTree.FlowGraph
