import FlowTree.Proofs.GraphShape

/-!
# Which functions have a graph

A function has a flow graph exactly if there is a block, the blocks stand where their names say and
control only goes to blocks.  In the graph, predecessors mirror successors.

Predecessor lists are filled while the blocks are read.  A block is noted at the end of a list, and
only if it is not there yet; all that were noted before it stand further to the front of the
function, so the lists ascend.  They do so at every moment, whatever is wrong with the blocks to
come.

## Main statements

* `FlowGraph.addBlock_ascending`, `FlowGraph.ofFunc_ascending` — one block, and all of them.
* `FlowGraph.exists_ofFunc_iff` — the functions that have a graph.
* `FlowGraph.ofFunc_adjacency` — these functions, and what their graphs say.
-/

namespace FlowTree

/-- There is a block to start with, the blocks stand where their names say, and control only goes to
blocks. -/
structure Func.Linked (f : Func) : Prop where
  nonempty : f.blocks ≠ []
  placed : ∀ {n} {block : Block}, f.blocks[n]? = some block → block.id.index = n
  closed : ∀ block ∈ f.blocks, ∀ t ∈ block.terminator.successors, t.index < f.blocks.length

namespace FlowGraph

variable {f : Func} {g : FlowGraph} {a b : BlockId} {preds preds' : Adjacency .block} {n : Nat}

/-! ## The order of predecessors -/

/-- After the first `n` blocks were read, every list of predecessors ascends and names only them. -/
def Ascending (preds : Adjacency .block) (n : Nat) : Prop :=
  ∀ ⦃b ps⦄, preds.get? b = some ps →
    (ps.Pairwise fun p q => p.index < q.index) ∧ ∀ p ∈ ps, p.index < n

theorem Ascending.mono {m : Nat} (h : Ascending preds m) (hmn : m ≤ n) : Ascending preds n := by
  intro b ps hps
  obtain ⟨hpair, hlt⟩ := h hps
  exact ⟨hpair, fun p hp => Nat.lt_of_lt_of_le (hlt p hp) hmn⟩

/-- Noting an edge of the block that is being read. -/
theorem addEdge_ascending (h : addEdge preds a b = .ok preds')
    (hp : Ascending preds (a.index + 1)) : Ascending preds' (a.index + 1) := by
  simp only [addEdge, bind_eq_ok, Table.get_eq_ok_iff] at h
  obtain ⟨known, hknown, h⟩ := h
  split at h
  · rw [pure_eq_ok] at h
    rwa [← h]
  · rename_i hnew
    obtain ⟨hpair, hlt⟩ := hp hknown
    -- whatever is in the list is an earlier block, since the block itself is not
    have hearlier : ∀ p ∈ known, p.index < a.index := by
      intro p hmem
      have hne : p.index ≠ a.index := fun he => hnew (Ident.ext he ▸ hmem)
      have := hlt p hmem
      omega
    intro c ps hps
    rw [Table.get?_of_set h] at hps
    split at hps
    · cases hps
      refine ⟨List.pairwise_append.2 ⟨hpair, List.pairwise_singleton _ _, ?_⟩, ?_⟩
      · simpa using hearlier
      · intro p hmem
        rcases List.mem_append.1 hmem with hmem | hmem
        · exact hlt p hmem
        · rw [List.mem_singleton.1 hmem]
          exact Nat.lt_succ_self _
    · exact hp hps

/-- Reading a block keeps the lists in order. -/
theorem addBlock_ascending {count : Nat} {block : Block}
    (h : addBlock count preds (block, n) = .ok preds') (hp : Ascending preds n) :
    Ascending preds' (n + 1) := by
  obtain ⟨rfl, -⟩ := addBlock_cases h
  simp only [addBlock, if_true] at h
  refine foldlM_induction (fun _ c => Ascending c (block.id.index + 1)) h
    (hp.mono (Nat.le_succ _)) ?_
  intro passed t later c c' _ hc hstep
  unfold addTarget at hstep
  split at hstep
  · exact addEdge_ascending (liftM_eq_ok.1 hstep) hc
  · cases hstep

theorem ofFunc_ascending (h : ofFunc f = .ok g) : Ascending g.preds g.size := by
  rw [(ofFunc_describes h).size_eq]
  simp only [ofFunc] at h
  split at h
  · cases h
  simp only [bind_eq_ok, pure_eq_ok] at h
  obtain ⟨preds, hpreds, rfl⟩ := h
  have key : Ascending preds f.blocks.zipIdx.length := by
    refine foldlM_induction (fun passed c => Ascending c passed.length) hpreds ?_ ?_
    · intro b ps hps
      rw [Table.get?_replicate hps]
      simp
    · rintro passed ⟨block, n⟩ later c c' hsplit hc hstep
      have hn : f.blocks.zipIdx[passed.length]? = some (block, n) := by simp [hsplit]
      obtain rfl : n = passed.length := by
        rw [List.getElem?_zipIdx, Option.map_eq_some_iff] at hn
        obtain ⟨_, _, heq⟩ := hn
        simpa [eq_comm] using congrArg Prod.snd heq
      simpa using addBlock_ascending hstep hc
  simpa using key

/-! ## The functions that have a graph -/

theorem Describes.linked (hd : g.Describes f) : f.Linked where
  nonempty := List.ne_nil_of_length_pos (hd.size_eq ▸ hd.nonempty)
  placed := hd.id
  closed block hblock t ht := by
    have hsucc := hd.successors_iff.2 ⟨block, hd.block?_id hblock, rfl⟩
    exact hd.size_eq ▸ hd.closed block.id t ⟨_, hsucc, ht⟩

/-- A function without a graph is refused as malformed. -/
theorem ofFunc_of_not_linked (h : ¬ f.Linked) :
    ∃ b defect, ofFunc f = .error (.refused (.malformed b defect)) := by
  cases hf : ofFunc f with
  | ok g => exact absurd (ofFunc_describes hf).linked h
  | error stop =>
    rcases ofFunc_error hf with ⟨_, rfl⟩ | ⟨n, block, _, ⟨_, rfl⟩ | ⟨t, _, _, rfl⟩⟩ <;>
      exact ⟨_, _, rfl⟩

theorem exists_ofFunc_iff : (∃ g, ofFunc f = .ok g) ↔ f.Linked := by
  constructor
  · rintro ⟨g, hg⟩
    exact (ofFunc_describes hg).linked
  · intro hl
    cases hf : ofFunc f with
    | ok g => exact ⟨g, rfl⟩
    | error stop =>
      rcases ofFunc_error hf with ⟨hnil, _⟩ | ⟨n, block, hn, ⟨hid, _⟩ | ⟨t, ht, hge, _⟩⟩
      · exact absurd hnil hl.nonempty
      · exact absurd (hl.placed hn) hid
      · exact absurd (hl.closed block (List.mem_of_getElem? hn) t ht) (Nat.not_lt.2 hge)

/-- **A graph is built for exactly the functions whose blocks are in place and linked, and its
predecessors mirror its successors.**  Any other function is refused as malformed.  The successors of
a block are those of its terminator, position by position; its predecessors ascend strictly, so they
are distinct; and `p` is a predecessor of `s` exactly if `s` is a successor of `p`. -/
theorem ofFunc_adjacency (f : Func) :
    ((∃ g, ofFunc f = .ok g) ↔ f.Linked) ∧
    (¬ f.Linked → ∃ b defect, ofFunc f = .error (.refused (.malformed b defect))) ∧
    ∀ g, ofFunc f = .ok g →
      g.size = f.blocks.length ∧
      (∀ b block, f.block? b = some block → g.successors b = .ok block.terminator.successors) ∧
      (∀ b, b.index < g.size → ∃ ps, g.predecessors b = .ok ps ∧
        ps.Pairwise fun p q => p.index < q.index) ∧
      ∀ p s, (∃ ps, g.predecessors s = .ok ps ∧ p ∈ ps) ↔
        ∃ ss, g.successors p = .ok ss ∧ s ∈ ss := by
  refine ⟨exists_ofFunc_iff, ofFunc_of_not_linked, fun g hg => ?_⟩
  have hd := ofFunc_describes hg
  refine ⟨hd.size_eq, fun b block hb => ?_, fun b hb => ?_, fun p s => ?_⟩
  · exact Table.get_eq_ok_iff.2 (hd.successors_iff.2 ⟨block, hb, rfl⟩)
  · obtain ⟨ps, hps⟩ := Table.exists_get_eq_ok (hd.preds_size ▸ hb)
    exact ⟨ps, hps, (ofFunc_ascending hg (Table.get_eq_ok_iff.1 hps)).1⟩
  · simp only [predecessors, successors, Table.get_eq_ok_iff]
    exact hd.preds_iff p s

/-- Blocks that lead to themselves, to one block several times, and to blocks before and behind
them, in terminators of all kinds that lead anywhere. -/
def joins (last : BlockId) : Func where
  name := "joins"
  params := []
  valueCount := 0
  blocks := [
    { id := ⟨0⟩, instrs := [],
      terminator := .switch (.const .null) [(1, ⟨2⟩), (2, ⟨0⟩), (3, ⟨2⟩)] ⟨3⟩ },
    { id := ⟨1⟩, instrs := [], terminator := .invoke none "get" [] ⟨1⟩ ⟨2⟩ },
    { id := ⟨2⟩, instrs := [], terminator := .condBr (.const .null) ⟨1⟩ ⟨1⟩ },
    { id := ⟨3⟩, instrs := [], terminator := .indirectBr (.const .null) [⟨2⟩, ⟨0⟩, ⟨2⟩] },
    { id := ⟨4⟩, instrs := [], terminator := .br last }]

theorem joins_adjacency : (joins ⟨2⟩).Linked ∧ ¬ (joins ⟨5⟩).Linked ∧
    ∃ g, ofFunc (joins ⟨2⟩) = .ok g ∧ g.successors ⟨0⟩ = .ok [⟨2⟩, ⟨0⟩, ⟨2⟩, ⟨3⟩] ∧
      g.predecessors ⟨2⟩ = .ok [⟨0⟩, ⟨1⟩, ⟨3⟩, ⟨4⟩] ∧
      ∀ p, p ∈ [⟨0⟩, ⟨1⟩, ⟨3⟩, ⟨4⟩] ↔ ∃ ss, g.successors p = .ok ss ∧ ⟨2⟩ ∈ ss := by
  have hlinked : (joins ⟨2⟩).Linked := by
    have hplaced : ∀ p ∈ (joins ⟨2⟩).blocks.zipIdx, p.1.id.index = p.2 := by decide
    exact ⟨by decide, fun hn => hplaced _ (List.mk_mem_zipIdx_iff_getElem?.2 hn), by decide⟩
  have hrefused : (ofFunc (joins ⟨5⟩)).isOk = false := by decide +kernel
  have hpreds : ((ofFunc (joins ⟨2⟩)).map fun g => g.predecessors ⟨2⟩) =
      .ok (.ok [⟨0⟩, ⟨1⟩, ⟨3⟩, ⟨4⟩]) := by decide +kernel
  obtain ⟨hiff, _, hgraph⟩ := ofFunc_adjacency (joins ⟨2⟩)
  obtain ⟨g, hg⟩ := hiff.2 hlinked
  obtain ⟨_, hsuccs, _, hmirror⟩ := hgraph g hg
  rw [hg] at hpreds
  have hpreds : g.predecessors ⟨2⟩ = .ok [⟨0⟩, ⟨1⟩, ⟨3⟩, ⟨4⟩] := Except.ok.inj hpreds
  refine ⟨hlinked, fun hl => ?_, g, hg, hsuccs ⟨0⟩ _ rfl, hpreds, fun p => ?_⟩
  · obtain ⟨g', hg'⟩ := (ofFunc_adjacency (joins ⟨5⟩)).1.2 hl
    rw [hg'] at hrefused
    cases hrefused
  · rw [← hmirror p ⟨2⟩, hpreds]
    simp

end FlowGraph

end FlowTree
