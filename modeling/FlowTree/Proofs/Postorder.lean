import FlowTree.Proofs.Reducibility

/-!
# Postorder

The postorder of a graph is the order in which a depth-first search from the entry finishes the
blocks.  It lists exactly the blocks that control can reach, the entry last, and an edge leads from a
later block to an earlier one unless it is part of a cycle.

The order is the list that the theory of retreating edges speaks of, backwards: there the block
finished last comes first, and `Before` compares final segments.  Here places are counted from the
front, and `Before.iff_idxOf_lt` is the bridge.

Where loop analysis has a result, the postorder shows the loops as well: the edges that do not lead to
an earlier block are those from inside a loop to its header.  Nothing about the order in which the
search looked at successors is needed for that, since any search finds the same such edges.

## Main statements

* `Walk.Traces.postorder_of_root` — a root is finished after everything that is met from it.
* `FlowGraph.postorder_searchOrder` — backwards, the postorder is the order of a search.
* `FlowGraph.SearchOrder.idxOf_lt` — an edge leads to an earlier block unless it closes a cycle.
* `FlowGraph.postorder_finishes` — what the postorder lists, and in which order.
* `FlowGraph.SearchOrder.not_before_iff` — in any search, the edges that do not advance close loops.
* `LoopForest.postorder_retreats_iff` — so it is in the postorder.
-/

namespace FlowTree

open Relation

/-- Of the identifiers that were finished, those before `j` are those with a smaller place in the
order of finishing. -/
theorem Before.iff_idxOf_lt {k : Kind} {finished : List (Ident k)} {i j : Ident k}
    (hn : finished.Nodup) (hj : j ∈ finished) :
    Before finished i j ↔ finished.reverse.idxOf i < finished.reverse.idxOf j := by
  obtain ⟨later, earlier, rfl⟩ := List.append_of_mem hj
  have hnot : j ∉ earlier :=
    (List.nodup_cons.1 (hn.sublist (List.sublist_append_right later _))).1
  rw [Before.iff_mem hn (List.suffix_append _ _)]
  simp only [List.reverse_append, List.reverse_cons, List.append_assoc, List.idxOf_append,
    List.mem_reverse, hnot, if_false, List.length_reverse]
  by_cases hi : i ∈ earlier
  · have hlt := List.idxOf_lt_length_of_mem (List.mem_reverse.2 hi)
    rw [List.length_reverse] at hlt
    simp only [hi, if_true, true_iff]
    omega
  · simp [hi]

/-- A search from one root finishes the root last. -/
theorem Walk.Traces.postorder_of_root {k : Kind} {graph : Adjacency k} {i : Ident k} {w : Walk k}
    (h : Walk.Traces graph [] [] [i] w) : ∃ earlier, w.postorder = earlier ++ [i] := by
  cases h with
  | @descend _ _ _ _ _ inner rest _ _ _ _ hrest =>
    cases hrest
    exact ⟨inner.postorder, by simp⟩
  | back hi => cases hi
  | seen hi => cases hi

namespace FlowGraph

variable {g : FlowGraph} {order : List BlockId} {u v : BlockId}

theorem postorder_searchOrder (h : g.postorder = .ok order) : g.SearchOrder order.reverse := by
  simp only [postorder, bind_eq_ok, pure_eq_ok] at h
  obtain ⟨w, hw, rfl⟩ := h
  rw [Walk.postorder, List.reverse_reverse]
  exact walk_searchOrder hw

/-- **An edge leads to a block that is finished earlier, unless it closes a cycle.** -/
theorem SearchOrder.idxOf_lt (ho : g.SearchOrder order) (hu : g.Reachable u) (huv : g.Edge u v)
    (hback : ¬ ReflTransGen g.Edge v u) : order.reverse.idxOf v < order.reverse.idxOf u := by
  have hmem := (ho.mem_iff u).2 hu
  rw [← Before.iff_idxOf_lt ho.nodup hmem]
  by_contra hnot
  exact hback (ReflTransGen.mono (fun _ _ hxy => hxy.1) _ _ (ho.returns hmem huv hnot))

/-- **The postorder is the finishing order of a depth-first search of exactly the reachable
blocks.**  There is one for every graph.  Each block that control can reach stands in it once, and no
other block; the entry is last; and the target of an edge comes before its source, unless control can
get back from the target to the source.  So without cycles it is a topological order backwards. -/
theorem postorder_finishes {f : Func} (hf : ofFunc f = .ok g) :
    ∃ order, g.postorder = .ok order ∧
      (∃ w, Walk.Traces g.succs [] [] [BlockId.entry] w ∧ order = w.postorder) ∧
      order.Nodup ∧ (∀ b, b ∈ order ↔ g.Reachable b) ∧
      order.getLast? = some BlockId.entry ∧
      (∀ u v, g.Reachable u → g.Edge u v →
        order.idxOf v < order.idxOf u ∨ ReflTransGen g.Edge v u) ∧
      ((∀ b, g.Reachable b → ¬ TransGen g.Edge b b) →
        ∀ u v, g.Reachable u → g.Edge u v → order.idxOf v < order.idxOf u) := by
  obtain ⟨w, hw⟩ := (ofFunc_describes hf).toShaped.exists_walk
  have hpost : g.postorder = .ok w.postorder := by rw [postorder, hw]; rfl
  have ho := postorder_searchOrder hpost
  have htraces : Walk.Traces g.succs [] [] [BlockId.entry] w := Walk.ofRoots_traces hw
  have hedge : ∀ u v, g.Reachable u → g.Edge u v →
      w.postorder.idxOf v < w.postorder.idxOf u ∨ ReflTransGen g.Edge v u := by
    intro u v hu huv
    by_cases hback : ReflTransGen g.Edge v u
    · exact .inr hback
    · exact .inl (by simpa using ho.idxOf_lt hu huv hback)
  refine ⟨w.postorder, hpost, ⟨w, htraces, rfl⟩, List.nodup_reverse.1 ho.nodup, fun b => ?_, ?_,
    hedge, fun hacyclic u v hu huv => ?_⟩
  · rw [← ho.mem_iff, List.mem_reverse]
  · obtain ⟨earlier, heq⟩ := htraces.postorder_of_root
    rw [heq, List.getLast?_concat]
  · exact (hedge u v hu huv).resolve_right fun hback => hacyclic u hu (TransGen.head' huv hback)

/-- The edge of block 1 to the entry does not lead to an earlier block, so it closes a cycle; the last
two blocks are not listed. -/
theorem islands_postorder : ∃ g, ofFunc islands = .ok g ∧ g.postorder = .ok [⟨2⟩, ⟨1⟩, ⟨0⟩] ∧
    g.Reachable ⟨1⟩ ∧ ¬ g.Reachable ⟨4⟩ ∧ g.Edge ⟨1⟩ ⟨0⟩ ∧ ReflTransGen g.Edge ⟨0⟩ ⟨1⟩ := by
  have hrun : ((ofFunc islands).map fun g => (g.postorder, g.successors ⟨1⟩)) =
      .ok (.ok [⟨2⟩, ⟨1⟩, ⟨0⟩], .ok [⟨0⟩, ⟨2⟩]) := by decide +kernel
  cases hg : ofFunc islands with
  | error stop => rw [hg] at hrun; cases hrun
  | ok g =>
    obtain ⟨order, horder, _, _, hmem, _, hedge, _⟩ := postorder_finishes hg
    rw [hg] at hrun
    obtain ⟨hpost, hsucc⟩ := Prod.mk.inj (Except.ok.inj hrun)
    cases horder.symm.trans hpost
    have h10 : g.Edge ⟨1⟩ ⟨0⟩ := ⟨_, Table.get_eq_ok_iff.1 hsucc, by decide⟩
    have h1 : g.Reachable ⟨1⟩ := (hmem _).1 (by decide)
    exact ⟨g, rfl, hpost, h1, fun h4 => absurd ((hmem _).2 h4) (by decide), h10,
      (hedge _ _ h1 h10).resolve_left (by decide)⟩

/-! ## Loops in the postorder -/

/-- Where there is a forest, the edges that do not advance are those from inside a loop to its header,
whichever search the order comes from. -/
theorem SearchOrder.not_before_iff {limit : Option Nat} {forest : LoopForest}
    (ho : g.SearchOrder order) (h : LoopForest.ofGraph g limit = .ok forest) (hu : g.Reachable u)
    (huv : g.Edge u v) :
    ¬ Before order v u ↔ ∃ L ∈ forest.loops.toList, L.header = v ∧ L.contains u = true := by
  have hdom := ho.reducible_iff.1 (LoopForest.reducible_of_ofGraph h)
  rw [← (LoopForest.ofGraph_natural h).backEdge_iff hu huv, ← ho.retreats_iff_backEdge hdom]
  constructor
  · intro hnot
    exact ⟨huv, (ho.mem_iff u).2 hu, hnot⟩
  · intro hretreats
    exact hretreats.not_before

end FlowGraph

namespace LoopForest

variable {g : FlowGraph} {limit : Option Nat} {forest : LoopForest}

/-- **The edges that the postorder runs against are the back edges of the loops.**  Where there is a
forest there is a postorder, which lists both ends of every edge that control gets to; and the target
does not come before the source exactly if it is the header of a loop that has the source. -/
theorem postorder_retreats_iff (h : ofGraph g limit = .ok forest) :
    ∃ order, g.postorder = .ok order ∧ order.Nodup ∧
      ∀ u v, g.Reachable u → g.Edge u v → u ∈ order ∧ v ∈ order ∧
        (order.idxOf u ≤ order.idxOf v ↔
          ∃ L ∈ forest.loops.toList, L.header = v ∧ L.contains u = true) := by
  obtain ⟨w, _, _, _, hw, _⟩ := ofGraph_cases h
  have hpost : g.postorder = .ok w.postorder := bind_eq_ok.2 ⟨w, hw, rfl⟩
  have ho := FlowGraph.postorder_searchOrder hpost
  refine ⟨w.postorder, hpost, List.nodup_reverse.1 ho.nodup, fun u v hu huv => ?_⟩
  have hmem : ∀ {b}, g.Reachable b → b ∈ w.postorder :=
    fun hb => List.mem_reverse.1 ((ho.mem_iff _).2 hb)
  refine ⟨hmem hu, hmem (hu.step huv), ?_⟩
  rw [← ho.not_before_iff h hu huv, Before.iff_idxOf_lt ho.nodup ((ho.mem_iff u).2 hu),
    List.reverse_reverse, Nat.not_lt]

/-- The edge from block 3 leads back to block 1, and the one from block 2 to block 2 itself; the edge
from block 2 to block 3 leads to an earlier block, although a loop has both. -/
theorem nestedExample_postorder : ∃ forest, ofGraph nestedExample none = .ok forest ∧
    nestedExample.postorder = .ok [⟨4⟩, ⟨3⟩, ⟨2⟩, ⟨1⟩, ⟨0⟩] ∧
    (∃ L ∈ forest.loops.toList, L.header = ⟨1⟩ ∧ L.contains ⟨3⟩ = true) ∧
    (∃ L ∈ forest.loops.toList, L.header = ⟨2⟩ ∧ L.contains ⟨2⟩ = true) ∧
    ¬ ∃ L ∈ forest.loops.toList, L.header = ⟨3⟩ ∧ L.contains ⟨2⟩ = true := by
  have hrun : ((ofGraph nestedExample none).isOk, nestedExample.postorder) =
      (true, .ok [⟨4⟩, ⟨3⟩, ⟨2⟩, ⟨1⟩, ⟨0⟩]) := by decide +kernel
  obtain ⟨hok, hpost⟩ := Prod.mk.inj hrun
  cases hf : ofGraph nestedExample none with
  | error stop => rw [hf] at hok; cases hok
  | ok forest =>
    obtain ⟨order, horder, _, hedges⟩ := postorder_retreats_iff hf
    cases horder.symm.trans hpost
    have h01 : nestedExample.Edge ⟨0⟩ ⟨1⟩ := ⟨_, rfl, by decide⟩
    have h12 : nestedExample.Edge ⟨1⟩ ⟨2⟩ := ⟨_, rfl, by decide⟩
    have h22 : nestedExample.Edge ⟨2⟩ ⟨2⟩ := ⟨_, rfl, by decide⟩
    have h23 : nestedExample.Edge ⟨2⟩ ⟨3⟩ := ⟨_, rfl, by decide⟩
    have h31 : nestedExample.Edge ⟨3⟩ ⟨1⟩ := ⟨_, rfl, by decide⟩
    have h2 : nestedExample.Reachable ⟨2⟩ := (nestedExample.reachable_entry.step h01).step h12
    refine ⟨forest, rfl, hpost, ?_, ?_, ?_⟩
    · exact (hedges _ _ (h2.step h23) h31).2.2.1 (by decide)
    · exact (hedges _ _ h2 h22).2.2.1 (by decide)
    · exact mt (hedges _ _ h2 h23).2.2.2 (by decide)

end LoopForest

end FlowTree
