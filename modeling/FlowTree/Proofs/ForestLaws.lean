import FlowTree.Proofs.LoopNesting

/-!
# The laws of loop forests

A forest keeps the same nesting of loops in several places: in the sets of blocks, in the parents and
the lists of inner loops, in the order of all loops, and in the tables of headers and memberships.
They are computed apart, and they all tell of one forest (`LoopForest.Consistent`).

What relates them is that a loop lies strictly inside another exactly if the other holds its header
(`LoopForest.Natural.inside_iff`), and that it then has fewer blocks.  So the smallest loop around a
block or a loop is the one that lies inside all others around it.
-/

namespace FlowTree

open Relation

/-! ## Two loops -/

/-- `L` lies strictly inside `M`. -/
def Loop.Inside (L M : Loop) : Prop :=
  (∀ b, L.contains b = true → M.contains b = true) ∧
    ∃ b, M.contains b = true ∧ L.contains b = false

/-- The loops have no block in common. -/
def Loop.Apart (L M : Loop) : Prop := ∀ b, L.contains b = true → M.contains b = false

/-- Control never leaves the graph that was searched. -/
theorem FlowGraph.lt_of_walk {g : FlowGraph} {w : Walk .block} {b : BlockId} (hw : g.walk = .ok w)
    (hb : g.Reachable b) : b.index < g.size :=
  (Walk.ofRoots_traces hw).lt_of_mem (fun _ h => by cases h) b
    (((FlowGraph.walk_searchOrder hw).mem_iff b).2 hb)

namespace LoopForest

variable {g : FlowGraph} {limit : Option Nat} {forest : LoopForest} {L M N : Loop} {b : BlockId}

/-- `M` is the parent of `L`, or the parent of its parent, and so on. -/
def Ancestor (forest : LoopForest) : Loop → Loop → Prop :=
  TransGen fun M L => M ∈ forest.loops.toList ∧ L ∈ forest.loops.toList ∧ L.parent = some M.id

/-! ## Loops inside each other -/

namespace Natural

theorem get_id (hn : Natural g forest) (hL : L ∈ forest.loops.toList) : forest.get L.id = .ok L := by
  obtain ⟨l, hl⟩ := Table.mem_toList.1 hL
  rw [LoopForest.get, hn.id hl, Table.get_eq_ok_iff]
  exact hl

theorem contains_header (hn : Natural g forest) (hL : L ∈ forest.loops.toList) :
    L.contains L.header = true :=
  (hn.contains_iff hL).2 (.inl rfl)

/-- **A loop lies inside the loops that hold its header.** -/
theorem inside_iff (hn : Natural g forest) (hL : L ∈ forest.loops.toList)
    (hM : M ∈ forest.loops.toList) : L.Inside M ↔ M ≠ L ∧ M.contains L.header = true := by
  obtain ⟨Ls, hLs⟩ := hn.exists_sorted
  have hs := hn.sorted hLs
  rw [← hn.mem_sorted hLs] at hL hM
  constructor
  · rintro ⟨hsub, b, hb, hnb⟩
    refine ⟨?_, hsub _ (hs.contains_header hL)⟩
    rintro rfl
    rw [hb] at hnb
    cases hnb
  · rintro ⟨hne, hh⟩
    refine ⟨fun b => hs.trans hM hL hh, M.header, hs.contains_header hM, ?_⟩
    by_contra hback
    exact hne (hs.antisymm hM hL hh (by simpa using hback))

/-- Loops with a block in common lie inside each other. -/
theorem inside_or_inside (hn : Natural g forest) (hL : L ∈ forest.loops.toList)
    (hM : M ∈ forest.loops.toList) (hne : L ≠ M) (hbL : L.contains b = true)
    (hbM : M.contains b = true) : L.Inside M ∨ M.Inside L := by
  obtain ⟨Ls, hLs⟩ := hn.exists_sorted
  rw [hn.inside_iff hL hM, hn.inside_iff hM hL]
  rcases (hn.sorted hLs).nested ((hn.mem_sorted hLs).2 hL) ((hn.mem_sorted hLs).2 hM) hbL hbM with h | h
  · exact .inr ⟨hne, h⟩
  · exact .inl ⟨hne.symm, h⟩

end Natural

section Sizes

variable (hnat : Natural g forest) (hnest : Nested g forest)

include hnat hnest

/-- A loop inside another is smaller. -/
theorem size_lt_of_inside (hL : L ∈ forest.loops.toList) (hM : M ∈ forest.loops.toList)
    (h : L.Inside M) : L.size < M.size := by
  obtain ⟨hsub, b, hb, hnb⟩ := h
  have hnodup : (b :: L.members).Nodup := by
    refine List.nodup_cons.2 ⟨?_, hnest.nodup_members hL⟩
    rw [hnat.mem_members hL, hnb]
    simp
  have hle : (b :: L.members).length ≤ M.members.length := by
    refine (List.subperm_of_subset hnodup ?_).length_le
    intro c hc
    rw [hnat.mem_members hM]
    rcases List.mem_cons.1 hc with rfl | hc
    · exact hb
    · exact hsub c ((hnat.mem_members hL).1 hc)
  simp only [List.length_cons, Loop.members] at hle
  simp only [Loop.size]
  omega

/-- The parent is the smallest loop around a loop. -/
theorem parent_eq_some_iff_inside (hL : L ∈ forest.loops.toList) (hM : M ∈ forest.loops.toList) :
    L.parent = some M.id ↔ L.Inside M ∧
      ∀ N ∈ forest.loops.toList, L.Inside N → N ≠ M → M.Inside N ∧ M.size < N.size := by
  rw [hnest.parent_eq_some_iff hM hL, ← and_assoc, ← hnat.inside_iff hL hM]
  refine and_congr_right fun hLM => forall₂_congr fun N hN => ?_
  rw [hnat.inside_iff hL hN, and_imp]
  refine forall₂_congr fun hNL hNc => ?_
  constructor
  · intro hNM hne
    have hin : M.Inside N := (hnat.inside_iff hM hN).2 ⟨hne, hNM⟩
    exact ⟨hin, size_lt_of_inside hnat hnest hM hN hin⟩
  · intro h
    by_cases hne : N = M
    · rw [hne]
      exact hnat.contains_header hM
    · exact ((hnat.inside_iff hM hN).1 (h hne).1).2

theorem parent_eq_none_iff_inside (hL : L ∈ forest.loops.toList) :
    L.parent = none ↔ ∀ M ∈ forest.loops.toList, ¬ L.Inside M := by
  rw [hnest.parent_eq_none_iff hL]
  refine forall₂_congr fun M hM => ?_
  rw [hnat.inside_iff hL hM]
  tauto

/-- **The loops around a loop are its ancestors.** -/
theorem ancestor_of_inside (hL : L ∈ forest.loops.toList) (hM : M ∈ forest.loops.toList)
    (h : L.Inside M) : forest.Ancestor M L := by
  -- go down from `M` to the loop directly inside it that holds `L`: it is smaller
  induction hsize : M.size using Nat.strongRecOn generalizing M with
  | ind n ih =>
    subst hsize
    obtain ⟨hne, hh⟩ := (hnat.inside_iff hL hM).1 h
    obtain ⟨N, hN, hparent, hNL⟩ := hnest.exists_inner hnat hM hL hne.symm hh
    have hstep : forest.Ancestor M N := .single ⟨hM, hN, hparent⟩
    by_cases hNe : N = L
    · exact hNe ▸ hstep
    · have hNM := ((parent_eq_some_iff_inside hnat hnest hN hM).1 hparent).1
      have hLN : L.Inside N := (hnat.inside_iff hL hN).2 ⟨hNe, hNL⟩
      exact hstep.trans (ih _ (size_lt_of_inside hnat hnest hN hM hNM) hN hLN rfl)

end Sizes

/-- Parents are named by loops of the forest. -/
theorem exists_parent (h : ofGraph g limit = .ok forest) (hL : L ∈ forest.loops.toList) {l : LoopId}
    (hl : L.parent = some l) : ∃ M ∈ forest.loops.toList, M.id = l := by
  have hnat := ofGraph_natural h
  obtain ⟨headers, order, os, hn, hforest⟩ := ofGraph_outlines h
  obtain ⟨rfl, _⟩ := ofOutlines_made hforest
  rcases parent_cases hn hforest hnat hL with ⟨hnone, _⟩ | ⟨M, hM, hsome, _⟩
  · rw [hnone] at hl
    cases hl
  · exact ⟨M, hM, Option.some.inj (hsome.symm.trans hl)⟩

/-! ## Order -/

/-- Each loop comes after the loops inside it. -/
theorem Natural.pairwise_sorted (hn : Natural g forest) {Ls : List Loop}
    (h : forest.sorted = .ok Ls) : Ls.Pairwise fun L M => ¬ M.Inside L := by
  rw [List.pairwise_iff_getElem]
  intro i j hi hj hij hin
  have hs := hn.sorted h
  have hmem : ∀ k (hk : k < Ls.length), Ls[k] ∈ forest.loops.toList :=
    fun k hk => (hn.mem_sorted h).1 (List.getElem_mem hk)
  have hsplit : Ls = Ls.take j ++ Ls[j] :: Ls.drop (j + 1) := by simp
  have hfront : Ls[i] ∈ Ls.take j := List.mem_take_iff_getElem.2 ⟨i, by omega, rfl⟩
  have hnot := hs.not_contains_header hsplit hfront
  rw [((hn.inside_iff (hmem j hj) (hmem i hi)).1 hin).2] at hnot
  cases hnot

/-- A loop lists the loops whose parent it is, in the order of all loops. -/
theorem inner_eq (h : ofGraph g limit = .ok forest) {Ls : List Loop} (hLs : forest.sorted = .ok Ls)
    (hL : L ∈ forest.loops.toList) :
    L.inner = (Ls.filter fun M => M.parent = some L.id).map Loop.id := by
  have hnat := ofGraph_natural h
  obtain ⟨headers, order, os, hn, hforest⟩ := ofGraph_outlines h
  obtain ⟨rfl, _⟩ := ofOutlines_made hforest
  obtain ⟨o, ho⟩ := exists_outline hn hforest hL
  rw [ho.inner, ← hnat.map_id_sorted hLs, List.filter_map]
  refine congrArg _ (List.filter_congr fun M hM => ?_)
  obtain ⟨oM, hoM⟩ := exists_outline hn hforest ((hnat.mem_sorted hLs).1 hM)
  simp only [Function.comp_apply, hoM.parent, Option.some.injEq]

theorem exits_ascending (h : ofGraph g limit = .ok forest) (hL : L ∈ forest.loops.toList) :
    L.exits.Pairwise fun a b => a.index < b.index := by
  obtain ⟨headers, order, os, hn, hforest⟩ := ofGraph_outlines h
  obtain ⟨rfl, _⟩ := ofOutlines_made hforest
  obtain ⟨o, ho⟩ := exists_outline hn hforest hL
  have hexits := ho.exits
  simp only [exitsOf, bind_eq_ok, pure_eq_ok] at hexits
  obtain ⟨targets, _, heq⟩ := hexits
  rw [← heq]
  exact IdSet.pairwise_toList _

/-! ## The loops of a block -/

/-- What the tables of a forest have at a block of the graph. -/
theorem ofOutlines_reads {os : Outlines} {order : List LoopId}
    (h : ofOutlines g os order = .ok forest) (hb : b.index < g.size) :
    forest.membership b =
        .ok (IdSet.ofList ((forest.loops.toList.filter (·.contains b)).map Loop.id)) ∧
      forest.headed b = .ok ((forest.loops.toList.find? (·.header = b)).map Loop.id) := by
  simp only [ofOutlines, bind_eq_ok, pure_eq_ok] at h
  obtain ⟨loops, _, rfl⟩ := h
  have hget : g.blocks[b.index]? = some b := Table.getElem?_idents hb
  simp [LoopForest.membership, LoopForest.headed, Table.get_eq_ok_iff, hget]

section Blocks

variable (h : ofGraph g limit = .ok forest)

include h

/-- The loops that a block belongs to. -/
theorem exists_membership (hb : b.index < g.size) : ∃ s, forest.membership b = .ok s ∧
    ∀ l, l ∈ s ↔ ∃ L ∈ forest.loops.toList, L.id = l ∧ L.contains b = true := by
  obtain ⟨_, _, os, _, hforest⟩ := ofGraph_outlines h
  refine ⟨_, (ofOutlines_reads hforest hb).1, fun l => ?_⟩
  simp only [IdSet.mem_ofList, List.mem_map, List.mem_filter]
  grind

/-- The loop that a block heads. -/
theorem exists_headed (hb : b.index < g.size) : ∃ o, forest.headed b = .ok o ∧
    ∀ l, o = some l ↔ ∃ L ∈ forest.loops.toList, L.id = l ∧ L.header = b := by
  have hnat := ofGraph_natural h
  obtain ⟨_, _, os, _, hforest⟩ := ofGraph_outlines h
  refine ⟨_, (ofOutlines_reads hforest hb).2, fun l => ?_⟩
  rw [Option.map_eq_some_iff]
  constructor
  · rintro ⟨L, hfind, rfl⟩
    exact ⟨L, List.mem_of_find?_eq_some hfind, rfl, by simpa using List.find?_some hfind⟩
  · rintro ⟨L, hL, rfl, rfl⟩
    cases hfind : forest.loops.toList.find? (·.header = L.header) with
    | none =>
      have hnone := List.find?_eq_none.1 hfind L hL
      simp at hnone
    | some M =>
      -- no two loops have the same header
      have hheader : M.header = L.header := by simpa using List.find?_some hfind
      exact ⟨M, rfl, congrArg Loop.id
        (hnat.header_inj (List.mem_of_find?_eq_some hfind) hL hheader)⟩

/-- The smallest loop that a block belongs to lies inside all others. -/
theorem exists_innermost (hb : b.index < g.size) : ∃ s o, forest.membership b = .ok s ∧
    forest.innermost b = .ok o ∧ (o = none ↔ s = ∅) ∧
    ∀ l, o = some l → ∃ L ∈ forest.loops.toList, L.id = l ∧ L.contains b = true ∧
      ∀ M ∈ forest.loops.toList, M.contains b = true → M ≠ L → forest.Ancestor M L := by
  have hnat := ofGraph_natural h
  have hnest := ofGraph_nested h
  obtain ⟨s, hs, hmem⟩ := exists_membership h hb
  obtain ⟨around, haround⟩ : ∃ around, s.toList.mapM forest.get = .ok around := by
    refine exists_mapM_eq_ok fun l hl => ?_
    obtain ⟨L, hL, rfl, _⟩ := (hmem l).1 (IdSet.mem_toList.1 hl)
    exact ⟨L, hnat.get_id hL⟩
  have hloops : ∀ L, L ∈ around ↔ L ∈ forest.loops.toList ∧ L.contains b = true := by
    intro L
    rw [mem_of_mapM haround]
    constructor
    · rintro ⟨l, hl, hget⟩
      obtain ⟨M, hM, rfl, hMb⟩ := (hmem l).1 (IdSet.mem_toList.1 hl)
      cases (hnat.get_id hM).symm.trans hget
      exact ⟨hM, hMb⟩
    · rintro ⟨hL, hLb⟩
      exact ⟨L.id, IdSet.mem_toList.2 ((hmem _).2 ⟨L, hL, rfl, hLb⟩), hnat.get_id hL⟩
  refine ⟨s, _, hs, by rw [innermost, hs, ok_bind, haround]; rfl, ?_, ?_⟩
  · rw [Option.map_eq_none_iff, smallest_eq_none_iff, List.map_eq_nil_iff]
    constructor
    · intro hnil
      ext l
      simp only [hmem, IdSet.not_mem_empty, iff_false]
      rintro ⟨L, hL, _, hLb⟩
      simpa [hnil] using (hloops L).2 ⟨hL, hLb⟩
    · rintro rfl
      rw [List.eq_nil_iff_forall_not_mem]
      intro L hL
      have hLb := (hloops L).1 hL
      exact IdSet.not_mem_empty _ ((hmem L.id).2 ⟨L, hLb.1, rfl, hLb.2⟩)
  · intro l hl
    obtain ⟨⟨_, size⟩, hsmallest, rfl⟩ := Option.map_eq_some_iff.1 hl
    obtain ⟨L, hL, heq⟩ := List.mem_map.1 (Outlines.smallest_mem hsmallest)
    cases heq
    have hLb := (hloops L).1 hL
    refine ⟨L, hLb.1, rfl, hLb.2, fun M hM hMb hne => ?_⟩
    rcases hnat.inside_or_inside hLb.1 hM hne.symm hLb.2 hMb with hin | hin
    · exact ancestor_of_inside hnat hnest hLb.1 hM hin
    · -- a loop inside the smallest one would be smaller
      have hlt := size_lt_of_inside hnat hnest hM hLb.1 hin
      have hle := smallest_le hsmallest (M.id, M.size) (List.mem_map.2 ⟨M, (hloops M).2 ⟨hM, hMb⟩, rfl⟩)
      simp only at hle
      omega

end Blocks

/-! ## The laws -/

/-- The parts of a forest tell of the same nesting of loops. -/
structure Consistent (g : FlowGraph) (forest : LoopForest) : Prop where
  get : ∀ L ∈ forest.loops.toList, forest.get L.id = .ok L
  members : ∀ L ∈ forest.loops.toList, ∀ b, b ∈ L.members ↔ L.contains b = true
  blocks : ∀ L ∈ forest.loops.toList, ∀ b, L.contains b = true → b.index < g.size
  /-- Two loops have no block in common, or one lies strictly inside the other. -/
  apart_or_inside : ∀ L ∈ forest.loops.toList, ∀ M ∈ forest.loops.toList, L ≠ M →
    L.Apart M ∨ L.Inside M ∨ M.Inside L
  /-- The parent of a loop is the smallest loop around it. -/
  parent_some : ∀ L ∈ forest.loops.toList, ∀ l, L.parent = some l ↔
    ∃ M ∈ forest.loops.toList, M.id = l ∧ L.Inside M ∧
      ∀ N ∈ forest.loops.toList, L.Inside N → N ≠ M → M.Inside N ∧ M.size < N.size
  parent_none : ∀ L ∈ forest.loops.toList,
    (L.parent = none ↔ ∀ M ∈ forest.loops.toList, ¬ L.Inside M)
  /-- The loops can be listed, each once and after all loops inside it, and each loop lists its inner
  loops in the same order. -/
  sorted : ∃ Ls, forest.sorted = .ok Ls ∧ Ls.Nodup ∧
    (∀ L, L ∈ Ls ↔ L ∈ forest.loops.toList) ∧ (Ls.Pairwise fun L M => ¬ M.Inside L) ∧
    ∀ L ∈ forest.loops.toList, L.inner = (Ls.filter fun M => M.parent = some L.id).map Loop.id
  body_descending : ∀ L ∈ forest.loops.toList, L.body.Pairwise fun a b => b.index < a.index
  header_not_mem : ∀ L ∈ forest.loops.toList, L.header ∉ L.body
  exits_ascending : ∀ L ∈ forest.loops.toList, L.exits.Pairwise fun a b => a.index < b.index
  mem_exits : ∀ L ∈ forest.loops.toList, ∀ b,
    b ∈ L.exits ↔ L.contains b = false ∧ ∃ u, L.contains u = true ∧ g.Edge u b
  headed : ∀ b : BlockId, b.index < g.size → ∃ o, forest.headed b = .ok o ∧
    ∀ l, o = some l ↔ ∃ L ∈ forest.loops.toList, L.id = l ∧ L.header = b
  membership : ∀ b : BlockId, b.index < g.size → ∃ s, forest.membership b = .ok s ∧
    ∀ l, l ∈ s ↔ ∃ L ∈ forest.loops.toList, L.id = l ∧ L.contains b = true
  /-- The innermost loop of a block has all other loops of the block as ancestors. -/
  innermost : ∀ b : BlockId, b.index < g.size → ∃ s o, forest.membership b = .ok s ∧
    forest.innermost b = .ok o ∧ (o = none ↔ s = ∅) ∧
    ∀ l, o = some l → ∃ L ∈ forest.loops.toList, L.id = l ∧ L.contains b = true ∧
      ∀ M ∈ forest.loops.toList, M.contains b = true → M ≠ L → forest.Ancestor M L

/-- **The forest of a graph is consistent.** -/
theorem ofGraph_consistent (h : ofGraph g limit = .ok forest) : Consistent g forest := by
  have hnat := ofGraph_natural h
  have hnest := ofGraph_nested h
  obtain ⟨w, _, _, _, hw, _⟩ := ofGraph_cases h
  obtain ⟨Ls, hLs⟩ := hnat.exists_sorted
  exact {
    get := fun L hL => hnat.get_id hL
    members := fun L hL b => hnat.mem_members hL
    blocks := by
      intro L hL b hb
      exact FlowGraph.lt_of_walk hw
        (((hnat.contains_iff hL).1 hb).reachable (hnat.reachable_header hL))
    apart_or_inside := by
      intro L hL M hM hne
      by_cases hap : L.Apart M
      · exact .inl hap
      · unfold Loop.Apart at hap
        push Not at hap
        obtain ⟨b, hbL, hbM⟩ := hap
        exact .inr (hnat.inside_or_inside hL hM hne hbL (by simpa using hbM))
    parent_some := by
      intro L hL l
      constructor
      · intro hl
        obtain ⟨M, hM, rfl⟩ := exists_parent h hL hl
        exact ⟨M, hM, rfl, (parent_eq_some_iff_inside hnat hnest hL hM).1 hl⟩
      · rintro ⟨M, hM, rfl, hin⟩
        exact (parent_eq_some_iff_inside hnat hnest hL hM).2 hin
    parent_none := fun L hL => parent_eq_none_iff_inside hnat hnest hL
    sorted := ⟨Ls, hLs, (hnat.sorted hLs).nodup, fun L => hnat.mem_sorted hLs,
      hnat.pairwise_sorted hLs, fun L hL => inner_eq h hLs hL⟩
    body_descending := fun L hL => hnest.descending hL
    header_not_mem := fun L hL => hnest.header_not_mem hL
    exits_ascending := fun L hL => exits_ascending h hL
    mem_exits := fun L hL b => hnest.mem_exits_iff hL
    headed := fun b hb => exists_headed h hb
    membership := fun b hb => exists_membership h hb
    innermost := fun b hb => exists_innermost h hb }

theorem nestedExample_consistent : ∃ forest, ofGraph nestedExample none = .ok forest ∧
    (forest.loops.toList.map fun L => (L.header, L.parent, L.inner, L.exits)) =
      [(⟨2⟩, some ⟨1⟩, [], [⟨3⟩]), (⟨1⟩, none, [⟨0⟩], [⟨4⟩])] ∧
    forest.innermost ⟨2⟩ = .ok (some ⟨0⟩) ∧ forest.innermost ⟨5⟩ = .ok none ∧
    Consistent nestedExample forest := by
  have hrun : ((ofGraph nestedExample none).map fun forest =>
      forest.loops.toList.map fun L => (L.header, L.parent, L.inner, L.exits)) =
      .ok [(⟨2⟩, some ⟨1⟩, [], [⟨3⟩]), (⟨1⟩, none, [⟨0⟩], [⟨4⟩])] := by
    decide +kernel
  have hinnermost : ((ofGraph nestedExample none).map fun forest =>
      (forest.innermost ⟨2⟩ = .ok (some ⟨0⟩) ∧ forest.innermost ⟨5⟩ = .ok none : Bool)) = .ok true := by
    decide +kernel
  cases hf : ofGraph nestedExample none with
  | error e => rw [hf] at hrun; cases hrun
  | ok forest =>
    rw [hf] at hrun hinnermost
    have hinner := of_decide_eq_true (Except.ok.inj hinnermost)
    exact ⟨forest, rfl, Except.ok.inj hrun, hinner.1, hinner.2, ofGraph_consistent hf⟩

end LoopForest

end FlowTree
