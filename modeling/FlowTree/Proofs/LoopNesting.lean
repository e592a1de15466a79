import FlowTree.Proofs.Folding
import Mathlib.Data.List.Perm.Subperm

/-!
# Nesting of loops

How the loops of a forest lie inside each other, in which order a loop lists its members, and where
control leaves it.

A loop's parent is the smallest other loop that holds its header.  Loops that have a block in common
are nested, and a loop that lies properly inside another has fewer blocks; so the smallest loop
around a loop lies inside every other loop around it.
-/

namespace FlowTree

/-! ## The smallest of several -/

namespace IdSet

variable {k : Kind} {s t : IdSet k}

/-- The members of a set are listed in ascending order. -/
theorem pairwise_toList (s : IdSet k) : s.toList.Pairwise fun i j => i.index < j.index := by
  rw [toList, List.pairwise_map]
  exact List.pairwise_lt_range.filter _

theorem nodup_toList (s : IdSet k) : s.toList.Nodup := Ident.nodup_of_ascending s.pairwise_toList

theorem card_lt_of_subset {j : Ident k} (hsub : ∀ i ∈ s, i ∈ t) (hj : j ∈ t) (hjs : j ∉ s) :
    s.card < t.card := by
  have hnodup : (j :: s.toList).Nodup := List.nodup_cons.2 ⟨by simpa using hjs, s.nodup_toList⟩
  have hle : (j :: s.toList).length ≤ t.toList.length := by
    refine (List.subperm_of_subset hnodup ?_).length_le
    intro i hi
    rcases List.mem_cons.1 hi with rfl | hi
    · exact mem_toList.2 hj
    · exact mem_toList.2 (hsub i (mem_toList.1 hi))
  rwa [List.length_cons] at hle

end IdSet

section Smallest

variable {α : Type} {size : α → Nat} {as : List α} {a : α}

theorem smallest_eq_none_iff : smallest size as = none ↔ as = [] := by
  cases as with
  | nil => simp [smallest]
  | cons a rest =>
    simp only [smallest, reduceCtorEq, iff_false]
    split
    · simp
    · split <;> simp

theorem smallest_le (h : smallest size as = some a) : ∀ b ∈ as, size a ≤ size b := by
  induction as generalizing a with
  | nil => cases h
  | cons c rest ih =>
    simp only [smallest] at h
    split at h
    · rename_i hnone
      obtain rfl := smallest_eq_none_iff.1 hnone
      cases h
      simp
    · rename_i d hd
      have hrest := ih hd
      intro b hb
      split at h <;> cases h
      · rcases List.mem_cons.1 hb with rfl | hb
        · omega
        · exact hrest b hb
      · rcases List.mem_cons.1 hb with rfl | hb
        · exact Nat.le_refl _
        · have := hrest b hb
          omega

end Smallest

/-- What the smallest loop around a loop is. -/
theorem Outlines.parents_smallest {os : Outlines} {l : LoopId} {o p : Outline}
    (ho : os.get? l = some o) (h : os.parents.get? l = some (some p)) {l' : LoopId} {o' : Outline}
    (ho' : os.get? l' = some o') (hholds : o'.holds o = true) : p.members.card ≤ o'.members.card := by
  simp only [parents, Table.get?_map, ho, Option.map_some, Option.some.injEq,
    Option.map_eq_some_iff] at h
  obtain ⟨⟨p', size⟩, hsmallest, rfl⟩ := h
  have hmem := smallest_mem hsmallest
  obtain ⟨p, _, heq⟩ := List.mem_map.1 (List.mem_filter.1 hmem).1
  cases heq
  refine smallest_le hsmallest (o', o'.members.card) (List.mem_filter.2 ⟨?_, hholds⟩)
  exact List.mem_map.2 ⟨o', Table.mem_toList.2 ⟨l', ho'⟩, rfl⟩

/-- A loop that some loop holds has a smallest loop around it. -/
theorem Outlines.parents_eq_none {os : Outlines} {l : LoopId} {o : Outline} (ho : os.get? l = some o)
    (h : os.parents.get? l = some none) {l' : LoopId} {o' : Outline} (ho' : os.get? l' = some o') :
    o'.holds o = false := by
  simp only [parents, Table.get?_map, ho, Option.map_some, Option.some.injEq,
    Option.map_eq_none_iff, smallest_eq_none_iff] at h
  have hnot := List.filter_eq_nil_iff.1 h (o', o'.members.card)
    (List.mem_map.2 ⟨o', Table.mem_toList.2 ⟨l', ho'⟩, rfl⟩)
  simpa using hnot

/-! ## Forests -/

namespace LoopForest

variable {g : FlowGraph} {limit : Option Nat} {forest : LoopForest} {L M N : Loop}

/-- What a forest says about its loops besides their blocks. -/
structure Nested (g : FlowGraph) (forest : LoopForest) : Prop where
  parent_eq_some_iff : ∀ {L M}, L ∈ forest.loops.toList → M ∈ forest.loops.toList →
    (M.parent = some L.id ↔ L ≠ M ∧ L.contains M.header = true ∧
      ∀ N ∈ forest.loops.toList, N ≠ M → N.contains M.header = true → N.contains L.header = true)
  parent_eq_none_iff : ∀ {M}, M ∈ forest.loops.toList →
    (M.parent = none ↔ ∀ N ∈ forest.loops.toList, N.contains M.header = true → N = M)
  mem_inner_iff : ∀ {L l}, L ∈ forest.loops.toList →
    (l ∈ L.inner ↔ ∃ M ∈ forest.loops.toList, M.id = l ∧ M.parent = some L.id)
  descending : ∀ {L}, L ∈ forest.loops.toList → L.body.Pairwise fun a b => b.index < a.index
  header_not_mem : ∀ {L}, L ∈ forest.loops.toList → L.header ∉ L.body
  mem_exits_iff : ∀ {L b}, L ∈ forest.loops.toList →
    (b ∈ L.exits ↔ L.contains b = false ∧ ∃ u, L.contains u = true ∧ g.Edge u b)

theorem Natural.mem_sorted (hn : Natural g forest) {Ls : List Loop} (h : forest.sorted = .ok Ls) :
    L ∈ Ls ↔ L ∈ forest.loops.toList := by
  rw [mem_of_mapM h, Table.mem_toList]
  constructor
  · rintro ⟨l, _, hl⟩
    exact ⟨l, Table.get_eq_ok_iff.1 hl⟩
  · rintro ⟨l, hl⟩
    exact ⟨l, (hn.mem_order l).2 (Table.lt_of_get? hl), Table.get_eq_ok_iff.2 hl⟩

theorem Natural.exists_sorted (hn : Natural g forest) : ∃ Ls, forest.sorted = .ok Ls :=
  exists_mapM_eq_ok fun l hl => Table.exists_get_eq_ok ((hn.mem_order l).1 hl)

theorem Natural.id_inj (hn : Natural g forest) (hL : L ∈ forest.loops.toList)
    (hM : M ∈ forest.loops.toList) (h : L.id = M.id) : L = M := by
  obtain ⟨l, hl⟩ := Table.mem_toList.1 hL
  obtain ⟨m, hm⟩ := Table.mem_toList.1 hM
  rw [hn.id hl, hn.id hm] at h
  exact Option.some.inj (hl.symm.trans (h ▸ hm))

/-- Where control leaves a set of blocks. -/
theorem mem_exitsOf {blocks : BlockSet} {exits : List BlockId} (h : exitsOf g blocks = .ok exits)
    (b : BlockId) : b ∈ exits ↔ b ∉ blocks ∧ ∃ u ∈ blocks, g.Edge u b := by
  simp only [exitsOf, bind_eq_ok, pure_eq_ok] at h
  obtain ⟨targets, htargets, rfl⟩ := h
  simp only [IdSet.mem_toList, IdSet.mem_sdiff, IdSet.mem_ofList, List.mem_flatten,
    mem_of_mapM htargets, FlowGraph.successors, Table.get_eq_ok_iff, FlowGraph.Edge,
    Adjacency.Edge]
  grind

/-- A loop inside another has fewer blocks. -/
theorem Sorted.card_lt {Ls : List Loop} (hs : Sorted g Ls) (hL : L ∈ Ls) (hM : M ∈ Ls)
    (hne : M ≠ L) (hh : L.contains M.header = true) : M.blocks.card < L.blocks.card := by
  refine IdSet.card_lt_of_subset (j := L.header) ?_ ?_ ?_
  · intro b hb
    exact of_decide_eq_true (hs.trans hL hM hh (decide_eq_true hb))
  · exact of_decide_eq_true (hs.contains_header hL)
  · intro hb
    exact hne (hs.antisymm hL hM hh (decide_eq_true hb)).symm

/-- A loop and the outline that it was made from. -/
structure OutlinedBy (g : FlowGraph) (os : Outlines) (order : List LoopId) (L : Loop) (o : Outline) :
    Prop where
  outline : os.get? L.id = some o
  id : o.id = L.id
  header : o.header = L.header
  members : o.members = L.blocks
  body : L.body = (L.blocks.erase L.header).toList.reverse
  inner : L.inner = order.filter fun l =>
    (os.parents.map (Option.map Outline.id)).get? l = some (some L.id)
  parent : (os.parents.map (Option.map Outline.id)).get? L.id = some L.parent
  exits : exitsOf g L.blocks = .ok L.exits

/-- An outline holds another if its loop holds the header of the other loop. -/
theorem OutlinedBy.holds_iff {os : Outlines} {order : List LoopId} {o o' : Outline}
    (hnat : Natural g forest) (hL : L ∈ forest.loops.toList) (hM : M ∈ forest.loops.toList)
    (ho : OutlinedBy g os order L o) (ho' : OutlinedBy g os order M o') :
    o.holds o' = true ↔ L ≠ M ∧ L.contains M.header = true := by
  have hne : M.id ≠ L.id ↔ L ≠ M :=
    not_congr ⟨fun h => hnat.id_inj hL hM h.symm, fun h => h ▸ rfl⟩
  simp [Outline.holds, Loop.contains, ho.id, ho'.id, ho'.header, ho.members, hne]

section Outlined

variable {os : Outlines} {headers : List BlockId} (hn : Outlines.Natural g headers forest.order os)
  (hforest : ofOutlines g os forest.order = .ok forest)

include hn hforest

theorem exists_outline (hL : L ∈ forest.loops.toList) : ∃ o, OutlinedBy g os forest.order L o := by
  obtain ⟨l, hl⟩ := Table.mem_toList.1 hL
  obtain ⟨o, ho, hmade⟩ := (ofOutlines_made hforest).2.2 hl
  have hid := hn.toShaped.id ho
  simp only [loopOf, bind_eq_ok, pure_eq_ok, Table.get_eq_ok_iff] at hmade
  obtain ⟨exits, hexits, parent, hparent, rfl⟩ := hmade
  exact ⟨o, hid.symm ▸ ho, rfl, rfl, rfl, rfl, rfl, hparent, hexits⟩

theorem exists_loop {l : LoopId} {o : Outline} (ho : os.get? l = some o) :
    ∃ L ∈ forest.loops.toList, OutlinedBy g os forest.order L o := by
  have hlt : l.index < forest.loops.size := by
    rw [(ofOutlines_made hforest).2.1]
    exact Table.lt_of_get? ho
  obtain ⟨L, hL⟩ := Table.exists_get? hlt
  have hmem : L ∈ forest.loops.toList := Table.mem_toList.2 ⟨l, hL⟩
  obtain ⟨o', ho'⟩ := exists_outline hn hforest hmem
  obtain ⟨o'', ho'', hmade⟩ := (ofOutlines_made hforest).2.2 hL
  cases ho.symm.trans ho''
  have hid : L.id = l := by
    rw [(loopOf_cases hmade).1, hn.toShaped.id ho]
  cases (hid ▸ ho'.outline).symm.trans ho
  exact ⟨L, hmem, ho'⟩

/-- The smallest loop around a loop, if there is a loop around it. -/
theorem parent_cases (hnat : Natural g forest) (hM : M ∈ forest.loops.toList) :
    (M.parent = none ∧ ∀ N ∈ forest.loops.toList, N.contains M.header = true → N = M) ∨
      ∃ P ∈ forest.loops.toList, M.parent = some P.id ∧ P ≠ M ∧ P.contains M.header = true ∧
        ∀ N ∈ forest.loops.toList, N ≠ M → N.contains M.header = true →
          P.blocks.card ≤ N.blocks.card := by
  obtain ⟨o, ho⟩ := exists_outline hn hforest hM
  have hparent := ho.parent
  rw [Table.get?_map, Option.map_eq_some_iff] at hparent
  obtain ⟨parent, hparent, heq⟩ := hparent
  cases parent with
  | none =>
    refine .inl ⟨heq.symm, fun N hN hc => ?_⟩
    obtain ⟨oN, hoN⟩ := exists_outline hn hforest hN
    by_contra hne
    have hholds := (hoN.holds_iff hnat hN hM ho).2 ⟨hne, hc⟩
    rw [Outlines.parents_eq_none ho.outline hparent hoN.outline] at hholds
    cases hholds
  | some p =>
    obtain ⟨o', l', ho', hp, hholds⟩ := Outlines.parents_cases hparent
    cases ho.outline.symm.trans ho'
    obtain ⟨P, hP, hoP⟩ := exists_loop hn hforest hp
    obtain ⟨hne, hc⟩ := (hoP.holds_iff hnat hP hM ho).1 hholds
    refine .inr ⟨P, hP, ?_, hne, hc, fun N hN hNM hNc => ?_⟩
    · rw [← heq, Option.map_some, hoP.id]
    · obtain ⟨oN, hoN⟩ := exists_outline hn hforest hN
      rw [← hoP.members, ← hoN.members]
      exact Outlines.parents_smallest ho.outline hparent hoN.outline
        ((hoN.holds_iff hnat hN hM ho).2 ⟨hNM, hNc⟩)

/-- The parent of a loop lies inside every other loop around it. -/
theorem parent_eq_some_iff (hnat : Natural g forest) (hL : L ∈ forest.loops.toList)
    (hM : M ∈ forest.loops.toList) :
    M.parent = some L.id ↔ L ≠ M ∧ L.contains M.header = true ∧
      ∀ N ∈ forest.loops.toList, N ≠ M → N.contains M.header = true → N.contains L.header = true := by
  obtain ⟨Ls, hLs⟩ := hnat.exists_sorted
  have hs := hnat.sorted hLs
  have hmem : ∀ {L}, L ∈ forest.loops.toList → L ∈ Ls := fun hL => (hnat.mem_sorted hLs).2 hL
  rcases parent_cases hn hforest hnat hM with ⟨hnone, hall⟩ | ⟨P, hP, hsome, hne, hc, hleast⟩
  · rw [hnone]
    simp only [reduceCtorEq, false_iff]
    exact fun ⟨hLM, hLc, _⟩ => hLM (hall L hL hLc)
  · rw [hsome, Option.some.injEq]
    constructor
    · intro he
      obtain rfl := hnat.id_inj hP hL he
      refine ⟨hne, hc, fun N hN hNM hNc => ?_⟩
      rcases hs.nested (hmem hN) (hmem hP) hNc hc with hin | hin
      · exact hin
      · by_cases hNP : N = P
        · rw [hNP]
          exact hs.contains_header (hmem hP)
        · -- a loop properly inside the smallest one would be smaller
          have hlt := hs.card_lt (hmem hP) (hmem hN) hNP hin
          have hle := hleast N hN hNM hNc
          omega
    · rintro ⟨hLM, hLc, hall⟩
      by_contra hPL
      have hlt := hs.card_lt (hmem hP) (hmem hL) (fun he => hPL (congrArg Loop.id he.symm))
        (hall P hP hne hc)
      have hle := hleast L hL hLM hLc
      omega

theorem mem_inner_iff (hnat : Natural g forest) (hL : L ∈ forest.loops.toList) (l : LoopId) :
    l ∈ L.inner ↔ ∃ M ∈ forest.loops.toList, M.id = l ∧ M.parent = some L.id := by
  obtain ⟨o, ho⟩ := exists_outline hn hforest hL
  rw [ho.inner, List.mem_filter, decide_eq_true_eq, hnat.mem_order]
  constructor
  · rintro ⟨hlt, hparent⟩
    obtain ⟨M, hM⟩ := Table.exists_get? hlt
    have hMmem : M ∈ forest.loops.toList := Table.mem_toList.2 ⟨l, hM⟩
    obtain ⟨oM, hoM⟩ := exists_outline hn hforest hMmem
    have heq := hoM.parent
    rw [hnat.id hM, hparent] at heq
    exact ⟨M, hMmem, hnat.id hM, (Option.some.inj heq).symm⟩
  · rintro ⟨M, hM, rfl, hparent⟩
    obtain ⟨oM, hoM⟩ := exists_outline hn hforest hM
    obtain ⟨m, hm⟩ := Table.mem_toList.1 hM
    refine ⟨hnat.id hm ▸ Table.lt_of_get? hm, ?_⟩
    rw [hoM.parent, hparent]

end Outlined

/-- **The forest of a graph tells the nesting of its loops.** -/
theorem ofGraph_nested (h : ofGraph g limit = .ok forest) : Nested g forest := by
  have hnat := ofGraph_natural h
  obtain ⟨headers, order, os, hn, hforest⟩ := ofGraph_outlines h
  obtain ⟨rfl, _⟩ := ofOutlines_made hforest
  refine ⟨fun hL hM => parent_eq_some_iff hn hforest hnat hL hM, ?_,
    fun hL => mem_inner_iff hn hforest hnat hL _, ?_, ?_, ?_⟩
  · intro M hM
    rcases parent_cases hn hforest hnat hM with ⟨hnone, hall⟩ | ⟨P, hP, hsome, hne, hc, _⟩
    · exact ⟨fun _ => hall, fun _ => hnone⟩
    · rw [hsome]
      simp only [reduceCtorEq, false_iff]
      exact fun hall => hne (hall P hP hc)
  · intro L hL
    obtain ⟨o, ho⟩ := exists_outline hn hforest hL
    rw [ho.body, List.pairwise_reverse]
    exact IdSet.pairwise_toList _
  · intro L hL
    obtain ⟨o, ho⟩ := exists_outline hn hforest hL
    simp [ho.body]
  · intro L b hL
    obtain ⟨o, ho⟩ := exists_outline hn hforest hL
    rw [mem_exitsOf ho.exits]
    simp [Loop.contains]

theorem Nested.nodup_members (hn : Nested g forest) (hL : L ∈ forest.loops.toList) :
    L.members.Nodup := by
  refine List.nodup_cons.2 ⟨hn.header_not_mem hL, ?_⟩
  exact (hn.descending hL).imp fun h he => Nat.ne_of_gt h (congrArg Ident.index he)

/-- A loop inside another lies in one that is directly inside it. -/
theorem Nested.exists_inner (hn : Nested g forest) (hnat : Natural g forest)
    (hL : L ∈ forest.loops.toList) (hM : M ∈ forest.loops.toList) (hne : M ≠ L)
    (hh : L.contains M.header = true) :
    ∃ N ∈ forest.loops.toList, N.parent = some L.id ∧ N.contains M.header = true := by
  obtain ⟨Ls, hLs⟩ := hnat.exists_sorted
  have hs := hnat.sorted hLs
  have hmem : ∀ {L}, L ∈ forest.loops.toList → L ∈ Ls := fun hL => (hnat.mem_sorted hLs).2 hL
  -- while there is a loop between them, go on with it: it has more blocks
  induction hcard : L.blocks.card - M.blocks.card using Nat.strongRecOn generalizing M with
  | ind n ih =>
    subst hcard
    by_cases hparent : M.parent = some L.id
    · exact ⟨M, hM, hparent, hs.contains_header (hmem hM)⟩
    · rw [hn.parent_eq_some_iff hL hM] at hparent
      push Not at hparent
      obtain ⟨N, hN, hNM, hNc, hNL⟩ := hparent hne.symm hh
      have hLN : L.contains N.header = true :=
        (hs.nested (hmem hL) (hmem hN) hh hNc).resolve_right hNL
      have hNne : N ≠ L := by
        rintro rfl
        exact hNL (hs.contains_header (hmem hL))
      have hlt := hs.card_lt (hmem hN) (hmem hM) hNM.symm hNc
      have hlt' := hs.card_lt (hmem hL) (hmem hN) hNne hLN
      obtain ⟨K, hK, hKparent, hKc⟩ := ih _ (by omega) hN hNne hLN rfl
      exact ⟨K, hK, hKparent, hs.trans (hmem hK) (hmem hN) hKc hNc⟩

end LoopForest

end FlowTree
