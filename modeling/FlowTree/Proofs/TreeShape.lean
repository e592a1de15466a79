import FlowTree.Proofs.Cursors
import FlowTree.Proofs.LoopNesting

/-!
# The shape of a lowered tree

Where the blocks and the loops of a function stand in its dispatch tree.

Folding is described by `Lowering.Direct` and `Lowering.Hidden`, which speak of all loops at once.
A reader of a tree goes by the forest instead: which loops are directly inside a loop, and which have
no loop around them.  The two agree, because a loop inside another lies in one that is directly
inside it.

## Main statements

* `Lowering.Dispatches.entries` — a dispatcher, entry by entry.
* `Lowering.Dispatches.shape` — the dispatcher of a loop has its shape.
* `Tree.lower_shape` — so has a lowered function.
-/

namespace FlowTree

variable {ν : Type}

/-- A dispatcher `l` for loop `L` of a forest.  The header's own block comes first, then, in
descending order, the other members of the loop: by themselves if no inner loop holds them, and if
they head a loop directly inside it then as that loop. -/
structure LoopNode.Shape (forest : LoopForest) (L : Loop) (l : LoopNode ν) : Prop where
  id : l.id = L.id
  header : l.header = L.header
  exits : l.exits = L.exits
  first : ∃ n, l.body[0]? = some (.block n) ∧ n.id = L.header
  descending : (l.body.tail.map Node.entry).Pairwise fun a b => b.index < a.index
  blocks : ∀ b, (∃ n, Node.block n ∈ l.body.tail ∧ n.id = b) ↔
    b ∈ L.body ∧ ∀ M ∈ forest.loops.toList, M.id ∈ L.inner → M.contains b = false
  loops : ∀ id h, (∃ m, Node.loop m ∈ l.body.tail ∧ m.id = id ∧ m.header = h) ↔
    id ∈ L.inner ∧ ∃ M ∈ forest.loops.toList, M.id = id ∧ M.header = h
  places : ∀ b k, l.place? b = some k ↔ l.body[k]?.map Node.entry = some b

/-- The tree of a function: each block and each loop occurs in it once, the outermost dispatcher has a
place for each block, and the dispatchers of the loops have their shapes. -/
structure Tree.Shape (f : Func) (forest : LoopForest) (t : Tree ν) : Prop where
  size : t.nodes.size = f.blocks.length
  blocks : (t.blocks.map BlockNode.id).Perm (Ident.firsts f.blocks.length)
  loops : (t.loops.map LoopNode.id).Perm (Ident.firsts forest.size)
  blockCount : t.blockCount = f.blocks.length
  loopCount : t.loopCount = forest.size
  outside : ∀ b, b.index < f.blocks.length → (∀ L ∈ forest.loops.toList, L.contains b = false) →
    ∃ n, t.nodes.get? b = some (some (.block n)) ∧ n.id = b
  outermost : ∀ L ∈ forest.loops.toList, L.parent = none →
    ∃ l, t.nodes.get? L.header = some (some (.loop l)) ∧ l.id = L.id
  inside : ∀ b, b.index < f.blocks.length → (∃ L ∈ forest.loops.toList, L.contains b = true) →
    (∀ L ∈ forest.loops.toList, L.parent = none → L.header ≠ b) → t.nodes.get? b = some none
  dispatchers : ∀ l ∈ t.loops, ∃ L ∈ forest.loops.toList, l.Shape forest L

namespace Lowering

variable {p : Table .block (BlockNode ν)} {Ls : List Loop} {rep : BlockId → LoopNode ν} {L M : Loop}
  {v : BlockId} {node node' : Node ν}

/-! ## Entries -/

theorem StandsFor.entry (h : StandsFor p Ls rep v node) (hid : ∀ {b n}, p.get? b = some n → n.id = b)
    (hrep : ∀ {M}, M ∈ Ls → (rep M.header).header = M.header) : node.entry = v := by
  cases h with
  | loop hM he =>
    subst he
    exact hrep hM
  | block _ hn => exact hid hn

/-- What a dispatcher holds for a block is settled. -/
theorem StandsFor.unique (h : StandsFor p Ls rep v node) (h' : StandsFor p Ls rep v node') :
    node = node' := by
  cases h with
  | loop hM he =>
    cases h' with
    | loop => rfl
    | block hno _ => exact absurd he (hno _ hM)
  | block hno hn =>
    cases h' with
    | loop hM he => exact absurd he (hno _ hM)
    | block _ hn' => rw [Option.some.inj (hn.symm.trans hn')]

/-- Where no block is listed twice, a block has the place at which it is listed. -/
theorem place?_eq_some_iff {taken : List (BlockId × Node ν)} {k : Nat}
    (hn : (taken.map Prod.fst).Nodup) :
    (loopNode L taken).place? v = some k ↔ ∃ node, taken[k]? = some (v, node) := by
  refine ⟨getElem?_of_place?, ?_⟩
  rintro ⟨node, hk⟩
  obtain ⟨k', hk'⟩ := exists_place? (L := L) (List.mem_of_getElem? hk)
  obtain ⟨node', hnode'⟩ := getElem?_of_place? hk'
  have hsame : (taken.map Prod.fst)[k]? = (taken.map Prod.fst)[k']? := by
    simp [hk, hnode']
  have hlt : k < (taken.map Prod.fst).length := by
    simpa using (List.getElem?_eq_some_iff.1 hk).1
  rw [(List.getElem?_inj hlt hn).1 hsame]
  exact hk'

/-- **A dispatcher, entry by entry.**  Behind the header's own block it has, in the order of the
loop's members, what stands for the other blocks that belong to the loop directly. -/
theorem Dispatches.entries (hd : Dispatches p Ls rep L) (hn : L.members.Nodup) :
    ∃ n rest, rep L.header = loopNode L ((L.header, .block n) :: rest) ∧ p.get? L.header = some n ∧
      (rest.map Prod.fst).Sublist L.body ∧
      ∀ v node, (v, node) ∈ rest ↔ Direct Ls L v ∧ v ≠ L.header ∧ StandsFor p Ls rep v node := by
  obtain ⟨taken, hmade, hsub⟩ := hd.made
  obtain ⟨n, hget, hfirst⟩ := hd.first
  have hnodup := hsub.nodup hn
  have hplace : ∀ {v} {k : Nat}, (rep L.header).place? v = some k ↔
      ∃ node, taken[k]? = some (v, node) := by
    intro v k
    rw [hmade]
    exact place?_eq_some_iff hnodup
  have hbody : ∀ k : Nat, (rep L.header).body[k]? = taken[k]?.map Prod.snd := by
    intro k
    rw [hmade]
    exact List.getElem?_map
  obtain ⟨node, hzero⟩ := hplace.1 hd.header
  rw [hbody, hzero] at hfirst
  obtain rfl : node = .block n := Option.some.inj hfirst
  cases taken with
  | nil => cases hzero
  | cons entry rest =>
    obtain rfl : entry = (L.header, .block n) := Option.some.inj hzero
    refine ⟨n, rest, hmade, hget, List.cons_sublist_cons.1 hsub, fun v node => ?_⟩
    have hhead : ∀ {node}, (L.header, node) ∉ rest := fun hmem =>
      (List.nodup_cons.1 hnodup).1 (List.mem_map.2 ⟨_, hmem, rfl⟩)
    constructor
    · intro hmem
      have hne : v ≠ L.header := by
        rintro rfl
        exact hhead hmem
      obtain ⟨k, hk⟩ := List.mem_iff_getElem?.1 (List.mem_cons_of_mem (L.header, Node.block n) hmem)
      have hdirect : Direct Ls L v := by
        by_contra hnot
        have hnone := hd.absent hnot
        rw [hplace.2 ⟨node, hk⟩] at hnone
        cases hnone
      obtain ⟨k', node', hk', hnode', hst⟩ := hd.place hdirect hne
      cases (hplace.2 ⟨node, hk⟩).symm.trans hk'
      rw [hbody, hk] at hnode'
      cases hnode'
      exact ⟨hdirect, hne, hst⟩
    · rintro ⟨hdirect, hne, hst⟩
      obtain ⟨k, node', hk, hnode', hst'⟩ := hd.place hdirect hne
      obtain rfl := hst.unique hst'
      obtain ⟨node', hk⟩ := hplace.1 hk
      rw [hbody, hk] at hnode'
      cases hnode'
      rcases List.mem_cons.1 (List.mem_of_getElem? hk) with he | hmem
      · exact absurd (congrArg Prod.fst he) hne
      · exact hmem

/-! ## Dispatchers and the forest -/

section Forest

variable {g : FlowGraph} {forest : LoopForest} (hnat : forest.Natural g) (hnest : forest.Nested g)
  (hLs : forest.sorted = .ok Ls)

include hnat hnest hLs

/-- A block that heads another loop belongs to a loop directly if the other loop is directly inside
it. -/
theorem direct_header_iff (hL : L ∈ Ls) (hM : M ∈ Ls) (hne : M ≠ L) :
    Direct Ls L M.header ↔ M.parent = some L.id := by
  have hs := hnat.sorted hLs
  have hmem : ∀ {L}, L ∈ Ls ↔ L ∈ forest.loops.toList := hnat.mem_sorted hLs
  rw [hnest.parent_eq_some_iff (hmem.1 hL) (hmem.1 hM)]
  constructor
  · rintro ⟨hc, hdirect⟩
    refine ⟨hne.symm, hc, fun N hN hNM hNc => ?_⟩
    rcases hs.nested hL (hmem.2 hN) hc hNc with hin | hin
    · by_cases hNL : N = L
      · rw [hNL]
        exact hs.contains_header hL
      · exact absurd (hs.header_inj (hmem.2 hN) hM (hdirect N (hmem.2 hN) hNL hin hNc).symm) hNM
    · exact hin
  · rintro ⟨_, hc, hleast⟩
    refine ⟨hc, fun N hN hNL hin hNc => ?_⟩
    by_contra hh
    have hNM : N ≠ M := fun he => hh (he ▸ rfl)
    exact hNL (hs.antisymm hL hN hin (hleast N (hmem.1 hN) hNM hNc)).symm

/-- If no loop directly inside a loop holds a block, no loop inside it does. -/
theorem not_contains_of_inner (hL : L ∈ Ls)
    (hno : ∀ M ∈ forest.loops.toList, M.id ∈ L.inner → M.contains v = false) :
    ∀ M ∈ Ls, M ≠ L → L.contains M.header = true → M.contains v = false := by
  have hs := hnat.sorted hLs
  have hmem : ∀ {L}, L ∈ Ls ↔ L ∈ forest.loops.toList := hnat.mem_sorted hLs
  intro M hM hne hh
  obtain ⟨N, hN, hparent, hc⟩ := hnest.exists_inner hnat (hmem.1 hL) (hmem.1 hM) hne hh
  have hout := hno N hN ((hnest.mem_inner_iff (hmem.1 hL)).2 ⟨N, hN, rfl, hparent⟩)
  by_contra hMv
  rw [Bool.not_eq_false] at hMv
  rw [hs.trans (hmem.2 hN) hM hc hMv] at hout
  cases hout

theorem mem_body_iff (hL : L ∈ Ls) : v ∈ L.body ↔ L.contains v = true ∧ v ≠ L.header := by
  have hnot := hnest.header_not_mem ((hnat.mem_sorted hLs).1 hL)
  rw [← (hnat.sorted hLs).mem_members hL, Loop.members, List.mem_cons]
  constructor
  · exact fun hv => ⟨.inr hv, fun he => hnot (he ▸ hv)⟩
  · rintro ⟨he | hv, hne⟩
    · exact absurd he hne
    · exact hv

/-- The blocks that a loop dispatches by themselves: its members that lie in no inner loop. -/
theorem direct_block_iff (hL : L ∈ Ls) :
    (Direct Ls L v ∧ v ≠ L.header ∧ ∀ M ∈ Ls, M.header ≠ v) ↔
      v ∈ L.body ∧ ∀ M ∈ forest.loops.toList, M.id ∈ L.inner → M.contains v = false := by
  have hs := hnat.sorted hLs
  have hmem : ∀ {L}, L ∈ Ls ↔ L ∈ forest.loops.toList := hnat.mem_sorted hLs
  rw [mem_body_iff hnat hnest hLs hL]
  constructor
  · rintro ⟨hdirect, hne, hno⟩
    refine ⟨⟨hdirect.1, hne⟩, fun M hM hinner => ?_⟩
    obtain ⟨M', hM', he, hparent⟩ := (hnest.mem_inner_iff (hmem.1 hL)).1 hinner
    obtain rfl := hnat.id_inj hM' hM he
    obtain ⟨hML, hc, _⟩ := (hnest.parent_eq_some_iff (hmem.1 hL) hM).1 hparent
    by_contra hMv
    rw [Bool.not_eq_false] at hMv
    exact hno M' (hmem.2 hM) (hdirect.2 M' (hmem.2 hM) hML.symm hc hMv).symm
  · rintro ⟨⟨hc, hne⟩, hno⟩
    have hout := not_contains_of_inner hnat hnest hLs hL hno
    refine ⟨⟨hc, fun M hM hML hh hMv => ?_⟩, hne, ?_⟩
    · rw [hout M hM hML hh] at hMv
      cases hMv
    · rintro M hM rfl
      have hMv := hout M hM (fun he => hne (he ▸ rfl)) hc
      rw [hs.contains_header hM] at hMv
      cases hMv

/-- The loops that a loop dispatches: those directly inside it. -/
theorem direct_loop_iff (hL : L ∈ Ls) {id : LoopId} {h : BlockId} :
    (∃ M ∈ Ls, M.id = id ∧ M.header = h ∧ Direct Ls L h ∧ h ≠ L.header) ↔
      id ∈ L.inner ∧ ∃ M ∈ forest.loops.toList, M.id = id ∧ M.header = h := by
  have hs := hnat.sorted hLs
  have hmem : ∀ {L}, L ∈ Ls ↔ L ∈ forest.loops.toList := hnat.mem_sorted hLs
  constructor
  · rintro ⟨M, hM, rfl, rfl, hdirect, hne⟩
    have hparent := (direct_header_iff hnat hnest hLs hL hM fun he => hne (he ▸ rfl)).1 hdirect
    exact ⟨(hnest.mem_inner_iff (hmem.1 hL)).2 ⟨M, hmem.1 hM, rfl, hparent⟩, M, hmem.1 hM, rfl, rfl⟩
  · rintro ⟨hinner, M, hM, rfl, rfl⟩
    obtain ⟨M', hM', he, hparent⟩ := (hnest.mem_inner_iff (hmem.1 hL)).1 hinner
    obtain rfl := hnat.id_inj hM' hM he
    have hML := ((hnest.parent_eq_some_iff (hmem.1 hL) hM).1 hparent).1.symm
    have hdirect := (direct_header_iff hnat hnest hLs hL (hmem.2 hM) hML).2 hparent
    exact ⟨M', hmem.2 hM, rfl, rfl, hdirect, fun he => hML (hs.header_inj (hmem.2 hM) hL he)⟩

/-- **The dispatcher of a loop has its shape.** -/
theorem Dispatches.shape (hL : L ∈ Ls) (hd : ∀ {M}, M ∈ Ls → Dispatches p Ls rep M)
    (hid : ∀ {b n}, p.get? b = some n → n.id = b) : (rep L.header).Shape forest L := by
  have hnodup := hnest.nodup_members ((hnat.mem_sorted hLs).1 hL)
  obtain ⟨n, rest, hmade, hn, hsub, hrest⟩ := (hd hL).entries hnodup
  have hrep : ∀ {M}, M ∈ Ls → (rep M.header).id = M.id ∧ (rep M.header).header = M.header := by
    intro M hM
    obtain ⟨taken, hM', _⟩ := (hd hM).made
    rw [hM']
    exact ⟨rfl, rfl⟩
  have hentry : ∀ v node, (v, node) ∈ (L.header, Node.block n) :: rest → node.entry = v := by
    intro v node hnode
    rcases List.mem_cons.1 hnode with he | hnode
    · cases he
      exact hid hn
    · exact ((hrest v node).1 hnode).2.2.entry hid fun hM => (hrep hM).2
  have htail : ∀ node, node ∈ (loopNode L ((L.header, Node.block n) :: rest)).body.tail ↔
      ∃ v, Direct Ls L v ∧ v ≠ L.header ∧ StandsFor p Ls rep v node := by
    intro node
    simp only [loopNode, List.map_cons, List.tail_cons, List.mem_map, Prod.exists, hrest,
      exists_eq_right]
  rw [hmade]
  refine ⟨rfl, rfl, rfl, ⟨n, rfl, hid hn⟩, ?descending, fun b => ?blocks, fun id h => ?loops,
    fun b k => ?places⟩
  case descending =>
    have hentries : (rest.map Prod.snd).map Node.entry = rest.map Prod.fst := by
      rw [List.map_map]
      exact List.map_congr_left fun x hx => hentry x.1 x.2 (List.mem_cons_of_mem _ hx)
    show ((rest.map Prod.snd).map Node.entry).Pairwise _
    rw [hentries]
    exact (hnest.descending ((hnat.mem_sorted hLs).1 hL)).sublist hsub
  case blocks =>
    simp only [htail]
    rw [← direct_block_iff hnat hnest hLs hL]
    constructor
    · rintro ⟨m, ⟨v, hdirect, hne, hst⟩, rfl⟩
      cases hst with
      | block hno hm =>
        rw [hid hm]
        exact ⟨hdirect, hne, hno⟩
    · rintro ⟨hdirect, hne, hno⟩
      obtain ⟨k, node, _, _, hst⟩ := (hd hL).place hdirect hne
      cases hst with
      | loop hM he => exact absurd he (hno _ hM)
      | @block m _ hm => exact ⟨m, ⟨b, hdirect, hne, .block hno hm⟩, hid hm⟩
  case loops =>
    simp only [htail]
    rw [← direct_loop_iff hnat hnest hLs hL]
    constructor
    · rintro ⟨m, ⟨v, hdirect, hne, hst⟩, rfl, rfl⟩
      cases hst with
      | @loop M hM he =>
        subst he
        rw [(hrep hM).1, (hrep hM).2]
        exact ⟨M, hM, rfl, rfl, hdirect, hne⟩
    · rintro ⟨M, hM, rfl, rfl, hdirect, hne⟩
      exact ⟨rep M.header, ⟨M.header, hdirect, hne, .loop hM rfl⟩, hrep hM⟩
  case places =>
    have hfst : (((L.header, Node.block n) :: rest).map Prod.fst).Nodup :=
      (hsub.cons_cons L.header).nodup hnodup
    rw [place?_eq_some_iff hfst]
    show _ ↔ ((((L.header, Node.block n) :: rest).map Prod.snd)[k]?).map Node.entry = some b
    rw [List.getElem?_map, Option.map_map, Option.map_eq_some_iff]
    constructor
    · rintro ⟨node, hk⟩
      exact ⟨(b, node), hk, hentry b node (List.mem_of_getElem? hk)⟩
    · rintro ⟨⟨v, node⟩, hk, he⟩
      rw [← he, Function.comp, hentry v node (List.mem_of_getElem? hk)]
      exact ⟨node, hk⟩

end Forest

end Lowering

namespace Tree

variable {f : Func} {layout : Layout} {options : Options} {τ : Type}
  {create : Block → Decoration → StateM τ ν} {t : Tree ν} {a : Analysis} {p : Flat ν}
  {Ls : List Loop} {rep : BlockId → LoopNode ν}

/-! ## Lowered functions -/

namespace Lowered

variable {b : BlockId} {L : Loop} (hl : Lowered f layout options create t a p Ls rep)

include hl

theorem mem_loops : L ∈ Ls ↔ L ∈ a.loops.loops.toList :=
  (LoopForest.ofGraph_natural hl.planned.loops).mem_sorted hl.sorted

theorem size_blocks : p.blocks.size = f.blocks.length :=
  hl.disperses.size.trans (FlowGraph.ofFunc_describes hl.planned.graph).size_eq

theorem id_rep (hL : L ∈ Ls) : (rep L.header).id = L.id := by
  obtain ⟨taken, hmade, _⟩ := (hl.disperses.folded.loops hL).made
  rw [hmade]
  rfl

/-- Every block occurs once. -/
theorem blocks_perm : (t.blocks.map BlockNode.id).Perm (Ident.firsts f.blocks.length) := by
  rw [← hl.size_blocks, ← Table.map_toList_eq_firsts hl.disperses.id]
  exact hl.disperses.folded.allBlocks.map BlockNode.id

/-- Every loop occurs once. -/
theorem loops_perm : (t.loops.map LoopNode.id).Perm (Ident.firsts a.loops.size) := by
  have hnat := LoopForest.ofGraph_natural hl.planned.loops
  have horder : Ls.map (fun L => (rep L.header).id) = a.loops.order :=
    (List.map_congr_left fun L hL => hl.id_rep hL).trans (hnat.map_id_sorted hl.sorted)
  refine (hl.disperses.folded.allLoops.map LoopNode.id).trans ?_
  rw [List.map_map, Function.comp_def, horder]
  refine (List.perm_ext_iff_of_nodup hnat.order_nodup (Ident.nodup_firsts _)).2 fun l => ?_
  rw [hnat.mem_order, Ident.mem_firsts]
  rfl

/-- A block outside all loops stands at its place by itself. -/
theorem node_of_outside (hb : b.index < f.blocks.length)
    (hout : ∀ L ∈ a.loops.loops.toList, L.contains b = false) :
    ∃ n, t.nodes.get? b = some (some (.block n)) ∧ n.id = b := by
  have hno : ∀ M ∈ Ls, M.contains b = false := fun M hM => hout M (hl.mem_loops.1 hM)
  have hshown : ¬ Lowering.Hidden Ls b := by
    rintro ⟨M, hM, hc, _⟩
    rw [hno M hM] at hc
    cases hc
  obtain ⟨node, hget, hst⟩ := hl.disperses.folded.shown (hl.size_blocks ▸ hb) hshown
  cases hst with
  | loop hM he =>
    have hc := hno _ hM
    rw [← he, hl.disperses.sorted.contains_header hM] at hc
    cases hc
  | @block n _ hn => exact ⟨n, hget, hl.disperses.id hn⟩

/-- A loop that no other loop holds stands at its header's place. -/
theorem node_of_outermost (hL : L ∈ a.loops.loops.toList) (hnone : L.parent = none) :
    ∃ l, t.nodes.get? L.header = some (some (.loop l)) ∧ l.id = L.id := by
  have hLs := hl.mem_loops.2 hL
  have honly := ((LoopForest.ofGraph_nested hl.planned.loops).parent_eq_none_iff hL).1 hnone
  have hshown : ¬ Lowering.Hidden Ls L.header := by
    rintro ⟨M, hM, hc, hne⟩
    exact hne (honly M (hl.mem_loops.1 hM) hc ▸ rfl)
  have hlt := hl.disperses.shaped.lt_of_reachable (hl.disperses.sorted.reachable hLs)
  obtain ⟨node, hget, hst⟩ := hl.disperses.folded.shown (hl.disperses.size ▸ hlt) hshown
  cases hst with
  | loop hM he => exact ⟨_, hget, hl.id_rep hLs⟩
  | block hno _ => exact absurd rfl (hno L hLs)

/-- Any other block has nothing at its place. -/
theorem node_of_inside (hb : b.index < f.blocks.length) (hL : L ∈ a.loops.loops.toList)
    (hc : L.contains b = true) (hno : ∀ L ∈ a.loops.loops.toList, L.parent = none → L.header ≠ b) :
    t.nodes.get? b = some none := by
  refine hl.disperses.folded.hidden (hl.size_blocks ▸ hb) ?_
  by_cases hh : b = L.header
  · -- the block heads a loop that lies in another
    subst hh
    have hparent : L.parent ≠ none := fun hnone => hno L hL hnone rfl
    rw [ne_eq, (LoopForest.ofGraph_nested hl.planned.loops).parent_eq_none_iff hL] at hparent
    push Not at hparent
    obtain ⟨N, hN, hNc, hNL⟩ := hparent
    refine ⟨N, hl.mem_loops.2 hN, hNc, fun he => hNL ?_⟩
    exact hl.disperses.sorted.header_inj (hl.mem_loops.2 hN) (hl.mem_loops.2 hL) he.symm
  · exact ⟨L, hl.mem_loops.2 hL, hc, hh⟩

/-- The dispatchers in the tree are those of the loops. -/
theorem mem_loops_iff {l : LoopNode ν} : l ∈ t.loops ↔ ∃ L ∈ Ls, rep L.header = l := by
  rw [loops, hl.disperses.folded.allLoops.mem_iff, List.mem_map]

end Lowered

/-- **The shape of a lowered function.**  Each block and each loop of the function occurs in the tree
exactly once.  At the place of a block the outermost dispatcher has the block itself if it is in no
loop, the loop that it heads if no loop is around that, and else nothing.  The dispatcher of a loop
has the header's own block first, then in descending order the members that lie in no inner loop and
the loops directly inside; it finds each of these at its entry, and it has the exits of the loop. -/
theorem lower_shape {seed : τ} (h : ((lower f layout options create).run seed).1 = .ok t) :
    ∃ a, Analysis.ofFunc f layout options = .ok a ∧ t.Shape f a.loops := by
  obtain ⟨a, p, Ls, rep, _, hl⟩ := lower_lowered h
  have hnat := LoopForest.ofGraph_natural hl.planned.loops
  have hnest := LoopForest.ofGraph_nested hl.planned.loops
  refine ⟨a, hl.planned.ofFunc_eq, hl.disperses.folded.size.trans hl.size_blocks, hl.blocks_perm,
    hl.loops_perm, ?_, ?_, fun b hb => hl.node_of_outside hb, fun L => hl.node_of_outermost,
    fun b hb ⟨L, hL, hc⟩ => hl.node_of_inside hb hL hc, fun l hl' => ?_⟩
  · rw [blockCount_eq, ← List.length_map BlockNode.id, hl.blocks_perm.length_eq, Ident.length_firsts]
  · rw [loopCount_eq, ← List.length_map LoopNode.id, hl.loops_perm.length_eq, Ident.length_firsts]
  · obtain ⟨L, hL, rfl⟩ := hl.mem_loops_iff.1 hl'
    exact ⟨L, hl.mem_loops.1 hL,
      Lowering.Dispatches.shape hnat hnest hl.sorted hL hl.disperses.folded.loops hl.disperses.id⟩

/-- Two loops side by side in a loop, and a third inside one of them. -/
def nests : Func where
  name := "nests"
  params := []
  valueCount := 0
  blocks := [
    { id := ⟨0⟩, instrs := [], terminator := .br ⟨1⟩ },
    { id := ⟨1⟩, instrs := [], terminator := .br ⟨2⟩ },
    { id := ⟨2⟩, instrs := [], terminator := .condBr (.const .null) ⟨2⟩ ⟨3⟩ },
    { id := ⟨3⟩, instrs := [], terminator := .br ⟨4⟩ },
    { id := ⟨4⟩, instrs := [], terminator := .indirectBr (.const .null) [⟨4⟩, ⟨3⟩, ⟨1⟩, ⟨5⟩] },
    { id := ⟨5⟩, instrs := [], terminator := .ret none }]

theorem shape_of_nests : ∃ (t : Tree Block) (a : Analysis),
    ((lower nests (.onePerValue nests) {} fun b _ => (pure b : StateM Unit Block)).run ()).1 = .ok t ∧
    Analysis.ofFunc nests (.onePerValue nests) {} = .ok a ∧ t.Shape nests a.loops ∧
    a.loops.size = 4 ∧
    t.loops.map (fun l => (l.header, l.body.map Node.entry)) =
      [(⟨1⟩, [⟨1⟩, ⟨3⟩, ⟨2⟩]), (⟨3⟩, [⟨3⟩, ⟨4⟩]), (⟨4⟩, [⟨4⟩]), (⟨2⟩, [⟨2⟩])] := by
  have hloops : (((lower nests (.onePerValue nests) {} fun b _ =>
      (pure b : StateM Unit Block)).run ()).1.map fun t =>
        t.loops.map fun l => (l.header, l.body.map Node.entry)) =
      .ok [(⟨1⟩, [⟨1⟩, ⟨3⟩, ⟨2⟩]), (⟨3⟩, [⟨3⟩, ⟨4⟩]), (⟨4⟩, [⟨4⟩]), (⟨2⟩, [⟨2⟩])] := by
    decide +kernel
  cases ht : ((lower nests (.onePerValue nests) {} fun b _ =>
    (pure b : StateM Unit Block)).run ()).1 with
  | error e => rw [ht] at hloops; cases hloops
  | ok t =>
    rw [ht] at hloops
    obtain ⟨a, ha, hshape⟩ := lower_shape ht
    have hlist : t.loops.map (fun l => (l.header, l.body.map Node.entry)) = _ := Except.ok.inj hloops
    have hcount : t.loopCount = 4 := by
      rw [loopCount_eq]
      simpa using congrArg List.length hlist
    exact ⟨t, a, rfl, ha, hshape, hshape.loopCount.symm.trans hcount, hlist⟩

end Tree

end FlowTree
