import FlowTree.Lowering.Lower
import FlowTree.Proofs.NaturalLoops
import FlowTree.Proofs.TreeContents

/-!
# Folding

What the dispatchers of a tree hold after all loops have been folded, inner loops first.

A block is *hidden* once a loop that it belongs to, and does not head, has been folded.  The
outermost dispatcher has a node for exactly the blocks that are not hidden: for a header the whole
loop, and for any other block its own node.  A loop's dispatcher has a place for exactly the blocks
that belong to it *directly*: those that no loop inside it hides.

The node of a folded loop is named by the header, as `rep h`, so that nothing here is recursive: a
dispatcher that holds an inner loop holds `rep` of its header, whatever that is.

## Main statements

* `Lowering.foldLoop_folded` — one loop folded.
* `Lowering.foldLoops_folded` — all loops folded.
-/

namespace FlowTree

/-! ## Sorted loops -/

/-- The natural loops of a graph in a list, inner loops first. -/
structure LoopForest.Sorted (g : FlowGraph) (Ls : List Loop) : Prop where
  nodup : Ls.Nodup
  contains_iff : ∀ {L b}, L ∈ Ls → (L.contains b = true ↔ g.NaturalLoop L.header b)
  reachable : ∀ {L}, L ∈ Ls → g.Reachable L.header
  header_inj : ∀ {L M}, L ∈ Ls → M ∈ Ls → L.header = M.header → L = M
  mem_members : ∀ {L b}, L ∈ Ls → (b ∈ L.members ↔ L.contains b = true)
  inner_first : ∀ {Q L later M}, Ls = Q ++ L :: later → M ∈ Ls → M ≠ L →
    L.contains M.header = true → M ∈ Q

/-- The loops are listed in the order of their names. -/
theorem LoopForest.Natural.map_id_sorted {g : FlowGraph} {forest : LoopForest} {Ls : List Loop}
    (hn : Natural g forest) (h : forest.sorted = .ok Ls) : Ls.map Loop.id = forest.order := by
  have hall := mapM_eq_ok.1 h
  simp only [LoopForest.get, Table.get_eq_ok_iff] at hall
  rw [← List.forall₂_eq_eq_eq, List.forall₂_map_left_iff]
  exact (hall.imp fun l L hL => hn.id hL).flip

theorem LoopForest.Natural.sorted {g : FlowGraph} {forest : LoopForest} {Ls : List Loop}
    (hn : Natural g forest) (h : forest.sorted = .ok Ls) : Sorted g Ls := by
  have hids := hn.map_id_sorted h
  have hget : ∀ {L}, L ∈ Ls → forest.loops.get? L.id = some L := by
    intro L hL
    obtain ⟨l, _, hl⟩ := (mem_of_mapM h).1 hL
    rw [LoopForest.get, Table.get_eq_ok_iff] at hl
    rw [hn.id hl]
    exact hl
  have hmem : ∀ {L}, L ∈ Ls → L ∈ forest.loops.toList :=
    fun hL => Table.mem_toList.2 ⟨_, hget hL⟩
  refine ⟨?_, fun hL => hn.contains_iff (hmem hL), fun hL => hn.reachable_header (hmem hL),
    fun hL hM => hn.header_inj (hmem hL) (hmem hM), fun hL => hn.mem_members (hmem hL), ?_⟩
  · exact List.Nodup.of_map _ (hids ▸ hn.order_nodup)
  · rintro Q L later M rfl hM hne hh
    have hL : L ∈ Q ++ L :: later := by simp
    have hid : M.id ≠ L.id := by
      intro he
      have hLM := hget hM
      rw [he, hget hL] at hLM
      exact hne (Option.some.inj hLM).symm
    have hbefore := hn.inner_first (hget hL) (hget hM) hid hh
    have hs : (L.id :: (Q.map Loop.id).reverse) <:+ forest.order.reverse := by
      rw [← hids]
      simp
    rw [Before.iff_mem (List.nodup_reverse.2 hn.order_nodup) hs, List.mem_reverse,
      List.mem_map] at hbefore
    obtain ⟨M', hM', he⟩ := hbefore
    have hMM := hget (List.mem_append_left (L :: later) hM')
    rw [he, hget hM] at hMM
    exact Option.some.inj hMM ▸ hM'

namespace LoopForest.Sorted

variable {g : FlowGraph} {Ls : List Loop} {L M : Loop} {b u v : BlockId}

theorem contains_header (hs : Sorted g Ls) (hL : L ∈ Ls) : L.contains L.header = true :=
  (hs.contains_iff hL).2 (.inl rfl)

/-- A loop that holds the header of another holds all of it. -/
theorem trans (hs : Sorted g Ls) (hL : L ∈ Ls) (hM : M ∈ Ls) (hh : L.contains M.header = true)
    (hb : M.contains b = true) : L.contains b = true := by
  rw [hs.contains_iff hL] at hh ⊢
  exact hh.trans ((hs.contains_iff hM).1 hb) (hs.reachable hL)

theorem nested (hs : Sorted g Ls) (hL : L ∈ Ls) (hM : M ∈ Ls) (hb : L.contains b = true)
    (hb' : M.contains b = true) : L.contains M.header = true ∨ M.contains L.header = true := by
  rw [hs.contains_iff hL, hs.contains_iff hM] at *
  exact FlowGraph.NaturalLoop.nested (hs.reachable hL) (hs.reachable hM) hb hb'

theorem antisymm (hs : Sorted g Ls) (hL : L ∈ Ls) (hM : M ∈ Ls)
    (h : L.contains M.header = true) (h' : M.contains L.header = true) : L = M := by
  have hd := ((hs.contains_iff hL).1 h).dominates
  have hd' := ((hs.contains_iff hM).1 h').dominates
  exact hs.header_inj hL hM (hd.antisymm hd' (hs.reachable hM))

/-- Control enters a loop at its header. -/
theorem of_edge (hs : Sorted g Ls) (hL : L ∈ Ls) (hu : g.Reachable u) (huv : g.Edge u v)
    (hv : L.contains v = true) (hne : v ≠ L.header) : L.contains u = true := by
  rw [hs.contains_iff hL] at hv ⊢
  exact hv.of_edge hu huv hne

/-- No loop but its own holds the entry. -/
theorem eq_header_of_entry (hs : Sorted g Ls) (hL : L ∈ Ls)
    (h : L.contains BlockId.entry = true) : BlockId.entry = L.header := by
  have hd := ((hs.contains_iff hL).1 h).dominates
  have hmem := hd [BlockId.entry] ⟨rfl, rfl, .singleton _⟩
  exact (List.mem_singleton.1 hmem).symm

/-- A loop that comes earlier does not hold the header of one that comes later. -/
theorem not_contains_header {Q later : List Loop} (hs : Sorted g Ls) (hsplit : Ls = Q ++ L :: later)
    (hM : M ∈ Q) : M.contains L.header = false := by
  by_contra hh
  rw [Bool.not_eq_false] at hh
  obtain ⟨before, between, rfl⟩ := List.append_of_mem hM
  have hn : (before ++ (M :: (between ++ L :: later))).Nodup := by
    have := hs.nodup
    rw [hsplit] at this
    simpa using this
  have hdisjoint := (List.nodup_append.1 hn).2.2
  have hML : L ≠ M := by
    rintro rfl
    exact (List.nodup_cons.1 (List.nodup_append.1 hn).2.1).1 (by simp)
  have hsplit' : Ls = before ++ M :: (between ++ L :: later) := by
    rw [hsplit]
    simp
  have hL := hs.inner_first hsplit' (by rw [hsplit]; simp) hML hh
  exact hdisjoint L hL L (by simp) rfl

end LoopForest.Sorted

namespace Lowering

variable {ν : Type} {g : FlowGraph} {Ls Q later : List Loop} {L M : Loop} {v : BlockId}
  {p : Table .block (BlockNode ν)} {rep : BlockId → LoopNode ν} {nodes nodes' : TopNodes ν}

/-! ## Taking nodes out -/

/-- `nodes'` is `nodes` without the nodes of some blocks, which are in `taken`. -/
structure Taken (nodes nodes' : TopNodes ν) (bs : List BlockId) (taken : List (BlockId × Node ν)) :
    Prop where
  size : nodes'.size = nodes.size
  lt : ∀ v ∈ bs, v.index < nodes.size
  get? : ∀ v, nodes'.get? v = if v ∈ bs then (nodes.get? v).map fun _ => none else nodes.get? v
  mem_iff : ∀ v node, (v, node) ∈ taken ↔ v ∈ bs ∧ nodes.get? v = some (some node)
  sublist : (taken.map Prod.fst).Sublist bs
  held : nodes.held.Perm (nodes'.held ++ taken.map Prod.snd)

theorem takeNode_cases {state state' : TopNodes ν × List (BlockId × Node ν)} {b : BlockId}
    (h : takeNode state b = .ok state') :
    (state.1.get? b = some none ∧ state' = state) ∨
      ∃ node, state.1.get? b = some (some node) ∧ state.1.set b none = .ok state'.1 ∧
        state'.2 = state.2 ++ [(b, node)] := by
  obtain ⟨nodes, taken⟩ := state
  simp only [takeNode, bind_eq_ok, Table.get_eq_ok_iff] at h
  obtain ⟨entry, hentry, h⟩ := h
  cases entry with
  | none =>
    rw [pure_eq_ok] at h
    exact .inl ⟨hentry, h.symm⟩
  | some node =>
    simp only [bind_eq_ok, pure_eq_ok] at h
    obtain ⟨nodes', hset, rfl⟩ := h
    exact .inr ⟨node, hentry, hset, rfl⟩

theorem takeNodes_taken {bs : List BlockId} {taken : List (BlockId × Node ν)}
    (h : takeNodes nodes bs = .ok (nodes', taken)) : Taken nodes nodes' bs taken := by
  refine foldlM_induction (fun passed (state : TopNodes ν × List (BlockId × Node ν)) =>
    Taken nodes state.1 passed state.2) h ⟨rfl, by simp, by simp, by simp, .slnil, by simp⟩ ?_
  intro passed b later state state' _ ht hstep
  have hb := ht.get? b
  have hlt : ∀ {entry}, state.1.get? b = some entry → ∀ v ∈ passed ++ [b], v.index < nodes.size := by
    intro entry hentry v hv
    rcases List.mem_append.1 hv with hv | hv
    · exact ht.lt v hv
    · cases List.mem_singleton.1 hv
      rw [← ht.size]
      exact Table.lt_of_get? hentry
  rcases takeNode_cases hstep with ⟨hnone, rfl⟩ | ⟨node, hnode, hset, htaken⟩
  · -- nothing was there, now or before
    refine ⟨ht.size, hlt hnone, ?_, ?_, ht.sublist.trans (List.sublist_append_left _ _), ht.held⟩
    · intro v
      rw [ht.get? v]
      by_cases hv : v ∈ passed
      · simp [hv]
      · by_cases hvb : v = b
        · subst hvb
          rw [if_neg hv, hnone] at hb
          simp [hv, ← hb]
        · simp [hv, hvb]
    · intro v node
      rw [ht.mem_iff, List.mem_append, List.mem_singleton, or_and_right]
      refine ⟨.inl, ?_⟩
      rintro (hv | ⟨rfl, hnode⟩)
      · exact hv
      · rw [hnode, hnone] at hb
        split at hb
        · exact ⟨‹_›, hnode⟩
        · cases hb
  · have hbp : b ∉ passed := by
      intro hbp
      rw [if_pos hbp, hnode] at hb
      obtain ⟨_, _, hb⟩ := Option.map_eq_some_iff.1 hb.symm
      cases hb
    rw [if_neg hbp, hnode] at hb
    refine ⟨(Table.size_of_set hset).trans ht.size, hlt hnode, ?_, ?_, ?_, ?_⟩
    · intro v
      rw [Table.get?_of_set hset, ht.get? v]
      by_cases hvb : b = v
      · subst hvb
        simp [← hb]
      · simp [hvb, Ne.symm hvb]
    · intro v node'
      rw [htaken, List.mem_append, ht.mem_iff, List.mem_append, List.mem_singleton,
        List.mem_singleton, or_and_right, Prod.mk.injEq]
      refine or_congr_right (and_congr_right ?_)
      rintro rfl
      rw [← hb]
      simp [eq_comm]
    · rw [htaken, List.map_append]
      exact ht.sublist.append (List.Sublist.refl [b])
    · rw [htaken, List.map_append, ← List.append_assoc]
      have hleft := (TopNodes.held_of_remove hnode hset).append_right (state.2.map Prod.snd)
      exact (ht.held.trans hleft).trans (List.perm_append_singleton _ _).symm

/-- Nodes that are taken out and put back as the contents of one node: all that was held is still
held, and `own` comes in with that node. -/
theorem Taken.contents_of_place {γ : Type} {left : TopNodes ν} {bs : List BlockId}
    {taken : List (BlockId × Node ν)} {b : BlockId} {node : Node ν}
    (ht : Taken nodes left bs taken) (hb : b ∈ bs) (hset : left.set b (some node) = .ok nodes')
    (contents : Node ν → List γ) (own : List γ)
    (hnode : contents node = own ++ (taken.map Prod.snd).flatMap contents) :
    (nodes'.held.flatMap contents).Perm (own ++ nodes.held.flatMap contents) := by
  have hempty : left.get? b = some none := by
    obtain ⟨entry, hentry⟩ := Table.exists_get? (ht.lt b hb)
    rw [ht.get? b, if_pos hb, hentry]
    rfl
  have hplaced := (TopNodes.held_of_place hempty hset).flatMap_right contents
  rw [List.flatMap_cons, hnode, List.append_assoc] at hplaced
  have htaken := ht.held.flatMap_right contents
  rw [List.flatMap_append] at htaken
  exact hplaced.trans ((htaken.trans List.perm_append_comm).symm.append_left own)

/-! ## Places -/

theorem getElem?_of_place? {taken : List (BlockId × Node ν)} {k : Nat}
    (h : (loopNode L taken).place? v = some k) : ∃ node, taken[k]? = some (v, node) := by
  obtain ⟨l₁, l₂, heq, _⟩ := List.lookup_eq_some_iff.1 h
  have hmem : (v, k) ∈ (loopNode L taken).places := by
    rw [heq]
    simp
  simp only [loopNode, List.mem_map, Prod.mk.injEq] at hmem
  obtain ⟨⟨⟨b, node⟩, place⟩, hz, rfl, rfl⟩ := hmem
  exact ⟨node, List.mk_mem_zipIdx_iff_getElem?.1 hz⟩

theorem exists_place? {taken : List (BlockId × Node ν)} {node : Node ν} (h : (v, node) ∈ taken) :
    ∃ k, (loopNode L taken).place? v = some k := by
  cases hp : (loopNode L taken).place? v with
  | some k => exact ⟨k, rfl⟩
  | none =>
    obtain ⟨k, hk⟩ := List.mem_iff_getElem?.1 h
    have hmem : (v, k) ∈ (loopNode L taken).places :=
      List.mem_map.2 ⟨((v, node), k), List.mk_mem_zipIdx_iff_getElem?.2 hk, rfl⟩
    have := List.lookup_eq_none_iff.1 hp (v, k) hmem
    simp at this

/-! ## Dispatchers -/

/-- Block `v` belongs to loop `L`, and to a loop inside `L` at most as its header. -/
def Direct (Ls : List Loop) (L : Loop) (v : BlockId) : Prop :=
  L.contains v = true ∧ ∀ M ∈ Ls, M ≠ L → L.contains M.header = true → M.contains v = true →
    v = M.header

/-- Block `v` belongs to some loop that it does not head. -/
def Hidden (Ls : List Loop) (v : BlockId) : Prop :=
  ∃ M ∈ Ls, M.contains v = true ∧ v ≠ M.header

/-- What a dispatcher holds for block `v`: the loop that `v` heads, or else its own node. -/
inductive StandsFor (p : Table .block (BlockNode ν)) (Ls : List Loop)
    (rep : BlockId → LoopNode ν) (v : BlockId) : Node ν → Prop
  | loop {M : Loop} : M ∈ Ls → M.header = v → StandsFor p Ls rep v (.loop (rep v))
  | block {n : BlockNode ν} : (∀ M ∈ Ls, M.header ≠ v) → p.get? v = some n →
    StandsFor p Ls rep v (.block n)

/-- What the dispatcher of loop `L` holds: at the first place the header's own node, at other places
what stands for the blocks that belong to the loop directly.  The places are in the order of the
members. -/
structure Dispatches (p : Table .block (BlockNode ν)) (Ls : List Loop) (rep : BlockId → LoopNode ν)
    (L : Loop) : Prop where
  header : (rep L.header).place? L.header = some 0
  first : ∃ n, p.get? L.header = some n ∧ (rep L.header).body[0]? = some (.block n)
  place : ∀ {v}, Direct Ls L v → v ≠ L.header → ∃ k node, (rep L.header).place? v = some k ∧
    (rep L.header).body[k]? = some node ∧ StandsFor p Ls rep v node
  absent : ∀ {v}, ¬ Direct Ls L v → (rep L.header).place? v = none
  made : ∃ taken, rep L.header = loopNode L taken ∧ (taken.map Prod.fst).Sublist L.members

/-- The outermost dispatcher after the loops of `Q`, out of all loops `Ls`, have been folded.  No block
and no loop has been lost or doubled. -/
structure Folded (p : Table .block (BlockNode ν)) (Ls Q : List Loop) (rep : BlockId → LoopNode ν)
    (nodes : TopNodes ν) : Prop where
  size : nodes.size = p.size
  hidden : ∀ {v}, v.index < p.size → Hidden Q v → nodes.get? v = some none
  shown : ∀ {v}, v.index < p.size → ¬ Hidden Q v → ∃ node, nodes.get? v = some (some node) ∧
    StandsFor p Q rep v node
  loops : ∀ {L}, L ∈ Q → Dispatches p Ls rep L
  allBlocks : (nodes.held.flatMap Node.blocks).Perm p.toList
  allLoops : (nodes.held.flatMap Node.loops).Perm (Q.map fun L => rep L.header)

theorem StandsFor.congr {rep' : BlockId → LoopNode ν} {Ls' : List Loop} {node : Node ν}
    (h : StandsFor p Ls rep v node) (hrep : rep' v = rep v)
    (hheads : (∃ M ∈ Ls, M.header = v) ↔ ∃ M ∈ Ls', M.header = v) :
    StandsFor p Ls' rep' v node := by
  cases h with
  | loop hM he =>
    obtain ⟨M', hM', he'⟩ := hheads.1 ⟨_, hM, he⟩
    exact hrep ▸ .loop hM' he'
  | block hno hn => exact .block (fun M hM he => by
      obtain ⟨M', hM', he'⟩ := hheads.2 ⟨M, hM, he⟩
      exact hno M' hM' he') hn

theorem hidden_append_singleton :
    Hidden (Q ++ [L]) v ↔ Hidden Q v ∨ (L.contains v = true ∧ v ≠ L.header) := by
  simp [Hidden, or_and_right, exists_or]

section Fold

variable (hs : LoopForest.Sorted g Ls) (hsplit : Ls = Q ++ L :: later)

include hs hsplit

/-- When a loop's turn comes its header is not hidden. -/
theorem not_hidden_header : ¬ Hidden Q L.header := by
  rintro ⟨M, hM, hc, _⟩
  rw [hs.not_contains_header hsplit hM] at hc
  cases hc

/-- Until a loop's turn comes its header is not the header of a folded loop. -/
theorem header_ne (hM : M ∈ Q) : M.header ≠ L.header := by
  intro he
  have hMs : M ∈ Ls := by rw [hsplit]; simp [hM]
  have hc := hs.not_contains_header hsplit hM
  rw [← he, hs.contains_header hMs] at hc
  cases hc

/-- When a loop's turn comes, exactly the blocks that do not belong to it directly are hidden in
it. -/
theorem direct_iff (hv : L.contains v = true) : Direct Ls L v ↔ ¬ Hidden Q v := by
  have hL : L ∈ Ls := by rw [hsplit]; simp
  have hsub : ∀ {M}, M ∈ Q → M ∈ Ls := fun hM => by rw [hsplit]; simp [hM]
  constructor
  · rintro ⟨_, hd⟩ ⟨M, hM, hc, hne⟩
    have hno := hs.not_contains_header hsplit hM
    rcases hs.nested hL (hsub hM) hv hc with h | h
    · have hML : M ≠ L := fun e => header_ne hs hsplit hM (e ▸ rfl)
      exact hne (hd M (hsub hM) hML h hc)
    · rw [hno] at h
      cases h
  · intro hh
    refine ⟨hv, fun M hM hne hc hcv => ?_⟩
    by_contra hvh
    exact hh ⟨M, hs.inner_first hsplit hM hne hc, hcv, hvh⟩

/-- The loops inside `L` have been folded, so what stands for a block of `L` is settled. -/
theorem heads_iff (hv : L.contains v = true) (hne : v ≠ L.header) :
    (∃ M ∈ Q, M.header = v) ↔ ∃ M ∈ Ls, M.header = v := by
  constructor
  · rintro ⟨M, hM, he⟩
    exact ⟨M, by rw [hsplit]; simp [hM], he⟩
  · rintro ⟨M, hM, rfl⟩
    exact ⟨M, hs.inner_first hsplit hM (fun e => hne (e ▸ rfl)) hv, rfl⟩

/-- A dispatcher made earlier does not hold the loop that is folded now. -/
theorem Dispatches.update (hM : M ∈ Q) (hd : Dispatches p Ls rep M) (l : LoopNode ν) :
    Dispatches p Ls (fun b => if b = L.header then l else rep b) M := by
  have hne := header_ne hs hsplit hM
  refine ⟨?_, ?_, ?_, ?_, by simpa [hne] using hd.made⟩
  · simpa [hne] using hd.header
  · simpa [hne] using hd.first
  · intro v hv hvh
    obtain ⟨k, node, hk, hnode, hst⟩ := hd.place hv hvh
    refine ⟨k, node, by simpa [hne] using hk, by simpa [hne] using hnode, hst.congr ?_ Iff.rfl⟩
    have hvL : v ≠ L.header := by
      rintro rfl
      have hc := hs.not_contains_header hsplit hM
      rw [hv.1] at hc
      cases hc
    simp [hvL]
  · intro v hv
    simpa [hne] using hd.absent hv

/-- The dispatcher of a loop over what is left of its members. -/
theorem dispatches_loopNode {taken : List (BlockId × Node ν)} (hf : Folded p Ls Q rep nodes)
    (hlt : ∀ b ∈ L.members, b.index < p.size)
    (htaken : ∀ v node, (v, node) ∈ taken ↔ v ∈ L.members ∧ nodes.get? v = some (some node))
    (hsub : (taken.map Prod.fst).Sublist L.members)
    (hplace : (loopNode L taken).place? L.header = some 0) :
    Dispatches p Ls (fun b => if b = L.header then loopNode L taken else rep b) L := by
  have hL : L ∈ Ls := by rw [hsplit]; simp
  have hbody : ∀ {k : Nat} {v node}, taken[k]? = some (v, node) →
      (loopNode L taken).body[k]? = some node := by
    intro k v node hk
    simp [loopNode, hk]
  have hshown : ∀ {v node}, v ∈ L.members → nodes.get? v = some (some node) →
      ¬ Hidden Q v ∧ StandsFor p Q rep v node := by
    intro v node hv hget
    have hnot : ¬ Hidden Q v := by
      intro hh
      rw [hf.hidden (hlt v hv) hh] at hget
      cases hget
    obtain ⟨node', hget', hst⟩ := hf.shown (hlt v hv) hnot
    rw [hget] at hget'
    cases hget'
    exact ⟨hnot, hst⟩
  refine ⟨by simpa using hplace, ?_, ?_, ?_, ⟨taken, if_pos rfl, hsub⟩⟩
  · obtain ⟨node, hk⟩ := getElem?_of_place? hplace
    obtain ⟨hmem, hget⟩ := (htaken _ _).1 (List.mem_of_getElem? hk)
    obtain ⟨_, hst⟩ := hshown hmem hget
    cases hst with
    | loop hM he => exact absurd he (header_ne hs hsplit hM)
    | block _ hn => exact ⟨_, hn, by simpa using hbody hk⟩
  · intro v hv hvh
    have hmem : v ∈ L.members := (hs.mem_members hL).2 hv.1
    have hnot := (direct_iff hs hsplit hv.1).1 hv
    obtain ⟨node, hget, hst⟩ := hf.shown (hlt v hmem) hnot
    obtain ⟨k, hk⟩ := exists_place? (L := L) ((htaken v node).2 ⟨hmem, hget⟩)
    obtain ⟨node', hk'⟩ := getElem?_of_place? hk
    obtain ⟨_, hget'⟩ := (htaken _ _).1 (List.mem_of_getElem? hk')
    rw [hget] at hget'
    cases hget'
    refine ⟨k, node, by simpa using hk, by simpa using hbody hk', ?_⟩
    exact hst.congr (by simp [hvh]) (heads_iff hs hsplit hv.1 hvh)
  · intro v hv
    simp only [if_true]
    cases hp : (loopNode L taken).place? v with
    | none => rfl
    | some k =>
      obtain ⟨node, hk⟩ := getElem?_of_place? hp
      obtain ⟨hmem, hget⟩ := (htaken _ _).1 (List.mem_of_getElem? hk)
      exact absurd ((direct_iff hs hsplit ((hs.mem_members hL).1 hmem)).2 (hshown hmem hget).1) hv

/-- **Folding one loop.** -/
theorem foldLoop_folded (hf : Folded p Ls Q rep nodes) (h : foldLoop nodes L = .ok nodes') :
    ∃ rep', Folded p Ls (Q ++ [L]) rep' nodes' := by
  have hL : L ∈ Ls := by rw [hsplit]; simp
  simp only [foldLoop, bind_eq_ok, liftM_eq_ok] at h
  obtain ⟨⟨left, taken⟩, htake, h⟩ := h
  split at h
  case isFalse => cases h
  rename_i hplace
  have ht := takeNodes_taken htake
  have hset := liftM_eq_ok.1 h
  have hlt : ∀ b ∈ L.members, b.index < p.size := hf.size ▸ ht.lt
  refine ⟨fun b => if b = L.header then loopNode L taken else rep b, ?_, ?_, ?_, ?_, ?_, ?_⟩
  · rw [Table.size_of_set hset, ht.size, hf.size]
  · intro v hv hh
    rw [hidden_append_singleton] at hh
    have hvL : L.header ≠ v := by
      rintro rfl
      rcases hh with hh | ⟨_, hne⟩
      · exact not_hidden_header hs hsplit hh
      · exact hne rfl
    rw [Table.get?_of_set hset, if_neg hvL, ht.get? v]
    split
    · rw [Option.map_eq_some_iff]
      obtain ⟨entry, hentry⟩ := Table.exists_get? (hf.size.symm ▸ hv : v.index < nodes.size)
      exact ⟨entry, hentry, rfl⟩
    · rename_i hmem
      rcases hh with hh | ⟨hc, _⟩
      · exact hf.hidden hv hh
      · exact absurd ((hs.mem_members hL).2 hc) hmem
  · intro v hv hh
    rw [hidden_append_singleton, not_or] at hh
    rw [Table.get?_of_set hset]
    by_cases hvL : L.header = v
    · subst hvL
      refine ⟨_, if_pos rfl, ?_⟩
      have hst : StandsFor p (Q ++ [L]) (fun b => if b = L.header then loopNode L taken else rep b)
          L.header _ := .loop (by simp) rfl
      simpa using hst
    · have hmem : v ∉ L.members := fun hm =>
        hh.2 ⟨(hs.mem_members hL).1 hm, Ne.symm hvL⟩
      rw [if_neg hvL, ht.get? v, if_neg hmem]
      obtain ⟨node, hget, hst⟩ := hf.shown hv hh.1
      refine ⟨node, hget, hst.congr (by simp [Ne.symm hvL]) ?_⟩
      simp [or_and_right, exists_or, hvL]
  · intro M hM
    rcases List.mem_append.1 hM with hM | hM
    · exact (hf.loops hM).update hs hsplit hM _
    · cases List.mem_singleton.1 hM
      exact dispatches_loopNode hs hsplit hf hlt ht.mem_iff ht.sublist hplace
  · refine (ht.contents_of_place List.mem_cons_self hset Node.blocks [] ?_).trans hf.allBlocks
    rw [Node.blocks, LoopNode.blocks_eq]
    rfl
  · refine (ht.contents_of_place List.mem_cons_self hset Node.loops [loopNode L taken] ?_).trans ?_
    · rw [Node.loops, LoopNode.loops_eq]
      rfl
    · have hQ : Q.map (fun M => if M.header = L.header then loopNode L taken else rep M.header) =
          Q.map fun M => rep M.header :=
        List.map_congr_left fun M hM => if_neg (header_ne hs hsplit hM)
      have hlast : ([L].map fun M => if M.header = L.header then loopNode L taken else rep M.header) =
          [loopNode L taken] := by simp
      rw [List.map_append, hQ, hlast]
      exact (hf.allLoops.append_left [loopNode L taken]).trans List.perm_append_comm

end Fold

/-- Before any loop is folded, the outermost dispatcher holds the blocks. -/
theorem exists_folded_nil (p : Table .block (BlockNode ν)) (Ls : List Loop) :
    ∃ rep, Folded p Ls [] rep (Table.ofList (p.toList.map fun n => some (Node.block n))) := by
  refine ⟨fun b => ⟨⟨0⟩, b, [], [], []⟩, by simp, ?_, ?_, ?_, ?_, ?_⟩
  · rintro v _ ⟨M, hM, _⟩
    cases hM
  · intro v hv _
    obtain ⟨n, hn⟩ := Table.exists_get? hv
    refine ⟨.block n, ?_, .block (fun M hM => by cases hM) hn⟩
    simp [Table.getElem?_toList, hn]
  · intro L hL
    cases hL
  · simp [TopNodes.held, List.filterMap_map, Node.blocks, List.flatMap_map]
  · simp [TopNodes.held, Node.loops]

/-- **Folding all loops.** -/
theorem foldLoops_folded (hs : LoopForest.Sorted g Ls)
    (h : Ls.foldlM foldLoop (Table.ofList (p.toList.map fun n => some (Node.block n))) = .ok nodes) :
    ∃ rep, Folded p Ls Ls rep nodes := by
  refine foldlM_induction (fun Q nodes => ∃ rep, Folded p Ls Q rep nodes) h
    (exists_folded_nil p Ls) ?_
  rintro Q L later nodes nodes' hsplit ⟨rep, hf⟩ hstep
  exact foldLoop_folded hs hsplit hf hstep

end Lowering

end FlowTree
