import FlowTree.Proofs.Components
import FlowTree.Proofs.ForestLaws
import FlowTree.Proofs.Reducibility

/-!
# Outermost loops and components

Loops and strongly connected components are found in different ways, and where control flow is
reducible they agree: the outermost loops are the cyclic components that control gets to.

In a component, look at the block that the search finishes last.  An edge from the component into that
block does not lead to a block that was finished before its source, so it is a back edge.  All blocks
of the component reach the source of such an edge, so the component is the natural loop of the block.
No loop around it can be larger, since a loop never leaves the component of its header.

## Main statements

* `FlowGraph.SearchOrder.exists_header` — a cyclic component is a natural loop.
* `LoopForest.exists_root` — and that is an outermost loop.
* `LoopForest.roots_eq_cyclicComponents` — the outermost loops are the cyclic components.
-/

namespace FlowTree

open Relation

/-- Some member of a set is finished last. -/
theorem Before.exists_last {k : Kind} {finished : List (Ident k)} (hn : finished.Nodup)
    {P : Ident k → Prop} {i : Ident k} (hi : i ∈ finished) (hPi : P i) :
    ∃ l ∈ finished, P l ∧ ∀ j, P j → ¬ Before finished l j := by
  induction finished with
  | nil => cases hi
  | cons c rest ih =>
    obtain ⟨hc, hrest⟩ := List.nodup_cons.1 hn
    by_cases hPc : P c
    · refine ⟨c, List.mem_cons_self, hPc, ?_⟩
      rintro j - ⟨earlier, hs, hmem⟩
      rcases List.suffix_cons_iff.1 hs with heq | hsub
      · cases heq
        exact hc hmem
      · exact hc (hsub.subset (List.mem_cons_of_mem j hmem))
    · have hmem : i ∈ rest := by
        rcases List.mem_cons.1 hi with rfl | hi
        · exact absurd hPi hPc
        · exact hi
      obtain ⟨l, hl, hPl, hlast⟩ := ih hrest hmem
      refine ⟨l, List.mem_cons_of_mem c hl, hPl, ?_⟩
      rintro j hPj ⟨earlier, hs, hle⟩
      rcases List.suffix_cons_iff.1 hs with heq | hsub
      · cases heq
        exact hPc hPj
      · exact hlast j hPj ⟨earlier, hsub, hle⟩

/-! ## Components as loops -/

namespace FlowGraph

variable {g : FlowGraph} {a b h x : BlockId} {order c : List BlockId}

/-- A way that does not get around `h` leads on from `h`. -/
theorem avoids_or_reaches (h : BlockId) (hr : ReflTransGen g.Edge a b) :
    g.Avoids h a b ∨ ReflTransGen g.Edge h b := by
  induction hr using ReflTransGen.head_induction_on with
  | refl =>
    by_cases hb : b = h
    · exact .inr (hb ▸ .refl)
    · exact .inl (.refl hb)
  | @head a d had hdb ih =>
    by_cases ha : a = h
    · exact .inr (ha ▸ .head had hdb)
    · exact ih.imp_left (.head ha had)

theorem Dominates.reaches (hd : g.Dominates h b) (hb : g.Reachable b) : ReflTransGen g.Edge h b :=
  (avoids_or_reaches h (reachable_iff.1 hb)).resolve_left (dominates_iff.1 hd)

/-- On the way to another block, it is come to over a last edge. -/
theorem exists_last_edge (hne : a ≠ b) (hr : ReflTransGen g.Edge a b) :
    ∃ u, g.Avoids b a u ∧ g.Edge u b := by
  induction hr using ReflTransGen.head_induction_on with
  | refl => exact absurd rfl hne
  | @head a d had _ ih =>
    by_cases hd : d = b
    · exact ⟨a, .refl hne, hd ▸ had⟩
    · obtain ⟨u, hu, hub⟩ := ih hd
      exact ⟨u, .head hne had hu, hub⟩

theorem Mutual.reachable (hab : g.Mutual a b) (ha : g.Reachable a) : g.Reachable b :=
  reachable_iff.2 ((reachable_iff.1 ha).trans hab.1)

/-- A loop lies in the component of its header. -/
theorem NaturalLoop.mutual (hb : g.NaturalLoop h b) (hh : g.Reachable h) : g.Mutual h b := by
  have hd := hb.dominates
  rcases hb with rfl | ⟨hrb, u, hu, hbu⟩
  · exact .refl g b
  · exact ⟨hd.reaches hrb, hbu.reaches.tail hu.edge⟩

theorem BackEdge.mutual (hu : g.BackEdge a h) : g.Mutual h a :=
  ⟨hu.dominates.reaches hu.reachable, .single hu.edge⟩

/-- **A component with an edge inside it is the loop of one of its blocks**, if control gets to it and
retreating edges lead to dominators. -/
theorem SearchOrder.exists_header (ho : g.SearchOrder order)
    (hdom : ∀ u h, g.Retreats order u h → g.Dominates h u) (hx : g.Reachable x)
    (ha : g.Mutual x a) (hb : g.Mutual x b) (hab : g.Edge a b) :
    ∃ d, (∃ u, g.BackEdge u d) ∧ ∀ y, g.NaturalLoop d y ↔ g.Mutual x y := by
  obtain ⟨d, _, hxd, hlast⟩ := Before.exists_last ho.nodup ((ho.mem_iff x).2 hx) (Mutual.refl g x)
  have hback : ∀ {u}, g.Mutual x u → g.Edge u d → g.BackEdge u d := by
    intro u hu hud
    exact (ho.retreats_iff_backEdge hdom).1 ⟨hud, (ho.mem_iff u).2 (hu.reachable hx), hlast u hu⟩
  refine ⟨d, ?_, fun y => ⟨fun hy => hxd.trans (hy.mutual (hxd.reachable hx)), fun hy => ?_⟩⟩
  · by_cases hbd : b = d
    · exact ⟨a, hback ha (hbd ▸ hab)⟩
    · obtain ⟨u, hbu, hud⟩ := exists_last_edge hbd (hb.symm.trans hxd).1
      exact ⟨u, hback ⟨hb.1.trans hbu.reaches, .head hud hxd.2⟩ hud⟩
  · by_cases hyd : y = d
    · exact .inl hyd
    · obtain ⟨u, hyu, hud⟩ := exists_last_edge hyd (hy.symm.trans hxd).1
      exact .inr ⟨hy.reachable hx, u, hback ⟨hy.1.trans hyu.reaches, .head hud hxd.2⟩ hud, hyu⟩

/-- A component is cyclic if it has an edge inside it. -/
theorem isCyclic_iff (hc : g.IsComponent c) :
    g.isCyclic c = .ok true ↔ ∃ a ∈ c, ∃ b ∈ c, g.Edge a b := by
  rcases c with _ | ⟨a, _ | ⟨b, rest⟩⟩
  · exact absurd rfl hc.nonempty
  · simp only [isCyclic, bind_eq_ok, pure_eq_ok, decide_eq_true_eq, successors, Table.get_eq_ok_iff,
      List.mem_singleton, exists_eq_left]
    rfl
  · simp only [isCyclic, pure_eq_ok, true_iff]
    have ha : a ∈ a :: b :: rest := List.mem_cons_self
    have hab := (hc.mem_iff ha).1 (List.mem_cons_of_mem a List.mem_cons_self)
    have hne : a ≠ b := fun he =>
      Nat.lt_irrefl _ (he ▸ (List.pairwise_cons.1 hc.ascending).1 b List.mem_cons_self)
    -- the first edge on the way to the other block
    rcases hab.1.cases_head with he | ⟨d, had, hdb⟩
    · exact absurd he hne
    · exact ⟨a, ha, d, (hc.mem_iff ha).2 ⟨.single had, hdb.trans hab.2⟩, had⟩

end FlowGraph

/-! ## Outermost loops -/

namespace LoopForest

variable {g : FlowGraph} {limit : Option Nat} {forest : LoopForest} {L : Loop} {a b x : BlockId}

/-- Where there is a forest, retreating edges lead to dominators. -/
theorem ofGraph_searchOrder (h : ofGraph g limit = .ok forest) :
    ∃ order, g.SearchOrder order ∧ ∀ u h, g.Retreats order u h → g.Dominates h u := by
  obtain ⟨w, _, _, _, hw, _⟩ := ofGraph_cases h
  have hso := FlowGraph.walk_searchOrder hw
  exact ⟨_, hso, hso.reducible_iff.1 (reducible_of_ofGraph h)⟩

/-- **A component with an edge inside it is an outermost loop**, if control gets to it. -/
theorem exists_root (h : ofGraph g limit = .ok forest) (hx : g.Reachable x) (ha : g.Mutual x a)
    (hb : g.Mutual x b) (hab : g.Edge a b) :
    ∃ L ∈ forest.loops.toList, L.parent = none ∧ ∀ y, L.contains y = true ↔ g.Mutual x y := by
  have hnat := ofGraph_natural h
  obtain ⟨Ls, hLs⟩ := hnat.exists_sorted
  obtain ⟨order, ho, hdom⟩ := ofGraph_searchOrder h
  obtain ⟨d, hback, hd⟩ := ho.exists_header hdom hx ha hb hab
  obtain ⟨L, hL, rfl⟩ := (hnat.header_iff d).2 hback
  have hcontains : ∀ y, L.contains y = true ↔ g.Mutual x y := by
    intro y
    rw [hnat.contains_iff hL, hd]
  refine ⟨L, hL, ?_, hcontains⟩
  rw [(ofGraph_nested h).parent_eq_none_iff hL]
  intro M hM hML
  -- the header of a loop around `L` is in the same component
  have hmutual := ((hnat.contains_iff hM).1 hML).mutual (hnat.reachable_header hM)
  have hxL : g.Mutual x L.header := (hd _).1 (.inl rfl)
  exact (hnat.sorted hLs).antisymm ((hnat.mem_sorted hLs).2 hM) ((hnat.mem_sorted hLs).2 hL) hML
    ((hcontains _).2 (hxL.trans hmutual.symm))

/-- A loop that has the blocks of a component lists the same blocks. -/
theorem sort_members_eq {c : List BlockId} (h : ofGraph g limit = .ok forest)
    (hL : L ∈ forest.loops.toList) (hc : g.IsComponent c) (hx : x ∈ c)
    (hcontains : ∀ y, L.contains y = true ↔ g.Mutual x y) : Ident.sort L.members = c := by
  refine Ident.eq_of_ascending (Ident.pairwise_sort ((ofGraph_nested h).nodup_members hL))
    hc.ascending fun y => ?_
  rw [Ident.mem_sort, (ofGraph_natural h).mem_members hL, hcontains, hc.mem_iff hx]

/-- The blocks of an outermost loop are a cyclic component. -/
theorem root_isComponent {cs : List (List BlockId)} (h : ofGraph g limit = .ok forest)
    (hp : g.Partition cs) (hL : L ∈ forest.loops.toList) (hroot : L.parent = none) :
    Ident.sort L.members ∈ cs ∧ g.isCyclic (Ident.sort L.members) = .ok true ∧
      ∀ b ∈ Ident.sort L.members, g.Reachable b := by
  have hnat := ofGraph_natural h
  have hreach := hnat.reachable_header hL
  obtain ⟨u, hu⟩ := (hnat.header_iff L.header).1 ⟨L, hL, rfl⟩
  obtain ⟨M, hM, _, hcontains⟩ := exists_root h hreach hu.mutual (.refl g L.header) hu.edge
  obtain rfl : M = L := ((ofGraph_nested h).parent_eq_none_iff hL).1 hroot M hM
    ((hcontains _).2 (.refl g _))
  obtain ⟨w, _, _, _, hw, _⟩ := ofGraph_cases h
  obtain ⟨c, hc, hmem⟩ := List.mem_flatten.1 ((hp.mem_iff _).2 (FlowGraph.lt_of_walk hw hreach))
  have hcomponent := hp.component c hc
  rw [sort_members_eq h hL hcomponent hmem hcontains]
  refine ⟨hc, ?_, fun b hb => ((hcomponent.mem_iff hmem).1 hb).reachable hreach⟩
  rw [FlowGraph.isCyclic_iff hcomponent]
  exact ⟨u, (hcomponent.mem_iff hmem).2 hu.mutual, M.header, hmem, hu.edge⟩

/-- **The outermost loops are the cyclic components that control gets to.**  Each such component is
the set of blocks of exactly one loop without a parent, and no other set of blocks is. -/
theorem roots_eq_cyclicComponents {f : Func} (hf : FlowGraph.ofFunc f = .ok g)
    (h : ofGraph g limit = .ok forest) :
    ∃ roots cs, forest.roots = .ok roots ∧ g.components = .ok cs ∧
      (∀ L, L ∈ roots ↔ L ∈ forest.loops.toList ∧ L.parent = none) ∧
      (∀ c ∈ cs, ∃ r, g.isCyclic c = .ok r) ∧
      (roots.map fun L => Ident.sort L.members).Nodup ∧
      ∀ c, c ∈ roots.map (fun L => Ident.sort L.members) ↔
        c ∈ cs ∧ g.isCyclic c = .ok true ∧ ∀ b ∈ c, g.Reachable b := by
  have hnat := ofGraph_natural h
  obtain ⟨Ls, hLs⟩ := hnat.exists_sorted
  obtain ⟨cs, hcs, hlt⟩ := FlowGraph.exists_components (FlowGraph.ofFunc_describes hf).toShaped
  have hp := FlowGraph.components_partition hcs
  have hroots : ∀ L, L ∈ Ls.filter (fun L => L.parent.isNone) ↔
      L ∈ forest.loops.toList ∧ L.parent = none := by
    intro L
    rw [List.mem_filter, hnat.mem_sorted hLs, Option.isNone_iff_eq_none]
  refine ⟨_, cs, bind_eq_ok.2 ⟨Ls, hLs, rfl⟩, hcs, hroots,
    fun c hc => FlowGraph.exists_isCyclic (hlt c hc), ?_, fun c => ?_⟩
  · have hs := hnat.sorted hLs
    refine List.Nodup.map_on ?_ (hs.nodup.filter _)
    intro L hL M hM he
    -- loops with the same blocks hold each other's headers
    have hL := (List.mem_filter.1 hL).1
    have hM := (List.mem_filter.1 hM).1
    have hblocks : ∀ b, L.contains b = true ↔ M.contains b = true := by
      intro b
      rw [← hs.mem_members hL, ← hs.mem_members hM, ← Ident.mem_sort, he, Ident.mem_sort]
    exact hs.antisymm hL hM ((hblocks _).2 (hs.contains_header hM))
      ((hblocks _).1 (hs.contains_header hL))
  · rw [List.mem_map]
    constructor
    · rintro ⟨L, hL, rfl⟩
      obtain ⟨hL, hroot⟩ := (hroots L).1 hL
      exact root_isComponent h hp hL hroot
    · rintro ⟨hc, hcyclic, hreach⟩
      have hcomponent := hp.component c hc
      obtain ⟨a, ha, b, hb, hab⟩ := (FlowGraph.isCyclic_iff hcomponent).1 hcyclic
      obtain ⟨L, hL, hroot, hcontains⟩ := exists_root h (hreach a ha) (.refl g a)
        ((hcomponent.mem_iff ha).1 hb) hab
      exact ⟨L, (hroots L).2 ⟨hL, hroot⟩, sort_members_eq h hL hcomponent ha hcontains⟩

/-- A loop around a loop of one block, another loop of one block behind it, and two blocks that lead
to each other but that control never gets to. -/
def cycles : Func where
  name := "cycles"
  params := []
  valueCount := 0
  blocks := [
    { id := ⟨0⟩, instrs := [], terminator := .br ⟨1⟩ },
    { id := ⟨1⟩, instrs := [], terminator := .br ⟨2⟩ },
    { id := ⟨2⟩, instrs := [], terminator := .condBr (.const .null) ⟨2⟩ ⟨3⟩ },
    { id := ⟨3⟩, instrs := [], terminator := .condBr (.const .null) ⟨1⟩ ⟨4⟩ },
    { id := ⟨4⟩, instrs := [], terminator := .condBr (.const .null) ⟨4⟩ ⟨5⟩ },
    { id := ⟨5⟩, instrs := [], terminator := .ret none },
    { id := ⟨6⟩, instrs := [], terminator := .br ⟨7⟩ },
    { id := ⟨7⟩, instrs := [], terminator := .br ⟨6⟩ }]

theorem roots_of_cycles : ∃ g forest cs, FlowGraph.ofFunc cycles = .ok g ∧
    ofGraph g none = .ok forest ∧ g.components = .ok cs ∧
    ∀ c, c ∈ [Ident.sort [⟨1⟩, ⟨3⟩, ⟨2⟩], Ident.sort [⟨4⟩]] ↔
      c ∈ cs ∧ g.isCyclic c = .ok true ∧ ∀ b ∈ c, g.Reachable b := by
  have hrun : ((FlowGraph.ofFunc cycles).bind fun g => (ofGraph g none).bind fun forest =>
      (forest.roots : Attempt (List Loop)).map (List.map Loop.members)) =
      .ok [[⟨1⟩, ⟨3⟩, ⟨2⟩], [⟨4⟩]] := by decide +kernel
  cases hg : FlowGraph.ofFunc cycles with
  | error e => rw [hg] at hrun; cases hrun
  | ok g =>
    cases hf : ofGraph g none with
    | error e => rw [hg] at hrun; simp only [Except.bind, hf] at hrun; cases hrun
    | ok forest =>
      obtain ⟨roots, cs, hroots, hcs, _, _, _, hiff⟩ := roots_eq_cyclicComponents hg hf
      rw [hg] at hrun
      simp only [Except.bind, hf, hroots, liftM_ok] at hrun
      have hmembers : roots.map Loop.members = [[⟨1⟩, ⟨3⟩, ⟨2⟩], [⟨4⟩]] := Except.ok.inj hrun
      have hsorted : (roots.map fun L => Ident.sort L.members) =
          [Ident.sort [⟨1⟩, ⟨3⟩, ⟨2⟩], Ident.sort [⟨4⟩]] := by
        rw [← Function.comp_def Ident.sort, ← List.map_map, hmembers]
        rfl
      exact ⟨g, forest, cs, rfl, hf, hcs, fun c => hsorted ▸ hiff c⟩

end LoopForest

end FlowTree
