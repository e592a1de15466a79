import FlowTree.Loop.Forest
import FlowTree.Proofs.Absorption

/-!
# The loops of a forest

A loop forest lists exactly the natural loops of its flow graph, inner loops first.  Three things
come together: what the search reports (`Discovery.Complete`), what the reports have to do with
natural loops in a graph whose entry reports nothing (`IsReport.naturalLoop_iff`), and absorption,
which makes each loop complete (`Outlines.Absorbed.mem_iff`).

`LoopForest.Natural` says all that later developments need to know about a forest, so that none of
them looks at discovery again.

## Main statements

* `LoopForest.ofGraph_natural` — the forest of a graph lists its natural loops, inner loops first.
* `LoopForest.loops_eq_naturalLoops` — headers and members of the loops, spelled out.
-/

namespace FlowTree

open Relation

/-! ## Outlines -/

namespace Outlines

variable {g : FlowGraph} {d : Discovery} {os os' : Outlines} {l l' : LoopId} {o o' : Outline}
  {finished : List BlockId} {escaping : LoopSet}

/-- The outlines of the natural loops of a graph, in an order in which inner loops come first. -/
structure Natural (g : FlowGraph) (headers : List BlockId) (order : List LoopId)
    (os : Outlines) : Prop extends Shaped headers os where
  headers_nodup : headers.Nodup
  mem_headers : ∀ h, h ∈ headers ↔ ∃ u, g.BackEdge u h
  mem_iff : ∀ {l o b}, os.get? l = some o → (b ∈ o.members ↔ g.NaturalLoop o.header b)
  order_nodup : order.Nodup
  mem_order : ∀ l, l ∈ order ↔ l.index < os.size
  inner_first : ∀ {l l' o o'}, os.get? l = some o → os.get? l' = some o' → l' ≠ l →
    o'.header ∈ o.members → Before order.reverse l' l

/-- Loops that are named come before the loops that they report, at any distance. -/
theorem before_of_reaches {order : List LoopId} (hs : Shaped d.headers os) (hn : order.Nodup)
    (hfirst : ∀ {l l' h h'}, d.headers[l.index]? = some h → d.headers[l'.index]? = some h' →
      d.Reports h' h → Before order.reverse l' l)
    (ho : os.get? l = some o) (ho' : os.get? l' = some o')
    (hr : TransGen d.Reports o'.header o.header) : Before order.reverse l' l := by
  generalize hb : o'.header = b at hr
  induction hr using TransGen.head_induction_on generalizing l' o' with
  | single hbh =>
    subst hb
    exact hfirst (hs.header ho) (hs.header ho') hbh
  | head hbc _ ih =>
    subst hb
    obtain ⟨ls, _, m, _, hm⟩ := hbc
    obtain ⟨lc, oc, hoc, rfl⟩ := hs.exists_of_mem (List.mem_of_getElem? hm)
    exact (hfirst (hs.header hoc) (hs.header ho') ⟨ls, ‹_›, m, ‹_›, hm⟩).trans
      (List.nodup_reverse.2 hn) (ih hoc rfl)

section Reducible

variable (hc : Discovery.Complete g finished d escaping) (hso : g.SearchOrder finished)
  (hdom : ∀ u h, g.Retreats finished u h → g.Dominates h u)

include hc hso hdom

theorem mem_headers_iff (h : BlockId) : h ∈ d.headers ↔ ∃ u, g.BackEdge u h := by
  rw [hc.mem_headers]
  exact exists_congr fun u => hso.retreats_iff_backEdge hdom

/-- The loops of a discovery can be put in order. -/
theorem exists_order?_ofDiscovery : ∃ order, (ofDiscovery d).order? = .ok (.ok order) := by
  have ha := ofDiscovery_absorbed hc.nodup
  refine exists_order? ha.toShaped fun l hcycle => ?_
  -- a circle of loops that hold each other is a circle of headers that report each other
  have hreports : ∀ {i j}, TransGen (ofDiscovery d).holding.Edge i j →
      ∃ h h', d.headers[i.index]? = some h ∧ d.headers[j.index]? = some h' ∧
        TransGen d.Reports h' h := by
    intro i j hij
    induction hij with
    | single hij =>
      obtain ⟨h, h', hh, hh', _, hr⟩ := (holding_edge_ofDiscovery hc.nodup).1 hij
      exact ⟨h, h', hh, hh', .single hr⟩
    | tail _ hjk ih =>
      obtain ⟨h, h', hh, hh', hr⟩ := ih
      obtain ⟨c, c', hc', hk, _, hr'⟩ := (holding_edge_ofDiscovery hc.nodup).1 hjk
      obtain rfl : h' = c := Option.some.inj (hh'.symm.trans hc')
      exact ⟨h, c', hh, hk, hr.head hr'⟩
  obtain ⟨h, h', hh, hh', hr⟩ := hreports hcycle
  obtain rfl : h = h' := Option.some.inj (hh.symm.trans hh')
  exact hc.isReport.not_cycle hso hdom h hr

theorem close_natural {order : List LoopId} (horder : (ofDiscovery d).order? = .ok (.ok order))
    (hclose : (ofDiscovery d).close order = .ok os') : Natural g d.headers order os' := by
  have hnames : ∀ {b h}, d.Reports b h → h ∈ d.headers := by
    rintro b h ⟨_, _, l, _, hl⟩
    exact List.mem_of_getElem? hl
  have ha := ofDiscovery_absorbed hc.nodup
  have hord := order?_ordered ha.toShaped horder
  have hfirst : ∀ {l l' h h'}, d.headers[l.index]? = some h → d.headers[l'.index]? = some h' →
      d.Reports h' h → Before order.reverse l' l := by
    intro l l' h h' hh hh' hr
    refine hord.inner_first ((holding_edge_ofDiscovery hc.nodup).2 ⟨h, h', hh, hh', ?_, hr⟩)
    rintro rfl
    exact hc.isReport.ne hr (Option.some.inj (hh.symm.trans hh'))
  have hclosed := close_absorbed ha hord.nodup hnames hfirst hclose
  have hsize : os'.size = (ofDiscovery d).size := by
    rw [hclosed.toShaped.size, ha.toShaped.size]
  have hall : ∀ l, l ∈ order ↔ l.index < os'.size := by
    intro l
    rw [hord.mem_iff, hsize]
  have hmem : ∀ {l o b}, os'.get? l = some o →
      (b ∈ o.members ↔ ReflTransGen d.Reports b o.header) :=
    fun ho => hclosed.mem_iff hnames (fun l hl => (hall l).2 hl) ho
  refine ⟨hclosed.toShaped, hc.nodup, mem_headers_iff hc hso hdom, ?_, hord.nodup, hall, ?_⟩
  · intro l o b ho
    obtain ⟨u, hu⟩ := (mem_headers_iff hc hso hdom _).1
      (List.mem_of_getElem? (hclosed.toShaped.header ho))
    rw [hmem ho, hc.isReport.naturalLoop_iff hso hdom (hu.reachable.step hu.edge)]
  · intro l l' o o' ho ho' hne hh
    rcases reflTransGen_iff_eq_or_transGen.1 ((hmem ho).1 hh) with heq | hr
    · exact absurd (hclosed.toShaped.inj hc.nodup ho' ho heq.symm) hne
    · exact before_of_reaches hclosed.toShaped hord.nodup hfirst ho ho' hr

end Reducible

namespace Natural

variable {headers : List BlockId} {order : List LoopId}

theorem reachable (hn : Natural g headers order os) (ho : os.get? l = some o) :
    g.Reachable o.header := by
  obtain ⟨u, hu⟩ := (hn.mem_headers _).1 (List.mem_of_getElem? (hn.toShaped.header ho))
  exact hu.reachable.step hu.edge

/-- A loop that holds the header of another holds all of it. -/
theorem subset (hn : Natural g headers order os) (ho : os.get? l = some o)
    (ho' : os.get? l' = some o') (hh : g.NaturalLoop o.header o'.header) :
    ∀ b ∈ o'.members, b ∈ o.members := by
  intro b hb
  rw [hn.mem_iff ho] at *
  exact hh.trans ((hn.mem_iff ho').1 hb) (hn.reachable ho)

/-- Natural loops pass the last check. -/
theorem clash?_eq_none (hn : Natural g headers order os) :
    clash? (os.toList.zip os.parents.toList) = none := by
  refine Outlines.clash?_eq_none ?_ ?_
  · intro x hx y hy
    obtain ⟨l, ho, _⟩ := Table.mem_zip_toList.1 hx
    obtain ⟨l', ho', _⟩ := Table.mem_zip_toList.1 hy
    by_cases hdis : x.1.members.isDisjoint y.1.members = true
    · simp [Outline.nests, hdis]
    simp only [IdSet.isDisjoint_iff, not_forall, not_not] at hdis
    obtain ⟨b, hb, hb'⟩ := hdis
    simp only [Outline.nests, Bool.or_eq_true, IdSet.isSubset_iff]
    rcases FlowGraph.NaturalLoop.nested (hn.reachable ho) (hn.reachable ho') ((hn.mem_iff ho).1 hb)
      ((hn.mem_iff ho').1 hb') with h | h
    · exact .inr (hn.subset ho ho' h)
    · exact .inl (.inr (hn.subset ho' ho h))
  · intro x hx p hp
    obtain ⟨l, ho, hpl⟩ := Table.mem_zip_toList.1 hx
    rw [hp] at hpl
    obtain ⟨o, l', ho₁, hop, hholds⟩ := parents_cases hpl
    obtain rfl : x.1 = o := Option.some.inj (ho.symm.trans ho₁)
    have hh := ((hn.toShaped.holds_iff hop ho).1 hholds).2
    exact hn.subset hop ho ((hn.mem_iff hop).1 hh)

end Natural

end Outlines

/-! ## Forests -/

namespace LoopForest

variable {g : FlowGraph} {limit : Option Nat} {forest : LoopForest}

/-- The loops of the forest are the natural loops of the graph, inner loops first. -/
structure Natural (g : FlowGraph) (forest : LoopForest) : Prop where
  id : ∀ {l L}, forest.loops.get? l = some L → L.id = l
  inj : ∀ {l l' L L'}, forest.loops.get? l = some L → forest.loops.get? l' = some L' →
    L.header = L'.header → l = l'
  header_iff : ∀ h, (∃ L ∈ forest.loops.toList, L.header = h) ↔ ∃ u, g.BackEdge u h
  contains_iff : ∀ {L b}, L ∈ forest.loops.toList →
    (L.contains b = true ↔ g.NaturalLoop L.header b)
  mem_members : ∀ {L b}, L ∈ forest.loops.toList → (b ∈ L.members ↔ L.contains b = true)
  order_nodup : forest.order.Nodup
  mem_order : ∀ l, l ∈ forest.order ↔ l.index < forest.loops.size
  inner_first : ∀ {l l' L L'}, forest.loops.get? l = some L → forest.loops.get? l' = some L' →
    l' ≠ l → L.contains L'.header = true → Before forest.order.reverse l' l

/-- How a forest comes about. -/
theorem ofGraph_cases (h : ofGraph g limit = .ok forest) :
    ∃ w d order os, g.walk = .ok w ∧ Discovery.ofWalk limit g.size w = .ok (∅, d) ∧
      (Outlines.ofDiscovery d).order? = .ok (.ok order) ∧
      (Outlines.ofDiscovery d).close order = .ok os ∧ ofOutlines g os order = .ok forest := by
  simp only [ofGraph, bind_eq_ok, liftM_eq_ok] at h
  obtain ⟨w, hw, ⟨escaping, d⟩, hd, h⟩ := h
  split at h
  · simp only [bind_eq_ok, refuse_ne_ok, and_false, exists_false] at h
  rename_i hempty
  obtain rfl : escaping = ∅ := IdSet.isEmpty_iff.1 (by simpa using hempty)
  simp only [bind_eq_ok, liftM_eq_ok] at h
  obtain ⟨found, hfound, h⟩ := h
  cases found with
  | error cycle => simp only [bind_eq_ok, refuse_ne_ok, and_false, exists_false] at h
  | ok order =>
    simp only [bind_eq_ok, liftM_eq_ok] at h
    obtain ⟨os, hos, h⟩ := h
    split at h
    · simp only [bind_eq_ok, refuse_ne_ok, and_false, exists_false] at h
    · exact ⟨w, d, order, os, hw, hd, hfound, hos, liftM_eq_ok.1 h⟩

theorem loopOf_cases {parents : Table .loop (Option LoopId)} {order : List LoopId} {o : Outline}
    {L : Loop} (h : loopOf g parents order o = .ok L) :
    L.id = o.id ∧ L.header = o.header ∧ L.blocks = o.members ∧
      L.body = (o.members.erase o.header).toList.reverse := by
  simp only [loopOf, bind_eq_ok, pure_eq_ok] at h
  obtain ⟨exits, _, parent, _, rfl⟩ := h
  exact ⟨rfl, rfl, rfl, rfl⟩

/-- The loops of a forest stand where their outlines stood. -/
theorem ofOutlines_made {os : Outlines} {order : List LoopId}
    (h : ofOutlines g os order = .ok forest) :
    forest.order = order ∧ forest.loops.size = os.size ∧
      ∀ {l L}, forest.loops.get? l = some L → ∃ o, os.get? l = some o ∧
        loopOf g (os.parents.map (Option.map Outline.id)) order o = .ok L := by
  simp only [ofOutlines, bind_eq_ok, pure_eq_ok] at h
  obtain ⟨loops, hloops, rfl⟩ := h
  have hall := mapM_eq_ok.1 hloops
  refine ⟨rfl, ?_, ?_⟩
  · rw [Table.size_ofList, ← hall.length_eq, Table.length_toList]
  · intro l L hL
    rw [Table.get?_ofList] at hL
    obtain ⟨hlt, rfl⟩ := List.getElem?_eq_some_iff.1 hL
    have hlt' : l.index < os.toList.length := by
      rw [hall.length_eq]
      exact hlt
    refine ⟨os.toList[l.index], ?_, (List.forall₂_iff_get.1 hall).2 _ hlt' hlt⟩
    have hget := Table.getElem?_toList os l.index
    rw [List.getElem?_eq_getElem hlt'] at hget
    exact hget.symm

/-- A forest is made from the outlines of the natural loops. -/
theorem ofGraph_outlines (h : ofGraph g limit = .ok forest) :
    ∃ headers order os, Outlines.Natural g headers order os ∧ ofOutlines g os order = .ok forest := by
  obtain ⟨w, d, order, os, hw, hd, horder, hclose, hforest⟩ := ofGraph_cases h
  have hc := Discovery.ofWalk_complete hw hd
  have hso := FlowGraph.walk_searchOrder hw
  have hdom := (hc.isReport.silent_entry_iff hso).1 fun h hr =>
    Discovery.names_empty ((hc.escaping h).2 hr)
  exact ⟨d.headers, order, os, Outlines.close_natural hc hso hdom horder hclose, hforest⟩

/-- **The forest of a graph lists its natural loops, inner loops first.** -/
theorem ofGraph_natural (h : ofGraph g limit = .ok forest) : Natural g forest := by
  obtain ⟨headers, order, os, hn, hforest⟩ := ofGraph_outlines h
  obtain ⟨rfl, hsize, hmade⟩ := ofOutlines_made hforest
  have hget : ∀ {l L}, forest.loops.get? l = some L → ∃ o, os.get? l = some o ∧ L.id = o.id ∧
      L.header = o.header ∧ L.blocks = o.members ∧
      L.body = (o.members.erase o.header).toList.reverse := by
    intro l L hL
    obtain ⟨o, ho, hmade⟩ := hmade hL
    exact ⟨o, ho, loopOf_cases hmade⟩
  have hmem : ∀ {L b}, L ∈ forest.loops.toList →
      (L.contains b = true ↔ g.NaturalLoop L.header b) := by
    intro L b hL
    obtain ⟨l, hl⟩ := Table.mem_toList.1 hL
    obtain ⟨o, ho, _, hheader, hblocks, _⟩ := hget hl
    rw [hheader, ← hn.mem_iff ho, Loop.contains, decide_eq_true_iff, hblocks]
  refine ⟨?_, ?_, ?_, hmem, ?_, hn.order_nodup, ?_, ?_⟩
  · intro l L hL
    obtain ⟨o, ho, hid, _⟩ := hget hL
    rw [hid, hn.toShaped.id ho]
  · intro l l' L L' hL hL' he
    obtain ⟨o, ho, _, hheader, _⟩ := hget hL
    obtain ⟨o', ho', _, hheader', _⟩ := hget hL'
    exact hn.toShaped.inj hn.headers_nodup ho ho' (by rw [← hheader, ← hheader', he])
  · intro h
    rw [← hn.mem_headers]
    constructor
    · rintro ⟨L, hL, rfl⟩
      obtain ⟨l, hl⟩ := Table.mem_toList.1 hL
      obtain ⟨o, ho, _, hheader, _⟩ := hget hl
      rw [hheader]
      exact List.mem_of_getElem? (hn.toShaped.header ho)
    · intro hh
      obtain ⟨l, o, ho, rfl⟩ := hn.toShaped.exists_of_mem hh
      obtain ⟨L, hL⟩ := Table.exists_get? (hsize ▸ Table.lt_of_get? ho)
      obtain ⟨o', ho', _, hheader, _⟩ := hget hL
      obtain rfl : o = o' := Option.some.inj (ho.symm.trans ho')
      exact ⟨L, Table.mem_toList.2 ⟨l, hL⟩, hheader⟩
  · intro L b hL
    obtain ⟨l, hl⟩ := Table.mem_toList.1 hL
    obtain ⟨o, ho, _, hheader, hblocks, hbody⟩ := hget hl
    have hself : o.header ∈ o.members := (hn.mem_iff ho).2 (.inl rfl)
    simp only [Loop.members, hheader, hbody, List.mem_cons, List.mem_reverse, IdSet.mem_toList,
      IdSet.mem_erase, Loop.contains, hblocks, decide_eq_true_eq]
    constructor
    · rintro (rfl | hb)
      · exact hself
      · exact hb.1
    · intro hb
      by_cases hbh : b = o.header
      · exact .inl hbh
      · exact .inr ⟨hb, hbh⟩
  · intro l
    rw [hn.mem_order, hsize]
  · intro l l' L L' hL hL' hne hh
    obtain ⟨o, ho, _, _, hblocks, _⟩ := hget hL
    obtain ⟨o', ho', _, hheader', _, _⟩ := hget hL'
    refine hn.inner_first ho ho' hne ?_
    rw [← hheader', ← hblocks]
    exact of_decide_eq_true hh

namespace Natural

theorem header_inj (hn : Natural g forest) {L L' : Loop} (hL : L ∈ forest.loops.toList)
    (hL' : L' ∈ forest.loops.toList) (he : L.header = L'.header) : L = L' := by
  obtain ⟨l, hl⟩ := Table.mem_toList.1 hL
  obtain ⟨l', hl'⟩ := Table.mem_toList.1 hL'
  obtain rfl := hn.inj hl hl' he
  exact Option.some.inj (hl.symm.trans hl')

theorem reachable_header (hn : Natural g forest) {L : Loop} (hL : L ∈ forest.loops.toList) :
    g.Reachable L.header := by
  obtain ⟨u, hu⟩ := (hn.header_iff _).1 ⟨L, hL, rfl⟩
  exact hu.reachable.step hu.edge

/-- The back edges of a graph are the edges from inside a loop to its header. -/
theorem backEdge_iff (hn : Natural g forest) {u v : BlockId} (hu : g.Reachable u)
    (huv : g.Edge u v) :
    g.BackEdge u v ↔ ∃ L ∈ forest.loops.toList, L.header = v ∧ L.contains u = true := by
  constructor
  · intro hback
    obtain ⟨L, hL, rfl⟩ := (hn.header_iff v).2 ⟨u, hback⟩
    exact ⟨L, hL, rfl, (hn.contains_iff hL).2 ((FlowGraph.NaturalLoop.iff_backEdge hu huv).2 hback)⟩
  · rintro ⟨L, hL, rfl, hmem⟩
    exact (FlowGraph.NaturalLoop.iff_backEdge hu huv).1 ((hn.contains_iff hL).1 hmem)

theorem headers_nodup (hn : Natural g forest) : (forest.loops.toList.map Loop.header).Nodup := by
  rw [List.nodup_iff_getElem?_ne_getElem?]
  intro i j hij hj he
  have hi : i < (forest.loops.toList.map Loop.header).length := Nat.lt_trans hij hj
  rw [List.getElem?_eq_getElem hi] at he
  obtain ⟨L', hL', heq⟩ := Option.map_eq_some_iff.1 (List.getElem?_map ▸ he.symm)
  obtain ⟨L, hL, heq'⟩ := Option.map_eq_some_iff.1 (List.getElem?_map ▸ List.getElem?_eq_getElem hi)
  rw [Table.getElem?_toList] at hL hL'
  have hidx : i = j := congrArg Ident.index (hn.inj hL hL' (heq'.trans heq.symm))
  omega

end Natural

/-- **The loops of a graph are its natural loops.**  No two loops have the same header; the headers
are the blocks that dominate the source of an edge into them; and a loop has the blocks from which
control gets to such a source without passing the header, among those that control gets to at
all. -/
theorem loops_eq_naturalLoops (hf : ofGraph g limit = .ok forest) :
    (forest.loops.toList.map Loop.header).Nodup ∧
    (∀ h, h ∈ forest.loops.toList.map Loop.header ↔
      g.Reachable h ∧ ∃ u, g.Reachable u ∧ g.Edge u h ∧ g.Dominates h u) ∧
    (∀ L ∈ forest.loops.toList, ∀ b, L.contains b = true ↔
      b = L.header ∨ (g.Reachable b ∧ ∃ u, g.Reachable u ∧ g.Edge u L.header ∧
        g.Dominates L.header u ∧ g.Avoids L.header b u)) ∧
    (∀ L ∈ forest.loops.toList, ∀ b, L.contains b = true ↔ b ∈ L.members) ∧
    (∀ L ∈ forest.loops.toList, ∀ b, L.contains b = true → g.Reachable b) := by
  have hn := ofGraph_natural hf
  have hback : ∀ {u h}, g.BackEdge u h ↔ g.Reachable u ∧ g.Edge u h ∧ g.Dominates h u :=
    fun {u h} => ⟨fun hu => ⟨hu.reachable, hu.edge, hu.dominates⟩, fun hu => ⟨hu.2.1, hu.1, hu.2.2⟩⟩
  refine ⟨hn.headers_nodup, ?_, ?_, ?_, ?_⟩
  · intro h
    rw [List.mem_map, hn.header_iff]
    simp only [hback]
    constructor
    · rintro ⟨u, hu, huh, hd⟩
      exact ⟨hu.step huh, u, hu, huh, hd⟩
    · exact fun h => h.2
  · intro L hL b
    rw [hn.contains_iff hL, FlowGraph.NaturalLoop]
    simp only [hback, and_assoc]
  · exact fun L hL b => (hn.mem_members hL).symm
  · intro L hL b hb
    exact ((hn.contains_iff hL).1 hb).reachable (hn.reachable_header hL)

/-- An inner loop of one block, an outer loop around it that a second block closes, and a block that
control never gets to with an edge into the inner loop. -/
def nestedExample : FlowGraph where
  succs := Table.ofList [[⟨1⟩], [⟨2⟩], [⟨2⟩, ⟨3⟩], [⟨1⟩, ⟨4⟩], [], [⟨2⟩]]
  preds := Table.ofList [[], [⟨0⟩, ⟨3⟩], [⟨1⟩, ⟨2⟩, ⟨5⟩], [⟨2⟩], [⟨3⟩], []]

theorem loops_of_nestedExample : ∃ forest, ofGraph nestedExample none = .ok forest ∧
    forest.loops.toList.map Loop.members = [[⟨2⟩], [⟨1⟩, ⟨3⟩, ⟨2⟩]] ∧
    (forest.loops.toList.map Loop.header).Nodup ∧
    (∀ h, h ∈ forest.loops.toList.map Loop.header ↔ nestedExample.Reachable h ∧
      ∃ u, nestedExample.Reachable u ∧ nestedExample.Edge u h ∧ nestedExample.Dominates h u) ∧
    (∀ L ∈ forest.loops.toList, ∀ b, L.contains b = true ↔
      b = L.header ∨ (nestedExample.Reachable b ∧ ∃ u, nestedExample.Reachable u ∧
        nestedExample.Edge u L.header ∧ nestedExample.Dominates L.header u ∧
        nestedExample.Avoids L.header b u)) := by
  have hrun : (ofGraph nestedExample none).map (fun forest => forest.loops.toList.map Loop.members) =
      .ok [[⟨2⟩], [⟨1⟩, ⟨3⟩, ⟨2⟩]] := by decide +kernel
  cases hf : ofGraph nestedExample none with
  | error e => rw [hf] at hrun; cases hrun
  | ok forest =>
    rw [hf] at hrun
    obtain ⟨hnodup, hheaders, hcontains, _⟩ := loops_eq_naturalLoops hf
    exact ⟨forest, rfl, Except.ok.inj hrun, hnodup, hheaders, hcontains⟩

end LoopForest

end FlowTree
