import FlowTree.Proofs.UnreachableBlocks

/-!
# Reports of irreducible control flow

What the refusal of irreducible control flow proves about a graph.  The refusal is put together from
components and predecessors, while the trouble was found by a search; here the two are brought
together.

A loop that escapes at the entry has a header to which an edge retreats although its source is
reached around the header.  From the header, advancing edges lead back to that source, and no
advancing edge leads to a dominator of its source either.  So there is a cycle all of whose edges lead
*onward*, and this is exactly what reducible control flow excludes.  The cycle lies in one component,
and the region of the refusal is made of whole components.

The headers that a refusal names are the entries of the region.  They are several unless a single
block *guards* the region, as the header of a loop around the cycle does.  Then that block alone is
named, and it is not even on the cycle.

## Main statements

* `LoopForest.ofGraph_irreducible_cases` — what was searched when control flow is refused.
* `LoopForest.irreducible_region_offends` — region and headers of a refusal, and the cycle.
* `LoopForest.irreducible_headers_iff` — when several headers are named.
-/

namespace FlowTree

open Relation

namespace FlowGraph

variable {g : FlowGraph} {order bs headers region : List BlockId} {a b c h u : BlockId}

/-- An edge inside a region that does not lead to a dominator of its source. -/
structure Onward (g : FlowGraph) (region : List BlockId) (u v : BlockId) : Prop where
  edge : g.Edge u v
  source_mem : u ∈ region
  target_mem : v ∈ region
  not_dominates : ¬ g.Dominates v u

/-- Control that starts at the entry, or anywhere outside the region, gets to no block of the region
without passing `b`. -/
def Guards (g : FlowGraph) (region : List BlockId) (b : BlockId) : Prop :=
  ∀ a c, (a = BlockId.entry ∨ a ∉ region) → c ∈ region → ¬ g.Avoids b a c

/-! ## Guards -/

theorem Guards.dominates (hb : g.Guards region b) (hc : c ∈ region) : g.Dominates b c :=
  dominates_iff.2 (hb BlockId.entry c (.inl rfl) hc)

/-- No edge leads onward to a block that guards the region. -/
theorem Guards.not_onward (hb : g.Guards region b) (u : BlockId) : ¬ g.Onward region u b :=
  fun hub => hub.not_dominates (hb.dominates hub.source_mem)

/-- **A block guards a region exactly if the region is entered nowhere else.** -/
theorem guards_iff (hb : b ∈ region) :
    g.Guards region b ↔ ∀ c ∈ region, g.Entered region c → c = b := by
  constructor
  · intro hguards c hc hentered
    by_contra hne
    rcases hentered with rfl | ⟨a, ha, hac⟩
    · exact hguards _ _ (.inl rfl) hc (.refl hne)
    · have hab : a ≠ b := fun he => ha (he ▸ hb)
      exact hguards a c (.inr ha) hc (.head hab hac (.refl hne))
  · intro honly a c ha hc hav
    obtain ⟨hab, hr⟩ := avoids_iff.1 hav
    clear hav
    -- a way around `b` never comes into the region
    induction hr with
    | refl =>
      rcases ha with rfl | ha
      · exact hab (honly _ hc (.inl rfl))
      · exact ha hc
    | @tail x y _ hxy ih =>
      by_cases hx : x ∈ region
      · exact ih hx
      · exact hxy.2 (honly y hc (.inr ⟨x, hx, hxy.1⟩))

/-! ## Regions -/

namespace Region

variable (hr : g.Region bs headers region)

include hr

/-- A region holds whole components. -/
theorem mem_of_mutual (hb : b ∈ region) (hbc : g.Mutual b c) : c ∈ region := by
  obtain ⟨hcycle, a, ha, hab⟩ := (hr.mem_iff b).1 hb
  exact (hr.mem_iff c).2 ⟨.trans_right hbc.2 (.trans_left hcycle hbc.1), a, ha, hab.trans hbc⟩

theorem headers_sublist : headers.Sublist region := by
  have hfilter : headers = region.filter (· ∈ headers) := by
    refine Ident.eq_of_ascending hr.headers_ascending (hr.ascending.sublist List.filter_sublist) ?_
    intro b
    rw [List.mem_filter, decide_eq_true_iff]
    exact ⟨fun hb => ⟨((hr.mem_headers b).1 hb).1, hb⟩, fun hb => hb.2⟩
  rw [hfilter]
  exact List.filter_sublist

/-- Control gets into the region, so some block of it is an entry. -/
theorem exists_mem_headers (hb : b ∈ region) (hreach : g.Reachable b) : ∃ c, c ∈ headers := by
  obtain ⟨c, hc, hentered⟩ := exists_entered hb hreach
  refine ⟨c, (hr.mem_headers c).2 ⟨hc, ?_⟩⟩
  rcases hentered with hentry | ⟨x, _, hx⟩
  · exact .inl hentry
  · exact .inr ⟨x, hx⟩

theorem guards_iff_mem_headers (hb : b ∈ region) : g.Guards region b ↔ ∀ c ∈ headers, c = b := by
  rw [guards_iff hb]
  simp only [hr.mem_headers, and_imp]

/-- Where a block guards the region, no other is an entry. -/
theorem headers_eq_singleton (hc : c ∈ headers) (hb : b ∈ region) (hguards : g.Guards region b) :
    headers = [b] := by
  have hall := (hr.guards_iff_mem_headers hb).1 hguards
  have hmem : b ∈ headers := hall c hc ▸ hc
  refine Ident.eq_of_ascending hr.headers_ascending (List.pairwise_singleton _ _) fun x => ?_
  rw [List.mem_singleton]
  exact ⟨hall x, fun he => he ▸ hmem⟩

/-- A way that comes back to a block of the region stays in it. -/
theorem onward_of_reaches (hh : h ∈ region) (huh : g.Edge u h)
    (hhu : ReflTransGen (fun x y => g.Edge x y ∧ ¬ g.Dominates y x) h u) :
    ReflTransGen (g.Onward region) h u := by
  have hedges : ∀ {x y}, ReflTransGen (fun x y => g.Edge x y ∧ ¬ g.Dominates y x) x y →
      ReflTransGen g.Edge x y := fun hxy => hxy.lift id fun _ _ hstep => hstep.1
  have hmem : ∀ {x}, ReflTransGen g.Edge h x → ReflTransGen g.Edge x u → x ∈ region :=
    fun hhx hxu => hr.mem_of_mutual hh ⟨hhx, hxu.tail huh⟩
  have key : ∀ x, ReflTransGen (fun x y => g.Edge x y ∧ ¬ g.Dominates y x) x u →
      ReflTransGen g.Edge h x → ReflTransGen (g.Onward region) x u := by
    intro x hxu
    induction hxu using ReflTransGen.head_induction_on with
    | refl => exact fun _ => .refl
    | @head x y hxy hyu ih =>
      intro hhx
      have hhy := hhx.tail hxy.1
      refine .head ⟨hxy.1, hmem hhx ((hedges hyu).head hxy.1), hmem hhy (hedges hyu), hxy.2⟩ ?_
      exact ih hhy
  exact key h hhu .refl

end Region

/-- From the target of a retreating edge, onward edges lead to its source. -/
theorem SearchOrder.reaches_onward (ho : g.SearchOrder order) (hu : g.Retreats order u h) :
    ReflTransGen (fun x y => g.Edge x y ∧ ¬ g.Dominates y x) h u :=
  (ho.returns hu.mem hu.edge hu.not_before).lift id fun _ _ hxy => ⟨hxy.1, ho.not_dominates hxy.2⟩

end FlowGraph

/-! ## Refusals -/

namespace LoopForest

variable {f : Func} {g : FlowGraph} {limit : Option Nat} {headers region : List BlockId}

/-- **How a refusal of irreducible control flow comes about.**  It is about headers to which some edge
retreats from a block that is reached around the header. -/
theorem ofGraph_irreducible_cases (hd : g.Describes f)
    (h : ofGraph g limit = .error (.refused (.irreducible headers region))) :
    ∃ order bs, g.SearchOrder order ∧ g.Region bs headers region ∧ (∃ b, b ∈ bs) ∧
      ∀ b ∈ bs, g.Reachable b ∧ ∃ u, g.Retreats order u b ∧ ¬ g.Dominates b u := by
  obtain ⟨w, hw⟩ := hd.toShaped.exists_walk
  have hso := FlowGraph.walk_searchOrder hw
  cases hdisc : Discovery.ofWalk limit g.size w with
  | error stop =>
    cases (ofGraph_eq_error hw hdisc).symm.trans h
    rcases Discovery.follow_error hdisc with ⟨_, _, hstop⟩ | ⟨_, hstop⟩ <;> cases hstop
  | ok r =>
    obtain ⟨escaping, d⟩ := r
    have hc := Discovery.ofWalk_complete hw hdisc
    by_cases hempty : escaping = ∅
    · subst hempty
      obtain ⟨forest, hforest⟩ := exists_forest hd.toShaped hw hdisc
      cases hforest.symm.trans h
    obtain ⟨bs, hbs⟩ := Discovery.exists_headersOf hc.knows_escaping
    have hcycles := hc.headersOf_escaping hso hbs
    obtain ⟨b, hnames⟩ := Discovery.exists_names hempty hc.knows_escaping
    have hb := (Discovery.mem_headersOf hbs).2 hnames
    obtain ⟨headers', region', hr, hregion⟩ :=
      FlowGraph.irreducible_region hd (fun b hb => (hcycles b hb).1) hb (hcycles b hb).2
    cases (ofGraph_eq_refusal hw hdisc hempty hbs hr).symm.trans h
    refine ⟨_, bs, hso, hregion, ⟨b, hb⟩, fun b hb => ⟨(hcycles b hb).1, ?_⟩⟩
    -- the entry reports the header, so an edge retreats to it that is reached around it
    have hreports := (hc.escaping b).1 ((Discovery.mem_headersOf hbs).1 hb)
    obtain ⟨u, hu, hav⟩ := hc.isReport.exists_retreats hso.nodup hreports
    exact ⟨u, hu, fun hdom => FlowGraph.dominates_iff.1 hdom hav⟩

/-- The region of a refusal holds a cycle all of whose edges lead onward. -/
theorem exists_onward_cycle (hd : g.Describes f)
    (h : ofGraph g limit = .error (.refused (.irreducible headers region))) :
    ∃ bs, g.Region bs headers region ∧ (∀ b ∈ region, g.Reachable b) ∧
      ∃ u h, g.Onward region u h ∧ ReflTransGen (g.Onward region) h u := by
  obtain ⟨order, bs, hso, hregion, ⟨h, hh⟩, hbs⟩ := ofGraph_irreducible_cases hd h
  obtain ⟨_, u, hu, hdom⟩ := hbs h hh
  have hback := hso.reaches_onward hu
  have hhu : ReflTransGen g.Edge h u := hback.lift id fun _ _ hstep => hstep.1
  have hmem : h ∈ region := (hregion.mem_iff h).2 ⟨.tail' hhu hu.edge, h, hh, .refl g h⟩
  have hmem' : u ∈ region := hregion.mem_of_mutual hmem ⟨hhu, .single hu.edge⟩
  exact ⟨bs, hregion, fun b hb => hregion.reachable (fun a ha => (hbs a ha).1) hb, u, h,
    ⟨hu.edge, hmem', hmem, hdom⟩, hregion.onward_of_reaches hmem hu.edge hback⟩

/-- **A refusal of irreducible control flow holds its proof.**  The region has some blocks, in
ascending order.  Control gets to all of them, each lies on a cycle, and with a block the region has
its whole component.  The headers are some of the region's blocks, in order.  And inside the region
there is an edge to a block that does not dominate its source although it leads there, by edges
inside the region none of which leads to a dominator of its source. -/
theorem irreducible_region_offends (hf : FlowGraph.ofFunc f = .ok g)
    (h : ofGraph g limit = .error (.refused (.irreducible headers region))) :
    (region ≠ [] ∧ region.Pairwise fun a b => a.index < b.index) ∧
    (∀ b ∈ region, g.Reachable b ∧ TransGen g.Edge b b ∧ ∀ c, g.Mutual b c → c ∈ region) ∧
    (headers ≠ [] ∧ headers.Sublist region) ∧
    ∃ u h, u ∈ region ∧ h ∈ region ∧ g.Edge u h ∧ g.Mutual u h ∧ ¬ g.Dominates h u ∧
      ReflTransGen (g.Onward region) h u := by
  obtain ⟨bs, hregion, hreach, u, h, huh, hhu⟩ :=
    exists_onward_cycle (FlowGraph.ofFunc_describes hf) h
  obtain ⟨c, hc⟩ := hregion.exists_mem_headers huh.target_mem (hreach h huh.target_mem)
  refine ⟨⟨List.ne_nil_of_mem huh.target_mem, hregion.ascending⟩, fun b hb => ⟨hreach b hb, ?_, ?_⟩,
    ⟨List.ne_nil_of_mem hc, hregion.headers_sublist⟩, u, h, huh.source_mem, huh.target_mem, huh.edge,
    ⟨.single huh.edge, hhu.lift id fun _ _ hstep => hstep.edge⟩, huh.not_dominates, hhu⟩
  · exact ((hregion.mem_iff b).1 hb).1
  · exact fun c hbc => hregion.mem_of_mutual hb hbc

/-- Two blocks that lead to each other and are both entered, and behind them two more of that kind. -/
def twoKnots : Func where
  name := "twoKnots"
  params := []
  valueCount := 0
  blocks := [
    { id := ⟨0⟩, instrs := [], terminator := .condBr (.const .null) ⟨1⟩ ⟨2⟩ },
    { id := ⟨1⟩, instrs := [], terminator := .br ⟨2⟩ },
    { id := ⟨2⟩, instrs := [], terminator := .switch (.const .null) [(0, ⟨1⟩), (1, ⟨3⟩)] ⟨4⟩ },
    { id := ⟨3⟩, instrs := [], terminator := .br ⟨4⟩ },
    { id := ⟨4⟩, instrs := [], terminator := .br ⟨3⟩ }]

def twoKnotsGraph : FlowGraph where
  succs := .ofList [[⟨1⟩, ⟨2⟩], [⟨2⟩], [⟨1⟩, ⟨3⟩, ⟨4⟩], [⟨4⟩], [⟨3⟩]]
  preds := .ofList [[], [⟨0⟩, ⟨2⟩], [⟨0⟩, ⟨1⟩], [⟨2⟩, ⟨4⟩], [⟨2⟩, ⟨3⟩]]

theorem twoKnots_region_offends : ∃ g, FlowGraph.ofFunc twoKnots = .ok g ∧
    ofGraph g none = .error (.refused (.irreducible [⟨1⟩, ⟨2⟩] [⟨1⟩, ⟨2⟩, ⟨3⟩, ⟨4⟩])) ∧
    (∀ b ∈ [⟨1⟩, ⟨2⟩, ⟨3⟩, ⟨4⟩], g.Reachable b ∧ TransGen g.Edge b b ∧
      ∀ c, g.Mutual b c → c ∈ [⟨1⟩, ⟨2⟩, ⟨3⟩, ⟨4⟩]) ∧
    ∃ u h, g.Edge u h ∧ g.Mutual u h ∧ ¬ g.Dominates h u ∧
      ReflTransGen (g.Onward [⟨1⟩, ⟨2⟩, ⟨3⟩, ⟨4⟩]) h u := by
  have hg : FlowGraph.ofFunc twoKnots = .ok twoKnotsGraph := by decide +kernel
  have hr : ofGraph twoKnotsGraph none =
      .error (.refused (.irreducible [⟨1⟩, ⟨2⟩] [⟨1⟩, ⟨2⟩, ⟨3⟩, ⟨4⟩])) :=
    ofGraph_eq_refusal rfl rfl (by decide) rfl <| FlowGraph.irreducible_eq
      [[⟨3⟩, ⟨4⟩], [⟨1⟩, ⟨2⟩], [⟨0⟩]] [[⟨3⟩, ⟨4⟩], [⟨1⟩, ⟨2⟩], [⟨0⟩]]
      rfl (by decide) rfl (by decide) (by decide) rfl rfl
  obtain ⟨_, hblocks, _, u, h, _, _, hedge, hmutual, hdom, honward⟩ :=
    irreducible_region_offends hg hr
  exact ⟨twoKnotsGraph, hg, hr, hblocks, u, h, hedge, hmutual, hdom, honward⟩

/-- **Several headers are named exactly if no block guards the region.**  Where a block does, it is
the only header, and it lies on none of the cycles whose edges all lead onward, of which the region
has one. -/
theorem irreducible_headers_iff (hf : FlowGraph.ofFunc f = .ok g)
    (h : ofGraph g limit = .error (.refused (.irreducible headers region))) :
    ((∃ a ∈ headers, ∃ b ∈ headers, a ≠ b) ↔ ∀ b ∈ region, ¬ g.Guards region b) ∧
    (∀ b ∈ region, g.Guards region b → headers = [b] ∧ ∀ u, ¬ g.Onward region u b) ∧
    ∃ h, TransGen (g.Onward region) h h := by
  obtain ⟨bs, hregion, hreach, u, h, huh, hhu⟩ :=
    exists_onward_cycle (FlowGraph.ofFunc_describes hf) h
  obtain ⟨c, hc⟩ := hregion.exists_mem_headers huh.target_mem (hreach h huh.target_mem)
  refine ⟨⟨?_, fun hnone => ?_⟩, fun b hb hguards => ?_, h, .tail' hhu huh⟩
  · rintro ⟨a, ha, b, hb, hne⟩ x hx hguards
    have hall := (hregion.guards_iff_mem_headers hx).1 hguards
    exact hne ((hall a ha).trans (hall b hb).symm)
  · -- `c` is no guard, so another block is a header too
    have hcr := ((hregion.mem_headers c).1 hc).1
    have hother := hnone c hcr
    rw [hregion.guards_iff_mem_headers hcr] at hother
    push Not at hother
    obtain ⟨a, ha, hne⟩ := hother
    exact ⟨a, ha, c, hc, hne⟩
  · exact ⟨hregion.headers_eq_singleton hc hb hguards, hguards.not_onward⟩

/-- Two blocks that lead to each other and are both entered from the header of a loop around them. -/
def entriesInLoop : Func where
  name := "entriesInLoop"
  params := []
  valueCount := 0
  blocks := [
    { id := ⟨0⟩, instrs := [], terminator := .br ⟨1⟩ },
    { id := ⟨1⟩, instrs := [], terminator := .condBr (.const .null) ⟨2⟩ ⟨3⟩ },
    { id := ⟨2⟩, instrs := [], terminator := .condBr (.const .null) ⟨3⟩ ⟨1⟩ },
    { id := ⟨3⟩, instrs := [], terminator := .condBr (.const .null) ⟨2⟩ ⟨1⟩ }]

def entriesInLoopGraph : FlowGraph where
  succs := .ofList [[⟨1⟩], [⟨2⟩, ⟨3⟩], [⟨3⟩, ⟨1⟩], [⟨2⟩, ⟨1⟩]]
  preds := .ofList [[], [⟨0⟩, ⟨2⟩, ⟨3⟩], [⟨1⟩, ⟨3⟩], [⟨1⟩, ⟨2⟩]]

/-- One header is named, that of the loop around the cycle. -/
theorem entriesInLoop_headers : ∃ g, FlowGraph.ofFunc entriesInLoop = .ok g ∧
    ofGraph g none = .error (.refused (.irreducible [⟨1⟩] [⟨1⟩, ⟨2⟩, ⟨3⟩])) ∧
    g.Guards [⟨1⟩, ⟨2⟩, ⟨3⟩] ⟨1⟩ ∧ (∀ u, ¬ g.Onward [⟨1⟩, ⟨2⟩, ⟨3⟩] u ⟨1⟩) ∧
    ∃ h, TransGen (g.Onward [⟨1⟩, ⟨2⟩, ⟨3⟩]) h h := by
  have hg : FlowGraph.ofFunc entriesInLoop = .ok entriesInLoopGraph := by decide +kernel
  have hr : ofGraph entriesInLoopGraph none =
      .error (.refused (.irreducible [⟨1⟩] [⟨1⟩, ⟨2⟩, ⟨3⟩])) :=
    ofGraph_eq_refusal rfl rfl (by decide) rfl <| FlowGraph.irreducible_eq
      [[⟨1⟩, ⟨3⟩, ⟨2⟩], [⟨0⟩]] [[⟨1⟩, ⟨2⟩, ⟨3⟩], [⟨0⟩]]
      rfl (by decide) rfl (by decide) (by decide) rfl rfl
  obtain ⟨hseveral, hone, hcycle⟩ := irreducible_headers_iff hg hr
  have hguarded : ¬ ∀ b ∈ [⟨1⟩, ⟨2⟩, ⟨3⟩], ¬ entriesInLoopGraph.Guards [⟨1⟩, ⟨2⟩, ⟨3⟩] b := by
    rw [← hseveral]
    decide
  push Not at hguarded
  obtain ⟨b, hb, hguards⟩ := hguarded
  obtain ⟨hheaders, honward⟩ := hone b hb hguards
  cases hheaders
  exact ⟨entriesInLoopGraph, hg, hr, hguards, honward, hcycle⟩

end LoopForest

end FlowTree
