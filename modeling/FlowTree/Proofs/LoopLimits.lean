import FlowTree.Proofs.Reducibility
import Mathlib.Data.Set.Card

/-!
# Limits on the number of loops

Discovery looks at the limit when it meets a header for the first time, in the middle of the search
and before anything is known about reducibility.  So a limit that is exceeded hides whatever the
rest of the search would have found.

It hides nothing else.  Discovery under a limit does what discovery without one does, step by step,
until one header more than allowed is met; and headers are only ever added.  Hence the outcome
depends on the limit only by how it compares with the number of headers in the end, and if control
flow is reducible this is the number of natural loops.

## Main statements

* `Discovery.follow_capped` — discovery with and without a limit.
* `FlowGraph.encard_naturalLoops` — loops are counted by their headers.
* `LoopForest.ofGraph_limit` — loop analysis with and without a limit.
-/

namespace FlowTree

/-! ## Discovery under a limit -/

namespace Discovery

variable {α : Type} {limit : Option Nat} {k : Nat} {d : Discovery} {b : BlockId} {w : Walk .block}
  {report : LoopSet} {r : α × Discovery}

/-- The result `r`, unless it has more than `k` loops. -/
def capped (k : Nat) (r : α × Discovery) : Attempt (α × Discovery) :=
  if r.2.headers.length ≤ k then .ok r else refuse (.tooManyLoops k)

theorem capped_of_le (h : r.2.headers.length ≤ k) : capped k r = .ok r := if_pos h

theorem capped_of_lt (h : k < r.2.headers.length) : capped k r = refuse (.tooManyLoops k) :=
  if_neg (Nat.not_le.2 h)

theorem headers_of_finish {below : LoopSet} {r : LoopSet × Discovery} (h : d.finish b below = .ok r) :
    r.2.headers = d.headers := by
  simp only [finish, bind_eq_ok, pure_eq_ok] at h
  obtain ⟨reported, _, rfl⟩ := h
  rfl

/-- Headers are only ever added. -/
theorem length_le_of_follow {r : LoopSet × Discovery} (h : follow limit w d report = .ok r) :
    d.headers.length ≤ r.2.headers.length := by
  induction w generalizing d report r with
  | done =>
    cases h
    exact Nat.le_refl _
  | descend b inner rest ihInner ihRest =>
    simp only [follow, bind_eq_ok, liftM_eq_ok] at h
    obtain ⟨⟨below, d₁⟩, hinner, ⟨reported, d₂⟩, hfinish, hrest⟩ := h
    calc d.headers.length
      _ ≤ d₁.headers.length := ihInner hinner
      _ = d₂.headers.length := by rw [headers_of_finish hfinish]
      _ ≤ r.2.headers.length := ihRest hrest
  | back b rest ih =>
    simp only [follow, bind_eq_ok] at h
    obtain ⟨⟨l, d₁⟩, hloop, hrest⟩ := h
    have hle : d.headers.length ≤ d₁.headers.length := by
      obtain ⟨_, _, rfl | ⟨_, hheaders⟩⟩ := loopAt_cases hloop
      · exact Nat.le_refl _
      · simp [hheaders]
    exact hle.trans (ih hrest)
  | seen b rest ih =>
    simp only [follow, bind_eq_ok] at h
    obtain ⟨reported, _, hrest⟩ := h
    exact ih hrest

/-- **One step under a limit.**  A known header is found as without a limit; a new one is refused
exactly if there are as many as allowed. -/
theorem loopAt_capped {r : LoopId × Discovery} (h : d.loopAt none b = .ok r)
    (hk : d.headers.length ≤ k) : d.loopAt (some k) b = capped k r := by
  unfold loopAt at h ⊢
  cases hl : d.loopAt? b with
  | some l =>
    simp only [hl] at h ⊢
    cases h
    exact (capped_of_le hk).symm
  | none =>
    simp only [hl, Option.filter_none, bind_eq_ok, liftM_eq_ok, pure_eq_ok] at h
    obtain ⟨l, hindex, rfl⟩ := h
    by_cases hfull : k ≤ d.headers.length
    · rw [capped_of_lt (by simp only [List.length_append, List.length_singleton]; omega)]
      simp [Option.filter, hfull]
    · rw [capped_of_le (by simp only [List.length_append, List.length_singleton]; omega)]
      simp [Option.filter, hfull, hindex]

/-- **A search under a limit** ends as without one, or is refused if more headers are met. -/
theorem follow_capped {r : LoopSet × Discovery} (h : follow none w d report = .ok r)
    (hk : d.headers.length ≤ k) : follow (some k) w d report = capped k r := by
  induction w generalizing d report r with
  | done =>
    cases h
    exact (capped_of_le hk).symm
  | descend b inner rest ihInner ihRest =>
    simp only [follow, bind_eq_ok, liftM_eq_ok] at h
    obtain ⟨⟨below, d₁⟩, hinner, ⟨reported, d₂⟩, hfinish, hrest⟩ := h
    have hheaders : d₂.headers = d₁.headers := headers_of_finish hfinish
    rw [follow, ihInner hinner hk]
    by_cases hle : d₁.headers.length ≤ k
    · rw [capped_of_le hle, ok_bind]
      dsimp only
      rw [hfinish, liftM_ok, ok_bind]
      exact ihRest hrest (hheaders ▸ hle)
    · -- the limit is exceeded below `b`, and no header is lost afterwards
      have hmore := length_le_of_follow hrest
      rw [hheaders] at hmore
      rw [capped_of_lt (Nat.lt_of_not_le hle),
        capped_of_lt (Nat.lt_of_lt_of_le (Nat.lt_of_not_le hle) hmore)]
      rfl
  | back b rest ih =>
    simp only [follow, bind_eq_ok] at h
    obtain ⟨⟨l, d₁⟩, hloop, hrest⟩ := h
    rw [follow, loopAt_capped hloop hk]
    by_cases hle : d₁.headers.length ≤ k
    · rw [capped_of_le hle, ok_bind]
      exact ih hrest hle
    · rw [capped_of_lt (Nat.lt_of_not_le hle),
        capped_of_lt (Nat.lt_of_lt_of_le (Nat.lt_of_not_le hle) (length_le_of_follow hrest))]
      rfl
  | seen b rest ih =>
    simp only [follow, bind_eq_ok, liftM_eq_ok] at h
    obtain ⟨reported, hreported, hrest⟩ := h
    rw [follow, hreported, liftM_ok, ok_bind]
    exact ih hrest hk

end Discovery

/-! ## Counting loops -/

namespace FlowGraph

variable {g : FlowGraph} {headers : List BlockId}

/-- The natural loops of a graph, as sets of blocks. -/
def naturalLoops (g : FlowGraph) : Set (Set BlockId) :=
  {blocks | ∃ u h, g.BackEdge u h ∧ blocks = {b | g.NaturalLoop h b}}

/-- Loops with the same blocks have the same header: each header dominates the other. -/
theorem naturalLoop_inj {u h h' : BlockId} (hu : g.BackEdge u h)
    (he : {b | g.NaturalLoop h b} = {b | g.NaturalLoop h' b}) : h = h' := by
  have hself : h ∈ {b | g.NaturalLoop h b} := .inl rfl
  have hself' : h' ∈ {b | g.NaturalLoop h' b} := .inl rfl
  have hreach : g.Reachable h := hu.reachable.step hu.edge
  rw [← he] at hself'
  rw [he] at hself
  exact hself'.dominates.antisymm hself.dominates (hself'.reachable hreach)

/-- **There are as many natural loops as headers.** -/
theorem encard_naturalLoops (hn : headers.Nodup)
    (hmem : ∀ h, h ∈ headers ↔ ∃ u, g.BackEdge u h) : g.naturalLoops.encard = headers.length := by
  have himage : g.naturalLoops = (fun h => {b | g.NaturalLoop h b}) '' {h | h ∈ headers} := by
    ext blocks
    constructor
    · rintro ⟨u, h, hu, rfl⟩
      exact ⟨h, (hmem h).2 ⟨u, hu⟩, rfl⟩
    · rintro ⟨h, hh, rfl⟩
      obtain ⟨u, hu⟩ := (hmem h).1 hh
      exact ⟨u, h, hu, rfl⟩
  have hinj : Set.InjOn (fun h => {b | g.NaturalLoop h b}) {h | h ∈ headers} := by
    intro h hh h' _ he
    obtain ⟨u, hu⟩ := (hmem h).1 hh
    exact naturalLoop_inj hu he
  rw [himage, hinj.encard_image, ← List.toFinset_card_of_nodup hn, ← Set.encard_coe_eq_coe_finsetCard,
    List.coe_toFinset]

end FlowGraph

/-! ## Loop analysis under a limit -/

namespace LoopForest

variable {g : FlowGraph}

/-- A limit has a part in loop analysis only through discovery. -/
theorem ofGraph_congr {limit limit' : Option Nat} {w : Walk .block} (hw : g.walk = .ok w)
    (h : Discovery.ofWalk limit g.size w = Discovery.ofWalk limit' g.size w) :
    ofGraph g limit = ofGraph g limit' := by
  simp only [ofGraph, hw, liftM_ok, ok_bind, h]

/-- **A limit on the number of loops only filters.**  Discovery without a limit finds some number of
headers, each once, however many edges lead back to it; with reducible control flow that is the
number of natural loops.  Under a limit that is at least this number, loop analysis has the answer
that it has without one, be it a forest or a refusal; any smaller limit is exceeded, and the refusal
names it. -/
theorem ofGraph_limit {f : Func} (hf : FlowGraph.ofFunc f = .ok g)
    (hblocks : f.blocks.length ≤ Ident.capacity) :
    ∃ m, (∃ w escaping d, g.walk = .ok w ∧ Discovery.ofWalk none g.size w = .ok (escaping, d) ∧
        d.headers.Nodup ∧ d.headers.length = m) ∧
      (g.Reducible → g.naturalLoops.encard = m) ∧
      ∀ k, (m ≤ k → ofGraph g (some k) = ofGraph g none) ∧
        (k < m → ofGraph g (some k) = .error (.refused (.tooManyLoops k))) := by
  have hd := FlowGraph.ofFunc_describes hf
  obtain ⟨w, hw⟩ := hd.toShaped.exists_walk
  obtain ⟨escaping, d, hdisc⟩ := Discovery.exists_ofWalk (hd.size_eq ▸ hblocks) hw
  have hc := Discovery.ofWalk_complete hw hdisc
  have hcapped : ∀ k, Discovery.ofWalk (some k) g.size w = Discovery.capped k (escaping, d) :=
    fun k => Discovery.follow_capped hdisc (Nat.zero_le k)
  refine ⟨d.headers.length, ⟨w, escaping, d, hw, hdisc, hc.nodup, rfl⟩, fun hred => ?_,
    fun k => ⟨?_, ?_⟩⟩
  · have hso := FlowGraph.walk_searchOrder hw
    exact FlowGraph.encard_naturalLoops hc.nodup
      (Outlines.mem_headers_iff hc hso (hso.reducible_iff.1 hred))
  · intro hle
    refine ofGraph_congr hw ?_
    rw [hcapped, Discovery.capped_of_le hle, hdisc]
  · intro hlt
    refine ofGraph_eq_error hw ?_
    rw [hcapped, Discovery.capped_of_lt hlt]
    rfl

/-- Two edges back to one header, and a loop of one block inside its loop. -/
def latches : Func where
  name := "latches"
  params := []
  valueCount := 0
  blocks := [
    { id := ⟨0⟩, instrs := [], terminator := .br ⟨1⟩ },
    { id := ⟨1⟩, instrs := [], terminator := .condBr (.const .null) ⟨2⟩ ⟨3⟩ },
    { id := ⟨2⟩, instrs := [], terminator := .condBr (.const .null) ⟨1⟩ ⟨2⟩ },
    { id := ⟨3⟩, instrs := [], terminator := .condBr (.const .null) ⟨1⟩ ⟨4⟩ },
    { id := ⟨4⟩, instrs := [], terminator := .ret none }]

theorem latches_limit : ∃ g, FlowGraph.ofFunc latches = .ok g ∧
    latches.blocks.length ≤ Ident.capacity ∧ g.Reducible ∧ g.naturalLoops.encard = 2 ∧
    ofGraph g (some 1) = .error (.refused (.tooManyLoops 1)) ∧
    ofGraph g (some 2) = ofGraph g none := by
  have hblocks : latches.blocks.length ≤ Ident.capacity := by decide
  have hrun : ((FlowGraph.ofFunc latches).bind fun g => (g.walk : Attempt _).bind fun w =>
      (Discovery.ofWalk none g.size w).map fun r => (r.1.isEmpty, r.2.headers)) =
      .ok (true, [⟨1⟩, ⟨2⟩]) := by decide +kernel
  cases hg : FlowGraph.ofFunc latches with
  | error e => rw [hg] at hrun; cases hrun
  | ok g =>
    obtain ⟨m, ⟨w, escaping, d, hw, hdisc, _, rfl⟩, hcount, hlimit⟩ := ofGraph_limit hg hblocks
    rw [hg] at hrun
    simp only [Except.bind, hw, liftM_ok, hdisc] at hrun
    obtain ⟨hempty, hheaders⟩ := Prod.mk.inj (Except.ok.inj hrun)
    rw [hheaders] at hcount hlimit
    have hred := (escaping_eq_empty_iff hw hdisc).1 (IdSet.isEmpty_iff.1 hempty)
    exact ⟨g, rfl, hblocks, hred, hcount hred, (hlimit 1).2 (by decide), (hlimit 2).1 (by decide)⟩

end LoopForest

end FlowTree
