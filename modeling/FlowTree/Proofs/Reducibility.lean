import FlowTree.Proofs.Components
import FlowTree.Proofs.NaturalLoops
import Mathlib.Logic.Relation

/-!
# Loop analysis decides reducibility

For the graph of a function, and without a limit on the number of loops, loop analysis has one of
two answers: the forest of the loops if control flow is reducible, and the refusal of irreducible
control flow if it is not.  Nothing else can happen, because no step of the analysis faults.

Most of the module is about that last point.  The search, discovery, absorption and the description
of an irreducible region only look up blocks and loops that exist; the one number that could outgrow
its width is that of the loops, and there are at most as many loops as blocks.

## Main statements

* `Discovery.ofWalk_outcome` — discovery has a result, or finds too many loops.
* `FlowGraph.exists_irreducible` — an irreducible region can be described.
* `LoopForest.exists_ofOutlines` — natural loops make a forest.
* `LoopForest.ofGraph_decides_reducible` — the two answers.
-/

namespace FlowTree

/-! ## Discovery -/

namespace Discovery

variable {graph : Adjacency .block} {d : Discovery}

/-- There is room for the loops that are still to be found: headers are blocks, each once. -/
structure Fits (graph : Adjacency .block) (d : Discovery) : Prop where
  size : d.reported.size = graph.size
  nodup : d.headers.Nodup
  lt : ∀ h ∈ d.headers, h.index < graph.size

/-- A header finds its loop, or room for a new one, unless there are as many as allowed. -/
theorem loopAt_outcome {limit : Option Nat} {b : BlockId} (hf : Fits graph d)
    (hcap : graph.size ≤ Ident.capacity) (hb : b.index < graph.size) :
    (∃ l d', d.loopAt limit b = .ok (l, d') ∧ Fits graph d') ∨
      ∃ n, limit = some n ∧ d.loopAt limit b = refuse (.tooManyLoops n) := by
  cases hl : d.loopAt? b with
  | some l => exact .inl ⟨l, d, by simp [loopAt, hl], hf⟩
  | none =>
    cases hlimit : limit.filter (· ≤ d.headers.length) with
    | some n =>
      exact .inr ⟨n, (Option.filter_eq_some_iff.1 hlimit).1, by simp only [loopAt, hl, hlimit]⟩
    | none =>
      have hnew : (b :: d.headers).Nodup := List.nodup_cons.2 ⟨loopAt?_eq_none_iff.1 hl, hf.nodup⟩
      have hlen : d.headers.length < graph.size :=
        Ident.length_le_of_nodup hnew (List.forall_mem_cons.2 ⟨hb, hf.lt⟩)
      refine .inl ⟨⟨d.headers.length⟩, { d with headers := d.headers ++ [b] }, ?_, hf.size, ?_, ?_⟩
      · simp only [loopAt, hl, hlimit, bind_eq_ok, liftM_eq_ok]
        exact ⟨_, Ident.ofIndex_of_lt (Nat.lt_of_lt_of_le hlen hcap), rfl⟩
      · simpa [List.nodup_append, loopAt?_eq_none_iff.1 hl, eq_comm] using
          ⟨hf.nodup, fun a ha hab => loopAt?_eq_none_iff.1 hl (hab ▸ ha)⟩
      · intro h hh
        rcases List.mem_append.1 hh with hh | hh
        · exact hf.lt h hh
        · cases List.mem_singleton.1 hh
          exact hb

theorem exists_finish {b : BlockId} (hf : Fits graph d) (hb : b.index < graph.size)
    (below : LoopSet) : ∃ report d', d.finish b below = .ok (report, d') ∧ Fits graph d' := by
  obtain ⟨report, hfinish⟩ : ∃ report, ∀ reported, d.reported.set b report = .ok reported →
      d.finish b below = .ok (report, { d with reported }) := by
    cases hloop : d.loopAt? b with
    | some l => exact ⟨below.erase l, fun reported h => by simp [finish, hloop, h]⟩
    | none => exact ⟨below, fun reported h => by simp [finish, hloop, h]⟩
  obtain ⟨reported, hset⟩ := Table.exists_set_eq_ok report (hf.size ▸ hb)
  exact ⟨report, _, hfinish reported hset, (Table.size_of_set hset).trans hf.size, hf.nodup, hf.lt⟩

/-- Discovery has a result, unless there are more loops than allowed. -/
theorem follow_outcome {limit : Option Nat} (hcap : graph.size ≤ Ident.capacity)
    {path finished targets : List BlockId} {w : Walk .block}
    (ht : Walk.Traces graph path finished targets w) (hpath : ∀ i ∈ path, i.index < graph.size)
    (hfinished : ∀ i ∈ finished, i.index < graph.size) (hf : Fits graph d) (report : LoopSet) :
    (∃ report' d', follow limit w d report = .ok (report', d') ∧ Fits graph d') ∨
      ∃ n, limit = some n ∧ follow limit w d report = refuse (.tooManyLoops n) := by
  induction ht generalizing d report with
  | done => exact .inl ⟨report, d, rfl, hf⟩
  | descend _ _ hi hinner _ ihInner ihRest =>
    have hlt := Table.lt_of_get? hi
    rw [follow]
    rcases ihInner (List.forall_mem_cons.2 ⟨hlt, hpath⟩) hfinished hf ∅ with
      ⟨below, d₁, h₁, hf₁⟩ | ⟨n, hn, h₁⟩
    · obtain ⟨reported, d₂, h₂, hf₂⟩ := exists_finish hf₁ hlt below
      rw [h₁, ok_bind]
      dsimp only
      rw [h₂, liftM_ok, ok_bind]
      exact ihRest hpath (List.forall_mem_cons.2 ⟨hlt, hinner.lt_of_mem hfinished⟩) hf₂ _
    · exact .inr ⟨n, hn, by rw [h₁]; rfl⟩
  | back hi _ ih =>
    rw [follow]
    rcases loopAt_outcome hf hcap (hpath _ hi) with ⟨l, d₁, h₁, hf₁⟩ | ⟨n, hn, h₁⟩
    · rw [h₁, ok_bind]
      exact ih hpath hfinished hf₁ _
    · exact .inr ⟨n, hn, by rw [h₁]; rfl⟩
  | seen hi _ ih =>
    obtain ⟨reported, h₁⟩ := Table.exists_get_eq_ok (hf.size ▸ hfinished _ hi)
    rw [follow, h₁, liftM_ok, ok_bind]
    exact ih hpath hfinished hf _

theorem ofWalk_outcome {g : FlowGraph} {w : Walk .block} (limit : Option Nat)
    (hcap : g.size ≤ Ident.capacity) (hw : g.walk = .ok w) :
    (∃ escaping d, ofWalk limit g.size w = .ok (escaping, d) ∧ Fits g.succs d) ∨
      ∃ n, limit = some n ∧ ofWalk limit g.size w = refuse (.tooManyLoops n) :=
  follow_outcome hcap (Walk.ofRoots_traces hw) (fun _ h => by cases h) (fun _ h => by cases h)
    ⟨Table.size_replicate _ _, List.nodup_nil, fun h hh => by cases hh⟩ ∅

theorem exists_ofWalk {g : FlowGraph} {w : Walk .block} (hcap : g.size ≤ Ident.capacity)
    (hw : g.walk = .ok w) : ∃ escaping d, ofWalk none g.size w = .ok (escaping, d) := by
  rcases ofWalk_outcome none hcap hw with ⟨escaping, d, h, _⟩ | ⟨n, hn, _⟩
  · exact ⟨escaping, d, h⟩
  · cases hn

theorem exists_headersOf {ls : LoopSet} (hk : d.Knows ls) :
    ∃ headers, d.headersOf ls.toList = .ok headers := by
  refine exists_mapM_eq_ok fun l hl => Table.exists_get_eq_ok ?_
  simpa using hk l (IdSet.mem_toList.1 hl)

theorem mem_headersOf {ls : LoopSet} {headers : List BlockId} {b : BlockId}
    (h : d.headersOf ls.toList = .ok headers) : b ∈ headers ↔ d.Names ls b := by
  simp only [mem_of_mapM h, IdSet.mem_toList, Table.get_eq_ok_iff, Table.get?_ofList]
  rfl

/-- Known loops, if there are any, have a header. -/
theorem exists_names {ls : LoopSet} (hne : ls ≠ ∅) (hk : d.Knows ls) : ∃ b, d.Names ls b := by
  obtain ⟨l, hl⟩ : ∃ l, l ∈ ls := by
    by_contra hnone
    exact hne (IdSet.ext fun l => iff_of_false (fun hl => hnone ⟨l, hl⟩) (IdSet.not_mem_empty l))
  exact ⟨_, l, hl, List.getElem?_eq_getElem (hk l hl)⟩

end Discovery

/-! ## The description of a region -/

namespace FlowGraph

variable {g : FlowGraph}

theorem Shaped.exists_walk (hs : g.Shaped) : ∃ w, g.walk = .ok w :=
  Walk.exists_ofRoots hs.closed (List.forall_mem_singleton.2 hs.nonempty)

theorem exists_isCyclic {c : List BlockId} (hc : ∀ b ∈ c, b.index < g.size) :
    ∃ r, g.isCyclic c = .ok r := by
  match c, hc with
  | [], _ => exact ⟨_, rfl⟩
  | [b], hc =>
    obtain ⟨targets, h⟩ := Table.exists_get_eq_ok (hc b List.mem_cons_self)
    exact ⟨_, bind_eq_ok.2 ⟨targets, h, rfl⟩⟩
  | _ :: _ :: _, _ => exact ⟨_, rfl⟩

theorem exists_regionAround (hs : g.Shaped) (bs : List BlockId) :
    ∃ region, g.regionAround bs = .ok region ∧ ∀ b ∈ region, b.index < g.size := by
  obtain ⟨cs, hcs, hlt⟩ := exists_components hs
  obtain ⟨cyclic, hcyclic⟩ := exists_mapM_eq_ok fun c hc => exists_isCyclic (hlt c hc)
  simp only [regionAround, cyclicComponents, bind_eq_ok, pure_eq_ok]
  refine ⟨_, ⟨_, ⟨cs, hcs, cyclic, hcyclic, rfl⟩, rfl⟩, ?_⟩
  intro b hb
  simp only [Ident.mem_sort, List.mem_flatten, List.mem_filter, List.mem_map] at hb
  obtain ⟨_, ⟨⟨⟨c, r⟩, ⟨hzip, _⟩, rfl⟩, _⟩, hb⟩ := hb
  exact hlt c (List.of_mem_zip hzip).1 b hb

/-- **An irreducible region can be described.** -/
theorem exists_irreducible (hs : g.Shaped) (bs : List BlockId) :
    ∃ headers region, g.irreducible bs = .ok (.irreducible headers region) := by
  obtain ⟨region, hregion, hlt⟩ := exists_regionAround hs bs
  obtain ⟨entered, hentered⟩ : ∃ entered, region.mapM (g.isEntered region) = .ok entered := by
    refine exists_mapM_eq_ok fun b hb => ?_
    obtain ⟨preds, h⟩ := Table.exists_get_eq_ok (t := g.preds) (hs.preds_size ▸ hlt b hb)
    exact ⟨_, bind_eq_ok.2 ⟨preds, h, rfl⟩⟩
  obtain ⟨entries, hentries⟩ : ∃ entries, g.regionEntries region = .ok entries :=
    ⟨_, bind_eq_ok.2 ⟨entered, hentered, rfl⟩⟩
  exact ⟨_, region, bind_eq_ok.2 ⟨region, hregion, bind_eq_ok.2 ⟨entries, hentries, rfl⟩⟩⟩

end FlowGraph

/-! ## The forest -/

namespace LoopForest

variable {g : FlowGraph}

theorem exists_ofOutlines {headers : List BlockId} {order : List LoopId} {os : Outlines}
    (hs : g.Shaped) (hn : Outlines.Natural g headers order os) :
    ∃ forest, ofOutlines g os order = .ok forest := by
  obtain ⟨loops, hloops⟩ : ∃ loops, os.toList.mapM
      (loopOf g (os.parents.map (Option.map Outline.id)) order) = .ok loops := by
    refine exists_mapM_eq_ok fun o ho => ?_
    obtain ⟨l, hl⟩ := Table.mem_toList.1 ho
    obtain ⟨targets, htargets⟩ : ∃ targets, o.members.toList.mapM g.successors = .ok targets := by
      refine exists_mapM_eq_ok fun b hb => ?_
      have hb := (hn.mem_iff hl).1 (IdSet.mem_toList.1 hb)
      exact Table.exists_get_eq_ok (hs.lt_of_reachable (hb.reachable (hn.reachable hl)))
    have hid : o.id.index < (os.parents.map (Option.map Outline.id)).size := by
      rw [hn.toShaped.id hl, Table.size_map, Outlines.parents, Table.size_map]
      exact Table.lt_of_get? hl
    obtain ⟨parent, hparent⟩ := Table.exists_get_eq_ok hid
    simp only [loopOf, exitsOf, bind_eq_ok, pure_eq_ok]
    exact ⟨_, _, ⟨targets, htargets, rfl⟩, parent, hparent, rfl⟩
  exact ⟨_, bind_eq_ok.2 ⟨loops, hloops, rfl⟩⟩

/-- With nothing reported at the entry the loops are natural loops: they can be put in order, and
absorption makes them complete. -/
theorem exists_outlines {limit : Option Nat} {w : Walk .block} {d : Discovery} (hw : g.walk = .ok w)
    (hd : Discovery.ofWalk limit g.size w = .ok (∅, d)) :
    ∃ order os, (Outlines.ofDiscovery d).order? = .ok (.ok order) ∧
      (Outlines.ofDiscovery d).close order = .ok os ∧ Outlines.Natural g d.headers order os := by
  have hc := Discovery.ofWalk_complete hw hd
  have hso := FlowGraph.walk_searchOrder hw
  have hdom := (hc.isReport.silent_entry_iff hso).1 fun h hr =>
    Discovery.names_empty ((hc.escaping h).2 hr)
  have hshape := (Outlines.ofDiscovery_absorbed hc.nodup).toShaped
  obtain ⟨order, horder⟩ := Outlines.exists_order?_ofDiscovery hc hso hdom
  have hord := Outlines.order?_ordered hshape horder
  obtain ⟨os, hclose⟩ := Outlines.exists_close hshape
    fun l hl => hshape.size ▸ (hord.mem_iff l).1 hl
  exact ⟨order, os, horder, hclose, Outlines.close_natural hc hso hdom horder hclose⟩

/-- Where discovery stops, analysis stops. -/
theorem ofGraph_eq_error {limit : Option Nat} {w : Walk .block} {stop : Stop} (hw : g.walk = .ok w)
    (hd : Discovery.ofWalk limit g.size w = .error stop) : ofGraph g limit = .error stop := by
  simp only [ofGraph, hw, liftM_ok, ok_bind, hd]
  rfl

/-- With nothing reported at the entry, analysis comes down to making a forest of the loops. -/
theorem ofGraph_eq_ofOutlines {limit : Option Nat} {w : Walk .block} {d : Discovery}
    {order : List LoopId} {os : Outlines} (hw : g.walk = .ok w)
    (hd : Discovery.ofWalk limit g.size w = .ok (∅, d))
    (horder : (Outlines.ofDiscovery d).order? = .ok (.ok order))
    (hclose : (Outlines.ofDiscovery d).close order = .ok os)
    (hn : Outlines.Natural g d.headers order os) :
    ofGraph g limit = (liftM (ofOutlines g os order) : Attempt LoopForest) := by
  have hempty : (!(∅ : LoopSet).isEmpty) = false := by decide
  simp only [ofGraph, hw, liftM_ok, ok_bind, hd, hempty, Bool.false_eq_true, if_false, horder]
  rw [hclose, liftM_ok, ok_bind]
  simp only [hn.clash?_eq_none]

/-- With nothing reported at the entry there is a forest. -/
theorem exists_forest {limit : Option Nat} {w : Walk .block} {d : Discovery} (hs : g.Shaped)
    (hw : g.walk = .ok w) (hd : Discovery.ofWalk limit g.size w = .ok (∅, d)) :
    ∃ forest, ofGraph g limit = .ok forest := by
  obtain ⟨order, os, horder, hclose, hn⟩ := exists_outlines hw hd
  obtain ⟨forest, hforest⟩ := exists_ofOutlines hs hn
  refine ⟨forest, ?_⟩
  rw [ofGraph_eq_ofOutlines hw hd horder hclose hn, hforest, liftM_ok]

/-- With something reported at the entry, the refusal is about the headers of what is reported. -/
theorem ofGraph_eq_refusal {limit : Option Nat} {w : Walk .block} {escaping : LoopSet}
    {d : Discovery} {offending : List BlockId} {r : Refusal} (hw : g.walk = .ok w)
    (hd : Discovery.ofWalk limit g.size w = .ok (escaping, d)) (hne : escaping ≠ ∅)
    (hoffending : d.headersOf escaping.toList = .ok offending)
    (hr : g.irreducible offending = .ok r) : ofGraph g limit = .error (.refused r) := by
  have hescaping : (!escaping.isEmpty) = true := by
    rw [Bool.not_eq_true', Bool.eq_false_iff]
    exact fun h => hne (IdSet.isEmpty_iff.1 h)
  simp only [ofGraph, hw, liftM_ok, ok_bind, hd, hescaping, if_true, hoffending, hr]
  rfl

/-- With something reported at the entry the graph is refused. -/
theorem refused_of_escaping {limit : Option Nat} {w : Walk .block} {escaping : LoopSet}
    {d : Discovery} (hs : g.Shaped) (hw : g.walk = .ok w)
    (hd : Discovery.ofWalk limit g.size w = .ok (escaping, d)) (hne : escaping ≠ ∅) :
    ∃ headers region, ofGraph g limit = .error (.refused (.irreducible headers region)) := by
  have hc := Discovery.ofWalk_complete hw hd
  obtain ⟨offending, hoffending⟩ := Discovery.exists_headersOf hc.knows_escaping
  obtain ⟨headers, region, hrefusal⟩ := FlowGraph.exists_irreducible hs offending
  exact ⟨headers, region, ofGraph_eq_refusal hw hd hne hoffending hrefusal⟩

/-- What the entry reports tells whether control flow is reducible. -/
theorem escaping_eq_empty_iff {limit : Option Nat} {w : Walk .block} {escaping : LoopSet}
    {d : Discovery} (hw : g.walk = .ok w)
    (hd : Discovery.ofWalk limit g.size w = .ok (escaping, d)) : escaping = ∅ ↔ g.Reducible := by
  have hc := Discovery.ofWalk_complete hw hd
  have hso := FlowGraph.walk_searchOrder hw
  rw [hso.reducible_iff, ← hc.isReport.silent_entry_iff hso]
  constructor
  · rintro rfl h hr
    exact Discovery.names_empty ((hc.escaping h).2 hr)
  · intro hsilent
    ext l
    refine iff_of_false ?_ (IdSet.not_mem_empty l)
    intro hl
    have hget := List.getElem?_eq_getElem (hc.knows_escaping l hl)
    exact hsilent _ ((hc.escaping _).1 ⟨l, hl, hget⟩)

/-- Where there is a forest, control flow is reducible, whatever the limit on the number of loops. -/
theorem reducible_of_ofGraph {limit : Option Nat} {forest : LoopForest}
    (h : ofGraph g limit = .ok forest) : g.Reducible := by
  obtain ⟨w, d, _, _, hw, hd, _⟩ := ofGraph_cases h
  exact (escaping_eq_empty_iff hw hd).1 rfl

/-- **Loop analysis decides reducibility.**  Blocks that can all be named, no limit on the number of
loops: there is a forest exactly if control flow is reducible, and otherwise the function is refused
as irreducible. -/
theorem ofGraph_decides_reducible {f : Func} (hf : FlowGraph.ofFunc f = .ok g)
    (hnames : ∀ b ∈ f.blocks, b.id.index < Ident.capacity) :
    ((∃ forest, ofGraph g none = .ok forest) ↔ g.Reducible) ∧
    (¬ g.Reducible →
      ∃ headers region, ofGraph g none = .error (.refused (.irreducible headers region))) := by
  have hd := FlowGraph.ofFunc_describes hf
  have hcap : g.size ≤ Ident.capacity := by
    -- the last block is named by its position
    have hlen := hd.nonempty
    rw [hd.size_eq] at hlen ⊢
    have hlast := List.getElem?_eq_getElem (Nat.sub_one_lt_of_lt hlen)
    have hid := hd.id hlast
    have hlt := hnames _ (List.mem_of_getElem? hlast)
    omega
  have hroot : ∀ b ∈ [BlockId.entry], b.index < g.succs.size := by
    rw [List.forall_mem_singleton]
    exact hd.nonempty
  obtain ⟨w, hw⟩ := Walk.exists_ofRoots hd.closed hroot
  obtain ⟨escaping, d, hdisc⟩ := Discovery.exists_ofWalk hcap hw
  have hiff := escaping_eq_empty_iff hw hdisc
  by_cases hempty : escaping = ∅
  · subst hempty
    have hred := hiff.1 rfl
    exact ⟨iff_of_true (exists_forest hd.toShaped hw hdisc) hred, fun h => absurd hred h⟩
  · have hrefused := refused_of_escaping hd.toShaped hw hdisc hempty
    refine ⟨iff_of_false ?_ (fun hred => hempty (hiff.2 hred)), fun _ => hrefused⟩
    rintro ⟨forest, hforest⟩
    obtain ⟨headers, region, herror⟩ := hrefused
    rw [herror] at hforest
    cases hforest

/-- Two blocks that lead to each other and are both entered from the first block. -/
def twoEntries : Func where
  name := "twoEntries"
  params := []
  valueCount := 0
  blocks := [
    { id := ⟨0⟩, instrs := [], terminator := .condBr (.const (.bool true)) ⟨1⟩ ⟨2⟩ },
    { id := ⟨1⟩, instrs := [], terminator := .br ⟨2⟩ },
    { id := ⟨2⟩, instrs := [], terminator := .br ⟨1⟩ }]

def twoEntriesGraph : FlowGraph where
  succs := .ofList [[⟨1⟩, ⟨2⟩], [⟨2⟩], [⟨1⟩]]
  preds := .ofList [[], [⟨0⟩, ⟨2⟩], [⟨0⟩, ⟨1⟩]]

theorem twoEntries_not_reducible : ∃ g, FlowGraph.ofFunc twoEntries = .ok g ∧
    (∀ b ∈ twoEntries.blocks, b.id.index < Ident.capacity) ∧ ¬ g.Reducible ∧
    ∃ headers region, ofGraph g none = .error (.refused (.irreducible headers region)) := by
  have hnames : ∀ b ∈ twoEntries.blocks, b.id.index < Ident.capacity := by decide
  have hg : FlowGraph.ofFunc twoEntries = .ok twoEntriesGraph := by decide +kernel
  have hnot : ¬ twoEntriesGraph.Reducible :=
    (@escaping_eq_empty_iff twoEntriesGraph none _ _ _ rfl rfl).not.1 (by decide)
  obtain ⟨_, hrefused⟩ := ofGraph_decides_reducible hg hnames
  exact ⟨twoEntriesGraph, hg, hnames, hnot, hrefused hnot⟩

end LoopForest

end FlowTree
