import FlowTree.Proofs.ForestLaws
import FlowTree.Proofs.LoweringOutcome
import FlowTree.Proofs.Sweeps

/-!
# Lowering without faults

A fault is a mistake of the program and not of its input: a table is asked for an entry it does not
have, a set gets a member it has no room for, an identifier cannot be named, or rounds run out.  None
of them can happen in an analysis, whatever the function and the layout are like.  A function in
disorder is refused before anything relies on its order; once there is a flow graph, every identifier
that the analyses come across names a block, a loop or a slot that exists.

Two numbers have to be small enough for identifiers: that of the blocks, for there can be as many
loops as blocks, and that of the slots, for a tree with loops needs one more.

## Main statements

* `Liveness.exists_ofFunc` — the slots of a function with a graph have a liveness.
* `LoopForest.ofGraph_outcome`, `Analysis.ofFunc_outcome` — there is a result, or a refusal.
* `lower_never_faults` — so it is with lowering.
-/

namespace FlowTree

variable {layout : Layout} {f : Func} {g : FlowGraph} {copies : SlotCopies} {options : Options}
  {width : Nat} {s : SlotId} {b : BlockId} {block : Block}

/-! ## Effects -/

theorem Layout.lt_of_mem_slotsOf {vs : List ValueId} (h : s ∈ layout.slotsOf vs) :
    s.index < layout.slotCount := by
  obtain ⟨v, _, hv⟩ := List.mem_filterMap.1 h
  exact layout.slotOf_lt hv

theorem IdSet.Below.insert {k : Kind} {set : IdSet k} {i : Ident k} {n : Nat} (h : set.Below n)
    (hi : i.index < n) : (set.insert i).Below n := by
  intro j hj
  rcases IdSet.mem_insert.1 hj with rfl | hj
  · exact hi
  · exact h j hj

theorem SlotSet.exists_ofSlots {ss : List SlotId} (h : ∀ s ∈ ss, s.index < width) :
    ∃ set, ofSlots width ss = .ok set ∧ set.Below width := by
  refine exists_foldlM_eq_ok (fun set => IdSet.Below set width)
    (fun i hi => absurd hi (IdSet.not_mem_empty i)) ?_
  intro s hs set hset
  exact ⟨_, IdSet.insertBelow_of_lt (h s hs), hset.insert (h s hs)⟩

namespace Effect

variable {e : Effect}

theorem exists_read (he : e.Below width) (hs : s.index < width) :
    ∃ e', read width e s = .ok e' ∧ e'.Below width := by
  unfold read
  split
  · exact ⟨e, rfl, he⟩
  · exact ⟨_, bind_eq_ok.2 ⟨_, IdSet.insertBelow_of_lt hs, rfl⟩, he.reads.insert hs, he.writes⟩

theorem exists_write (he : e.Below width) (hs : s.index < width) :
    ∃ e', write width e s = .ok e' ∧ e'.Below width :=
  ⟨_, bind_eq_ok.2 ⟨_, IdSet.insertBelow_of_lt hs, rfl⟩, he.reads, he.writes.insert hs⟩

theorem exists_reads (vs : List ValueId) (he : e.Below layout.slotCount) :
    ∃ e', (layout.slotsOf vs).foldlM (read layout.slotCount) e = .ok e' ∧
      e'.Below layout.slotCount :=
  exists_foldlM_eq_ok (fun e : Effect => e.Below layout.slotCount) he fun _ hs _ hc =>
    exists_read hc (Layout.lt_of_mem_slotsOf hs)

/-- **Every block has an effect**, whatever values it names. -/
theorem exists_ofBlock (layout : Layout) (block : Block) :
    ∃ e, ofBlock layout block = .ok e ∧ e.Below layout.slotCount := by
  have hempty : ({} : Effect).Below layout.slotCount :=
    ⟨fun i hi => absurd hi (IdSet.not_mem_empty i), fun i hi => absurd hi (IdSet.not_mem_empty i)⟩
  obtain ⟨body, hbody, hbelow⟩ : ∃ e, block.body.foldlM (step layout) {} = .ok e ∧
      e.Below layout.slotCount := by
    refine exists_foldlM_eq_ok (fun e : Effect => e.Below layout.slotCount) hempty fun i _ c hc => ?_
    obtain ⟨c₁, h₁, hc₁⟩ := exists_reads i.uses hc
    obtain ⟨c₂, h₂, hc₂⟩ := exists_foldlM_eq_ok (fun e : Effect => e.Below layout.slotCount) hc₁
      fun s (hs : s ∈ layout.slotsOf i.defines.toList) _ hc =>
        exists_write hc (Layout.lt_of_mem_slotsOf hs)
    exact ⟨c₂, bind_eq_ok.2 ⟨c₁, h₁, h₂⟩, hc₂⟩
  obtain ⟨e, he, hbelow'⟩ := exists_reads block.terminator.uses hbelow
  exact ⟨e, bind_eq_ok.2 ⟨body, hbody, he⟩, hbelow'⟩

end Effect

namespace EdgeCopies

variable {e : EdgeCopies}

/-- The copies on edges stay with the slots of the layout. -/
theorem lt_of_mem_onEdge (h : e.onSlots g layout = .ok copies) (hb : b.index < g.size)
    (position : Nat)
    (hs : s ∈ (copies.onEdge b position).uses ∨ s ∈ (copies.onEdge b position).defs) :
    s.index < layout.slotCount := by
  obtain ⟨targets, htargets⟩ := Table.exists_get? (t := g.succs) hb
  cases ht : targets[position]? with
  | none =>
    have hempty : copies.onEdge b position = ∅ := by
      simp [SlotCopies.onEdge, onSlots_cases h htargets, ht]
    rw [hempty] at hs
    rcases hs with hs | hs <;> cases hs
  | some target =>
    rw [ParallelCopy.uses, ParallelCopy.defs, moves_onEdge h htargets ht] at hs
    obtain ⟨v, hv⟩ := ParallelCopy.exists_slotOf_of_mem (c := ⟨e.movesOn (b, target)⟩) hs
    exact layout.slotOf_lt hv

end EdgeCopies

theorem EdgeEffect.exists_ofEdge {onEdges : List (ParallelCopy SlotId)} {position : Nat}
    (h : ∀ s, s ∈ (onEdges[position]?.getD ∅).uses ∨ s ∈ (onEdges[position]?.getD ∅).defs →
      s.index < layout.slotCount) (block : Block) :
    ∃ e, ofEdge layout block onEdges position = .ok e ∧ e.Below layout.slotCount := by
  obtain ⟨writes, hwrites, hw⟩ : ∃ writes, SlotSet.ofSlots layout.slotCount
      ((onEdges[position]?.getD ∅).defs ++
        layout.slotsOf (block.terminator.definesOn position).toList) = .ok writes ∧
      writes.Below layout.slotCount := by
    refine SlotSet.exists_ofSlots fun s hs => ?_
    rcases List.mem_append.1 hs with hs | hs
    · exact h s (.inr hs)
    · exact Layout.lt_of_mem_slotsOf hs
  obtain ⟨reads, hreads, hr⟩ := SlotSet.exists_ofSlots fun s hs => h s (.inl hs)
  exact ⟨_, bind_eq_ok.2 ⟨writes, hwrites, bind_eq_ok.2 ⟨reads, hreads, rfl⟩⟩, hr, hw⟩

/-- **Every block of a function with a graph has a flow.** -/
theorem BlockFlow.exists_ofBlock {e : EdgeCopies} (hd : g.Describes f)
    (hcopies : e.onSlots g layout = .ok copies) (hblock : block ∈ f.blocks) :
    ∃ flow, ofBlock g copies layout block = .ok flow ∧ flow.Below g.size layout.slotCount := by
  have hsome : f.block? block.id = some block := hd.block?_id hblock
  have hsucc := hd.successors_iff.2 ⟨block, hsome, rfl⟩
  have hlt := Table.lt_of_get? hsucc
  have hedge (position : Nat) := EdgeEffect.exists_ofEdge
    (fun s hs => EdgeCopies.lt_of_mem_onEdge hcopies hlt position hs) block
  obtain ⟨effect, heffect, hbelow⟩ := Effect.exists_ofBlock layout block
  obtain ⟨edges, hedges⟩ : ∃ edges, block.terminator.successors.zipIdx.mapM
      (fun x => return (x.1, ← EdgeEffect.ofEdge layout block ((copies.get? block.id).getD []) x.2) :
        BlockId × Nat → Checked (BlockId × EdgeEffect)) = .ok edges :=
    exists_mapM_eq_ok fun x _ => by
      obtain ⟨e, he, _⟩ := hedge x.2
      exact ⟨_, bind_eq_ok.2 ⟨e, he, rfl⟩⟩
  have hflow : ofBlock g copies layout block = .ok ⟨effect, edges⟩ := by
    simp only [ofBlock, bind_eq_ok, pure_eq_ok]
    exact ⟨effect, heffect, _, Table.get_eq_ok_iff.2 hsucc, edges, hedges, rfl⟩
  obtain ⟨_, targets, htargets, hof, _⟩ := ofBlock_cases hflow
  refine ⟨_, hflow, hbelow, ?_, ?_⟩
  · intro target e hmem
    obtain ⟨position, ht, _⟩ := hof target e hmem
    exact hd.closed block.id target ⟨targets, htargets, List.mem_of_getElem? ht⟩
  · intro target e hmem
    obtain ⟨position, _, he⟩ := hof target e hmem
    obtain ⟨e', he', hbelow'⟩ := hedge position
    cases he.symm.trans he'
    exact hbelow'

/-! ## Liveness -/

theorem FlowGraph.Shaped.exists_postorder (hs : g.Shaped) :
    ∃ bs, g.postorder = .ok bs ∧ ∀ b ∈ bs, b.index < g.size := by
  obtain ⟨w, hw⟩ := hs.exists_walk
  refine ⟨w.postorder, bind_eq_ok.2 ⟨w, hw, rfl⟩, fun b hb => ?_⟩
  exact (Walk.ofRoots_traces hw).lt_of_mem (fun _ h => by cases h) b (List.mem_reverse.1 hb)

namespace Liveness

variable {liveIn liveOut : Table .block SlotSet} {flows : Table .block BlockFlow} {n : Nat}
  {params : SlotSet}

/-- A set of slots for each block, in each of the four tables. -/
structure InRange (l : Liveness) (n width : Nat) : Prop where
  liveIn : Sized l.liveIn n width
  liveOut : Sized l.liveOut n width
  clearBefore : Sized l.clearBefore n width
  clearAfter : Sized l.clearAfter n width

theorem exists_sweepOrder (hs : g.Shaped) :
    ∃ order, sweepOrder g = .ok order ∧ ∀ b ∈ order, b.index < g.size := by
  obtain ⟨bs, hbs, hlt⟩ := hs.exists_postorder
  refine ⟨_, bind_eq_ok.2 ⟨IdSet.ofList bs, bind_eq_ok.2 ⟨bs, hbs, rfl⟩,
    bind_eq_ok.2 ⟨bs, hbs, rfl⟩⟩, fun b hb => ?_⟩
  rcases List.mem_append.1 hb with hb | hb
  · exact hlt b hb
  · exact Table.mem_idents.1 (List.mem_filter.1 hb).1

theorem exists_union (hsized : Sized liveIn n width) {bs : List BlockId}
    (hlt : ∀ b ∈ bs, b.index < n) : ∃ all, union liveIn bs = .ok all ∧ all.Below width := by
  obtain ⟨all, hall, _⟩ : ∃ all, union liveIn bs = .ok all ∧ True := by
    refine exists_foldlM_eq_ok (fun _ => True) trivial fun b hb c _ => ?_
    obtain ⟨set, hset⟩ := Table.exists_get_eq_ok (hsized.size ▸ hlt b hb)
    exact ⟨_, bind_eq_ok.2 ⟨set, hset, rfl⟩, trivial⟩
  refine ⟨all, hall, fun s hs => ?_⟩
  obtain ⟨b, _, hmem⟩ := (mem_union hall).1 hs
  exact hsized.lt hmem

/-- A table of sets can be made where each of the sets can. -/
theorem exists_sets {α : Type} {r : α → Checked SlotSet} {as : List α}
    (h : ∀ a ∈ as, ∃ set, r a = .ok set ∧ set.Below width) :
    ∃ sets, as.mapM r = .ok sets ∧ Sized (Table.ofList sets) as.length width := by
  obtain ⟨sets, hsets⟩ := exists_mapM_eq_ok fun a ha => (h a ha).imp fun _ hr => hr.1
  refine ⟨sets, hsets, ?_, ?_⟩
  · rw [Table.size_ofList, (mapM_eq_ok.1 hsets).length_eq]
  · rintro b s ⟨set, hset, hs⟩
    rw [Table.get?_ofList] at hset
    obtain ⟨a, ha, hr⟩ := (mem_of_mapM hsets).1 (List.mem_of_getElem? hset)
    obtain ⟨set', hr', hbelow⟩ := h a ha
    cases hr.symm.trans hr'
    exact hbelow s hs

theorem exists_flows {e : EdgeCopies} (hd : g.Describes f)
    (hcopies : e.onSlots g layout = .ok copies) :
    ∃ flows, f.blocks.mapM (BlockFlow.ofBlock g copies layout) = .ok flows ∧
      Bounded (Table.ofList flows) g.size layout.slotCount := by
  obtain ⟨flows, hflows⟩ := exists_mapM_eq_ok fun block hblock =>
    (BlockFlow.exists_ofBlock hd hcopies hblock).imp fun _ h => h.1
  refine ⟨flows, hflows, ?_, ?_⟩
  · rw [Table.size_ofList, ← (mapM_eq_ok.1 hflows).length_eq, hd.size_eq]
  · intro b flow hflow
    rw [Table.get?_ofList] at hflow
    obtain ⟨block, hblock, hof⟩ := (mem_of_mapM hflows).1 (List.mem_of_getElem? hflow)
    obtain ⟨flow', hof', hbelow⟩ := BlockFlow.exists_ofBlock hd hcopies hblock
    cases hof.symm.trans hof'
    exact hbelow

theorem exists_beforeBlock (hd : g.Describes f) (hin : Sized liveIn g.size width)
    (hout : Sized liveOut g.size width) (hparams : params.Below width) (never : SlotSet)
    (hb : b.index < g.size) :
    ∃ set, beforeBlock g liveIn liveOut params never b = .ok set ∧ set.Below width := by
  obtain ⟨preds, hpreds⟩ := Table.exists_get? (t := g.preds) (hd.preds_size ▸ hb)
  have hlt : ∀ a ∈ preds, a.index < g.size := by
    intro a ha
    obtain ⟨targets, htargets, _⟩ := (hd.preds_iff a b).1 ⟨preds, hpreds, ha⟩
    exact Table.lt_of_get? htargets
  obtain ⟨needed, hneeded, _⟩ := exists_union hout hlt
  obtain ⟨here, hhere⟩ := Table.exists_get_eq_ok (hin.size.symm ▸ hb)
  have hset : beforeBlock g liveIn liveOut params never b = .ok
      ((((if b = BlockId.entry then params else ∅) ∪ needed) \ here) \ never) := by
    simp only [beforeBlock, FlowGraph.predecessors, bind_eq_ok, pure_eq_ok]
    exact ⟨preds, Table.get_eq_ok_iff.2 hpreds, needed, hneeded, here, hhere, rfl⟩
  refine ⟨_, hset, fun s hs => ?_⟩
  rcases ((mem_beforeBlock hset).1 hs).1 with ⟨_, hs⟩ | ⟨a, _, hs⟩
  · exact hparams s hs
  · exact hout.lt hs

theorem exists_afterBlock (hf : Bounded flows n width) (hin : Sized liveIn n width)
    (hout : Sized liveOut n width) (never : SlotSet) (hb : b.index < n) :
    ∃ set, afterBlock flows liveIn liveOut never b = .ok set ∧ set.Below width := by
  obtain ⟨flow, hflow⟩ := Table.exists_get? (t := flows) (hf.size.symm ▸ hb)
  obtain ⟨here, hhere⟩ := Table.exists_get_eq_ok (hin.size.symm ▸ hb)
  obtain ⟨out, hout'⟩ := Table.exists_get_eq_ok (hout.size.symm ▸ hb)
  obtain ⟨set, hset⟩ : ∃ set, afterBlock flows liveIn liveOut never b = .ok set :=
    ⟨_, bind_eq_ok.2 ⟨flow, Table.get_eq_ok_iff.2 hflow,
      bind_eq_ok.2 ⟨here, hhere, bind_eq_ok.2 ⟨out, hout', rfl⟩⟩⟩⟩
  refine ⟨set, hset, fun s hs => ?_⟩
  rcases ((mem_afterBlock hflow hset).1 hs).1 with hs | hs | ⟨target, e, hedge, hs⟩
  · exact hin.lt hs
  · exact (hf.below hflow).effect.writes s hs
  · exact ((hf.below hflow).edge hedge).writes s hs

/-- **The slots of a function with a graph have a liveness.** -/
theorem exists_ofFunc {e : EdgeCopies} (hd : g.Describes f)
    (hcopies : e.onSlots g layout = .ok copies) (options : Options) :
    ∃ l, ofFunc f g copies layout options = .ok l ∧ l.InRange g.size layout.slotCount := by
  obtain ⟨flows, hflows, hbounded⟩ := exists_flows hd hcopies
  obtain ⟨order, horder, hlt⟩ := exists_sweepOrder hd.toShaped
  obtain ⟨liveIn, hin, hclimbs⟩ := exists_settle hbounded
    (.replicate _ g.size layout.slotCount) hlt
    (show g.size * layout.slotCount < g.size * layout.slotCount + 1 + _ by omega)
  have hsized : Sized liveIn g.size layout.slotCount := hclimbs.toSized
  obtain ⟨outs, houts, hout⟩ : ∃ outs, g.succs.toList.mapM (union liveIn) = .ok outs ∧
      Sized (Table.ofList outs) g.size layout.slotCount := by
    rw [FlowGraph.size, ← Table.length_toList]
    refine exists_sets fun targets htargets => exists_union hsized fun target htarget => ?_
    obtain ⟨b, hb⟩ := Table.mem_toList.1 htargets
    exact hd.closed b target ⟨targets, hb, htarget⟩
  simp only [ofFunc, bind_eq_ok]
  by_cases hdead : options.clearDead = true
  · obtain ⟨never, hnever, _⟩ := SlotSet.exists_ofSlots
      fun s (hs : s ∈ options.neverCleared.filter fun s => s.index < layout.slotCount) =>
        of_decide_eq_true (List.mem_filter.1 hs).2
    obtain ⟨params, hparams, hbelow⟩ := SlotSet.exists_ofSlots
      fun s (hs : s ∈ layout.slotsOf f.params) => Layout.lt_of_mem_slotsOf hs
    obtain ⟨before, hbefore, hbsized⟩ := exists_sets fun b (hb : b ∈ g.blocks) =>
      exists_beforeBlock hd hsized hout hbelow never (Table.mem_idents.1 hb)
    obtain ⟨after, hafter, hasized⟩ := exists_sets fun b (hb : b ∈ g.blocks) =>
      exists_afterBlock hbounded hsized hout never (Table.mem_idents.1 hb)
    have hlength : g.blocks.length = g.size := by simp [FlowGraph.blocks, FlowGraph.size, Table.idents]
    rw [hlength] at hbsized hasized
    refine ⟨⟨liveIn, .ofList outs, .ofList before, .ofList after⟩,
      ⟨flows, hflows, order, horder, liveIn, hin, outs, houts, ?_⟩, hsized, hout, hbsized, hasized⟩
    simp only [hdead, if_true, bind_eq_ok, pure_eq_ok]
    exact ⟨never, hnever, params, hparams, before, hbefore, after, hafter, rfl⟩
  · refine ⟨⟨liveIn, .ofList outs, .replicate g.size ∅, .replicate g.size ∅⟩,
      ⟨flows, hflows, order, horder, liveIn, hin, outs, houts, ?_⟩,
      hsized, hout, .replicate _ _, .replicate _ _⟩
    rw [if_neg hdead]
    rfl

end Liveness

/-! ## Graphs and loops -/

/-- The blocks, and the loops, that discovery has come across. -/
structure Discovery.InRange (d : Discovery) (n : Nat) (escaping : LoopSet) : Prop where
  size : d.reported.size = n
  headers : ∀ h ∈ d.headers, h.index < n
  count : d.headers.length ≤ n
  reported : ∀ {b ls}, d.reported.get? b = some ls → d.Knows ls
  escaping : d.Knows escaping

/-- Edges lead from blocks to blocks, and the searches meet nothing else. -/
structure FlowGraph.InRange (g : FlowGraph) (limit : Option Nat) : Prop extends Shaped g where
  preds_lt : ∀ a b, g.preds.Edge b a → a.index < g.size
  postorder : ∃ bs, g.postorder = .ok bs ∧ ∀ b ∈ bs, b.index < g.size
  components : ∃ cs, g.components = .ok cs ∧ ∀ c ∈ cs, ∀ b ∈ c, b.index < g.size
  discovery : ∀ {w escaping d}, g.walk = .ok w →
    Discovery.ofWalk limit g.size w = .ok (escaping, d) → d.InRange g.size escaping

/-- The blocks and the loops that a loop refers to. -/
structure Loop.InRange (L : Loop) (n count : Nat) : Prop where
  id : L.id.index < count
  parent : ∀ l, L.parent = some l → l.index < count
  inner : ∀ l ∈ L.inner, l.index < count
  members : ∀ b ∈ L.members, b.index < n
  blocks : L.blocks.Below n
  exits : ∀ b ∈ L.exits, b.index < n

/-- At most as many loops as blocks, and an entry for each block in the tables. -/
structure LoopForest.InRange (forest : LoopForest) (n : Nat) : Prop where
  count : forest.size ≤ n
  order : ∀ l ∈ forest.order, l.index < forest.size
  loops : ∀ L ∈ forest.loops.toList, L.InRange n forest.size
  memberships_size : forest.memberships.size = n
  memberships : ∀ {b ls}, forest.memberships.get? b = some ls → ls.Below forest.size
  heads_size : forest.heads.size = n
  heads : ∀ {b l}, forest.heads.get? b = some (some l) → l.index < forest.size

theorem Discovery.ofWalk_inRange {limit : Option Nat} {w : Walk .block} {d : Discovery}
    {escaping : LoopSet} (hcap : g.size ≤ Ident.capacity) (hw : g.walk = .ok w)
    (hd : ofWalk limit g.size w = .ok (escaping, d)) : d.InRange g.size escaping := by
  have hc := ofWalk_complete hw hd
  rcases ofWalk_outcome limit hcap hw with ⟨_, _, hd', hf⟩ | ⟨n, _, hd'⟩
  · cases hd.symm.trans hd'
    exact ⟨hf.size, hf.lt, Ident.length_le_of_nodup hf.nodup hf.lt, hc.knows, hc.knows_escaping⟩
  · cases hd.symm.trans hd'

theorem FlowGraph.Describes.inRange (hd : g.Describes f) (hcap : g.size ≤ Ident.capacity)
    (limit : Option Nat) : g.InRange limit where
  toShaped := hd.toShaped
  preds_lt a b hab := by
    obtain ⟨_, hget, _⟩ := (hd.preds_iff a b).1 hab
    exact Table.lt_of_get? hget
  postorder := hd.exists_postorder
  components := exists_components hd.toShaped
  discovery := Discovery.ofWalk_inRange hcap

namespace LoopForest

variable {forest : LoopForest} {limit : Option Nat}

/-- Loops can be found, or the graph is refused. -/
theorem ofGraph_outcome (hs : g.Shaped) (hcap : g.size ≤ Ident.capacity) (limit : Option Nat) :
    (∃ forest, ofGraph g limit = .ok forest) ∨ ∃ r, ofGraph g limit = .error (.refused r) := by
  obtain ⟨w, hw⟩ := hs.exists_walk
  rcases Discovery.ofWalk_outcome limit hcap hw with ⟨escaping, d, hd, _⟩ | ⟨n, _, hd⟩
  · by_cases hempty : escaping = ∅
    · subst hempty
      exact .inl (exists_forest hs hw hd)
    · obtain ⟨headers, region, h⟩ := refused_of_escaping hs hw hd hempty
      exact .inr ⟨_, h⟩
  · exact .inr ⟨_, ofGraph_eq_error hw hd⟩

theorem Natural.id_lt {L : Loop} (hn : Natural g forest) (hL : L ∈ forest.loops.toList) :
    L.id.index < forest.size := by
  obtain ⟨l, hl⟩ := Table.mem_toList.1 hL
  exact hn.id hl ▸ Table.lt_of_get? hl

/-- **A forest names nothing but its own loops and the blocks of its graph.** -/
theorem ofGraph_inRange (hs : g.Shaped) (h : ofGraph g limit = .ok forest) :
    forest.InRange g.size := by
  have hnat := ofGraph_natural h
  have hnest := ofGraph_nested h
  obtain ⟨headers, order, os, hn, hforest⟩ := ofGraph_outlines h
  have hblocks : ∀ L ∈ forest.loops.toList, ∀ b, L.contains b = true → b.index < g.size := by
    intro L hL b hb
    exact hs.lt_of_reachable (((hnat.contains_iff hL).1 hb).reachable (hnat.reachable_header hL))
  have hsizes : forest.memberships.size = g.size ∧ forest.heads.size = g.size := by
    simp only [ofOutlines, bind_eq_ok, pure_eq_ok] at hforest
    obtain ⟨loops, _, rfl⟩ := hforest
    simp [FlowGraph.blocks, FlowGraph.size, Table.idents]
  refine ⟨?_, fun l hl => (hnat.mem_order l).1 hl, ?_, hsizes.1, ?_, hsizes.2, ?_⟩
  · -- loops have different headers, and each of them is a block
    rw [LoopForest.size, (ofOutlines_made hforest).2.1, hn.toShaped.size]
    refine Ident.length_le_of_nodup hn.headers_nodup fun b hb => ?_
    obtain ⟨l, o, ho, rfl⟩ := hn.toShaped.exists_of_mem hb
    exact hs.lt_of_reachable (hn.reachable ho)
  · intro L hL
    refine ⟨hnat.id_lt hL, ?_, ?_, ?_, ?_, ?_⟩
    · intro l hl
      obtain ⟨M, hM, rfl⟩ := exists_parent h hL hl
      exact hnat.id_lt hM
    · intro l hl
      obtain ⟨M, hM, rfl, _⟩ := (hnest.mem_inner_iff hL).1 hl
      exact hnat.id_lt hM
    · exact fun b hb => hblocks L hL b ((hnat.mem_members hL).1 hb)
    · exact fun b hb => hblocks L hL b (decide_eq_true hb)
    · intro b hb
      obtain ⟨_, u, _, hub⟩ := (hnest.mem_exits_iff hL).1 hb
      exact hs.closed u b hub
  · intro b ls hls l hl
    obtain ⟨ls', hls', hmem⟩ := exists_membership h (hsizes.1 ▸ Table.lt_of_get? hls)
    cases (Table.get_eq_ok_iff.2 hls).symm.trans hls'
    obtain ⟨L, hL, rfl, _⟩ := (hmem l).1 hl
    exact hnat.id_lt hL
  · intro b l hl
    obtain ⟨o, ho, hhead⟩ := exists_headed h (hsizes.2 ▸ Table.lt_of_get? hl)
    cases (Table.get_eq_ok_iff.2 hl).symm.trans ho
    obtain ⟨L, hL, rfl, _⟩ := (hhead l).1 rfl
    exact hnat.id_lt hL

end LoopForest

/-! ## Analysis and lowering -/

/-- Every part of the analysis refers to blocks of the function, to loops of the forest and to slots
of the layout. -/
structure Analysis.InRange (a : Analysis) (f : Func) (layout : Layout) : Prop where
  loops : a.loops.InRange f.blocks.length
  edges : ∀ {b block}, f.block? b = some block →
    ∃ edges, a.slotCopies.get? b = some edges ∧ edges.length = block.terminator.successors.length
  slots : ∀ {b position s}, b.index < f.blocks.length →
    s ∈ (a.slotCopies.onEdge b position).uses ∨ s ∈ (a.slotCopies.onEdge b position).defs →
    s.index < layout.slotCount
  liveness : a.liveness.InRange f.blocks.length layout.slotCount

/-- **An analysis has a result or ends with a refusal.** -/
theorem Analysis.ofFunc_outcome (hblocks : f.blocks.length ≤ Ident.capacity) (layout : Layout)
    (options : Options) :
    (∃ a, ofFunc f layout options = .ok a ∧ a.InRange f layout) ∨
      ∃ r, ofFunc f layout options = .error (.refused r) := by
  cases hg : FlowGraph.ofFunc f with
  | error stop =>
    have hstop : ofFunc f layout options = .error stop := by rw [ofFunc, hg]; rfl
    rw [hstop]
    obtain ⟨_, rfl⟩ | ⟨_, _, _, ⟨_, rfl⟩ | ⟨_, _, _, rfl⟩⟩ := FlowGraph.ofFunc_error hg
    all_goals exact .inr ⟨_, rfl⟩
  | ok g =>
    have hd := FlowGraph.ofFunc_describes hg
    rcases LoopForest.ofGraph_outcome hd.toShaped (hd.size_eq ▸ hblocks) options.maxLoops with
      ⟨forest, hforest⟩ | ⟨r, hr⟩
    · rcases EdgeCopies.ofFunc_outcome hd with ⟨e, he⟩ | ⟨b, defect, hr⟩
      · obtain ⟨copies, hcopies⟩ := EdgeCopies.exists_onSlots e g layout
        obtain ⟨l, hl, hrange⟩ := Liveness.exists_ofFunc hd hcopies options
        refine .inl ⟨⟨g, forest, e, copies, l⟩, ?_, ?_, ?_, ?_, ?_⟩
        · simp only [ofFunc, hg, hforest, he, hcopies, hl, liftM_ok, ok_bind]
          rfl
        · exact hd.size_eq ▸ LoopForest.ofGraph_inRange hd.toShaped hforest
        · intro b block hblock
          exact ⟨_, EdgeCopies.onSlots_cases hcopies (hd.successors_iff.2 ⟨block, hblock, rfl⟩),
            List.length_map _⟩
        · intro b position s hb hs
          exact EdgeCopies.lt_of_mem_onEdge hcopies (hd.size_eq ▸ hb) position hs
        · exact hd.size_eq ▸ hrange
      · refine .inr ⟨.malformed b defect, ?_⟩
        simp only [ofFunc, hg, hforest, hr, ok_bind]
        rfl
    · refine .inr ⟨r, ?_⟩
      simp only [ofFunc, hg, hr, ok_bind]
      rfl

/-- **Lowering never faults.**  Whatever a function, a layout and the options are, as long as blocks
and slots can be named: there is a tree, made from an analysis in which every identifier is in range;
or the function is refused, before a node is made. -/
theorem lower_never_faults {τ ν : Type} (f : Func) (layout : Layout) (options : Options)
    (create : Block → Decoration → StateM τ ν) (seed : τ)
    (hblocks : f.blocks.length < Ident.capacity) (hslots : layout.slotCount < Ident.capacity) :
    (∀ g, FlowGraph.ofFunc f = .ok g → g.InRange options.maxLoops) ∧
    ((∃ a, Analysis.ofFunc f layout options = .ok a ∧ a.InRange f layout ∧
        ∃ t, ((lower f layout options create).run seed).1 = .ok t) ∨
      ∃ r, Analysis.ofFunc f layout options = .error (.refused r) ∧
        (lower f layout options create).run seed = (.error (.refused r), seed)) := by
  refine ⟨fun g hg => ?_, ?_⟩
  · have hd := FlowGraph.ofFunc_describes hg
    exact hd.inRange (hd.size_eq ▸ hblocks.le) options.maxLoops
  · rcases Analysis.ofFunc_outcome hblocks.le layout options with ⟨a, ha, hrange⟩ | ⟨r, hr⟩
    · obtain ⟨plans, hplans, _, hlower⟩ := Lowering.lower_of_ofFunc create seed ha
      have hplanned : Lowering.Planned f layout options create a _ := Lowering.plan_planned hplans seed
      obtain ⟨t, ht⟩ := (Lowering.assemble_outcome hplanned).1.2 (.inr hslots)
      rw [Table.toList_ofList] at ht
      exact .inl ⟨a, ha, hrange, t, by rw [hlower]; exact ht⟩
    · refine .inr ⟨r, hr, ?_⟩
      rw [lower, Lowering.plan, hr]
      rfl

/-- A loop, a block that control does not reach, and values that are not counted.  What ends the loop
is left open. -/
def stray (terminator : Terminator) : Func where
  name := "stray"
  params := [⟨0⟩, ⟨7⟩]
  valueCount := 2
  blocks := [
    { id := ⟨0⟩, instrs := [], terminator := .invoke (some ⟨8⟩) "get" [.value ⟨9⟩] ⟨1⟩ ⟨1⟩ },
    { id := ⟨1⟩
      instrs := [.phi ⟨1⟩ [⟨⟨0⟩, .value ⟨8⟩⟩, ⟨⟨1⟩, .value ⟨5⟩⟩], .copy ⟨5⟩ (.value ⟨1⟩)]
      terminator },
    { id := ⟨2⟩, instrs := [.phi ⟨6⟩ []], terminator := .ret (some (.value ⟨6⟩)) },
    { id := ⟨3⟩, instrs := [], terminator := .br ⟨3⟩ }]

/-- Three of the uncounted values of `stray` are given slots. -/
def strayLayout : Layout :=
  (((Layout.onePerValue (stray .unreachable)).assign ⟨5⟩ ⟨6⟩).assign ⟨8⟩ ⟨1⟩).assign ⟨7⟩ ⟨3⟩

/-- A successor that exists leads to a tree, and one that does not to a refusal. -/
theorem lower_stray_never_faults :
    (stray .unreachable).blocks.length < Ident.capacity ∧ strayLayout.slotCount < Ident.capacity ∧
    (∃ a, Analysis.ofFunc (stray (.condBr (.value ⟨5⟩) ⟨1⟩ ⟨2⟩)) strayLayout
        { neverCleared := [⟨2⟩, ⟨40⟩] } = .ok a ∧
      a.InRange (stray (.condBr (.value ⟨5⟩) ⟨1⟩ ⟨2⟩)) strayLayout ∧
      ∃ t, ((lower (stray (.condBr (.value ⟨5⟩) ⟨1⟩ ⟨2⟩)) strayLayout
        { neverCleared := [⟨2⟩, ⟨40⟩] } Lowering.noting).run []).1 = .ok t) ∧
    (lower (stray (.br ⟨4⟩)) strayLayout {} Lowering.noting).run [] =
      (.error (.refused (.malformed ⟨1⟩ (.noSuchSuccessor ⟨4⟩))), []) := by
  have hblocks : ∀ t, (stray t).blocks.length < Ident.capacity := fun _ =>
    show 4 < Ident.capacity by decide
  have hslots : strayLayout.slotCount < Ident.capacity := by decide
  have haccepted : (Analysis.ofFunc (stray (.condBr (.value ⟨5⟩) ⟨1⟩ ⟨2⟩)) strayLayout
      { neverCleared := [⟨2⟩, ⟨40⟩] }).map (fun _ => ()) = .ok () := by decide +kernel
  have hrefused : (Analysis.ofFunc (stray (.br ⟨4⟩)) strayLayout {}).map (fun _ => ()) =
      .error (.refused (.malformed ⟨1⟩ (.noSuchSuccessor ⟨4⟩))) := by decide +kernel
  refine ⟨hblocks _, hslots, ?_, ?_⟩
  · obtain ⟨_, h | ⟨r, hr, _⟩⟩ := lower_never_faults (stray (.condBr (.value ⟨5⟩) ⟨1⟩ ⟨2⟩)) strayLayout
      { neverCleared := [⟨2⟩, ⟨40⟩] } Lowering.noting [] (hblocks _) hslots
    · exact h
    · rw [hr] at haccepted
      cases haccepted
  · obtain ⟨_, ⟨a, ha, _⟩ | ⟨r, hr, hlower⟩⟩ := lower_never_faults (stray (.br ⟨4⟩)) strayLayout {}
      Lowering.noting [] (hblocks _) hslots
    · rw [ha] at hrefused
      cases hrefused
    · rw [hr] at hrefused
      cases hrefused
      exact hlower

end FlowTree
