import FlowTree.Proofs.Reducibility
import FlowTree.Proofs.Regions
import Mathlib.Tactic.IntervalCases

/-!
# Blocks that control does not get to

Loop analysis starts at the entry and follows successors, so what it finds does not depend on where
unreachable blocks lead.  Two graphs that agree on the reachable blocks are searched alike; the same
loops are discovered, and they make the same forest, or the same limit is exceeded.

There is one exception.  The refusal of irreducible control flow describes its region by the
predecessors of the blocks, and a predecessor may be unreachable.  The region is the same for both
graphs, but a block of it that live code only comes to from inside is named as an entry as soon as
dead code leads to it.

## Main statements

* `FlowGraph.AgreesWith.walk_eq` — such graphs are searched alike.
* `LoopForest.ofGraph_of_agreesWith` — what loop analysis says about both.
-/

namespace FlowTree

open Relation

/-! ## Searches -/

namespace Walk

variable {k : Kind} {graph graph' : Adjacency k} {path finished targets : List (Ident k)}
  {w w' : Walk k}

/-- A search has one record. -/
theorem Traces.unique (h : Traces graph path finished targets w)
    (h' : Traces graph path finished targets w') (hn : finished.Nodup)
    (hd : ∀ i ∈ path, i ∉ finished) : w = w' := by
  induction h generalizing w' with
  | done =>
    cases h'
    rfl
  | @descend path finished i _ _ inner _ hp hf hi hinner _ ihInner ihRest =>
    cases h' with
    | back hmem => exact absurd hmem hp
    | seen hmem => exact absurd hmem hf
    | descend _ _ hi' hinner' hrest' =>
      cases hi.symm.trans hi'
      have hdi : ∀ j ∈ i :: path, j ∉ finished := List.forall_mem_cons.2 ⟨hf, hd⟩
      obtain rfl := ihInner hinner' hn hdi
      obtain ⟨hn', hd'⟩ := hinner.nodup hn hdi
      obtain ⟨hni, hd'⟩ := List.forall_mem_cons.1 hd'
      have hdr : ∀ j ∈ path, j ∉ i :: inner.finished finished := by
        intro j hj
        rw [List.mem_cons, not_or]
        exact ⟨fun he => hp (he ▸ hj), hd' j hj⟩
      rw [ihRest hrest' (List.nodup_cons.2 ⟨hni, hn'⟩) hdr]
  | back hi _ ih =>
    cases h' with
    | descend hp => exact absurd hi hp
    | back _ hrest' => rw [ih hrest' hn hd]
    | seen hf => exact absurd hf (hd _ hi)
  | seen hi _ ih =>
    cases h' with
    | descend _ hf => exact absurd hi hf
    | back hp => exact absurd hi (hd _ hp)
    | seen _ hrest' => rw [ih hrest' hn hd]

/-- The record of a search is one of any graph that agrees wherever the search gets. -/
theorem Traces.congr {P : Ident k → Prop} (h : Traces graph path finished targets w)
    (htargets : ∀ i ∈ targets, P i)
    (hP : ∀ i js, P i → graph.get? i = some js → graph'.get? i = some js ∧ ∀ j ∈ js, P j) :
    Traces graph' path finished targets w := by
  induction h with
  | done => exact .done
  | descend hp hf hi _ _ ihInner ihRest =>
    obtain ⟨hPi, hothers⟩ := List.forall_mem_cons.1 htargets
    obtain ⟨hi', hsuccs⟩ := hP _ _ hPi hi
    exact .descend hp hf hi' (ihInner hsuccs) (ihRest hothers)
  | back hi _ ih => exact .back hi (ih (List.forall_mem_cons.1 htargets).2)
  | seen hi _ ih => exact .seen hi (ih (List.forall_mem_cons.1 htargets).2)

end Walk

/-! ## Graphs that agree -/

namespace FlowGraph

variable {f f' : Func} {g g' : FlowGraph} {bs headers headers' region region' : List BlockId} {a b : BlockId}

/-- The graphs have the same blocks, and those that control gets to have the same successors. -/
structure AgreesWith (g g' : FlowGraph) : Prop where
  size_eq : g'.size = g.size
  succs_eq : ∀ {b}, g.Reachable b → g'.succs.get? b = g.succs.get? b

/-- The function is entered at `b`, or live code outside the region leads there. -/
def EnteredLive (g : FlowGraph) (region : List BlockId) (b : BlockId) : Prop :=
  b = BlockId.entry ∨ ∃ a, g.Reachable a ∧ a ∉ region ∧ g.Edge a b

/-- Dead code leads to `b`. -/
def EnteredDead (g : FlowGraph) (b : BlockId) : Prop := ∃ a, ¬ g.Reachable a ∧ g.Edge a b

theorem entered_iff (hreach : ∀ b ∈ region, g.Reachable b) :
    g.Entered region b ↔ g.EnteredLive region b ∨ g.EnteredDead b := by
  constructor
  · rintro (rfl | ⟨a, ha, hab⟩)
    · exact .inl (.inl rfl)
    · by_cases hr : g.Reachable a
      · exact .inl (.inr ⟨a, hr, ha, hab⟩)
      · exact .inr ⟨a, hr, hab⟩
  · rintro ((rfl | ⟨a, _, ha, hab⟩) | ⟨a, hr, hab⟩)
    · exact .inl rfl
    · exact .inr ⟨a, ha, hab⟩
    · exact .inr ⟨a, fun ha => hr (hreach a ha), hab⟩

namespace AgreesWith

theorem edge_iff (h : g.AgreesWith g') (ha : g.Reachable a) : g'.Edge a b ↔ g.Edge a b := by
  unfold Edge Adjacency.Edge
  rw [h.succs_eq ha]

theorem reaches_of (h : g.AgreesWith g') (ha : g.Reachable a) (hab : ReflTransGen g.Edge a b) :
    ReflTransGen g'.Edge a b := by
  induction hab with
  | refl => exact .refl
  | tail hax hxy ih =>
    have hx := reachable_iff.2 ((reachable_iff.1 ha).trans hax)
    exact ih.tail ((h.edge_iff hx).2 hxy)

theorem reachable_iff (h : g.AgreesWith g') : g'.Reachable b ↔ g.Reachable b := by
  constructor
  · intro hb
    have hr := FlowGraph.reachable_iff.1 hb
    clear hb
    induction hr with
    | refl => exact reachable_entry g
    | tail _ hxy ih => exact ih.step ((h.edge_iff ih).1 hxy)
  · exact fun hb => FlowGraph.reachable_iff.2
      (h.reaches_of (reachable_entry g) (FlowGraph.reachable_iff.1 hb))

theorem symm (h : g.AgreesWith g') : g'.AgreesWith g where
  size_eq := h.size_eq.symm
  succs_eq hb := (h.succs_eq (h.reachable_iff.1 hb)).symm

theorem mutual_of (h : g.AgreesWith g') (ha : g.Reachable a) (hab : g.Mutual a b) :
    g'.Mutual a b :=
  ⟨h.reaches_of ha hab.1, h.reaches_of (hab.reachable ha) hab.2⟩

theorem transGen_of (h : g.AgreesWith g') (hb : g.Reachable b) (hcycle : TransGen g.Edge b b) :
    TransGen g'.Edge b b := by
  obtain ⟨y, hby, hyb⟩ := TransGen.head'_iff.1 hcycle
  exact .head' ((h.edge_iff hb).2 hby) (h.reaches_of (hb.step hby) hyb)

/-- **Graphs that agree are searched alike.** -/
theorem walk_eq (h : g.AgreesWith g') (hs : g.Shaped) (hs' : g'.Shaped) : g'.walk = g.walk := by
  obtain ⟨w, hw⟩ := hs.exists_walk
  obtain ⟨w', hw'⟩ := hs'.exists_walk
  have ht : Walk.Traces g'.succs [] [] [BlockId.entry] w := by
    refine (Walk.ofRoots_traces hw).congr (P := g.Reachable)
      (List.forall_mem_singleton.2 (reachable_entry g)) ?_
    exact fun i js hi hjs => ⟨(h.succs_eq hi).trans hjs, fun j hj => hi.step ⟨js, hjs, hj⟩⟩
  rw [hw, hw', (Walk.ofRoots_traces hw').unique ht List.nodup_nil fun _ hi => by cases hi]

/-! ## Regions of both -/

theorem mem_region_of (h : g.AgreesWith g') (hbs : ∀ b ∈ bs, g.Reachable b)
    (hr : g.Region bs headers region) (hr' : g'.Region bs headers' region') (hb : b ∈ region) :
    b ∈ region' := by
  obtain ⟨hcycle, a, ha, hab⟩ := (hr.mem_iff b).1 hb
  exact (hr'.mem_iff b).2 ⟨h.transGen_of (hab.reachable (hbs a ha)) hcycle, a, ha,
    h.mutual_of (hbs a ha) hab⟩

theorem region_eq (h : g.AgreesWith g') (hbs : ∀ b ∈ bs, g.Reachable b)
    (hr : g.Region bs headers region) (hr' : g'.Region bs headers' region') : region' = region :=
  Ident.eq_of_ascending hr'.ascending hr.ascending fun _ =>
    ⟨h.symm.mem_region_of (fun b hb => h.reachable_iff.2 (hbs b hb)) hr' hr,
      h.mem_region_of hbs hr hr'⟩

theorem enteredLive_iff (h : g.AgreesWith g') :
    g'.EnteredLive region b ↔ g.EnteredLive region b := by
  refine or_congr_right (exists_congr fun a => ?_)
  rw [h.reachable_iff]
  exact and_congr_right fun ha => and_congr_right fun _ => h.edge_iff ha

end AgreesWith

end FlowGraph

/-! ## Loops of both -/

theorem Discovery.loopAt_error {limit : Option Nat} {d : Discovery} {b : BlockId} {stop : Stop}
    (h : d.loopAt limit b = .error stop) :
    (∃ n, limit = some n ∧ stop = .refused (.tooManyLoops n)) ∨ ∃ fault, stop = .fault fault := by
  unfold loopAt at h
  split at h
  · cases h
  · split at h
    · rename_i hlimit
      cases h
      exact .inl ⟨_, (Option.filter_eq_some_iff.1 hlimit).1, rfl⟩
    · simp only [bind_eq_error, liftM_eq_error] at h
      rcases h with ⟨fault, _, rfl⟩ | ⟨_, _, h⟩
      · exact .inr ⟨fault, rfl⟩
      · cases h

/-- Discovery is only refused for the number of loops. -/
theorem Discovery.follow_error {limit : Option Nat} {w : Walk .block} {d : Discovery}
    {report : LoopSet} {stop : Stop} (h : follow limit w d report = .error stop) :
    (∃ n, limit = some n ∧ stop = .refused (.tooManyLoops n)) ∨ ∃ fault, stop = .fault fault := by
  induction w generalizing d report with
  | done => cases h
  | descend b inner rest ihInner ihRest =>
    simp only [follow, bind_eq_error, liftM_eq_error] at h
    rcases h with h | ⟨_, _, ⟨fault, _, rfl⟩ | ⟨_, _, h⟩⟩
    · exact ihInner h
    · exact .inr ⟨fault, rfl⟩
    · exact ihRest h
  | back b rest ih =>
    simp only [follow, bind_eq_error] at h
    rcases h with h | ⟨_, _, h⟩
    · exact loopAt_error h
    · exact ih h
  | seen b rest ih =>
    simp only [follow, bind_eq_error, liftM_eq_error] at h
    rcases h with ⟨fault, _, rfl⟩ | ⟨_, _, h⟩
    · exact .inr ⟨fault, rfl⟩
    · exact ih h

/-- Escaping loops have headers on cycles that control gets to. -/
theorem Discovery.Complete.headersOf_escaping {g : FlowGraph} {order offending : List BlockId}
    {d : Discovery} {escaping : LoopSet} (hc : Complete g order d escaping)
    (hso : g.SearchOrder order) (h : d.headersOf escaping.toList = .ok offending) :
    ∀ b ∈ offending, g.Reachable b ∧ TransGen g.Edge b b := by
  intro b hb
  obtain ⟨l, _, hl⟩ := (mem_headersOf h).1 hb
  obtain ⟨u, hu⟩ := (hc.mem_headers b).1 (List.mem_of_getElem? hl)
  have hback : ReflTransGen g.Edge b u :=
    (hso.returns hu.mem hu.edge hu.not_before).lift id fun _ _ h => h.1
  exact ⟨((hso.mem_iff u).1 hu.mem).step hu.edge, .tail' hback hu.edge⟩

namespace LoopForest

variable {f f' : Func} {g g' : FlowGraph} {limit : Option Nat}

theorem exitsOf_eq (h : g.AgreesWith g') {blocks : BlockSet} (hb : ∀ b ∈ blocks, g.Reachable b) :
    exitsOf g' blocks = exitsOf g blocks := by
  have hsuccs : blocks.toList.mapM g'.successors = blocks.toList.mapM g.successors := by
    refine mapM_congr fun b hmem => ?_
    rw [FlowGraph.successors, FlowGraph.successors, Table.get, Table.get,
      h.succs_eq (hb b (IdSet.mem_toList.1 hmem))]
  rw [exitsOf, exitsOf, hsuccs]

/-- Loops that control gets to make the same forest. -/
theorem ofOutlines_eq {headers : List BlockId} {order : List LoopId} {os : Outlines}
    (h : g.AgreesWith g') (hn : Outlines.Natural g headers order os) :
    ofOutlines g' os order = ofOutlines g os order := by
  have hloops : os.toList.mapM (loopOf g' (os.parents.map (Option.map Outline.id)) order) =
      os.toList.mapM (loopOf g (os.parents.map (Option.map Outline.id)) order) := by
    refine mapM_congr fun o ho => ?_
    obtain ⟨l, hl⟩ := Table.mem_toList.1 ho
    rw [loopOf, loopOf, exitsOf_eq h fun b hb => ((hn.mem_iff hl).1 hb).reachable (hn.reachable hl)]
  have hblocks : g'.blocks = g.blocks := by
    rw [FlowGraph.blocks, FlowGraph.blocks, Table.idents, Table.idents]
    exact congrArg Ident.firsts h.size_eq
  rw [ofOutlines, ofOutlines, hloops, hblocks]

/-- Two graphs that agree are refused for the same region, each with its own entries. -/
theorem refusals_of_agreesWith {d : Discovery} {escaping : LoopSet} {w : Walk .block}
    (hd : g.Describes f) (hd' : g'.Describes f') (h : g.AgreesWith g') (hw : g.walk = .ok w)
    (hdisc : Discovery.ofWalk limit g.size w = .ok (escaping, d)) (hne : escaping ≠ ∅) :
    ∃ headers headers' region, (∀ b ∈ region, g.Reachable b) ∧
      ofGraph g limit = .error (.refused (.irreducible headers region)) ∧
      ofGraph g' limit = .error (.refused (.irreducible headers' region)) ∧
      (headers.Pairwise fun a b => a.index < b.index) ∧
      (headers'.Pairwise fun a b => a.index < b.index) ∧
      (∀ b, b ∈ headers ↔ b ∈ region ∧ (g.EnteredLive region b ∨ g.EnteredDead b)) ∧
      ∀ b, b ∈ headers' ↔ b ∈ region ∧ (g.EnteredLive region b ∨ g'.EnteredDead b) := by
  have hc := Discovery.ofWalk_complete hw hdisc
  obtain ⟨offending, hoffending⟩ := Discovery.exists_headersOf hc.knows_escaping
  have hcycles := hc.headersOf_escaping (FlowGraph.walk_searchOrder hw) hoffending
  obtain ⟨a, hnames⟩ := Discovery.exists_names hne hc.knows_escaping
  have ha := (Discovery.mem_headersOf hoffending).2 hnames
  have hreach : ∀ b ∈ offending, g.Reachable b := fun b hb => (hcycles b hb).1
  obtain ⟨headers, region, hr, hregion⟩ :=
    FlowGraph.irreducible_region hd hreach ha (hcycles a ha).2
  obtain ⟨headers', region', hr', hregion'⟩ :=
    FlowGraph.irreducible_region hd' (fun b hb => h.reachable_iff.2 (hreach b hb)) ha
      (h.transGen_of (hreach a ha) (hcycles a ha).2)
  obtain rfl := h.region_eq hreach hregion hregion'
  have hlive : ∀ b ∈ region', g.Reachable b := fun b hb => hregion.reachable hreach hb
  have hw' : g'.walk = .ok w := (h.walk_eq hd.toShaped hd'.toShaped).trans hw
  refine ⟨headers, headers', region', hlive, ofGraph_eq_refusal hw hdisc hne hoffending hr,
    ofGraph_eq_refusal hw' (h.size_eq ▸ hdisc) hne hoffending hr', hregion.headers_ascending,
    hregion'.headers_ascending, fun b => ?_, fun b => ?_⟩
  · rw [hregion.mem_headers, FlowGraph.entered_iff hlive]
  · rw [hregion'.mem_headers, FlowGraph.entered_iff fun b hb => h.reachable_iff.2 (hlive b hb),
      h.enteredLive_iff]

/-- **Unreachable blocks have a part in loop analysis only as entries of an irreducible region.**
Where the blocks that control gets to have the same successors in two graphs, both have the same
loops, or both have too many of them, or both are refused for the same region.  The refusal names the
blocks of the region that live code outside it leads to, or dead code; so both refusals are the same
if and only if dead code leads to the same ones of the other blocks. -/
theorem ofGraph_of_agreesWith (hf : FlowGraph.ofFunc f = .ok g) (hf' : FlowGraph.ofFunc f' = .ok g')
    (h : g.AgreesWith g') (limit : Option Nat) :
    (∀ result, (∀ headers region, result ≠ .error (.refused (.irreducible headers region))) →
      (ofGraph g' limit = result ↔ ofGraph g limit = result)) ∧
    ∀ headers region, ofGraph g limit = .error (.refused (.irreducible headers region)) →
      (∀ b, b ∈ headers ↔ b ∈ region ∧ (g.EnteredLive region b ∨ g.EnteredDead b)) ∧
      ∃ headers', ofGraph g' limit = .error (.refused (.irreducible headers' region)) ∧
        (headers' = headers ↔
          ∀ b ∈ region, g.EnteredLive region b ∨ (g.EnteredDead b ↔ g'.EnteredDead b)) := by
  have hd := FlowGraph.ofFunc_describes hf
  have hd' := FlowGraph.ofFunc_describes hf'
  obtain ⟨w, hw⟩ := hd.toShaped.exists_walk
  have hw' : g'.walk = .ok w := (h.walk_eq hd.toShaped hd'.toShaped).trans hw
  cases hdisc : Discovery.ofWalk limit g.size w with
  | error stop =>
    have hg : ofGraph g limit = .error stop := ofGraph_eq_error hw hdisc
    have hg' : ofGraph g' limit = .error stop := ofGraph_eq_error hw' (h.size_eq ▸ hdisc)
    refine ⟨fun _ _ => by rw [hg, hg'], fun headers region hr => ?_⟩
    cases hg.symm.trans hr
    rcases Discovery.follow_error hdisc with ⟨_, _, hstop⟩ | ⟨_, hstop⟩ <;> cases hstop
  | ok r =>
    obtain ⟨escaping, d⟩ := r
    by_cases hempty : escaping = ∅
    · subst hempty
      obtain ⟨order, os, horder, hclose, hn⟩ := exists_outlines hw hdisc
      have hn' : Outlines.Natural g' d.headers order os := by
        obtain ⟨order', os', horder', hclose', hn'⟩ := exists_outlines hw' (h.size_eq ▸ hdisc)
        cases horder.symm.trans horder'
        cases hclose.symm.trans hclose'
        exact hn'
      have hg : ofGraph g' limit = ofGraph g limit := by
        rw [ofGraph_eq_ofOutlines hw hdisc horder hclose hn,
          ofGraph_eq_ofOutlines hw' (h.size_eq ▸ hdisc) horder hclose hn', ofOutlines_eq h hn]
      obtain ⟨forest, hforest⟩ := exists_forest hd.toShaped hw hdisc
      exact ⟨fun _ _ => by rw [hg], fun _ _ hr => by cases hforest.symm.trans hr⟩
    · obtain ⟨headers, headers', region, hlive, hg, hg', hasc, hasc', hmem, hmem'⟩ :=
        refusals_of_agreesWith hd hd' h hw hdisc hempty
      refine ⟨fun result hresult => ?_, fun headers₁ region₁ hr => ?_⟩
      · exact iff_of_false (fun hr => hresult _ _ (hr.symm.trans hg')) fun hr =>
          hresult _ _ (hr.symm.trans hg)
      · cases hg.symm.trans hr
        refine ⟨hmem, headers', hg', ?_⟩
        constructor
        · rintro rfl b hb
          have := (hmem b).symm.trans (hmem' b)
          simp only [hb, true_and] at this
          tauto
        · intro hsame
          refine Ident.eq_of_ascending hasc' hasc fun b => ?_
          rw [hmem, hmem']
          exact and_congr_right fun hb => by
            have := hsame b hb
            tauto

/-- A cycle of three blocks that is entered at two of them.  Control never gets to the last block,
which ends with `last`. -/
def withDeadBlock (last : Terminator) : Func where
  name := "withDeadBlock"
  params := []
  valueCount := 0
  blocks := [
    { id := ⟨0⟩, instrs := [], terminator := .condBr (.const .null) ⟨1⟩ ⟨2⟩ },
    { id := ⟨1⟩, instrs := [], terminator := .br ⟨2⟩ },
    { id := ⟨2⟩, instrs := [], terminator := .br ⟨3⟩ },
    { id := ⟨3⟩, instrs := [], terminator := .br ⟨1⟩ },
    { id := ⟨4⟩, instrs := [], terminator := last }]

/-- The graph of `withDeadBlock`, where the last block leads to `dead`, and `preds` to the third. -/
def deadBlockGraph (dead preds : List BlockId) : FlowGraph where
  succs := .ofList [[⟨1⟩, ⟨2⟩], [⟨2⟩], [⟨3⟩], [⟨1⟩], dead]
  preds := .ofList [[], [⟨0⟩, ⟨3⟩], [⟨0⟩, ⟨1⟩], preds, []]

theorem lt_of_reachable_deadBlockGraph {b : BlockId}
    (hb : (deadBlockGraph [⟨3⟩] [⟨2⟩, ⟨4⟩]).Reachable b) : b.index < 4 := by
  have hr := FlowGraph.reachable_iff.1 hb
  clear hb
  induction hr with
  | refl => decide
  | @tail x y _ hxy ih =>
    obtain ⟨targets, htargets, hy⟩ := hxy
    obtain ⟨n⟩ := x
    change n < 4 at ih
    interval_cases n <;> cases htargets <;> revert y <;> decide

/-- One block more is named as an entry because a block that never runs leads to it. -/
theorem deadBlock_changes_headers : ∃ g g' : FlowGraph,
    FlowGraph.ofFunc (withDeadBlock (.br ⟨3⟩)) = .ok g ∧
    FlowGraph.ofFunc (withDeadBlock (.ret none)) = .ok g' ∧ g.AgreesWith g' ∧
    ofGraph g none = .error (.refused (.irreducible [⟨1⟩, ⟨2⟩, ⟨3⟩] [⟨1⟩, ⟨2⟩, ⟨3⟩])) ∧
    ofGraph g' none = .error (.refused (.irreducible [⟨1⟩, ⟨2⟩] [⟨1⟩, ⟨2⟩, ⟨3⟩])) ∧
    ¬ ∀ b ∈ [⟨1⟩, ⟨2⟩, ⟨3⟩], g.EnteredLive [⟨1⟩, ⟨2⟩, ⟨3⟩] b ∨ (g.EnteredDead b ↔ g'.EnteredDead b) := by
  have hg : FlowGraph.ofFunc (withDeadBlock (.br ⟨3⟩)) =
      .ok (deadBlockGraph [⟨3⟩] [⟨2⟩, ⟨4⟩]) := by decide +kernel
  have hg' : FlowGraph.ofFunc (withDeadBlock (.ret none)) = .ok (deadBlockGraph [] [⟨2⟩]) := by
    decide +kernel
  have hagrees : (deadBlockGraph [⟨3⟩] [⟨2⟩, ⟨4⟩]).AgreesWith (deadBlockGraph [] [⟨2⟩]) := by
    refine ⟨rfl, fun {b} hb => ?_⟩
    have hlt := lt_of_reachable_deadBlockGraph hb
    obtain ⟨n⟩ := b
    change n < 4 at hlt
    interval_cases n <;> rfl
  have hr : ofGraph (deadBlockGraph [⟨3⟩] [⟨2⟩, ⟨4⟩]) none =
      .error (.refused (.irreducible [⟨1⟩, ⟨2⟩, ⟨3⟩] [⟨1⟩, ⟨2⟩, ⟨3⟩])) :=
    ofGraph_eq_refusal rfl rfl (by decide) rfl <| FlowGraph.irreducible_eq
      [[⟨1⟩, ⟨3⟩, ⟨2⟩], [⟨0⟩], [⟨4⟩]] [[⟨1⟩, ⟨2⟩, ⟨3⟩], [⟨0⟩], [⟨4⟩]]
      rfl (by decide) rfl (by decide) (by decide) rfl rfl
  have hr' : ofGraph (deadBlockGraph [] [⟨2⟩]) none =
      .error (.refused (.irreducible [⟨1⟩, ⟨2⟩] [⟨1⟩, ⟨2⟩, ⟨3⟩])) :=
    ofGraph_eq_refusal rfl rfl (by decide) rfl <| FlowGraph.irreducible_eq
      [[⟨1⟩, ⟨3⟩, ⟨2⟩], [⟨0⟩], [⟨4⟩]] [[⟨1⟩, ⟨2⟩, ⟨3⟩], [⟨0⟩], [⟨4⟩]]
      rfl (by decide) rfl (by decide) (by decide) rfl rfl
  refine ⟨_, _, hg, hg', hagrees, hr, hr', ?_⟩
  obtain ⟨_, headers', hheaders', hiff⟩ := (ofGraph_of_agreesWith hg hg' hagrees none).2 _ _ hr
  cases hr'.symm.trans hheaders'
  rw [← hiff]
  decide

end LoopForest

end FlowTree
