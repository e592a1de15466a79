import FlowTree.Proofs.LiveSlots
import FlowTree.Proofs.LoopNesting
import Mathlib.Algebra.Order.BigOperators.Group.List
import Mathlib.Algebra.Order.Ring.Nat

/-!
# Sweeps

Why the sweeps of a liveness analysis come to an end, and what they leave behind.

A block is brought up to date by asking what its successors need.  What they need only grows, so the
set of a block only grows, and a sweep that changes something adds a slot to the set of a block.  As
many rounds as there are pairs of a block and a slot, and one more to find that nothing changes, are
therefore enough.

What is left is the least solution of the flow equations: a property of blocks and slots that the
equations hand on from successor to predecessor holds of everything that is live.

## Main statements

* `Liveness.settle_least` — what is live has every property that the flow equations hand on.
* `Liveness.exists_sweep` — a sweep that changes something adds to the weight.
* `Liveness.exists_settle` — the sweeps come to an end.
* `Liveness.liveIn_induction` — what is live has every property that the blocks hand on.
-/

namespace FlowTree

/-! ## Bounds -/

/-- Everything in the set is below `n`. -/
def IdSet.Below {k : Kind} (set : IdSet k) (n : Nat) : Prop := ∀ i ∈ set, i.index < n

/-- A block that only reads and writes slots below `width`. -/
structure Effect.Below (e : Effect) (width : Nat) : Prop where
  reads : e.reads.Below width
  writes : e.writes.Below width

/-- An edge on which only slots below `width` are read and written. -/
structure EdgeEffect.Below (e : EdgeEffect) (width : Nat) : Prop where
  reads : e.reads.Below width
  writes : e.writes.Below width

/-- A flow that leads to blocks below `n`, and stays with slots below `width`. -/
structure BlockFlow.Below (flow : BlockFlow) (n width : Nat) : Prop where
  effect : flow.effect.Below width
  target_lt : ∀ {target e}, (target, e) ∈ flow.edges → target.index < n
  edge : ∀ {target e}, (target, e) ∈ flow.edges → e.Below width

namespace Liveness

variable {live live' : Table .block SlotSet} {flow : BlockFlow} {flows : Table .block BlockFlow}
  {order : List BlockId} {rounds n width : Nat} {changed changed' : Bool} {b : BlockId} {s : SlotId}
  {old now : SlotSet}

/-! ## What sweeps keep -/

/-- Bringing a block up to date leaves it as it was, or puts in what its successors ask for. -/
theorem update_cases (h : update flows (live, changed) b = .ok (live', changed')) :
    ∃ flow old now, flows.get? b = some flow ∧ live.get? b = some old ∧ start live flow = .ok now ∧
      (now = old ∧ live' = live ∧ changed' = changed ∨
        now ≠ old ∧ live.set b now = .ok live' ∧ changed' = true) := by
  simp only [update, bind_eq_ok, Table.get_eq_ok_iff] at h
  obtain ⟨flow, hflow, now, hnow, old, hold, h⟩ := h
  refine ⟨flow, old, now, hflow, hold, hnow, ?_⟩
  split at h
  · rename_i heq
    cases h
    exact .inl ⟨heq, rfl, rfl⟩
  · rename_i hne
    simp only [bind_eq_ok, pure_eq_ok, Prod.mk.injEq] at h
    obtain ⟨_, hset, rfl, rfl⟩ := h
    exact .inr ⟨hne, hset, rfl⟩

/-- What holds when a block has been brought up to date, holds when the sweeps are over. -/
theorem settle_induction (I : Table .block SlotSet → Prop)
    (hstep : ∀ {live live' b flow now}, I live → flows.get? b = some flow →
      start live flow = .ok now → live.set b now = .ok live' → I live')
    (h : settle flows order rounds live = .ok live') (h0 : I live) : I live' := by
  have hsweep : ∀ {live live' changed}, sweep flows order live = .ok (live', changed) → I live →
      I live' := by
    intro live live' changed h h0
    refine foldlM_induction (fun _ (c : Table .block SlotSet × Bool) => I c.1) h h0 ?_
    rintro _ b _ ⟨c, _⟩ ⟨c', _⟩ _ hc hupdate
    obtain ⟨flow, old, now, hflow, _, hnow, ⟨_, rfl, _⟩ | ⟨_, hset, _⟩⟩ := update_cases hupdate
    · exact hc
    · exact hstep hc hflow hnow hset
  induction rounds generalizing live with
  | zero => cases h
  | succ rounds ih =>
    simp only [settle, bind_eq_ok] at h
    obtain ⟨⟨next, changed⟩, hnext, h⟩ := h
    have hI := hsweep hnext h0
    cases changed with
    | true => exact ih h hI
    | false =>
      rw [pure_eq_ok] at h
      exact h ▸ hI

/-- **What is live has every property that the flow equations hand on.** -/
theorem settle_least {P : BlockId → SlotId → Prop}
    (hP : ∀ {b flow s}, flows.get? b = some flow → (s ∈ flow.effect.reads ∨
      s ∉ flow.effect.writes ∧ ∃ target e, (target, e) ∈ flow.edges ∧
        (s ∈ e.reads ∨ P target s ∧ s ∉ e.writes)) → P b s)
    (h : settle flows order rounds (Table.replicate n ∅) = .ok live) (hs : MemAt live b s) :
    P b s := by
  refine settle_induction (fun live => ∀ b s, MemAt live b s → P b s) ?_ h
    (fun b s hs => absurd hs not_memAt_replicate) b s hs
  intro live live' b flow now hlive hflow hnow hset c s hs
  obtain ⟨set, hget, hmem⟩ := hs
  rw [Table.get?_of_set hset] at hget
  split at hget
  · rename_i hbc
    cases hget
    subst hbc
    refine hP hflow (((mem_start hnow).1 hmem).imp_right (And.imp_right ?_))
    rintro ⟨target, e, hedge, hr⟩
    exact ⟨target, e, hedge, hr.imp_right (And.imp_left (hlive target s))⟩
  · exact hlive c s ⟨set, hget, hmem⟩

/-! ## Growth -/

/-- The flows of `n` blocks, all in range. -/
structure Bounded (flows : Table .block BlockFlow) (n width : Nat) : Prop where
  size : flows.size = n
  below : ∀ {b flow}, flows.get? b = some flow → flow.Below n width

/-- A set of slots below `width` for each of `n` blocks. -/
structure Sized (sets : Table .block SlotSet) (n width : Nat) : Prop where
  size : sets.size = n
  lt : ∀ {b s}, MemAt sets b s → s.index < width

/-- Every block holds less than its successors ask for. -/
structure Climbs (flows : Table .block BlockFlow) (n width : Nat) (live : Table .block SlotSet) :
    Prop extends Sized live n width where
  mem_start : ∀ {b flow now s}, flows.get? b = some flow → start live flow = .ok now →
    MemAt live b s → s ∈ now

theorem Sized.replicate (n width : Nat) : Sized (Table.replicate n ∅) n width :=
  ⟨Table.size_replicate n ∅, fun hs => absurd hs not_memAt_replicate⟩

theorem start_mono {now' : SlotSet} (hle : ∀ b s, MemAt live b s → MemAt live' b s)
    (h : start live flow = .ok now) (h' : start live' flow = .ok now') (hs : s ∈ now) :
    s ∈ now' := by
  refine (Liveness.mem_start h').2 (((Liveness.mem_start h).1 hs).imp_right (And.imp_right ?_))
  rintro ⟨target, e, hedge, hr⟩
  exact ⟨target, e, hedge, hr.imp_right (And.imp_left (hle target s))⟩

theorem exists_start (live : Table .block SlotSet) (flow : BlockFlow)
    (hlt : ∀ target e, (target, e) ∈ flow.edges → target.index < live.size) :
    ∃ now, start live flow = .ok now := by
  obtain ⟨needed, hneeded, _⟩ : ∃ needed, atEnd live flow = .ok needed ∧ True := by
    refine exists_foldlM_eq_ok (fun _ => True) trivial ?_
    rintro ⟨target, e⟩ hedge c -
    obtain ⟨set, hset⟩ := Table.exists_get_eq_ok (hlt target e hedge)
    exact ⟨_, bind_eq_ok.2 ⟨set, hset, rfl⟩, trivial⟩
  exact ⟨_, bind_eq_ok.2 ⟨needed, hneeded, rfl⟩⟩

namespace Climbs

theorem replicate (flows : Table .block BlockFlow) (n width : Nat) :
    Climbs flows n width (Table.replicate n ∅) where
  toSized := .replicate n width
  mem_start _ _ hs := absurd hs not_memAt_replicate

/-- Only slots are asked for. -/
theorem start_lt (hc : Climbs flows n width live) (hf : Bounded flows n width)
    (hflow : flows.get? b = some flow) (hnow : start live flow = .ok now) (hs : s ∈ now) :
    s.index < width := by
  rcases (Liveness.mem_start hnow).1 hs with hs | ⟨_, target, e, hedge, hs | ⟨hs, _⟩⟩
  · exact (hf.below hflow).effect.reads s hs
  · exact ((hf.below hflow).edge hedge).reads s hs
  · exact hc.lt hs

/-- A block that is brought up to date grows, and keeps growing. -/
theorem set (hc : Climbs flows n width live) (hf : Bounded flows n width)
    (hflow : flows.get? b = some flow) (hnow : start live flow = .ok now)
    (hset : live.set b now = .ok live') : Climbs flows n width live' := by
  have hcases : ∀ {c s}, MemAt live' c s → c = b ∧ s ∈ now ∨ MemAt live c s := by
    rintro c s ⟨set, hget, hs⟩
    rw [Table.get?_of_set hset] at hget
    split at hget
    · rename_i hbc
      cases hget
      exact .inl ⟨hbc.symm, hs⟩
    · exact .inr ⟨set, hget, hs⟩
  have hle : ∀ c s, MemAt live c s → MemAt live' c s := by
    rintro c s hs
    by_cases hbc : b = c
    · subst hbc
      exact ⟨now, by rw [Table.get?_of_set hset, if_pos rfl], hc.mem_start hflow hnow hs⟩
    · obtain ⟨set, hget, hmem⟩ := hs
      exact ⟨set, by rw [Table.get?_of_set hset, if_neg hbc, hget], hmem⟩
  refine ⟨⟨(Table.size_of_set hset).trans hc.size, ?_⟩, ?_⟩
  · intro c s hs
    rcases hcases hs with ⟨rfl, hs⟩ | hs
    · exact hc.start_lt hf hflow hnow hs
    · exact hc.lt hs
  · intro c flow' now' s hflow' hnow' hs
    obtain ⟨before, hbefore⟩ := exists_start live flow' fun target e hedge =>
      hc.size ▸ (hf.below hflow').target_lt hedge
    refine start_mono hle hbefore hnow' ?_
    rcases hcases hs with ⟨rfl, hs⟩ | hs
    · cases hflow.symm.trans hflow'
      cases hnow.symm.trans hbefore
      exact hs
    · exact hc.mem_start hflow' hbefore hs

end Climbs

/-! ## The number of rounds -/

/-- How many pairs of a block and a slot in its set there are. -/
def weight (live : Table .block SlotSet) : Nat := (live.toList.map IdSet.card).sum

theorem weight_of_set (hold : live.get? b = some old) (hset : live.set b now = .ok live') :
    weight live' + old.card = weight live + now.card := by
  obtain ⟨before, after, hlist, hlist'⟩ := Table.toList_of_set hold hset
  simp only [weight, hlist, hlist', List.map_append, List.map_cons, List.sum_append, List.sum_cons]
  omega

theorem Climbs.weight_le (hc : Climbs flows n width live) : weight live ≤ n * width := by
  have hcard : ∀ c ∈ live.toList.map IdSet.card, c ≤ width := by
    intro c hmem
    obtain ⟨set, hset, rfl⟩ := List.mem_map.1 hmem
    obtain ⟨b, hb⟩ := Table.mem_toList.1 hset
    refine Ident.length_le_of_nodup set.nodup_toList fun s hs => hc.lt ⟨set, hb, ?_⟩
    exact IdSet.mem_toList.1 hs
  have hsum := List.sum_le_card_nsmul _ _ hcard
  rwa [List.length_map, Table.length_toList, hc.size, nsmul_eq_mul, Nat.cast_id] at hsum

/-- An update that changes something adds to the weight. -/
theorem exists_update (hf : Bounded flows n width) (hc : Climbs flows n width live)
    (hb : b.index < n) (changed : Bool) :
    ∃ live' changed', update flows (live, changed) b = .ok (live', changed') ∧
      Climbs flows n width live' ∧ weight live ≤ weight live' ∧
      (changed' = true → changed = true ∨ weight live < weight live') := by
  obtain ⟨flow, hflow⟩ := Table.exists_get? (t := flows) (hf.size.symm ▸ hb)
  obtain ⟨old, hold⟩ := Table.exists_get? (t := live) (hc.size.symm ▸ hb)
  obtain ⟨now, hnow⟩ := exists_start live flow fun target e hedge =>
    hc.size ▸ (hf.below hflow).target_lt hedge
  by_cases heq : now = old
  · refine ⟨live, changed, ?_, hc, Nat.le_refl _, .inl⟩
    simp only [update, bind_eq_ok, Table.get_eq_ok_iff]
    exact ⟨flow, hflow, now, hnow, old, hold, by rw [if_pos heq]; rfl⟩
  · obtain ⟨live', hset⟩ := Table.exists_set_eq_ok (t := live) now (hc.size.symm ▸ hb)
    have hsub : ∀ s ∈ old, s ∈ now := fun s hs => hc.mem_start hflow hnow ⟨old, hold, hs⟩
    obtain ⟨s, hs, hns⟩ : ∃ s ∈ now, s ∉ old := by
      by_contra hnone
      push Not at hnone
      exact heq (IdSet.ext fun s => ⟨hnone s, hsub s⟩)
    have hlt : weight live < weight live' := by
      have := IdSet.card_lt_of_subset hsub hs hns
      have := weight_of_set hold hset
      omega
    refine ⟨live', true, ?_, hc.set hf hflow hnow hset, hlt.le, fun _ => .inr hlt⟩
    simp only [update, bind_eq_ok, Table.get_eq_ok_iff]
    exact ⟨flow, hflow, now, hnow, old, hold, by rw [if_neg heq, hset]; rfl⟩

/-- **A sweep that changes something adds to the weight.** -/
theorem exists_sweep (hf : Bounded flows n width) (hc : Climbs flows n width live)
    (horder : ∀ b ∈ order, b.index < n) :
    ∃ live' changed, sweep flows order live = .ok (live', changed) ∧ Climbs flows n width live' ∧
      (changed = true → weight live < weight live') := by
  obtain ⟨⟨live', changed⟩, hsweep, hc', _, hlt⟩ : ∃ c, sweep flows order live = .ok c ∧
      Climbs flows n width c.1 ∧ weight live ≤ weight c.1 ∧
      (c.2 = true → weight live < weight c.1) := by
    refine exists_foldlM_eq_ok (fun c : Table .block SlotSet × Bool => Climbs flows n width c.1 ∧
      weight live ≤ weight c.1 ∧ (c.2 = true → weight live < weight c.1))
      ⟨hc, Nat.le_refl _, nofun⟩ ?_
    rintro b hb ⟨c, changed⟩ ⟨hcc, hle, hlt⟩
    obtain ⟨c', changed', hupdate, hcc', hle', hlt'⟩ := exists_update hf hcc (horder b hb) changed
    refine ⟨(c', changed'), hupdate, hcc', hle.trans hle', fun htrue => ?_⟩
    rcases hlt' htrue with hchanged | hlt'
    · exact (hlt hchanged).trans_le hle'
    · exact hle.trans_lt hlt'
  exact ⟨live', changed, hsweep, hc', hlt⟩

/-- **The sweeps come to an end.** -/
theorem exists_settle (hf : Bounded flows n width) (hc : Climbs flows n width live)
    (horder : ∀ b ∈ order, b.index < n) (hrounds : n * width < rounds + weight live) :
    ∃ live', settle flows order rounds live = .ok live' ∧ Climbs flows n width live' := by
  induction rounds generalizing live with
  | zero =>
    have := hc.weight_le
    omega
  | succ rounds ih =>
    obtain ⟨next, changed, hsweep, hc', hlt⟩ := exists_sweep hf hc horder
    cases changed with
    | false => exact ⟨next, bind_eq_ok.2 ⟨_, hsweep, rfl⟩, hc'⟩
    | true =>
      have hmore := hlt rfl
      obtain ⟨live', hsettle, hc''⟩ := ih hc' (by omega)
      exact ⟨live', bind_eq_ok.2 ⟨_, hsweep, hsettle⟩, hc''⟩

/-! ## Induction over liveness -/

/-- **What is live has every property that goes from the starts of the successors to the start of a
block.** -/
theorem liveIn_induction {f : Func} {g : FlowGraph} {copies : SlotCopies} {layout : Layout}
    {options : Options} {l : Liveness} {P : BlockId → SlotId → Prop} (hd : g.Describes f)
    (h : ofFunc f g copies layout options = .ok l)
    (hP : ∀ {b block e s}, f.block? b = some block → Effect.ofBlock layout block = .ok e →
      (s ∈ e.reads ∨ s ∉ e.writes ∧ ∃ position target,
        block.terminator.successors[position]? = some target ∧
        (s ∈ (copies.onEdge b position).uses ∨ P target s ∧ s ∉ (copies.onEdge b position).defs ∧
          s ∉ layout.slotsOf (block.terminator.definesOn position).toList)) → P b s)
    (hs : l.LiveIn b s) : P b s := by
  obtain ⟨flows, order, _, hflows, _, hin, _⟩ := ofFunc_cases h
  refine settle_least ?_ hin hs
  intro b flow s hflow hneeds
  rw [Table.get?_ofList] at hflow
  obtain ⟨block, hblock⟩ : ∃ block, f.block? b = some block := by
    have hlt := (List.getElem?_eq_some_iff.1 hflow).1
    rw [← (mapM_eq_ok.1 hflows).length_eq] at hlt
    exact ⟨_, List.getElem?_eq_getElem hlt⟩
  obtain ⟨flow', hflow', hof⟩ := getElem?_of_mapM hflows hblock
  cases hflow.symm.trans hflow'
  obtain ⟨heffect, targets, htargets, hedges, _⟩ := BlockFlow.ofBlock_cases hof
  rw [hd.id_eq hblock] at htargets hedges
  obtain ⟨block', hblock', rfl⟩ := hd.successors_iff.1 htargets
  cases hblock.symm.trans hblock'
  refine hP hblock heffect (hneeds.imp_right (And.imp_right ?_))
  rintro ⟨target, e, hmem, hr⟩
  obtain ⟨position, ht, he⟩ := hedges target e hmem
  obtain ⟨hwrites, hreads⟩ := EdgeEffect.ofEdge_cases he s
  rw [hwrites, hreads, not_or] at hr
  exact ⟨position, target, ht, hr⟩

end Liveness

end FlowTree
