import FlowTree.Loop.Nesting
import FlowTree.Proofs.Report
import FlowTree.Proofs.Tables
import Mathlib.Data.List.Nodup

/-!
# Absorption

What the blocks report about a loop is not all of it: a block of an inner loop that was complete
before the outer loop was known reports only the inner loop.  Absorption repairs that.  Read as a
relation `R` between blocks and the headers they report, a loop has to end up with the blocks from
which `R` leads to its header in any number of steps.

One pass is enough because of the order in which the loops are absorbed.  After the loops of a list
are absorbed, every loop that holds the header of one of them holds all of it; that is the clause
`closed` of the invariant `Outlines.Absorbed`.  When a loop's turn comes, the headers that it holds
have all had theirs, so the loop itself is complete.

## Main statements

* `Outlines.order?_ordered`, `Outlines.exists_order?` — the order, and when there is one.
* `Outlines.close_absorbed` — the pass keeps the invariant.
* `Outlines.Absorbed.mem_iff` — what the loops hold after the pass.
* `Outlines.clash?_eq_none` — loops that nest pass the last check.
-/

namespace FlowTree.Outlines

open Relation

variable {headers : List BlockId} {os os' : Outlines} {l l' : LoopId} {o o' : Outline}
  {b h : BlockId} {R : BlockId → BlockId → Prop}

/-- The outlines of loops with the given headers, in order. -/
structure Shaped (headers : List BlockId) (os : Outlines) : Prop where
  size : os.size = headers.length
  id : ∀ {l o}, os.get? l = some o → o.id = l
  header : ∀ {l o}, os.get? l = some o → headers[l.index]? = some o.header

namespace Shaped

theorem exists_of_mem (hs : Shaped headers os) (hh : h ∈ headers) :
    ∃ l o, os.get? l = some o ∧ o.header = h := by
  obtain ⟨n, hn⟩ := List.mem_iff_getElem?.1 hh
  have hlt : n < os.size := by
    rw [hs.size]
    exact (List.getElem?_eq_some_iff.1 hn).1
  obtain ⟨o, ho⟩ := Table.exists_get? (t := os) (i := ⟨n⟩) hlt
  have ho' := hs.header ho
  rw [hn] at ho'
  exact ⟨⟨n⟩, o, ho, (Option.some.inj ho').symm⟩

/-- No two loops have the same header. -/
theorem inj (hs : Shaped headers os) (hn : headers.Nodup) (ho : os.get? l = some o)
    (ho' : os.get? l' = some o') (he : o.header = o'.header) : l = l' := by
  have h₁ := hs.header ho
  have h₂ := hs.header ho'
  rw [← he, ← h₁] at h₂
  have hlt := (List.getElem?_eq_some_iff.1 h₁).1
  exact Ident.ext ((List.getElem?_inj hlt hn).1 h₂.symm)

/-- A change of members leaves the loops with their headers. -/
theorem map (hs : Shaped headers os) {f : Outline → Outline} (hid : ∀ o, (f o).id = o.id)
    (hheader : ∀ o, (f o).header = o.header) : Shaped headers (os.map f) := by
  refine ⟨by rw [Table.size_map, hs.size], ?_, ?_⟩
  · intro l o ho
    rw [Table.get?_map] at ho
    obtain ⟨o₀, ho₀, rfl⟩ := Option.map_eq_some_iff.1 ho
    rw [hid, hs.id ho₀]
  · intro l o ho
    rw [Table.get?_map] at ho
    obtain ⟨o₀, ho₀, rfl⟩ := Option.map_eq_some_iff.1 ho
    rw [hheader, hs.header ho₀]

theorem holds_iff (hs : Shaped headers os) (ho : os.get? l = some o) (ho' : os.get? l' = some o') :
    o.holds o' = true ↔ l' ≠ l ∧ o'.header ∈ o.members := by
  simp [Outline.holds, hs.id ho, hs.id ho']

theorem holding_edge (hs : Shaped headers os) :
    os.holding.Edge l l' ↔ ∃ o o', os.get? l = some o ∧ os.get? l' = some o' ∧ l' ≠ l ∧
      o'.header ∈ o.members := by
  simp only [Adjacency.Edge, holding, Table.get?_map, Option.map_eq_some_iff]
  constructor
  · rintro ⟨_, ⟨o, ho, rfl⟩, hl'⟩
    obtain ⟨o', hmem, rfl⟩ := List.mem_map.1 hl'
    obtain ⟨hmem, hholds⟩ := List.mem_filter.1 hmem
    obtain ⟨i, hi⟩ := Table.mem_toList.1 hmem
    obtain rfl := hs.id hi
    exact ⟨o, o', ho, hi, (hs.holds_iff ho hi).1 hholds⟩
  · rintro ⟨o, o', ho, ho', hholds⟩
    refine ⟨_, ⟨o, ho, rfl⟩, List.mem_map.2 ⟨o', ?_, hs.id ho'⟩⟩
    exact List.mem_filter.2 ⟨Table.mem_toList.2 ⟨l', ho'⟩, (hs.holds_iff ho ho').2 hholds⟩

end Shaped

/-! ## The order -/

/-- All loops in an order in which each comes after those whose headers it holds. -/
structure Ordered (os : Outlines) (order : List LoopId) : Prop where
  nodup : order.Nodup
  mem_iff : ∀ l, l ∈ order ↔ l.index < os.size
  inner_first : ∀ {l l'}, os.holding.Edge l l' → Before order.reverse l' l

theorem closed_holding (hs : Shaped headers os) : Walk.Closed os.holding := by
  intro l l' he
  obtain ⟨o, o', _, ho', _⟩ := hs.holding_edge.1 he
  simpa [holding] using Table.lt_of_get? ho'

theorem order?_ordered {order : List LoopId} (hs : Shaped headers os)
    (h : os.order? = .ok (.ok order)) : Ordered os order := by
  simp only [order?, bind_eq_ok] at h
  obtain ⟨w, hw, h⟩ := h
  split at h
  · cases h
  rename_i hc
  cases h
  have ht : Walk.Traces os.holding [] [] os.idents w := Walk.ofRoots_traces hw
  have hfin : ∀ {l}, l ∈ w.finished [] ↔ l.index < os.size := by
    intro l
    constructor
    · intro hl
      simpa [holding] using ht.lt_of_mem (fun _ h => by cases h) l hl
    · intro hl
      rcases ht.mem_of_target (Table.mem_idents.2 hl) with h | h
      · cases h
      · exact h
  refine ⟨?_, ?_, ?_⟩
  · exact List.nodup_reverse.2 (ht.nodup List.nodup_nil (fun _ h => by cases h)).1
  · intro l
    rw [Walk.postorder, List.mem_reverse]
    exact hfin
  · intro l l' he
    rw [Walk.postorder, List.reverse_reverse]
    obtain ⟨o, _, ho, _⟩ := hs.holding_edge.1 he
    rcases Walk.mem_finished_iff.1 (hfin.2 (Table.lt_of_get? ho)) with hl | ⟨earlier, hl⟩
    · cases hl
    · exact ⟨earlier, hl.suffix, ht.advances_of_cycle?_eq_none hc hl he⟩

/-- There is an order unless some loops hold each other's headers in a circle. -/
theorem exists_order? (hs : Shaped headers os) (hc : ∀ l, ¬ TransGen os.holding.Edge l l) :
    ∃ order, os.order? = .ok (.ok order) := by
  have hroots : ∀ l ∈ os.idents, l.index < os.holding.size := by simp [holding]
  obtain ⟨w, hw⟩ := Walk.exists_ofRoots (closed_holding hs) hroots
  have ht : Walk.Traces os.holding [] [] os.idents w := Walk.ofRoots_traces hw
  have hnone : w.cycle? [] = none := by
    by_contra hne
    rcases ht.exists_of_cycle?_ne_none List.nodup_nil (fun _ h => by cases h) hne with
      ⟨j, _, hj⟩ | ⟨i, earlier, j, hi, hij, hj⟩
    · cases hj
    · rcases ht.reaches_of_not_mem hi hij hj with h | hr
      · cases h
      · exact hc i (TransGen.head' hij (ReflTransGen.mono (fun _ _ h => h.1) _ _ hr))
  refine ⟨w.postorder, ?_⟩
  simp only [order?, bind_eq_ok]
  exact ⟨w, hw, by rw [hnone]; rfl⟩

/-! ## The pass -/

/-- The loops of `passed` have been absorbed by the loops that hold their headers. -/
structure Absorbed (R : BlockId → BlockId → Prop) (headers : List BlockId) (os : Outlines)
    (passed : List LoopId) : Prop extends Shaped headers os where
  reports : ∀ {l o b}, os.get? l = some o → b = o.header ∨ R b o.header → b ∈ o.members
  reaches : ∀ {l o b}, os.get? l = some o → b ∈ o.members → ReflTransGen R b o.header
  closed : ∀ {l l' o o' b}, l' ∈ passed → os.get? l' = some o' → os.get? l = some o →
    o'.header ∈ o.members → ReflTransGen R b o'.header → b ∈ o.members

/-- A loop is complete once the loops reported in it have been absorbed. -/
theorem Absorbed.mem_of_reaches {passed : List LoopId} (ha : Absorbed R headers os passed)
    (hR : ∀ {b h}, R b h → h ∈ headers) (ho : os.get? l = some o)
    (hfirst : ∀ {l' o'}, os.get? l' = some o' → R o'.header o.header → l' ∈ passed)
    (hr : ReflTransGen R b o.header) : b ∈ o.members := by
  rcases hr.cases_tail with heq | ⟨c, hbc, hch⟩
  · exact ha.reports ho (.inl heq.symm)
  rcases hbc.cases_tail with heq | ⟨a, _, hac⟩
  · exact ha.reports ho (.inr (heq ▸ hch))
  -- `c` heads a loop, and that loop has had its turn
  obtain ⟨l', o', ho', rfl⟩ := ha.toShaped.exists_of_mem (hR hac)
  exact ha.closed (hfirst ho' hch) ho' ho (ha.reports ho (.inr hch)) hbc

theorem absorb_absorbed {passed : List LoopId} (ha : Absorbed R headers os passed)
    (hR : ∀ {b h}, R b h → h ∈ headers)
    (hfirst : ∀ {o l' o'}, os.get? l = some o → os.get? l' = some o' → R o'.header o.header →
      l' ∈ passed)
    (h : os.absorb l = .ok os') : Absorbed R headers os' (passed ++ [l]) := by
  simp only [absorb, bind_eq_ok, pure_eq_ok, Table.get_eq_ok_iff] at h
  obtain ⟨inner, hinner, rfl⟩ := h
  have hcomplete : ∀ {b}, ReflTransGen R b inner.header → b ∈ inner.members :=
    ha.mem_of_reaches hR hinner (hfirst hinner)
  have hget : ∀ {i o}, (os.map fun outer => if outer.holds inner then
      { outer with members := outer.members ∪ inner.members } else outer).get? i = some o →
      ∃ o₀, os.get? i = some o₀ ∧ o.header = o₀.header ∧ ∀ b, b ∈ o.members ↔
        b ∈ o₀.members ∨ (l ≠ i ∧ inner.header ∈ o₀.members ∧ b ∈ inner.members) := by
    intro i o ho
    rw [Table.get?_map] at ho
    obtain ⟨o₀, ho₀, rfl⟩ := Option.map_eq_some_iff.1 ho
    refine ⟨o₀, ho₀, ?_, ?_⟩
    · split <;> rfl
    · intro b
      have hiff := ha.toShaped.holds_iff ho₀ hinner
      split
      · rename_i hh
        simp [hiff.1 hh]
      · rename_i hh
        rw [hiff] at hh
        exact ⟨.inl, fun hb => hb.resolve_right fun hb => hh ⟨hb.1, hb.2.1⟩⟩
  refine ⟨ha.toShaped.map (fun o => by split <;> rfl) (fun o => by split <;> rfl), ?_, ?_, ?_⟩
  · intro i o b ho hb
    obtain ⟨o₀, ho₀, hheader, hmem⟩ := hget ho
    exact (hmem b).2 (.inl (ha.reports ho₀ (hheader ▸ hb)))
  · intro i o b ho hb
    obtain ⟨o₀, ho₀, hheader, hmem⟩ := hget ho
    rw [hheader]
    rcases (hmem b).1 hb with hb | ⟨_, hh, hb⟩
    · exact ha.reaches ho₀ hb
    · exact (ha.reaches hinner hb).trans (ha.reaches ho₀ hh)
  · intro i l' o o' b hl' ho' ho hh hb
    obtain ⟨o₀, ho₀, _, hmem⟩ := hget ho
    obtain ⟨o₀', ho₀', hheader', _⟩ := hget ho'
    rw [hheader'] at hh hb
    rw [hmem] at hh ⊢
    rcases List.mem_append.1 hl' with hl' | hl'
    · rcases hh with hh | ⟨hne, hin, hh⟩
      · exact .inl (ha.closed hl' ho₀' ho₀ hh hb)
      · exact .inr ⟨hne, hin, ha.closed hl' ho₀' hinner hh hb⟩
    · cases List.mem_singleton.1 hl'
      obtain rfl : inner = o₀' := Option.some.inj (hinner.symm.trans ho₀')
      have hin : inner.header ∈ o₀.members := hh.elim id fun hh => hh.2.1
      by_cases hne : l = i
      · subst hne
        obtain rfl : inner = o₀ := Option.some.inj (hinner.symm.trans ho₀)
        exact .inl (hcomplete hb)
      · exact .inr ⟨hne, hin, hcomplete hb⟩

/-- **Absorbing all loops in order, inner loops first, makes every loop complete.** -/
theorem close_absorbed {order : List LoopId} (ha : Absorbed R headers os [])
    (hn : order.Nodup) (hR : ∀ {b h}, R b h → h ∈ headers)
    (hfirst : ∀ {l l' h h'}, headers[l.index]? = some h → headers[l'.index]? = some h' → R h' h →
      Before order.reverse l' l)
    (h : os.close order = .ok os') : Absorbed R headers os' order := by
  refine foldlM_induction (fun passed c => Absorbed R headers c passed) h ha ?_
  intro passed l later c c' hsplit hc hstep
  refine absorb_absorbed hc hR ?_ hstep
  intro o l' o' ho ho' hr
  have hs : (l :: passed.reverse) <:+ order.reverse := by
    rw [hsplit]
    simp
  have hb := hfirst (hc.toShaped.header ho) (hc.toShaped.header ho') hr
  rw [Before.iff_mem (List.nodup_reverse.2 hn) hs, List.mem_reverse] at hb
  exact hb

theorem exists_close {order : List LoopId} (hs : Shaped headers os)
    (hlt : ∀ l ∈ order, l.index < headers.length) : ∃ os', os.close order = .ok os' := by
  obtain ⟨os', h, _⟩ := exists_foldlM_eq_ok (f := absorb) (Shaped headers) hs
    (fun l hl c hc => by
      obtain ⟨inner, hinner⟩ := Table.exists_get_eq_ok (hc.size ▸ hlt l hl)
      refine ⟨_, bind_eq_ok.2 ⟨inner, hinner, rfl⟩, ?_⟩
      exact hc.map (fun o => by split <;> rfl) (fun o => by split <;> rfl))
  exact ⟨os', h⟩

/-- What the loops hold when all of them have been absorbed. -/
theorem Absorbed.mem_iff {passed : List LoopId} (ha : Absorbed R headers os passed)
    (hR : ∀ {b h}, R b h → h ∈ headers) (hall : ∀ l, l.index < os.size → l ∈ passed)
    (ho : os.get? l = some o) : b ∈ o.members ↔ ReflTransGen R b o.header :=
  ⟨ha.reaches ho, ha.mem_of_reaches hR ho fun ho' _ => hall _ (Table.lt_of_get? ho')⟩

/-! ## What was discovered -/

theorem get?_ofDiscovery {d : Discovery} (hn : d.headers.Nodup)
    (ho : (ofDiscovery d).get? l = some o) :
    o.id = l ∧ d.headers[l.index]? = some o.header ∧
      ∀ b, b ∈ o.members ↔ b = o.header ∨ d.Reports b o.header := by
  simp only [ofDiscovery, Table.get?_ofList, List.getElem?_map, List.getElem?_zipIdx] at ho
  obtain ⟨⟨header, n⟩, hz, rfl⟩ := Option.map_eq_some_iff.1 ho
  obtain ⟨_, hh, heq⟩ := Option.map_eq_some_iff.1 hz
  simp only [Prod.mk.injEq] at heq
  obtain ⟨rfl, rfl⟩ := heq
  refine ⟨Ident.ext (by simp), hh, ?_⟩
  intro b
  simp only [IdSet.mem_ofList, List.mem_cons, List.mem_map, List.mem_filter, decide_eq_true_eq,
    Discovery.Reports, Discovery.Names]
  refine or_congr_right ⟨?_, ?_⟩
  · rintro ⟨⟨b', ls⟩, ⟨hmem, hl⟩, rfl⟩
    exact ⟨ls, Table.mem_zip_idents.1 hmem, _, hl, by simpa using hh⟩
  · rintro ⟨ls, hls, l', hl', hh'⟩
    have hlt := (List.getElem?_eq_some_iff.1 hh).1
    have hidx : l.index = l'.index := (List.getElem?_inj hlt hn).1 (hh.trans hh'.symm)
    refine ⟨(b, ls), ⟨Table.mem_zip_idents.2 hls, ?_⟩, rfl⟩
    have hl : (⟨0 + l.index⟩ : LoopId) = l' := Ident.ext (by simpa using hidx)
    rw [hl]
    exact hl'

theorem ofDiscovery_absorbed {d : Discovery} (hn : d.headers.Nodup) :
    Absorbed d.Reports d.headers (ofDiscovery d) [] := by
  refine ⟨⟨by simp [ofDiscovery], ?_, ?_⟩, ?_, ?_, ?_⟩
  · exact fun ho => (get?_ofDiscovery hn ho).1
  · exact fun ho => (get?_ofDiscovery hn ho).2.1
  · exact fun ho hb => ((get?_ofDiscovery hn ho).2.2 _).2 hb
  · intro l o b ho hb
    rcases ((get?_ofDiscovery hn ho).2.2 b).1 hb with rfl | hb
    · exact .refl
    · exact .single hb
  · intro l l' o o' b hl'
    cases hl'

/-- Before absorption a loop holds the header of another if that header reports it. -/
theorem holding_edge_ofDiscovery {d : Discovery} (hn : d.headers.Nodup) :
    (ofDiscovery d).holding.Edge l l' ↔ ∃ h h', d.headers[l.index]? = some h ∧
      d.headers[l'.index]? = some h' ∧ l' ≠ l ∧ d.Reports h' h := by
  have hs := (ofDiscovery_absorbed hn).toShaped
  rw [hs.holding_edge]
  constructor
  · rintro ⟨o, o', ho, ho', hne, hmem⟩
    refine ⟨_, _, hs.header ho, hs.header ho', hne, ?_⟩
    rcases ((get?_ofDiscovery hn ho).2.2 _).1 hmem with he | hr
    · exact absurd (hs.inj hn ho' ho he) hne
    · exact hr
  · rintro ⟨h, h', hh, hh', hne, hr⟩
    have hget : ∀ {i : LoopId} {c}, d.headers[i.index]? = some c →
        ∃ o, (ofDiscovery d).get? i = some o ∧ o.header = c := by
      intro i c hc
      have hlt : i.index < (ofDiscovery d).size := by
        rw [hs.size]
        exact (List.getElem?_eq_some_iff.1 hc).1
      obtain ⟨o, ho⟩ := Table.exists_get? hlt
      exact ⟨o, ho, Option.some.inj ((hs.header ho).symm.trans hc)⟩
    obtain ⟨o, ho, rfl⟩ := hget hh
    obtain ⟨o', ho', rfl⟩ := hget hh'
    exact ⟨o, o', ho, ho', hne, ((get?_ofDiscovery hn ho).2.2 _).2 (.inr hr)⟩

/-! ## The last check -/

theorem smallest_mem {α : Type} {size : α → Nat} {as : List α} {a : α}
    (h : smallest size as = some a) : a ∈ as := by
  induction as generalizing a with
  | nil => cases h
  | cons c rest ih =>
    simp only [smallest] at h
    split at h
    · cases h
      exact List.mem_cons_self
    · rename_i c' hc'
      split at h <;> cases h
      · exact List.mem_cons_of_mem _ (ih hc')
      · exact List.mem_cons_self

/-- The parent of a loop is a loop that holds its header. -/
theorem parents_cases {p : Outline} (h : os.parents.get? l = some (some p)) :
    ∃ o l', os.get? l = some o ∧ os.get? l' = some p ∧ p.holds o = true := by
  simp only [parents, Table.get?_map, Option.map_eq_some_iff] at h
  obtain ⟨o, ho, ⟨p', size⟩, hp, rfl⟩ := h
  obtain ⟨hmem, hholds⟩ := List.mem_filter.1 (smallest_mem hp)
  obtain ⟨p, hp', heq⟩ := List.mem_map.1 hmem
  cases heq
  obtain ⟨l', hl'⟩ := Table.mem_toList.1 hp'
  exact ⟨o, l', ho, hl', hholds⟩

/-- Loops that nest, each inside its parent, pass the check. -/
theorem clash?_eq_none {entries : List (Outline × Option Outline)}
    (hnests : ∀ x ∈ entries, ∀ y ∈ entries, x.1.nests y.1 = true)
    (hparent : ∀ x ∈ entries, ∀ p, x.2 = some p → ∀ b ∈ x.1.members, b ∈ p.members) :
    clash? entries = none := by
  induction entries with
  | nil => rfl
  | cons x later ih =>
    obtain ⟨a, parent⟩ := x
    have hfind : later.find? (fun entry => !a.nests entry.1) = none := by
      rw [List.find?_eq_none]
      intro y hy
      simp [hnests (a, parent) List.mem_cons_self y (List.mem_cons_of_mem _ hy)]
    have hfilter : parent.filter (fun p => !a.members.isSubset p.members) = none := by
      rw [Option.filter_eq_none_iff]
      intro p hp
      have hsub := hparent (a, parent) List.mem_cons_self p hp
      simpa using hsub
    simp only [clash?, hfind, hfilter]
    exact ih (fun x hx y hy => hnests x (List.mem_cons_of_mem _ hx) y (List.mem_cons_of_mem _ hy))
      fun x hx => hparent x (List.mem_cons_of_mem _ hx)

end FlowTree.Outlines
