import FlowTree.Proofs.GraphShape
import FlowTree.Proofs.RootLoops
import Mathlib.Data.List.Flatten

/-!
# Irreducible regions

What the refusal of irreducible control flow says.  Its region holds the blocks that lie on a cycle
together with one of the blocks it was asked about, and it names those blocks of the region that an
edge from outside leads to.  The source of that edge may be any block, also one that control never
gets to.

## Main statements

* `FlowGraph.mem_regionAround`, `FlowGraph.mem_regionEntries` — members of both lists.
* `FlowGraph.irreducible_region` — what a refusal says.
-/

namespace FlowTree

open Relation

namespace FlowGraph

variable {f : Func} {g : FlowGraph} {bs c region entries : List BlockId} {a b h : BlockId}

/-- The function is entered at `b`, or an edge from outside the region leads there. -/
def Entered (g : FlowGraph) (region : List BlockId) (b : BlockId) : Prop :=
  b = BlockId.entry ∨ ∃ a, a ∉ region ∧ g.Edge a b

/-! ## Members -/

/-- The blocks of a cyclic component are those of a component that lie on a cycle. -/
theorem IsComponent.isCyclic_iff_transGen (hc : g.IsComponent c) (hb : b ∈ c) :
    g.isCyclic c = .ok true ↔ TransGen g.Edge b b := by
  rw [isCyclic_iff hc]
  constructor
  · rintro ⟨x, hx, y, hy, hxy⟩
    exact .trans_right ((hc.mem_iff hb).1 hx).1 (.trans_left (.single hxy) ((hc.mem_iff hb).1 hy).2)
  · intro hcycle
    obtain ⟨y, hby, hyb⟩ := TransGen.head'_iff.1 hcycle
    exact ⟨b, hb, y, (hc.mem_iff hb).2 ⟨.single hby, hyb⟩, hby⟩

/-- **The region around some blocks** holds what lies on a cycle with one of them. -/
theorem mem_regionAround (h : g.regionAround bs = .ok region) :
    region.Pairwise (fun a b => a.index < b.index) ∧
      ∀ b, b ∈ region ↔ TransGen g.Edge b b ∧ ∃ a ∈ bs, g.Mutual a b := by
  simp only [regionAround, cyclicComponents, bind_eq_ok, pure_eq_ok] at h
  obtain ⟨cyclic, ⟨cs, hcs, flags, hflags, rfl⟩, rfl⟩ := h
  have hp := components_partition hcs
  obtain ⟨hsub, hmem⟩ := mem_zip_mapM hflags
  refine ⟨Ident.pairwise_sort (hp.nodup.sublist (List.filter_sublist.trans hsub).flatten), fun b => ?_⟩
  simp only [Ident.mem_sort, List.mem_flatten, List.mem_filter, hmem, List.any_eq_true,
    decide_eq_true_eq]
  constructor
  · rintro ⟨c, ⟨⟨hc, hcyclic⟩, a, hac, ha⟩, hb⟩
    have hcomponent := hp.component c hc
    exact ⟨(hcomponent.isCyclic_iff_transGen hb).1 hcyclic, a, ha, (hcomponent.mem_iff hac).1 hb⟩
  · rintro ⟨hcycle, a, ha, hab⟩
    obtain ⟨y, ⟨targets, hb, _⟩, _⟩ := TransGen.head'_iff.1 hcycle
    obtain ⟨c, hc, hbc⟩ := List.mem_flatten.1 ((hp.mem_iff b).2 (Table.lt_of_get? hb))
    have hcomponent := hp.component c hc
    exact ⟨c, ⟨⟨hc, (hcomponent.isCyclic_iff_transGen hbc).2 hcycle⟩, a,
      (hcomponent.mem_iff hbc).2 hab.symm, ha⟩, hbc⟩

theorem isEntered_iff (hd : g.Describes f) (hb : b.index < g.size) :
    g.isEntered region b = .ok true ↔ g.Entered region b := by
  obtain ⟨preds, hpreds⟩ := Table.exists_get_eq_ok (t := g.preds) (hd.preds_size ▸ hb)
  have hiff : ∀ a, a ∈ preds ↔ g.Edge a b := by
    intro a
    rw [← hd.preds_iff]
    simp [Adjacency.Edge, Table.get_eq_ok_iff.1 hpreds]
  simp only [isEntered, predecessors, hpreds, ok_bind, pure_eq_ok, Bool.or_eq_true,
    decide_eq_true_eq, List.any_eq_true, hiff, Entered]
  exact or_congr_right (exists_congr fun _ => and_comm)

/-- **The entries of a region** are its blocks that an edge from outside leads to. -/
theorem mem_regionEntries (hd : g.Describes f) (hlt : ∀ b ∈ region, b.index < g.size)
    (h : g.regionEntries region = .ok entries) :
    entries.Sublist region ∧ ∀ b, b ∈ entries ↔ b ∈ region ∧ g.Entered region b := by
  simp only [regionEntries, bind_eq_ok, pure_eq_ok] at h
  obtain ⟨flags, hflags, rfl⟩ := h
  obtain ⟨hsub, hmem⟩ := mem_zip_mapM hflags
  refine ⟨hsub, fun b => ?_⟩
  rw [hmem]
  exact and_congr_right fun hb => isEntered_iff hd (hlt b hb)

/-! ## Refusals -/

/-- The refusal of irreducible control flow around `bs` names the region, and its entries. -/
structure Region (g : FlowGraph) (bs headers region : List BlockId) : Prop where
  ascending : region.Pairwise fun a b => a.index < b.index
  mem_iff : ∀ b, b ∈ region ↔ TransGen g.Edge b b ∧ ∃ a ∈ bs, g.Mutual a b
  headers_ascending : headers.Pairwise fun a b => a.index < b.index
  mem_headers : ∀ b, b ∈ headers ↔ b ∈ region ∧ g.Entered region b

theorem Region.reachable {headers : List BlockId} (hr : g.Region bs headers region)
    (hbs : ∀ b ∈ bs, g.Reachable b) (hb : b ∈ region) : g.Reachable b := by
  obtain ⟨_, a, ha, hab⟩ := (hr.mem_iff b).1 hb
  exact hab.reachable (hbs a ha)

/-- A region with reachable blocks is entered somewhere, by code that control gets to. -/
theorem exists_entered (ha : a ∈ region) (hr : g.Reachable a) :
    ∃ b ∈ region, b = BlockId.entry ∨ ∃ x, g.Reachable x ∧ x ∉ region ∧ g.Edge x b := by
  have key : ∀ y, ReflTransGen g.Edge BlockId.entry y → y ∈ region →
      ∃ b ∈ region, b = BlockId.entry ∨ ∃ x, g.Reachable x ∧ x ∉ region ∧ g.Edge x b := by
    intro y hy
    induction hy with
    | refl => exact fun hmem => ⟨_, hmem, .inl rfl⟩
    | @tail x y hx hxy ih =>
      intro hmem
      by_cases hxr : x ∈ region
      · exact ih hxr
      · exact ⟨y, hmem, .inr ⟨x, reachable_iff.2 hx, hxr, hxy⟩⟩
  exact key a (reachable_iff.1 hr) ha

/-- The refusal around `bs`, evaluated.  Sorting does not unfold by itself, so the components are given
twice: as they are closed, and in order. -/
theorem irreducible_eq (closed cs : List (List BlockId)) {cyclic : List Bool}
    (hclosed : g.components = .ok (closed.map Ident.sort))
    (hcs : List.Forall₂ (fun is js => is.Perm js ∧ js.Pairwise fun a b => a.index < b.index) closed cs)
    (hcyclic : cs.mapM g.isCyclic = .ok cyclic)
    (hregion : ((((cs.zip cyclic).filter Prod.snd).map Prod.fst).filter
      fun c => c.any (· ∈ bs)).flatten.Perm region)
    (hasc : region.Pairwise fun a b => a.index < b.index)
    (hentries : g.regionEntries region = .ok entries) (hne : entries.isEmpty = false) :
    g.irreducible bs = .ok (.irreducible entries region) := by
  have hsorted : closed.map Ident.sort = cs := by
    rw [← List.forall₂_eq_eq_eq, List.forall₂_map_left_iff]
    exact hcs.imp fun _ _ h => Ident.sort_eq h.1 h.2
  have haround : g.regionAround bs = .ok region := by
    simp only [regionAround, cyclicComponents, bind_eq_ok, pure_eq_ok]
    exact ⟨_, ⟨cs, hsorted ▸ hclosed, cyclic, hcyclic, rfl⟩, Ident.sort_eq hregion hasc⟩
  simp only [irreducible, bind_eq_ok, pure_eq_ok]
  exact ⟨region, haround, entries, hentries, by rw [hne]; rfl⟩

/-- **What a refusal says**, around blocks that control gets to and one of which lies on a cycle. -/
theorem irreducible_region (hd : g.Describes f) (hbs : ∀ b ∈ bs, g.Reachable b) (ha : a ∈ bs)
    (hcycle : TransGen g.Edge a a) :
    ∃ headers region, g.irreducible bs = .ok (.irreducible headers region) ∧
      g.Region bs headers region := by
  obtain ⟨headers, region, h⟩ := exists_irreducible hd.toShaped bs
  refine ⟨headers, region, h, ?_⟩
  simp only [irreducible, bind_eq_ok, pure_eq_ok, Refusal.irreducible.injEq] at h
  obtain ⟨region, hregion, entries, hentries, rfl, rfl⟩ := h
  obtain ⟨hasc, hmem⟩ := mem_regionAround hregion
  have hreach : ∀ b ∈ region, g.Reachable b := by
    intro b hb
    obtain ⟨_, x, hx, hxb⟩ := (hmem b).1 hb
    exact hxb.reachable (hbs x hx)
  obtain ⟨hsub, hiff⟩ := mem_regionEntries hd (fun b hb => hd.toShaped.lt_of_reachable (hreach b hb))
    hentries
  have har : a ∈ region := (hmem a).2 ⟨hcycle, a, ha, .refl g a⟩
  obtain ⟨b, hb, hentered⟩ := exists_entered har (hreach a har)
  have hne : entries.isEmpty = false := by
    refine List.isEmpty_eq_false_iff_exists_mem.2 ⟨b, (hiff b).2 ⟨hb, ?_⟩⟩
    rcases hentered with hentry | ⟨x, _, hx⟩
    · exact .inl hentry
    · exact .inr ⟨x, hx⟩
  rw [hne]
  exact ⟨hasc, hmem, hasc.sublist hsub, hiff⟩

end FlowGraph

end FlowTree
