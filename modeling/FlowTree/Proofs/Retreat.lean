import FlowTree.Proofs.Dominance

/-!
# Retreating edges

One search from the entry splits the edges of a graph: those that *advance*, to a block finished
before, and those that *retreat*, to a block not finished yet.  Advancing edges never lead to a
dominator of their source, and an edge to a dominator always retreats.  So control flow is reducible
exactly if every retreating edge leads to a dominator.

What decides that, without dominators, is a *report*: each block names the targets of the retreating
edges that advancing edges lead to from it, less itself.  If the entry names nothing, every
retreating edge leads to a dominator; if it names a block, some retreating edge to that block does
not.  What the other blocks name is then enough to tell the natural loops.

## Main statements

* `SearchOrder.reducible_iff`, `IsReport.silent_entry_iff` — reducibility, twice.
* `IsReport.naturalLoop_iff` — a natural loop is what names its header, directly or through others.
-/

namespace FlowTree.FlowGraph

open Relation

/-- `order` holds the blocks in the order in which a search from the entry finishes them, the last
one first. -/
structure SearchOrder (g : FlowGraph) (order : List BlockId) : Prop where
  nodup : order.Nodup
  mem_iff : ∀ b, b ∈ order ↔ g.Reachable b
  /-- Control gets to a block without passing any block that was finished before it. -/
  avoids : ∀ {a b}, Before order a b → g.Avoids a BlockId.entry b
  /-- From the target of any other edge, advancing edges lead to its source. -/
  returns : ∀ {a b}, a ∈ order → g.Edge a b → ¬ Before order b a →
    ReflTransGen (g.succs.Advances order) b a

/-- An edge from a block that is reached to a block that is not finished before it. -/
structure Retreats (g : FlowGraph) (order : List BlockId) (a b : BlockId) : Prop where
  edge : g.Edge a b
  mem : a ∈ order
  not_before : ¬ Before order b a

theorem walk_searchOrder {g : FlowGraph} {w : Walk .block} (hw : g.walk = .ok w) :
    g.SearchOrder (w.finished []) := by
  have ht : Walk.Traces g.succs [] [] [BlockId.entry] w := Walk.ofRoots_traces hw
  obtain ⟨hn, -⟩ := ht.nodup List.nodup_nil (fun _ h => by cases h)
  have hfinishes : ∀ {b earlier}, (b :: earlier) <:+ w.finished [] → w.Finishes [] b earlier := by
    intro b earlier hs
    rcases Walk.suffix_finished_iff.1 hs with h | h
    · exact absurd h.length_le (by simp)
    · exact h
  have hreach : ∀ {b earlier}, w.Finishes [] b earlier → BlockId.entry ∉ earlier ∧
      ReflTransGen (fun x y => g.Edge x y ∧ y ∉ earlier) BlockId.entry b := by
    intro b earlier hb
    obtain ⟨j, hj, hje, hr⟩ := ht.exists_reaches List.nodup_nil (fun _ h => by cases h) hb
    cases List.mem_singleton.1 hj
    exact ⟨hje, hr⟩
  refine ⟨hn, ?_, ?_, ?_⟩
  · intro b
    constructor
    · intro hb
      rcases Walk.mem_finished_iff.1 hb with h | ⟨earlier, h⟩
      · cases h
      · exact reachable_iff.2 (ReflTransGen.mono (fun _ _ hxy => hxy.1) _ _ (hreach h).2)
    · intro hb
      have hr := reachable_iff.1 hb
      clear hb
      induction hr with
      | refl =>
        rcases ht.mem_of_target (List.mem_singleton_self _) with h | h
        · cases h
        · exact h
      | @tail a c _ hac ih =>
        rcases Walk.mem_finished_iff.1 ih with h | ⟨earlier, h⟩
        · cases h
        · rcases ht.edge_closed h hac with hc | hc
          · cases List.mem_singleton.1 hc
            exact ih
          · exact hc
  · rintro a b ⟨earlier, hs, ha⟩
    obtain ⟨hne, hr⟩ := hreach (hfinishes hs)
    refine avoids_iff.2 ⟨fun e => hne (e ▸ ha), ?_⟩
    exact ReflTransGen.mono (fun x y hxy => ⟨hxy.1, fun e => hxy.2 (e ▸ ha)⟩) _ _ hr
  · intro a b ha hab hb
    rcases Walk.mem_finished_iff.1 ha with h | ⟨earlier, h⟩
    · cases h
    · have hbe : b ∉ earlier := fun hbe => hb ⟨earlier, h.suffix, hbe⟩
      rcases ht.reaches_of_not_mem h hab hbe with hp | hr
      · cases hp
      · exact hr

namespace SearchOrder

variable {g : FlowGraph} {order : List BlockId} {a b h u : BlockId}

theorem not_dominates (ho : g.SearchOrder order) (hb : Before order b a) : ¬ g.Dominates b a :=
  fun hd => dominates_iff.1 hd (ho.avoids hb)

/-- An edge to a dominator of its source retreats. -/
theorem retreats_of_backEdge (ho : g.SearchOrder order) (hu : g.BackEdge u h) :
    g.Retreats order u h :=
  ⟨hu.edge, (ho.mem_iff u).2 hu.reachable, fun hb => ho.not_dominates hb hu.dominates⟩

/-- If retreating edges lead to dominators, they are the back edges, whichever search it was. -/
theorem retreats_iff_backEdge (ho : g.SearchOrder order)
    (hdom : ∀ u h, g.Retreats order u h → g.Dominates h u) :
    g.Retreats order u h ↔ g.BackEdge u h :=
  ⟨fun hu => ⟨hu.edge, (ho.mem_iff u).1 hu.mem, hdom u h hu⟩, ho.retreats_of_backEdge⟩

/-- **Control flow is reducible exactly if every retreating edge leads to a dominator.** -/
theorem reducible_iff (ho : g.SearchOrder order) :
    g.Reducible ↔ ∀ u h, g.Retreats order u h → g.Dominates h u := by
  constructor
  · intro hred u h hu
    by_contra hd
    -- advancing edges lead from `h` to `u`, and the edge itself closes the cycle
    have hback : ReflTransGen (fun u v => g.Edge u v ∧ ¬ g.Dominates v u) h u :=
      ReflTransGen.mono (fun _ _ hxy => ⟨hxy.1, ho.not_dominates hxy.2⟩) _ _
        (ho.returns hu.mem hu.edge hu.not_before)
    exact hred u ((ho.mem_iff u).1 hu.mem) (TransGen.head' ⟨hu.edge, hd⟩ hback)
  · intro hdom b hb hcycle
    have hadv : ∀ {x y}, x ∈ order → g.Edge x y ∧ ¬ g.Dominates y x →
        g.succs.Advances order x y ∧ y ∈ order := by
      intro x y hx hxy
      refine ⟨⟨hxy.1, ?_⟩, (ho.mem_iff y).2 (((ho.mem_iff x).1 hx).step hxy.1)⟩
      by_contra hnb
      exact hxy.2 (hdom x y ⟨hxy.1, hx, hnb⟩)
    have hstep : ∀ {c}, TransGen (fun u v => g.Edge u v ∧ ¬ g.Dominates v u) b c →
        TransGen (g.succs.Advances order) b c ∧ c ∈ order := by
      intro c hc
      induction hc with
      | single hxy =>
        obtain ⟨ha, hm⟩ := hadv ((ho.mem_iff b).2 hb) hxy
        exact ⟨.single ha, hm⟩
      | tail _ hxy ih =>
        obtain ⟨ha, hm⟩ := hadv ih.2 hxy
        exact ⟨ih.1.tail ha, hm⟩
    exact Adjacency.not_advances_cycle ho.nodup b (hstep hcycle).1

end SearchOrder

/-! ## Reports -/

/-- `R a h` says that block `a` names `h`: `a` is not `h`, and `h` is the target of a retreating
edge of `a`, or is named by a block to which an edge of `a` advances.  Other blocks name nothing. -/
structure IsReport (g : FlowGraph) (order : List BlockId) (R : BlockId → BlockId → Prop) :
    Prop where
  iff : ∀ {a h}, a ∈ order → (R a h ↔ h ≠ a ∧
    ∃ v, g.Edge a v ∧ ((¬ Before order v a ∧ h = v) ∨ (Before order v a ∧ R v h)))
  silent : ∀ {a h}, a ∉ order → ¬ R a h

/-- A way either gets around `c`, or leads to `c`. -/
theorem reaches_avoiding_or {r : BlockId → BlockId → Prop} {a b : BlockId} (hr : ReflTransGen r a b)
    (c : BlockId) : (a ≠ c ∧ ReflTransGen (fun x y => r x y ∧ y ≠ c) a b) ∨ ReflTransGen r a c := by
  induction hr with
  | refl =>
    by_cases hac : a = c
    · exact .inr (hac ▸ .refl)
    · exact .inl ⟨hac, .refl⟩
  | @tail x y hax hxy ih =>
    rcases ih with ⟨hac, hr⟩ | hr
    · by_cases hyc : y = c
      · exact .inr (hyc ▸ hax.tail hxy)
      · exact .inl ⟨hac, hr.tail ⟨hxy, hyc⟩⟩
    · exact .inr hr

namespace IsReport

variable {g : FlowGraph} {order : List BlockId} {R : BlockId → BlockId → Prop} {a b h u w : BlockId}

theorem ne (hR : g.IsReport order R) (h₁ : R a h) : h ≠ a := by
  by_cases ha : a ∈ order
  · exact ((hR.iff ha).1 h₁).1
  · exact absurd h₁ (hR.silent ha)

theorem mem (hR : g.IsReport order R) (h₁ : R a h) : a ∈ order := by
  by_contra ha
  exact hR.silent ha h₁

theorem of_retreats (hR : g.IsReport order R) (hr : g.Retreats order a h) (hne : h ≠ a) : R a h :=
  (hR.iff hr.mem).2 ⟨hne, h, hr.edge, .inl ⟨hr.not_before, rfl⟩⟩

theorem of_advances (hR : g.IsReport order R) (hb : g.succs.Advances order a b) (hne : h ≠ a)
    (h₁ : R b h) : R a h :=
  (hR.iff hb.2.mem_right).2 ⟨hne, b, hb.1, .inr ⟨hb.2, h₁⟩⟩

/-- A block names what it is led to by advancing edges that do not pass the named block. -/
theorem of_reaches (hR : g.IsReport order R) (hw : g.Retreats order w h) (hne : a ≠ h)
    (hr : ReflTransGen (fun x y => g.succs.Advances order x y ∧ y ≠ h) a w) : R a h := by
  induction hr using ReflTransGen.head_induction_on with
  | refl => exact hR.of_retreats hw hne.symm
  | head hxy _ ih => exact hR.of_advances hxy.1 hne.symm (ih hxy.2)

/-- What a block names is the target of a retreating edge that control gets to around it. -/
theorem exists_retreats (hR : g.IsReport order R) (hn : order.Nodup) (h₁ : R a h) :
    ∃ w, g.Retreats order w h ∧ g.Avoids h a w := by
  have key : ∀ a ∈ order, R a h → ∃ w, g.Retreats order w h ∧ g.Avoids h a w := by
    refine Before.induction hn ?_
    intro a ha ih h₁
    obtain ⟨hne, v, hav, ⟨hnb, rfl⟩ | ⟨hb, hv⟩⟩ := (hR.iff ha).1 h₁
    · exact ⟨a, ⟨hav, ha, hnb⟩, .refl hne.symm⟩
    · obtain ⟨w, hw, hvw⟩ := ih v hb hv
      exact ⟨w, hw, .head hne.symm hav hvw⟩
  exact key a (hR.mem h₁) h₁

/-- **The entry names nothing exactly if every retreating edge leads to a dominator.** -/
theorem silent_entry_iff (hR : g.IsReport order R) (ho : g.SearchOrder order) :
    (∀ h, ¬ R BlockId.entry h) ↔ ∀ u h, g.Retreats order u h → g.Dominates h u := by
  constructor
  · intro hs u h hu
    rw [dominates_iff, avoids_iff]
    rintro ⟨hne, hr⟩
    -- a way around `h` can be taken along advancing edges only: a retreating edge on it leads to a
    -- block passed before, or else the entry would name that block
    have hadv : ∀ {v}, ReflTransGen (fun x y => g.Edge x y ∧ y ≠ h) BlockId.entry v →
        ReflTransGen (fun x y => g.succs.Advances order x y ∧ y ≠ h) BlockId.entry v := by
      intro v hv
      induction hv with
      | refl => exact .refl
      | @tail v c hv hvc ih =>
        by_cases hb : Before order c v
        · exact ih.tail ⟨⟨hvc.1, hb⟩, hvc.2⟩
        have hvm : v ∈ order := (ho.mem_iff v).2 (reachable_iff.2
          (ReflTransGen.mono (fun _ _ hxy => hxy.1) _ _ hv))
        rcases reaches_avoiding_or ih c with ⟨hec, hrc⟩ | hrc
        · refine absurd (hR.of_reaches ⟨hvc.1, hvm, hb⟩ hec ?_) (hs c)
          exact ReflTransGen.mono (fun _ _ hxy => ⟨hxy.1.1, hxy.2⟩) _ _ hrc
        · exact hrc
    exact hs h (hR.of_reaches hu hne (hadv hr))
  · intro hdom h h₁
    obtain ⟨w, hw, hv⟩ := hR.exists_retreats ho.nodup h₁
    exact dominates_iff.1 (hdom w h hw) hv

section Reducible

variable (hR : g.IsReport order R) (ho : g.SearchOrder order)
  (hdom : ∀ u h, g.Retreats order u h → g.Dominates h u)

include hR ho hdom

theorem naturalLoop (h₁ : R b h) : g.NaturalLoop h b := by
  obtain ⟨w, hw, hv⟩ := hR.exists_retreats ho.nodup h₁
  exact .inr ⟨(ho.mem_iff b).1 (hR.mem h₁), w, (ho.retreats_iff_backEdge hdom).1 hw, hv⟩

theorem naturalLoop_of_reaches (hh : g.Reachable h) (hr : ReflTransGen R b h) :
    g.NaturalLoop h b := by
  induction hr using ReflTransGen.head_induction_on with
  | refl => exact .inl rfl
  | head hbc _ ih => exact ih.trans (hR.naturalLoop ho hdom hbc) hh

/-- **A natural loop is what names its header, directly or through other headers.** -/
theorem naturalLoop_iff (hh : g.Reachable h) : g.NaturalLoop h b ↔ ReflTransGen R b h := by
  refine ⟨?_, hR.naturalLoop_of_reaches ho hdom hh⟩
  rintro (rfl | ⟨hrb, u, hu, hbu⟩)
  · exact .refl
  obtain ⟨hne, hr⟩ := avoids_iff.1 hbu
  induction hr using ReflTransGen.head_induction_on with
  | refl => exact .single (hR.of_retreats (ho.retreats_of_backEdge hu) hne.symm)
  | @head x y hxy hyu ih =>
    have hry := ih (hrb.step hxy.1) (avoids_iff.2 ⟨hxy.2, hyu⟩) hxy.2
    have hxm : x ∈ order := (ho.mem_iff x).2 hrb
    by_cases hb : Before order y x
    · -- `y` names some block, and so does `x`, unless it is `x` that is named
      rcases hry.cases_head with rfl | ⟨z, hyz, hz⟩
      · exact absurd rfl hxy.2
      by_cases hzx : z = x
      · exact hzx ▸ hz
      · exact .head (hR.of_advances ⟨hxy.1, hb⟩ hzx hyz) hz
    · by_cases hyx : y = x
      · exact hyx ▸ hry
      · exact .head (hR.of_retreats ⟨hxy.1, hxm, hb⟩ hyx) hry

/-- No blocks name each other in a circle. -/
theorem not_cycle (b : BlockId) : ¬ TransGen R b b := by
  intro hc
  obtain ⟨c, hbc, hcb⟩ := TransGen.head'_iff.1 hc
  have hb : g.Reachable b := (ho.mem_iff b).1 (hR.mem hbc)
  have hcd : g.Dominates c b := (hR.naturalLoop ho hdom hbc).dominates
  have hbd : g.Dominates b c := (hR.naturalLoop_of_reaches ho hdom hb hcb).dominates
  exact hR.ne hbc (hcd.antisymm hbd hb)

end Reducible

end IsReport

end FlowTree.FlowGraph
