import FlowTree.Flow.Graph
import FlowTree.Proofs.Search

/-!
# Dominance and natural loops

A block *dominates* another when no way from the entry to the other gets around it.  An edge back to
a block that dominates its source closes a *natural loop*: the blocks from which control can get to
the source without passing the target.  Control flow is *reducible* when nothing is left of its
cycles once these edges are taken away.

Nothing here speaks of a search.  Ways through the graph are lists of blocks in the definitions, and
reflexive transitive closures in the proofs; `avoids_iff` is the bridge.

## Main definitions

* `FlowGraph.Path`, `FlowGraph.Reachable` — ways through the graph.
* `FlowGraph.Avoids` — control can go from one block to another around a third.
* `FlowGraph.Dominates`, `FlowGraph.Reducible`.
* `FlowGraph.BackEdge`, `FlowGraph.NaturalLoop` — the edges that close loops, and the loops.
-/

namespace FlowTree.FlowGraph

open Relation

variable {g : FlowGraph} {a b c h u : BlockId}

/-- Control can go from `a` to `b` in one step. -/
def Edge (g : FlowGraph) (a b : BlockId) : Prop := g.succs.Edge a b

/-- `p` lists the blocks on a way from `a` to `b`, both ends included. -/
structure Path (g : FlowGraph) (a b : BlockId) (p : List BlockId) : Prop where
  starts : p.head? = some a
  ends : p.getLast? = some b
  edges : p.IsChain g.Edge

/-- Control can get to `b`. -/
def Reachable (g : FlowGraph) (b : BlockId) : Prop := ∃ p, g.Path BlockId.entry b p

/-- Control can go from `a` to `b` without passing `h`. -/
def Avoids (g : FlowGraph) (h a b : BlockId) : Prop := ∃ p, g.Path a b p ∧ h ∉ p

/-- Every way from the entry to `b` passes `h`. -/
def Dominates (g : FlowGraph) (h b : BlockId) : Prop := ∀ p, g.Path BlockId.entry b p → h ∈ p

/-- No cycle that control can get to is left when the edges into dominators of their sources are
taken away. -/
def Reducible (g : FlowGraph) : Prop :=
  ∀ b, g.Reachable b → ¬ TransGen (fun u v => g.Edge u v ∧ ¬ g.Dominates v u) b b

/-- An edge from `u` back to the block `h` that dominates `u`. -/
structure BackEdge (g : FlowGraph) (u h : BlockId) : Prop where
  edge : g.Edge u h
  reachable : g.Reachable u
  dominates : g.Dominates h u

/-- The loop of `h`: the block itself, and the blocks from which control gets to the source of one
of its back edges without passing it. -/
def NaturalLoop (g : FlowGraph) (h b : BlockId) : Prop :=
  b = h ∨ (g.Reachable b ∧ ∃ u, g.BackEdge u h ∧ g.Avoids h b u)

/-! ## Ways as closures -/

theorem path_cons {p : List BlockId} (hab : g.Edge a b) (hp : g.Path b c p) :
    g.Path a c (a :: p) := by
  obtain ⟨hs, he, hc⟩ := hp
  cases p with
  | nil => cases hs
  | cons x p =>
    cases hs
    exact ⟨rfl, by rw [List.getLast?_cons_cons]; exact he, .cons_cons hab hc⟩

/-- A way along blocks that satisfy `P` is a step-by-step walk along them. -/
theorem exists_path_iff {P : BlockId → Prop} :
    (∃ p, g.Path a b p ∧ ∀ x ∈ p, P x) ↔
      P a ∧ ReflTransGen (fun x y => g.Edge x y ∧ P y) a b := by
  constructor
  · rintro ⟨p, hp, hP⟩
    induction p generalizing a with
    | nil => cases hp.starts
    | cons x p ih =>
      cases hp.starts
      obtain ⟨hPa, hP⟩ := List.forall_mem_cons.1 hP
      refine ⟨hPa, ?_⟩
      cases p with
      | nil =>
        cases hp.ends
        exact .refl
      | cons y p =>
        obtain ⟨hay, hc⟩ := List.isChain_cons_cons.1 hp.edges
        have hends := hp.ends
        rw [List.getLast?_cons_cons] at hends
        obtain ⟨hPy, hr⟩ := ih ⟨rfl, hends, hc⟩ hP
        exact .head ⟨hay, hPy⟩ hr
  · rintro ⟨hPa, hr⟩
    induction hr using ReflTransGen.head_induction_on with
    | refl => exact ⟨[b], ⟨rfl, rfl, .singleton b⟩, by simpa using hPa⟩
    | head hxy _ ih =>
      obtain ⟨p, hp, hP⟩ := ih hxy.2
      exact ⟨_, path_cons hxy.1 hp, List.forall_mem_cons.2 ⟨hPa, hP⟩⟩

theorem reachable_iff : g.Reachable b ↔ ReflTransGen g.Edge BlockId.entry b := by
  have := exists_path_iff (g := g) (a := BlockId.entry) (b := b) (P := fun _ => True)
  simpa [Reachable] using this

theorem avoids_iff : g.Avoids h a b ↔ a ≠ h ∧ ReflTransGen (fun x y => g.Edge x y ∧ y ≠ h) a b := by
  have hp : ∀ p : List BlockId, h ∉ p ↔ ∀ x ∈ p, x ≠ h :=
    fun p => ⟨fun hn x hx e => hn (e ▸ hx), fun hn hh => hn h hh rfl⟩
  rw [← exists_path_iff (P := fun x => x ≠ h), Avoids]
  exact exists_congr fun p => and_congr_right fun _ => hp p

theorem dominates_iff : g.Dominates h b ↔ ¬ g.Avoids h BlockId.entry b := by
  simp [Dominates, Avoids]

theorem reachable_entry (g : FlowGraph) : g.Reachable BlockId.entry := reachable_iff.2 .refl

theorem Reachable.step (hu : g.Reachable u) (huh : g.Edge u h) : g.Reachable h :=
  reachable_iff.2 ((reachable_iff.1 hu).tail huh)

namespace Avoids

theorem refl (hne : a ≠ h) : g.Avoids h a a := avoids_iff.2 ⟨hne, .refl⟩

theorem ne_left (hab : g.Avoids h a b) : a ≠ h := (avoids_iff.1 hab).1

theorem ne_right (hab : g.Avoids h a b) : b ≠ h := by
  obtain ⟨hne, hr⟩ := avoids_iff.1 hab
  cases hr with
  | refl => exact hne
  | tail _ hxy => exact hxy.2

theorem trans (hab : g.Avoids h a b) (hbc : g.Avoids h b c) : g.Avoids h a c :=
  avoids_iff.2 ⟨hab.ne_left, (avoids_iff.1 hab).2.trans (avoids_iff.1 hbc).2⟩

theorem head (hne : a ≠ h) (hab : g.Edge a b) (hbc : g.Avoids h b c) : g.Avoids h a c :=
  avoids_iff.2 ⟨hne, .head ⟨hab, hbc.ne_left⟩ (avoids_iff.1 hbc).2⟩

theorem tail (hab : g.Avoids h a b) (hbc : g.Edge b c) (hne : c ≠ h) : g.Avoids h a c :=
  avoids_iff.2 ⟨hab.ne_left, (avoids_iff.1 hab).2.tail ⟨hbc, hne⟩⟩

theorem reaches (hab : g.Avoids h a b) : ReflTransGen g.Edge a b :=
  ReflTransGen.mono (fun _ _ hxy => hxy.1) _ _ (avoids_iff.1 hab).2

/-- A way around `h` also gets around `x`, or leads on from `x` around `h`. -/
theorem avoids_or (hab : g.Avoids h a b) (x : BlockId) :
    (g.Avoids x a b) ∨ g.Avoids h x b := by
  obtain ⟨hne, hr⟩ := avoids_iff.1 hab
  induction hr using ReflTransGen.head_induction_on with
  | refl =>
    by_cases hx : b = x
    · exact .inr (hx ▸ refl hne)
    · exact .inl (refl hx)
  | @head a c hac hcb ih =>
    have hch : g.Avoids h c b := avoids_iff.2 ⟨hac.2, hcb⟩
    rcases ih hch hac.2 with hxb | hxb
    · by_cases hx : a = x
      · exact .inr (hx ▸ hab)
      · exact .inl (head hx hac.1 hxb)
    · exact .inr hxb

end Avoids

/-! ## Dominance -/

theorem dominates_self (g : FlowGraph) (b : BlockId) : g.Dominates b b :=
  dominates_iff.2 fun hb => hb.ne_right rfl

/-- What dominates a block dominates the blocks from which it is reached around the dominator. -/
theorem Dominates.of_avoids (hd : g.Dominates h b) (hab : g.Avoids h a b) : g.Dominates h a :=
  dominates_iff.2 fun ha => dominates_iff.1 hd (ha.trans hab)

/-- On the way to one of two blocks, one is met first. -/
theorem avoids_of_reaches_either (hne : a ≠ b) (hr : ReflTransGen g.Edge c u)
    (hu : u = a ∨ u = b) : g.Avoids b c a ∨ g.Avoids a c b := by
  induction hr using ReflTransGen.head_induction_on with
  | refl =>
    rcases hu with rfl | rfl
    · exact .inl (.refl hne)
    · exact .inr (.refl hne.symm)
  | @head c d hcd _ ih =>
    by_cases hca : c = a
    · subst hca
      exact .inl (.refl hne)
    by_cases hcb : c = b
    · subst hcb
      exact .inr (.refl hne.symm)
    rcases ih with hd | hd
    · exact .inl (.head hcb hcd hd)
    · exact .inr (.head hca hcd hd)

theorem Dominates.antisymm (hab : g.Dominates a b) (hba : g.Dominates b a)
    (hb : g.Reachable b) : a = b := by
  by_contra hne
  rcases avoids_of_reaches_either hne (reachable_iff.1 hb) (.inr rfl) with hv | hv
  · exact dominates_iff.1 hba hv
  · exact dominates_iff.1 hab hv

/-- A way either gets around `b`, or leads on from the last of `a` and `b` around the other. -/
theorem avoids_cases (hne : a ≠ b) (hr : ReflTransGen g.Edge u c) :
    g.Avoids b u c ∨ g.Avoids b a c ∨ g.Avoids a b c := by
  induction hr using ReflTransGen.head_induction_on with
  | refl =>
    by_cases hcb : c = b
    · subst hcb
      exact .inr (.inr (.refl hne.symm))
    · exact .inl (.refl hcb)
  | @head u d hud _ ih =>
    rcases ih with hd | hd
    · by_cases hub : u = b
      · subst hub
        rcases hd.avoids_or a with hv | hv
        · exact .inr (.inr (.head hne.symm hud hv))
        · exact .inr (.inl hv)
      · exact .inl (.head hub hud hd)
    · exact .inr hd

/-- A strict dominator of `b` is not passed on some way from `b` to any block that `b` dominates. -/
theorem Dominates.avoids (hab : g.Dominates a b) (hbc : g.Dominates b c) (hne : a ≠ b)
    (hb : g.Reachable b) (hc : g.Reachable c) : g.Avoids a b c := by
  rcases avoids_cases hne (reachable_iff.1 hc) with hv | hv | hv
  · exact absurd hv (dominates_iff.1 hbc)
  · have hav : g.Avoids b BlockId.entry a := by
      by_contra hn
      exact hne (hab.antisymm (dominates_iff.2 hn) hb)
    exact absurd (hav.trans hv) (dominates_iff.1 hbc)
  · exact hv

/-- **The dominators of a block dominate each other.** -/
theorem Dominates.total (hac : g.Dominates a c) (hbc : g.Dominates b c) (hc : g.Reachable c) :
    g.Dominates a b ∨ g.Dominates b a := by
  by_contra hn
  simp only [dominates_iff, not_or, not_not] at hn
  obtain ⟨hb, ha⟩ := hn
  have hne : a ≠ b := fun e => hb.ne_right e.symm
  rcases avoids_cases hne (reachable_iff.1 hc) with hv | hv | hv
  · exact dominates_iff.1 hbc hv
  · exact dominates_iff.1 hbc (ha.trans hv)
  · exact dominates_iff.1 hac (hb.trans hv)

/-! ## Natural loops -/

namespace NaturalLoop

theorem dominates (hb : g.NaturalLoop h b) : g.Dominates h b := by
  rcases hb with rfl | ⟨_, u, hu, hbu⟩
  · exact dominates_self g b
  · exact hu.dominates.of_avoids hbu

theorem reachable (hh : g.Reachable h) (hb : g.NaturalLoop h b) : g.Reachable b := by
  rcases hb with rfl | ⟨hb, _⟩
  · exact hh
  · exact hb

/-- Control enters a loop at its header. -/
theorem of_edge (hu : g.Reachable u) (hub : g.Edge u b) (hb : g.NaturalLoop h b) (hne : b ≠ h) :
    g.NaturalLoop h u := by
  rcases hb with rfl | ⟨_, w, hw, hbw⟩
  · exact absurd rfl hne
  · by_cases huh : u = h
    · exact .inl huh
    · exact .inr ⟨hu, w, hw, .head huh hub hbw⟩

/-- Of the edges to a header, those from inside its loop are the back edges. -/
theorem iff_backEdge (hu : g.Reachable u) (huh : g.Edge u h) :
    g.NaturalLoop h u ↔ g.BackEdge u h := by
  constructor
  · intro hb
    exact ⟨huh, hu, hb.dominates⟩
  · intro hback
    by_cases hne : u = h
    · exact .inl hne
    · exact .inr ⟨hu, u, hback, .refl hne⟩

/-- **A loop whose header is in another loop is inside that loop.** -/
theorem trans (hb : g.NaturalLoop h b) (hc : g.NaturalLoop b c) (hh : g.Reachable h) :
    g.NaturalLoop h c := by
  have hrb : g.Reachable b := hb.reachable hh
  have hdb : g.Dominates h b := hb.dominates
  rcases hb with rfl | ⟨_, u, hu, hbu⟩
  · exact hc
  rcases hc with rfl | ⟨hrc, w, hw, hcw⟩
  · exact .inr ⟨hrb, u, hu, hbu⟩
  -- from `c` to the back edge of `b`, over it, and from `b` on to the back edge of `h`
  rcases hcw.avoids_or h with hv | hv
  · exact .inr ⟨hrc, u, hu, (hv.tail hw.edge hbu.ne_left).trans hbu⟩
  · have hbh : g.Dominates b h := hw.dominates.of_avoids hv
    exact absurd (hdb.antisymm hbh hrb) hbu.ne_left.symm

/-- **Two loops with a block in common are nested.** -/
theorem nested {h₁ h₂ : BlockId} (hr₁ : g.Reachable h₁) (hr₂ : g.Reachable h₂)
    (hb₁ : g.NaturalLoop h₁ b) (hb₂ : g.NaturalLoop h₂ b) :
    g.NaturalLoop h₁ h₂ ∨ g.NaturalLoop h₂ h₁ := by
  have key : ∀ {h₁ h₂}, g.Reachable h₁ → g.Reachable h₂ → g.NaturalLoop h₁ b →
      g.NaturalLoop h₂ b → g.Dominates h₁ h₂ → g.NaturalLoop h₁ h₂ := by
    intro h₁ h₂ hr₁ hr₂ hb₁ hb₂ hd
    by_cases hne : h₂ = h₁
    · exact .inl hne
    have hrb := hb₁.reachable hr₁
    have hv : g.Avoids h₁ h₂ b := hd.avoids hb₂.dominates (Ne.symm hne) hr₂ hrb
    rcases hb₁ with rfl | ⟨_, u, hu, hbu⟩
    · exact absurd rfl hv.ne_right
    · exact .inr ⟨hr₂, u, hu, hv.trans hbu⟩
  rcases hb₁.dominates.total hb₂.dominates (hb₁.reachable hr₁) with hd | hd
  · exact .inl (key hr₁ hr₂ hb₁ hb₂ hd)
  · exact .inr (key hr₂ hr₁ hb₂ hb₁ hd)

end NaturalLoop

end FlowTree.FlowGraph
