import FlowTree.Flow.Component
import FlowTree.Proofs.GraphShape
import FlowTree.Proofs.Search
import Mathlib.Data.List.Sort

/-!
# The components of a graph

The search for components finds the strongly connected components, and it finds a component after
those that control can leave it for.

Nothing is said about the path of the search.  Following a part of the walk pushes blocks on the
stack, and three facts about the pushed blocks are enough: each is reached from a successor that was
looked at, each reaches a block that was on the stack before, and each of its edges leads to a block
that has a component or to one on the stack that is numbered from the result of the search upwards.
When the block that is being explored keeps its own number, nothing above it leads below it; then it
reaches all blocks above it, and they can only reach it.

## Main statements

* `ComponentSearch.follow_followed` — following a walk.
* `FlowGraph.components_partition` — the components that are found.
* `FlowGraph.exists_components` — components are always found.
* `FlowGraph.components_decompose` — both together, block by block.
-/

namespace FlowTree

open Relation

/-! ## Sorting -/

namespace Ident

variable {k : Kind} {is js : List (Ident k)}

theorem sort_perm (is : List (Ident k)) : (sort is).Perm is := List.mergeSort_perm _ _

/-- Sorting puts distinct identifiers in ascending order. -/
theorem pairwise_sort (hn : is.Nodup) : (sort is).Pairwise fun i j => i.index < j.index := by
  have hle : (sort is).Pairwise fun i j => decide (i.index ≤ j.index) = true := by
    refine List.pairwise_mergeSort ?_ ?_ is
    · intro a b c hab hbc
      simp only [decide_eq_true_eq] at *
      omega
    · intro a b
      simp only [Bool.or_eq_true, decide_eq_true_eq]
      omega
  have hne : (sort is).Nodup := (sort_perm is).nodup_iff.2 hn
  refine hle.imp₂ (fun i j h hij => ?_) hne
  have hidx : i.index ≠ j.index := fun he => hij (Ident.ext he)
  have := of_decide_eq_true h
  omega

/-- Two ascending lists with the same members are the same. -/
theorem eq_of_ascending (his : is.Pairwise fun i j => i.index < j.index)
    (hjs : js.Pairwise fun i j => i.index < j.index) (h : ∀ i, i ∈ is ↔ i ∈ js) : is = js := by
  have hperm : is.Perm js :=
    (List.perm_ext_iff_of_nodup (nodup_of_ascending his) (nodup_of_ascending hjs)).2 h
  refine hperm.eq_of_pairwise ?_ his hjs
  intro i j _ _ hij hji
  exact absurd hij (Nat.lt_asymm hji)

/-- Sorting is known by its result: an ascending list of the same identifiers. -/
theorem sort_eq (hperm : is.Perm js) (hjs : js.Pairwise fun i j => i.index < j.index) :
    sort is = js := by
  have hne : is.Nodup := hperm.nodup_iff.2 (nodup_of_ascending hjs)
  exact eq_of_ascending (pairwise_sort hne) hjs fun i => mem_sort.trans hperm.mem_iff

end Ident

/-! ## Components -/

namespace FlowGraph

variable {g : FlowGraph} {a b c : BlockId} {bs : List BlockId} {earlier : List (List BlockId)}

/-- Control can go from each of two blocks to the other. -/
def Mutual (g : FlowGraph) (a b : BlockId) : Prop :=
  ReflTransGen g.Edge a b ∧ ReflTransGen g.Edge b a

namespace Mutual

theorem refl (g : FlowGraph) (a : BlockId) : g.Mutual a a := ⟨.refl, .refl⟩

theorem symm (h : g.Mutual a b) : g.Mutual b a := ⟨h.2, h.1⟩

theorem trans (hab : g.Mutual a b) (hbc : g.Mutual b c) : g.Mutual a c :=
  ⟨hab.1.trans hbc.1, hbc.2.trans hab.2⟩

end Mutual

/-- The blocks of a strongly connected component, ascending. -/
structure IsComponent (g : FlowGraph) (bs : List BlockId) : Prop where
  nonempty : bs ≠ []
  ascending : bs.Pairwise fun a b => a.index < b.index
  mem_iff : ∀ {a b}, a ∈ bs → (b ∈ bs ↔ g.Mutual a b)

/-- Components in the order in which they are closed, the latest first.  Control leaves a component
only for those that were closed before it. -/
inductive Settled (g : FlowGraph) : List (List BlockId) → Prop
  | nil : Settled g []
  | cons {c : List BlockId} {rest : List (List BlockId)} : g.IsComponent c →
    (∀ a ∈ c, ∀ b, g.Edge a b → b ∈ c ∨ b ∈ rest.flatten) → Settled g rest → Settled g (c :: rest)

theorem Settled.edge_closed (h : g.Settled earlier) (ha : a ∈ earlier.flatten) (hab : g.Edge a b) :
    b ∈ earlier.flatten := by
  induction h with
  | nil => cases ha
  | cons _ hedges _ ih =>
    rw [List.flatten_cons, List.mem_append] at ha ⊢
    rcases ha with ha | ha
    · exact hedges a ha b hab
    · exact .inr (ih ha)

/-- Control that has left for closed components stays there. -/
theorem Settled.closed (h : g.Settled earlier) (ha : a ∈ earlier.flatten)
    (hab : ReflTransGen g.Edge a b) : b ∈ earlier.flatten := by
  induction hab with
  | refl => exact ha
  | tail _ hbc ih => exact h.edge_closed ih hbc

section Leaving

variable (h : g.Settled earlier) (hedges : ∀ a ∈ bs, ∀ b, g.Edge a b → b ∈ bs ∨ b ∈ earlier.flatten)

include h hedges

theorem Settled.mem_of_reaches (ha : a ∈ bs) (hab : ReflTransGen g.Edge a b) :
    b ∈ bs ∨ b ∈ earlier.flatten := by
  induction hab with
  | refl => exact .inl ha
  | tail _ hbc ih =>
    rcases ih with hb | hb
    · exact hedges _ hb _ hbc
    · exact .inr (h.edge_closed hb hbc)

/-- **Blocks that control leaves only for closed components are a component**, if they reach one of
them and are reached from it. -/
theorem Settled.isComponent {root : BlockId} (hroot : root ∈ bs)
    (hn : (bs ++ earlier.flatten).Nodup) (hmutual : ∀ a ∈ bs, g.Mutual root a) :
    g.IsComponent (Ident.sort bs) := by
  obtain ⟨hbs, _, hdisjoint⟩ := List.nodup_append.1 hn
  refine ⟨?_, Ident.pairwise_sort hbs, ?_⟩
  · intro hnil
    have hmem := Ident.mem_sort.2 hroot
    rw [hnil] at hmem
    cases hmem
  · intro a b ha
    rw [Ident.mem_sort] at ha ⊢
    constructor
    · exact fun hb => (hmutual a ha).symm.trans (hmutual b hb)
    · rintro ⟨hab, hba⟩
      rcases h.mem_of_reaches hedges ha hab with hb | hb
      · exact hb
      · exact absurd rfl (hdisjoint a ha a (h.closed hb hba))

end Leaving

end FlowGraph

/-! ## The search -/

namespace ComponentSearch

variable {g : FlowGraph} {path finished targets targets' : List BlockId} {b : BlockId}
  {s s₁ s₂ : ComponentSearch} {low low₁ low₂ : Nat} {new : List (BlockId × Nat)}

/-- What holds of a search while `path` is being explored and `finished` has been finished: a block
that was met is on the stack or in a component, and never twice. -/
structure Sound (g : FlowGraph) (path finished : List BlockId) (s : ComponentSearch) : Prop where
  nodup : (s.stack.map Prod.fst ++ s.found.flatten).Nodup
  mem_iff : ∀ b, b ∈ s.stack.map Prod.fst ++ s.found.flatten ↔ b ∈ path ∨ b ∈ finished
  lt_next : ∀ e ∈ s.stack, e.2 < s.next
  settled : g.Settled s.found

/-- Block `b` has a component, or it is on the stack and numbered from `low` upwards. -/
def Above (s : ComponentSearch) (low : Nat) (b : BlockId) : Prop :=
  b ∈ s.found.flatten ∨ ∃ n, (b, n) ∈ s.stack ∧ low ≤ n

/-- An entry that was pushed between `s` and `s₁`, while `targets` were looked at. -/
structure Pushed (g : FlowGraph) (targets : List BlockId) (s s₁ : ComponentSearch) (low : Nat)
    (e : BlockId × Nat) : Prop where
  number : s.next ≤ e.2
  reached : ∃ t ∈ targets, ReflTransGen g.Edge t e.1
  reaches : ∃ e' ∈ s.stack, ReflTransGen g.Edge e.1 e'.1
  edges : ∀ b, g.Edge e.1 b → s₁.Above low b

/-- What looking at `targets` does: it leads from `s` and `low` to `s₁` and `low₁`. -/
structure Followed (g : FlowGraph) (path finished targets : List BlockId) (s : ComponentSearch)
    (low : Nat) (s₁ : ComponentSearch) (low₁ : Nat) : Prop extends Sound g path finished s₁ where
  pushed : ∃ new, s₁.stack = new ++ s.stack ∧ ∀ e ∈ new, Pushed g targets s s₁ low₁ e
  found : s.found <:+ s₁.found
  next_le : s.next ≤ s₁.next
  low_le : low₁ ≤ low
  /-- A number that is less than before is that of a block on the stack that a target reaches. -/
  low_eq : low₁ = low ∨ ∃ b, (b, low₁) ∈ s₁.stack ∧ ∃ t ∈ targets, ReflTransGen g.Edge t b
  above : ∀ t ∈ targets, s₁.Above low₁ t

theorem Followed.mem_stack (h : Followed g path finished targets s low s₁ low₁) {e : BlockId × Nat}
    (he : e ∈ s.stack) : e ∈ s₁.stack := by
  obtain ⟨new, hstack, _⟩ := h.pushed
  rw [hstack]
  exact List.mem_append_right new he

theorem Above.mono {low₀ : Nat} (h : s.Above low₀ b)
    (hf : Followed g path finished targets s low s₁ low₁) (hle : low₁ ≤ low₀) : s₁.Above low₁ b := by
  rcases h with h | ⟨n, hn, hlow⟩
  · obtain ⟨c, hc, hb⟩ := List.mem_flatten.1 h
    exact .inl (List.mem_flatten.2 ⟨c, hf.found.subset hc, hb⟩)
  · exact .inr ⟨n, hf.mem_stack hn, by omega⟩

/-! ## Steps -/

/-- Looking at nothing. -/
theorem Sound.followed_nil (hs : Sound g path finished s) (low : Nat) :
    Followed g path finished [] s low s low where
  toSound := hs
  pushed := ⟨[], rfl, by simp⟩
  found := List.suffix_refl _
  next_le := Nat.le_refl _
  low_le := Nat.le_refl _
  low_eq := .inl rfl
  above := by simp

/-- One part of a walk after the other. -/
theorem Followed.trans {finished' : List BlockId}
    (h₁ : Followed g path finished targets s low s₁ low₁)
    (h₂ : Followed g path finished' targets' s₁ low₁ s₂ low₂) :
    Followed g path finished' (targets ++ targets') s low s₂ low₂ := by
  obtain ⟨new₁, hstack₁, hnew₁⟩ := h₁.pushed
  obtain ⟨new₂, hstack₂, hnew₂⟩ := h₂.pushed
  have hlow := h₂.low_le
  have hpushed₁ : ∀ e ∈ new₁, Pushed g (targets ++ targets') s s₂ low₂ e := by
    intro e he
    obtain ⟨hnumber, ⟨t, ht, hr⟩, hreaches, hedges⟩ := hnew₁ e he
    exact ⟨hnumber, ⟨t, List.mem_append_left _ ht, hr⟩, hreaches,
      fun b hb => (hedges b hb).mono h₂ hlow⟩
  have hpushed₂ : ∀ e ∈ new₂, Pushed g (targets ++ targets') s s₂ low₂ e := by
    intro e he
    obtain ⟨hnumber, ⟨t, ht, hr⟩, ⟨e', he', hr'⟩, hedges⟩ := hnew₂ e he
    refine ⟨h₁.next_le.trans hnumber, ⟨t, List.mem_append_right _ ht, hr⟩, ?_, hedges⟩
    -- what was on the stack in between reaches what was on the stack before
    rw [hstack₁] at he'
    rcases List.mem_append.1 he' with he' | he'
    · obtain ⟨e'', he'', hr''⟩ := (hnew₁ e' he').reaches
      exact ⟨e'', he'', hr'.trans hr''⟩
    · exact ⟨e', he', hr'⟩
  refine ⟨h₂.toSound, ⟨new₂ ++ new₁, by rw [hstack₂, hstack₁, List.append_assoc], ?_⟩,
    h₁.found.trans h₂.found, h₁.next_le.trans h₂.next_le, hlow.trans h₁.low_le, ?_, ?_⟩
  · exact List.forall_mem_append.2 ⟨hpushed₂, hpushed₁⟩
  · rcases h₂.low_eq with heq | ⟨b, hb, t, ht, hr⟩
    · rw [heq]
      rcases h₁.low_eq with heq' | ⟨b, hb, t, ht, hr⟩
      · exact .inl heq'
      · exact .inr ⟨b, h₂.mem_stack hb, t, List.mem_append_left _ ht, hr⟩
    · exact .inr ⟨b, hb, t, List.mem_append_right _ ht, hr⟩
  · exact List.forall_mem_append.2 ⟨fun t ht => (h₁.above t ht).mono h₂ hlow, h₂.above⟩

/-- Looking at a block that was met before. -/
theorem Sound.followed_look (hs : Sound g path finished s) (hb : b ∈ path ∨ b ∈ finished)
    (low : Nat) :
    Followed g path finished [b] s low s (((s.stack.lookup b).map (min low)).getD low) := by
  have hmem := List.mem_append.1 ((hs.mem_iff b).2 hb)
  obtain ⟨low₁, hlow₁, hle, heq, habove⟩ : ∃ low₁,
      ((s.stack.lookup b).map (min low)).getD low = low₁ ∧ low₁ ≤ low ∧
        (low₁ = low ∨ (b, low₁) ∈ s.stack) ∧ s.Above low₁ b := by
    cases hlook : s.stack.lookup b with
    | none =>
      refine ⟨low, rfl, Nat.le_refl _, .inl rfl, .inl (hmem.resolve_left ?_)⟩
      intro hstack
      obtain ⟨e, he, rfl⟩ := List.mem_map.1 hstack
      simpa using List.lookup_eq_none_iff.1 hlook e he
    | some n =>
      obtain ⟨front, back, hstack, _⟩ := List.lookup_eq_some_iff.1 hlook
      have hn : (b, n) ∈ s.stack := by simp [hstack]
      refine ⟨min low n, rfl, Nat.min_le_left _ _, ?_, .inr ⟨n, hn, Nat.min_le_right _ _⟩⟩
      rcases Nat.le_total low n with h | h
      · exact .inl (Nat.min_eq_left h)
      · exact .inr (by rwa [Nat.min_eq_right h])
  rw [hlow₁]
  refine ⟨hs, ⟨[], rfl, by simp⟩, List.suffix_refl _, Nat.le_refl _, hle,
    heq.imp_right fun hstack => ⟨b, hstack, b, List.mem_singleton_self b, .refl⟩, ?_⟩
  exact List.forall_mem_singleton.2 habove

/-- Meeting a new block. -/
theorem Sound.meet (hs : Sound g path finished s) (hp : b ∉ path) (hf : b ∉ finished) :
    Sound g (b :: path) finished (s.meet b) := by
  have hnew : b ∉ s.stack.map Prod.fst ++ s.found.flatten := by
    rw [hs.mem_iff]
    exact not_or.2 ⟨hp, hf⟩
  refine ⟨List.nodup_cons.2 ⟨hnew, hs.nodup⟩, fun c => ?_, ?_, hs.settled⟩
  · simp only [ComponentSearch.meet, List.map_cons, List.cons_append, List.mem_cons, hs.mem_iff,
      or_assoc]
  · intro e he
    rcases List.mem_cons.1 he with rfl | he
    · exact Nat.lt_succ_self _
    · exact Nat.lt_succ_of_lt (hs.lt_next e he)

/-- The blocks that were met: those from `b` upwards, those that have a component, and the others. -/
theorem perm_of_stack {n : Nat} {old : List (BlockId × Nat)} (hstack : s.stack = new ++ (b, n) :: old) :
    (s.stack.map Prod.fst ++ s.found.flatten).Perm
      (((b :: new.map Prod.fst) ++ s.found.flatten) ++ old.map Prod.fst) := by
  rw [hstack, List.map_append, List.map_cons, List.append_assoc, List.append_assoc]
  exact List.perm_middle.trans ((List.Perm.append_left _ List.perm_append_comm).cons b)

/-- Closing takes the block and what is above it off the stack. -/
theorem close_eq {n : Nat} {old : List (BlockId × Nat)} (hstack : s.stack = new ++ (b, n) :: old)
    (hb : b ∉ new.map Prod.fst) :
    s.close b = { s with
      stack := old
      found := Ident.sort (b :: new.map Prod.fst) :: s.found } := by
  have habove : s.stack.takeWhile (fun e => decide (e.1 ≠ b)) = new := by
    rw [hstack, List.takeWhile_append_of_pos]
    · simp
    · intro e he
      exact decide_eq_true fun heq => hb (List.mem_map.2 ⟨e, he, heq⟩)
  have hbelow : s.stack.drop (new.length + 1) = old := by
    simp [hstack]
  simp only [close, habove, hbelow]

section Explored

variable {successors explored : List BlockId} (hsucc : g.succs.get? b = some successors)
  (h : Followed g (b :: path) explored successors (s.meet b) s.next s₁ low₁)

include hsucc h

/-- The edges of the block that was explored. -/
theorem Followed.above_of_edge {c : BlockId} (hc : g.Edge b c) : s₁.Above low₁ c := by
  obtain ⟨targets, htargets, hmem⟩ := hc
  cases hsucc.symm.trans htargets
  exact h.above c hmem

/-- **A block that reaches a lower number stays on the stack.** -/
theorem Followed.keep (hlow : low ≤ s.next) (hne : low₁ ≠ s.next) :
    Followed g path (b :: explored) [b] s low s₁ (min low low₁) := by
  obtain ⟨new, hstack, hnew⟩ := h.pushed
  have hstack : s₁.stack = new ++ (b, s.next) :: s.stack := hstack
  have hlt : low₁ < s.next := Nat.lt_of_le_of_ne h.low_le hne
  have hedge : ∀ {t}, t ∈ successors → g.Edge b t := fun ht => ⟨successors, hsucc, ht⟩
  -- the lower number is that of a block that was on the stack before
  obtain ⟨c, hc, hbc⟩ : ∃ c, (c, low₁) ∈ s.stack ∧ ReflTransGen g.Edge b c := by
    rcases h.low_eq with heq | ⟨c, hc, t, ht, hr⟩
    · exact absurd heq hne
    · refine ⟨c, ?_, .head (hedge ht) hr⟩
      rw [hstack, List.mem_append, List.mem_cons] at hc
      rcases hc with hc | hc | hc
      · have hnumber : s.next + 1 ≤ low₁ := (hnew _ hc).number
        omega
      · cases hc
        omega
      · exact hc
  have hmono : ∀ {x}, s₁.Above low₁ x → s₁.Above (min low low₁) x := by
    rintro x (hx | ⟨n, hn, hle⟩)
    · exact .inl hx
    · exact .inr ⟨n, hn, by omega⟩
  have hpushed : ∀ e ∈ new, Pushed g [b] s s₁ (min low low₁) e := by
    intro e he
    obtain ⟨hnumber, ⟨t, ht, hr⟩, ⟨e', he', hr'⟩, hedges⟩ := hnew e he
    have hnumber : s.next + 1 ≤ e.2 := hnumber
    refine ⟨by omega, ⟨b, by simp, .head (hedge ht) hr⟩, ?_, fun x hx => hmono (hedges x hx)⟩
    rcases List.mem_cons.1 he' with rfl | he'
    · exact ⟨_, hc, hr'.trans hbc⟩
    · exact ⟨e', he', hr'⟩
  have hself : Pushed g [b] s s₁ (min low low₁) (b, s.next) :=
    ⟨Nat.le_refl _, ⟨b, by simp, .refl⟩, ⟨_, hc, hbc⟩,
      fun x hx => hmono (h.above_of_edge hsucc hx)⟩
  have hnext : s.next + 1 ≤ s₁.next := h.next_le
  refine ⟨⟨h.nodup, fun x => ?_, h.lt_next, h.settled⟩, ⟨new ++ [(b, s.next)], by simp [hstack], ?_⟩,
    h.found, by omega, Nat.min_le_left _ _, ?_, ?_⟩
  · rw [h.mem_iff, List.mem_cons, List.mem_cons]
    tauto
  · exact List.forall_mem_append.2 ⟨hpushed, List.forall_mem_singleton.2 hself⟩
  · rcases Nat.le_total low low₁ with hle | hle
    · exact .inl (Nat.min_eq_left hle)
    · rw [Nat.min_eq_right hle]
      exact .inr ⟨c, h.mem_stack (List.mem_cons_of_mem _ hc), b, by simp, hbc⟩
  · refine List.forall_mem_singleton.2 (.inr ⟨s.next, ?_, by omega⟩)
    simp [hstack]

section Root

variable (hs : Sound g path finished s) (heq : low₁ = s.next)
  (hstack : s₁.stack = new ++ (b, s.next) :: s.stack)
  (hnew : ∀ e ∈ new, Pushed g successors (s.meet b) s₁ low₁ e)

include hs heq hstack hnew

/-- The edges of a block that reaches no lower number, and of those above it, do not lead below it. -/
theorem Followed.edges_of_root : ∀ a ∈ b :: new.map Prod.fst, ∀ c, g.Edge a c →
    c ∈ b :: new.map Prod.fst ∨ c ∈ s₁.found.flatten := by
  intro a ha c hac
  have habove : s₁.Above s.next c := by
    rw [← heq]
    rcases List.mem_cons.1 ha with rfl | ha
    · exact h.above_of_edge hsucc hac
    · obtain ⟨e, he, rfl⟩ := List.mem_map.1 ha
      exact (hnew e he).edges c hac
  rcases habove with hc | ⟨n, hn, hle⟩
  · exact .inr hc
  · rw [hstack, List.mem_append, List.mem_cons] at hn
    rcases hn with hn | hn | hn
    · exact .inl (List.mem_cons_of_mem _ (List.mem_map.2 ⟨_, hn, rfl⟩))
    · cases hn
      exact .inl List.mem_cons_self
    · have := hs.lt_next _ hn
      omega

/-- So they can only reach it. -/
theorem Followed.mutual_of_root (hdisjoint : ∀ a ∈ (b :: new.map Prod.fst) ++ s₁.found.flatten,
    ∀ c ∈ s.stack.map Prod.fst, a ≠ c) : ∀ a ∈ b :: new.map Prod.fst, g.Mutual b a := by
  intro a ha
  rcases List.mem_cons.1 ha with rfl | ha'
  · exact .refl g a
  · obtain ⟨e, he, rfl⟩ := List.mem_map.1 ha'
    obtain ⟨_, ⟨t, ht, hr⟩, ⟨e', he', hr'⟩, _⟩ := hnew e he
    refine ⟨.head ⟨successors, hsucc, ht⟩ hr, ?_⟩
    rcases List.mem_cons.1 he' with rfl | he'
    · exact hr'
    · have hmem := h.settled.mem_of_reaches (h.edges_of_root hsucc hs heq hstack hnew) ha hr'
      exact absurd rfl (hdisjoint e'.1 (List.mem_append.2 hmem) e'.1 (List.mem_map.2 ⟨e', he', rfl⟩))

end Root

/-- **A block that reaches no lower number closes its component**: itself and the blocks above it. -/
theorem Followed.close (hs : Sound g path finished s) (hlow : low ≤ s.next) (heq : low₁ = s.next) :
    Followed g path (b :: explored) [b] s low (s₁.close b) (min low low₁) := by
  obtain ⟨new, hstack, hnew⟩ := h.pushed
  have hstack : s₁.stack = new ++ (b, s.next) :: s.stack := hstack
  have hperm := perm_of_stack hstack
  obtain ⟨hn, _, hdisjoint⟩ := List.nodup_append.1 (hperm.nodup_iff.1 h.nodup)
  have hbnew : b ∉ new.map Prod.fst := (List.nodup_cons.1 (List.nodup_append.1 hn).1).1
  have hedges := h.edges_of_root hsucc hs heq hstack hnew
  have hcomponent := h.settled.isComponent hedges List.mem_cons_self hn
    (h.mutual_of_root hsucc hs heq hstack hnew hdisjoint)
  have hclosed : (s.stack.map Prod.fst ++
      (Ident.sort (b :: new.map Prod.fst) :: s₁.found).flatten).Perm
      (s₁.stack.map Prod.fst ++ s₁.found.flatten) := by
    rw [List.flatten_cons]
    exact (List.perm_append_comm.trans
      (((Ident.sort_perm _).append_right _).append_right _)).trans hperm.symm
  have hnext : s.next + 1 ≤ s₁.next := h.next_le
  rw [close_eq hstack hbnew, heq, Nat.min_eq_left hlow]
  refine ⟨⟨hclosed.nodup_iff.2 h.nodup, fun x => ?_, fun e he => ?_, ?_⟩, ⟨[], rfl, by simp⟩,
    h.found.trans (List.suffix_cons _ _), Nat.le_of_succ_le hnext, Nat.le_refl _, .inl rfl, ?_⟩
  · rw [hclosed.mem_iff, h.mem_iff, List.mem_cons, List.mem_cons]
    tauto
  · exact Nat.lt_of_lt_of_le (hs.lt_next e he) (Nat.le_of_succ_le hnext)
  · refine .cons hcomponent (fun a ha c hac => ?_) h.settled
    rw [Ident.mem_sort] at ha ⊢
    exact hedges a ha c hac
  · refine List.forall_mem_singleton.2 (.inl ?_)
    simp

end Explored

/-- **Following a walk.** -/
theorem follow_followed {w : Walk .block} (ht : Walk.Traces g.succs path finished targets w)
    (hs : Sound g path finished s) (hlow : low ≤ s.next) :
    Followed g path (w.finished finished) targets s low (follow w s low).1 (follow w s low).2 := by
  induction ht generalizing s low with
  | done => exact hs.followed_nil low
  | @descend path finished b successors others inner rest hp hf hsucc _ _ ihInner ihRest =>
    have hinner := ihInner (hs.meet hp hf) (Nat.le_succ s.next)
    rw [follow, Walk.finished]
    generalize follow inner (s.meet b) s.next = r at hinner
    obtain ⟨s₁, low₁⟩ := r
    have hstep : Followed g path (b :: inner.finished finished) [b] s low
        (if low₁ = s.next then s₁.close b else s₁) (min low low₁) := by
      split
      · exact hinner.close hsucc hs hlow ‹_›
      · exact hinner.keep hsucc hlow ‹_›
    exact hstep.trans (ihRest hstep.toSound (by
      have := hstep.next_le
      omega))
  | @back path finished b others rest hb _ ih =>
    have hstep := hs.followed_look (.inl hb) low
    exact hstep.trans (ih hs (hstep.low_le.trans hlow))
  | @seen path finished b others rest hb _ ih =>
    have hstep := hs.followed_look (.inr hb) low
    exact hstep.trans (ih hs (hstep.low_le.trans hlow))

end ComponentSearch

/-! ## All components -/

namespace FlowGraph

variable {g : FlowGraph} {cs : List (List BlockId)}

/-- All components of a graph.  Control leaves a component only for those that are listed before
it. -/
structure Partition (g : FlowGraph) (cs : List (List BlockId)) : Prop where
  component : ∀ c ∈ cs, g.IsComponent c
  nodup : cs.flatten.Nodup
  mem_iff : ∀ b, b ∈ cs.flatten ↔ b.index < g.size
  settled : g.Settled cs.reverse

theorem Settled.component {earlier : List (List BlockId)} (h : g.Settled earlier) :
    ∀ c ∈ earlier, g.IsComponent c := by
  induction h with
  | nil => simp
  | cons hc _ _ ih => exact List.forall_mem_cons.2 ⟨hc, ih⟩

/-- **The search finds the components of a graph.** -/
theorem components_partition (h : g.components = .ok cs) : g.Partition cs := by
  simp only [components, bind_eq_ok, pure_eq_ok] at h
  obtain ⟨w, hw, rfl⟩ := h
  have ht : Walk.Traces g.succs [] [] g.blocks w := Walk.ofRoots_traces hw
  have hsound : ComponentSearch.Sound g [] [] {} := ⟨List.nodup_nil, by simp, by simp, .nil⟩
  have hfollowed := ComponentSearch.follow_followed ht hsound (Nat.zero_le _)
  -- nothing was on the stack at first, so nothing is left there
  have hstack : (ComponentSearch.follow w {} 0).1.stack = [] := by
    obtain ⟨new, hstack, hnew⟩ := hfollowed.pushed
    rw [hstack, List.append_nil, List.eq_nil_iff_forall_not_mem]
    intro e he
    obtain ⟨_, he', _⟩ := (hnew e he).reaches
    cases he'
  generalize (ComponentSearch.follow w {} 0).1 = s at hfollowed hstack
  have hnodup := hfollowed.nodup
  have hmem := hfollowed.mem_iff
  rw [hstack] at hnodup
  simp only [hstack, List.map_nil, List.nil_append, List.not_mem_nil, false_or] at hnodup hmem
  have hperm : s.found.reverse.flatten.Perm s.found.flatten := (List.reverse_perm _).flatten
  refine ⟨fun c hc => hfollowed.settled.component c (List.mem_reverse.1 hc),
    hperm.nodup_iff.2 hnodup, fun b => ?_, by rw [List.reverse_reverse]; exact hfollowed.settled⟩
  rw [hperm.mem_iff, hmem]
  constructor
  · exact ht.lt_of_mem (fun _ h => by cases h) b
  · intro hb
    rcases ht.mem_of_target (j := b) (by simpa [blocks, size] using hb) with hp | hf
    · cases hp
    · exact hf

/-- The components of a graph are made of its blocks. -/
theorem exists_components (hs : g.Shaped) :
    ∃ cs, g.components = .ok cs ∧ ∀ c ∈ cs, ∀ b ∈ c, b.index < g.size := by
  have hroots : ∀ b ∈ g.blocks, b.index < g.succs.size := by simp [blocks]
  obtain ⟨w, hw⟩ := Walk.exists_ofRoots hs.closed hroots
  have hcs : g.components = .ok _ := bind_eq_ok.2 ⟨w, hw, rfl⟩
  refine ⟨_, hcs, fun c hc b hb => ?_⟩
  exact ((components_partition hcs).mem_iff b).1 (List.mem_flatten.2 ⟨c, hc, hb⟩)

/-! ## The order of components -/

theorem Settled.of_append {later earlier : List (List BlockId)} (h : g.Settled (later ++ earlier)) :
    g.Settled earlier := by
  induction later with
  | nil => exact h
  | cons c rest ih =>
    cases h with
    | cons _ _ hrest => exact ih hrest

namespace Partition

variable {i j : Nat} {c d : List BlockId} {a b : BlockId}

/-- A block is in one component only. -/
theorem index_unique (h : g.Partition cs) (hc : cs[i]? = some c) (hd : cs[j]? = some d) (hbc : b ∈ c)
    (hbd : b ∈ d) : i = j := by
  have hdisjoint := List.pairwise_iff_getElem.1 (List.nodup_flatten.1 h.nodup).2
  obtain ⟨hi, rfl⟩ := List.getElem?_eq_some_iff.1 hc
  obtain ⟨hj, rfl⟩ := List.getElem?_eq_some_iff.1 hd
  rcases Nat.lt_trichotomy i j with hlt | heq | hlt
  · exact absurd hbd (hdisjoint i j hi hj hlt hbc)
  · exact heq
  · exact absurd hbc (hdisjoint j i hj hi hlt hbd)

/-- **An edge stays in its component, or leads to an earlier one.** -/
theorem le_of_edge (h : g.Partition cs) (hc : cs[i]? = some c) (hd : cs[j]? = some d) (ha : a ∈ c)
    (hb : b ∈ d) (hab : g.Edge a b) : j ≤ i := by
  obtain ⟨hi, rfl⟩ := List.getElem?_eq_some_iff.1 hc
  have hsettled := h.settled
  rw [← List.take_append_drop i cs, List.drop_eq_getElem_cons hi, List.reverse_append,
    List.reverse_cons, List.append_assoc, List.singleton_append] at hsettled
  -- what was closed before the component is what is listed before it
  cases hsettled.of_append with
  | cons _ hedges _ =>
    rcases hedges a ha b hab with hmem | hmem
    · exact Nat.le_of_eq (h.index_unique hd hc hb hmem)
    · obtain ⟨e, he, hmem⟩ := List.mem_flatten.1 hmem
      obtain ⟨k, hk⟩ := List.mem_iff_getElem?.1 (List.mem_reverse.1 he)
      rw [List.getElem?_take] at hk
      split at hk
      · rename_i hlt
        rw [h.index_unique hd hk hb hmem]
        exact Nat.le_of_lt hlt
      · cases hk

end Partition

/-- **The components of a graph.**  The search lists every block exactly once, whether control gets to
it or not.  Two blocks are listed together if and only if control can go from each to the other, and
an edge from one component to another leads to one that is listed before. -/
theorem components_decompose {f : Func} (hf : FlowGraph.ofFunc f = .ok g) :
    ∃ cs, g.components = .ok cs ∧
      (∀ c ∈ cs, c ≠ [] ∧ c.Pairwise fun a b => a.index < b.index) ∧
      cs.flatten.Perm g.blocks ∧
      (∀ a b, a.index < g.size → ((∃ c ∈ cs, a ∈ c ∧ b ∈ c) ↔ g.Mutual a b)) ∧
      ∀ (i j : Nat) (c d : List BlockId) (a b : BlockId), cs[i]? = some c → cs[j]? = some d →
        a ∈ c → b ∈ d → g.Edge a b → i ≠ j → j < i := by
  obtain ⟨cs, hcs, _⟩ := exists_components (ofFunc_describes hf).toShaped
  have hp := components_partition hcs
  refine ⟨cs, hcs, fun c hc => ⟨(hp.component c hc).nonempty, (hp.component c hc).ascending⟩,
    ?_, fun a b ha => ?_, ?_⟩
  · refine (List.perm_ext_iff_of_nodup hp.nodup (Ident.nodup_firsts _)).2 fun b => ?_
    rw [hp.mem_iff]
    exact Table.mem_idents.symm
  · constructor
    · rintro ⟨c, hc, hac, hbc⟩
      exact ((hp.component c hc).mem_iff hac).1 hbc
    · intro hab
      obtain ⟨c, hc, hac⟩ := List.mem_flatten.1 ((hp.mem_iff a).2 ha)
      exact ⟨c, hc, hac, ((hp.component c hc).mem_iff hac).2 hab⟩
  · intro i j c d a b hc hd ha hb hab hne
    exact Nat.lt_of_le_of_ne (hp.le_of_edge hc hd ha hb hab) (Ne.symm hne)

/-- Two blocks that lead to each other, with a way out of each, and behind them a block that leads to
itself; and two blocks that control never gets to, with a way into the others. -/
def islands : Func where
  name := "islands"
  params := []
  valueCount := 0
  blocks := [
    { id := ⟨0⟩, instrs := [], terminator := .condBr (.const .null) ⟨2⟩ ⟨1⟩ },
    { id := ⟨1⟩, instrs := [], terminator := .condBr (.const .null) ⟨0⟩ ⟨2⟩ },
    { id := ⟨2⟩, instrs := [], terminator := .condBr (.const .null) ⟨2⟩ ⟨2⟩ },
    { id := ⟨3⟩, instrs := [], terminator := .condBr (.const .null) ⟨4⟩ ⟨1⟩ },
    { id := ⟨4⟩, instrs := [], terminator := .br ⟨3⟩ }]

theorem islands_components : ∃ g cs, FlowGraph.ofFunc islands = .ok g ∧ g.components = .ok cs ∧
    cs.length = 3 ∧ cs.flatten.Perm g.blocks ∧
    ((∃ c ∈ cs, ⟨3⟩ ∈ c ∧ ⟨4⟩ ∈ c) ↔ g.Mutual ⟨3⟩ ⟨4⟩) := by
  have hrun : ((FlowGraph.ofFunc islands).bind fun g => (g.components : Attempt _).map fun cs =>
      (g.size, cs.length)) = .ok (5, 3) := by decide +kernel
  cases hg : FlowGraph.ofFunc islands with
  | error e => rw [hg] at hrun; cases hrun
  | ok g =>
    obtain ⟨cs, hcs, _, hperm, hmutual, _⟩ := components_decompose hg
    rw [hg] at hrun
    simp only [Except.bind, hcs, liftM_ok] at hrun
    obtain ⟨hsize, hlength⟩ := Prod.mk.inj (Except.ok.inj hrun)
    exact ⟨g, cs, rfl, hcs, hlength, hperm, hmutual _ _ (by rw [hsize]; decide)⟩

end FlowGraph

end FlowTree
