import FlowTree.Proofs.SequencedCopies
import Mathlib.Data.List.Cycle
import Mathlib.Data.Set.Card
import Mathlib.Dynamics.PeriodicPts.Lemmas

/-!
# Cycles of moves

A copy in sequence has as many moves as the copy has that do anything, and one more for each cycle:
locations of which each gets what the next one holds, the last one what the first one holds.

The moves that are pending change as they are put in sequence: moves are taken off, and sources are
replaced by the spare location.  What carries the count is how their cycles change.  A free move is
on no cycle, since nothing reads its destination.  Where no move is free, every destination is on a
cycle, and only on one, because it has one source; parking it opens this cycle and no other.

## Main statements

* `ParallelCopy.eq_of_mem_cycles` — a location is on one cycle at most.
* `ParallelCopy.exists_cycle_of_stuck` — where no move is free, every destination is on a cycle.
* `ParallelCopy.cycles_of_free`, `ParallelCopy.cycles_of_stuck` — what the two kinds of rounds do to
  the cycles.
* `ParallelCopy.inSequence_length` — which moves a copy in sequence has, and how many.
-/

namespace FlowTree.ParallelCopy

variable {α : Type} {moves moves' : List (Move α)} {s s' : Cycle α} {a b b' : α}

/-- Some move puts what `b` holds into `a`. -/
def Reads (moves : List (Move α)) (a b : α) : Prop := ⟨a, .loc b⟩ ∈ moves

/-- The cycles of the moves: two locations or more, each of which gets what the next one holds, all
around. -/
def cycles (moves : List (Move α)) : Set (Cycle α) :=
  {s | s.Nodup ∧ 2 ≤ s.length ∧ s.Chain (Reads moves)}

/-! ## One cycle -/

/-- A cycle can be told from any of its locations on. -/
theorem exists_cons_of_mem (ha : a ∈ s) : ∃ l : List α, s = (a :: l : List α) := by
  induction s using Quotient.inductionOn' with
  | h l =>
    obtain ⟨before, after, rfl⟩ := List.append_of_mem (Cycle.mem_coe_iff.1 ha)
    exact ⟨after ++ before, Cycle.coe_eq_coe.2 List.isRotated_append⟩

theorem cons_mem_cycles {l : List α} : ((a :: l : List α) : Cycle α) ∈ cycles moves ↔
    (a :: l).Nodup ∧ l ≠ [] ∧ (a :: (l ++ [a])).IsChain (Reads moves) := by
  have hlength : 2 ≤ (a :: l).length ↔ l ≠ [] := by
    rw [List.length_cons, ← List.length_pos_iff]
    omega
  simp only [cycles, Set.mem_ofPred_eq, Cycle.nodup_coe_iff, Cycle.length_coe, hlength,
    Cycle.chain_coe_cons]

/-- A location on a cycle gets what another one on it holds. -/
theorem exists_reads_of_mem (hs : s ∈ cycles moves) (ha : a ∈ s) :
    ∃ b ∈ s, b ≠ a ∧ Reads moves a b := by
  obtain ⟨l, rfl⟩ := exists_cons_of_mem ha
  obtain ⟨hn, hne, hchain⟩ := cons_mem_cycles.1 hs
  obtain ⟨b, l, rfl⟩ := List.exists_cons_of_ne_nil hne
  have hab : b ≠ a := by
    rintro rfl
    simp at hn
  exact ⟨b, by simp, hab, (List.isChain_cons_cons.1 hchain).1⟩

/-- Cycles go through destinations only. -/
theorem mem_dst_of_mem (hs : s ∈ cycles moves) (ha : a ∈ s) : a ∈ moves.map Move.dst := by
  obtain ⟨_, _, _, hreads⟩ := exists_reads_of_mem hs ha
  exact List.mem_map_of_mem hreads

/-- What a location on a cycle holds goes to another one on it. -/
theorem exists_reader_of_mem (hs : s ∈ cycles moves) (ha : a ∈ s) : ∃ b ∈ s, Reads moves b a := by
  obtain ⟨l, rfl⟩ := exists_cons_of_mem ha
  obtain ⟨_, hne, hchain⟩ := cons_mem_cycles.1 hs
  rw [← List.cons_append] at hchain
  have hlast := hchain.rel_getLast_head_of_append (by simp) (by simp)
  exact ⟨(a :: l).getLast (by simp), Cycle.mem_coe_iff.2 (List.getLast_mem _), hlast⟩

/-- A cycle is one of other moves too if they move alike on it. -/
theorem mem_cycles_of_reads (hs : s ∈ cycles moves)
    (h : ∀ a ∈ s, ∀ b ∈ s, Reads moves a b → Reads moves' a b) : s ∈ cycles moves' := by
  obtain ⟨hn, hlength, hchain⟩ := hs
  refine ⟨hn, hlength, ?_⟩
  induction s with
  | nil => trivial
  | cons c l =>
    have hmem : ∀ a, a ∈ c :: (l ++ [c]) → a ∈ ((c :: l : List α) : Cycle α) := by
      intro a ha
      simpa [or_comm, or_assoc] using ha
    rw [Cycle.chain_coe_cons] at hchain ⊢
    exact hchain.imp_of_mem_imp fun a b ha hb hab => h a (hmem a ha) b (hmem b hb) hab

theorem cycles_nil : cycles ([] : List (Move α)) = ∅ := by
  refine Set.eq_empty_of_forall_notMem fun s hs => ?_
  induction s with
  | nil => cases hs.2.1
  | cons a l => cases mem_dst_of_mem hs (Cycle.mem_coe_iff.2 List.mem_cons_self)

/-! ## Cycles of distinct destinations -/

/-- A destination has one source. -/
theorem Reads.unique (hn : (moves.map Move.dst).Nodup) (hb : Reads moves a b)
    (hb' : Reads moves a b') : b = b' := by
  have heq := List.inj_on_of_nodup_map hn hb hb' rfl
  exact Source.loc.inj (Move.mk.inj heq).2

/-- Two ways from one location back to `a` are the same. -/
theorem eq_of_isChain_reads (hn : (moves.map Move.dst).Nodup) {c : α} {l l' : List α} (ha : a ∉ l)
    (ha' : a ∉ l') (hl : (c :: (l ++ [a])).IsChain (Reads moves))
    (hl' : (c :: (l' ++ [a])).IsChain (Reads moves)) : l = l' := by
  induction l generalizing c l' with
  | nil =>
    cases l' with
    | nil => rfl
    | cons b' l' =>
      have hb := Reads.unique hn (List.isChain_cons_cons.1 hl).1 (List.isChain_cons_cons.1 hl').1
      exact absurd (by simp [hb]) ha'
  | cons b l ih =>
    obtain ⟨hcb, hl⟩ := List.isChain_cons_cons.1 hl
    cases l' with
    | nil =>
      have hb := Reads.unique hn (List.isChain_cons_cons.1 hl').1 hcb
      exact absurd (by simp [hb]) ha
    | cons b' l' =>
      obtain ⟨hcb', hl'⟩ := List.isChain_cons_cons.1 hl'
      obtain rfl := Reads.unique hn hcb hcb'
      rw [List.mem_cons, not_or] at ha ha'
      rw [ih ha.2 ha'.2 hl hl']

/-- **A location is on one cycle at most.** -/
theorem eq_of_mem_cycles (hn : (moves.map Move.dst).Nodup) (hs : s ∈ cycles moves)
    (hs' : s' ∈ cycles moves) (ha : a ∈ s) (ha' : a ∈ s') : s = s' := by
  obtain ⟨l, rfl⟩ := exists_cons_of_mem ha
  obtain ⟨l', rfl⟩ := exists_cons_of_mem ha'
  obtain ⟨hnodup, _, hchain⟩ := cons_mem_cycles.1 hs
  obtain ⟨hnodup', _, hchain'⟩ := cons_mem_cycles.1 hs'
  rw [eq_of_isChain_reads hn (List.nodup_cons.1 hnodup).1 (List.nodup_cons.1 hnodup').1 hchain
    hchain']

section Pending

variable [DecidableEq α] {pending others : List (Move α)} {m first : Move α} {spare : α}
  {rounds : Nat} {c : ParallelCopy α}

/-- Moves of a location into itself are on no cycle. -/
theorem cycles_filter (hn : (moves.map Move.dst).Nodup) :
    cycles (moves.filter fun m => !m.isTrivial) = cycles moves := by
  refine Set.Subset.antisymm (fun s hs => ?_) fun s hs => ?_
  · exact mem_cycles_of_reads hs fun a _ b _ hab => (List.mem_filter.1 hab).1
  · refine mem_cycles_of_reads hs fun a ha b _ hab => List.mem_filter.2 ⟨hab, ?_⟩
    obtain ⟨next, _, hne, hnext⟩ := exists_reads_of_mem hs ha
    rw [Reads.unique hn hab hnext]
    simpa [Move.isTrivial] using hne

/-- Where no move is free, every destination gets what some destination holds. -/
theorem exists_reads_of_stuck (hn : (pending.map Move.dst).Nodup)
    (h : pending.find? (isFree pending) = none) (ha : a ∈ pending.map Move.dst) :
    ∃ b ∈ pending.map Move.dst, Reads pending a b := by
  obtain ⟨⟨dst, src⟩, hm, rfl⟩ := List.mem_map.1 ha
  have hsrc := (perm_sources_of_stuck hn h).mem_iff.2 (List.mem_map_of_mem hm)
  obtain ⟨b, hb, rfl⟩ := List.mem_map.1 hsrc
  exact ⟨b, hb, hm⟩

/-- Where no move is free, no location is read twice. -/
theorem Reads.unique_of_stuck (hn : (pending.map Move.dst).Nodup)
    (h : pending.find? (isFree pending) = none) {a' : α} (ha : Reads pending a b)
    (ha' : Reads pending a' b) : a = a' := by
  have hsrcs : (pending.map Move.src).Nodup :=
    (perm_sources_of_stuck hn h).nodup_iff.1 (hn.map fun _ _ => Source.loc.inj)
  exact (Move.mk.inj (List.inj_on_of_nodup_map hsrcs ha ha' rfl)).1

/-- **Where no move is free, every destination is on a cycle.**  Going from destination to source
stays among finitely many locations and never merges two ways, so it comes back. -/
theorem exists_cycle_of_stuck (hn : (pending.map Move.dst).Nodup)
    (hmoves : ∀ m ∈ pending, m.isTrivial = false) (h : pending.find? (isFree pending) = none)
    (ha : a ∈ pending.map Move.dst) : ∃ s ∈ cycles pending, a ∈ s := by
  have : Nonempty α := ⟨a⟩
  choose! next hmem hnext using fun a => exists_reads_of_stuck hn h (a := a)
  let D : Set α := {a | a ∈ pending.map Move.dst}
  have hmaps : Set.MapsTo next D D := fun b hb => hmem b hb
  have hinj : Function.Injective (hmaps.restrict next D D) := by
    intro b b' heq
    have heq : next b = next b' := congrArg Subtype.val heq
    exact Subtype.ext (Reads.unique_of_stuck hn h (hnext b b.2) (heq ▸ hnext b' b'.2))
  have : Finite D := List.finite_toSet _
  have hperiodic : a ∈ Function.periodicPts next := by
    have hsemi : Function.Semiconj Subtype.val (hmaps.restrict next D D) next := fun _ => rfl
    exact hsemi.mapsTo_periodicPts (hinj.mem_periodicPts ⟨a, ha⟩)
  have hread : ∀ n, Reads pending (next^[n] a) (next^[n + 1] a) := by
    intro n
    rw [Function.iterate_succ_apply']
    exact hnext _ (hmaps.iterate n ha)
  refine ⟨Function.periodicOrbit next a, ⟨Function.nodup_periodicOrbit, ?_,
    (Function.periodicOrbit_chain' _ hperiodic).2 hread⟩, Function.self_mem_periodicOrbit hperiodic⟩
  have hpos := Function.minimalPeriod_pos_of_mem_periodicPts hperiodic
  have hne : Function.minimalPeriod next a ≠ 1 := by
    intro hone
    have hfixed : next a = a := Function.minimalPeriod_eq_one_iff_isFixedPt.1 hone
    have htrivial := hmoves _ (hnext a ha)
    simp [Move.isTrivial, hfixed] at htrivial
  rw [Function.periodicOrbit_length]
  omega

/-! ## Rounds -/

/-- **A free move is on no cycle.** -/
theorem cycles_of_free (h : pending.find? (isFree pending) = some m) :
    cycles (pending.eraseP (isFree pending)) = cycles pending := by
  have hperm := perm_of_find?_isFree h
  refine Set.Subset.antisymm (fun s hs => ?_) fun s hs => ?_
  · exact mem_cycles_of_reads hs fun a _ b _ hab => hperm.mem_iff.1 (List.mem_cons_of_mem m hab)
  · refine mem_cycles_of_reads hs fun a ha b _ hab => ?_
    refine (List.mem_cons.1 (hperm.mem_iff.2 hab)).resolve_left ?_
    rintro rfl
    obtain ⟨reader, _, hreader⟩ := exists_reader_of_mem hs ha
    exact isFree_iff.1 (List.find?_some h) _ hreader rfl

/-- After a location was parked, it is the spare one that is read in its place. -/
theorem reads_park {parked : α} (hb : b ≠ spare) :
    Reads (pending.map (park parked spare)) a b ↔ Reads pending a b ∧ b ≠ parked := by
  constructor
  · intro h
    obtain ⟨m, hm, heq⟩ := List.mem_map.1 h
    unfold park at heq
    split at heq
    · exact absurd (Source.loc.inj (Move.mk.inj heq).2).symm hb
    · rename_i hsrc
      subst heq
      exact ⟨hm, fun he => hsrc (he ▸ rfl)⟩
  · rintro ⟨h, hne⟩
    have hsrc : Source.loc b ≠ .loc parked := fun he => hne (Source.loc.inj he)
    exact List.mem_map.2 ⟨_, h, if_neg hsrc⟩

/-- Parking a destination opens the cycles through it and leaves the others. -/
theorem cycles_park {parked : α} (hspare : spare ∉ pending.map Move.dst) :
    cycles (pending.map (park parked spare)) = {s ∈ cycles pending | parked ∉ s} := by
  have hne : ∀ b ∈ pending.map Move.dst, b ≠ spare := fun b hb he => hspare (he ▸ hb)
  ext s
  constructor
  · intro hs
    -- no cycle goes through the spare location, since it is no destination
    have hreads : ∀ a, ∀ b ∈ s, Reads (pending.map (park parked spare)) a b →
        Reads pending a b ∧ b ≠ parked := by
      intro a b hb
      have hdst := mem_dst_of_mem hs hb
      rw [map_dst_park] at hdst
      exact (reads_park (hne b hdst)).1
    refine ⟨mem_cycles_of_reads hs fun a _ b hb hab => (hreads a b hb hab).1, fun hparked => ?_⟩
    obtain ⟨reader, _, hreader⟩ := exists_reader_of_mem hs hparked
    exact (hreads reader parked hparked hreader).2 rfl
  · rintro ⟨hs, hparked⟩
    refine mem_cycles_of_reads hs fun a _ b hb hab => ?_
    exact (reads_park (hne b (mem_dst_of_mem hs hb))).2 ⟨hab, fun he => hparked (he ▸ hb)⟩

/-- **Parking a location opens one cycle.** -/
theorem cycles_of_stuck (hn : ((first :: others).map Move.dst).Nodup)
    (hspare : spare ∉ (first :: others).map Move.dst)
    (hmoves : ∀ m ∈ first :: others, m.isTrivial = false)
    (h : (first :: others).find? (isFree (first :: others)) = none) :
    (cycles (first :: others)).encard =
      (cycles ((first :: others).map (park first.dst spare))).encard + 1 := by
  obtain ⟨s, hs, hfirst⟩ := exists_cycle_of_stuck hn hmoves h (List.mem_map_of_mem List.mem_cons_self)
  have hinsert : cycles (first :: others) =
      insert s (cycles ((first :: others).map (park first.dst spare))) := by
    rw [cycles_park hspare]
    ext s'
    constructor
    · intro hs'
      by_cases hmem : first.dst ∈ s'
      · exact .inl (eq_of_mem_cycles hn hs' hs hmem hfirst)
      · exact .inr ⟨hs', hmem⟩
    · rintro (rfl | hs')
      · exact hs
      · exact hs'.1
  rw [hinsert, Set.encard_insert_of_notMem]
  rw [cycles_park hspare]
  exact fun hs' => hs'.2 hfirst

/-! ## Moves in sequence -/

/-- Apart from the spare location, the moves in sequence go where the pending ones do. -/
theorem dst_sequence (hn : (pending.map Move.dst).Nodup) (hspare : spare ∉ pending.map Move.dst)
    (h : sequence spare rounds pending = .ok moves) :
    ((moves.map Move.dst).filter (· ≠ spare)).Perm (pending.map Move.dst) := by
  refine sequence_induction
    (P := fun pending moves => ((moves.map Move.dst).filter (· ≠ spare)).Perm (pending.map Move.dst))
    hn hspare h (.refl _) ?_ ?_
  · intro pending m rest _ hspare hfind ih
    have hm : m.dst ≠ spare := fun heq =>
      hspare (heq ▸ List.mem_map_of_mem (List.mem_of_find?_eq_some hfind))
    have hperm := (perm_of_find?_isFree hfind).map Move.dst
    simp only [List.map_cons] at hperm ⊢
    rw [List.filter_cons_of_pos (by simpa using hm)]
    exact (ih.cons m.dst).trans hperm
  · intro first others rest _ _ _ ih
    rw [map_dst_park] at ih
    simpa using ih

/-- Parking leaves no move of a location into itself. -/
theorem isTrivial_park {parked : α} (hspare : spare ∉ pending.map Move.dst)
    (hmoves : ∀ m ∈ pending, m.isTrivial = false) :
    ∀ m ∈ pending.map (park parked spare), m.isTrivial = false := by
  intro m' hm'
  obtain ⟨m, hm, rfl⟩ := List.mem_map.1 hm'
  have hne : spare ≠ m.dst := fun heq => hspare (heq ▸ List.mem_map_of_mem hm)
  unfold park
  split
  · simpa [Move.isTrivial] using hne
  · exact hmoves m hm

/-- No move in sequence puts a location into itself, if no pending one does. -/
theorem isTrivial_sequence (hn : (pending.map Move.dst).Nodup)
    (hspare : spare ∉ pending.map Move.dst) (h : sequence spare rounds pending = .ok moves)
    (hmoves : ∀ m ∈ pending, m.isTrivial = false) : ∀ m ∈ moves, m.isTrivial = false := by
  revert hmoves
  refine sequence_induction (P := fun pending moves => (∀ m ∈ pending, m.isTrivial = false) →
    ∀ m ∈ moves, m.isTrivial = false) hn hspare h (fun h => h) ?_ ?_
  · intro pending m rest _ _ hfind ih hmoves
    refine List.forall_mem_cons.2 ⟨hmoves m (List.mem_of_find?_eq_some hfind), ih fun m hm => ?_⟩
    exact hmoves m (List.mem_of_mem_eraseP hm)
  · intro first others rest _ hspare _ ih hmoves
    refine List.forall_mem_cons.2 ⟨?_, ih (isTrivial_park hspare hmoves)⟩
    have hne : first.dst ≠ spare := fun heq => hspare (by simp [heq])
    simpa [Move.isTrivial] using hne

/-- **The moves in sequence are as many as the pending ones and their cycles.**  A free move is one of
the pending ones and leaves the cycles alone; a parked location is one more, and opens a cycle. -/
theorem length_sequence (hn : (pending.map Move.dst).Nodup) (hspare : spare ∉ pending.map Move.dst)
    (h : sequence spare rounds pending = .ok moves) (hmoves : ∀ m ∈ pending, m.isTrivial = false) :
    (moves.length : ℕ∞) = pending.length + (cycles pending).encard := by
  revert hmoves
  refine sequence_induction (P := fun pending moves => (∀ m ∈ pending, m.isTrivial = false) →
    (moves.length : ℕ∞) = pending.length + (cycles pending).encard) hn hspare h ?_ ?_ ?_
  · simp [cycles_nil]
  · intro pending m rest _ _ hfind ih hmoves
    have hrest := ih fun m hm => hmoves m (List.mem_of_mem_eraseP hm)
    rw [cycles_of_free hfind] at hrest
    rw [List.length_cons, Nat.cast_succ, hrest, ← (perm_of_find?_isFree hfind).length_eq,
      List.length_cons, Nat.cast_succ, add_right_comm]
  · intro first others rest hn hspare hfind ih hmoves
    have hrest := ih (isTrivial_park hspare hmoves)
    rw [List.length_map] at hrest
    rw [List.length_cons, Nat.cast_succ, hrest, cycles_of_stuck hn hspare hmoves hfind, add_assoc]

/-- **A copy can be put in sequence, and costs one more move for each cycle.**  It is enough that no
move goes to the spare location.  If no two moves go to one location, then each location that a move
changes is written once, nothing else is written but the spare location, no move puts a location into
itself, and there are as many moves as the copy has that do anything, and one more for each of its
cycles through at least two locations.  The spare location may be read by the copy. -/
theorem inSequence_length (hspare : spare ∉ c.defs) :
    ∃ moves, c.inSequence spare = .ok moves ∧
      (c.defs.Nodup →
        (∀ m ∈ c.moves, m.isTrivial = false → (moves.map Move.dst).count m.dst = 1) ∧
        (∀ m ∈ moves, m.dst = spare ∨ ∃ m' ∈ c.moves, m'.isTrivial = false ∧ m'.dst = m.dst) ∧
        (∀ m ∈ moves, m.isTrivial = false) ∧
        (moves.length : ℕ∞) =
          (c.moves.filter fun m => !m.isTrivial).length + (cycles c.moves).encard) := by
  have hsub : (c.moves.filter fun m => !m.isTrivial).map Move.dst |>.Sublist c.defs :=
    List.filter_sublist.map Move.dst
  have hspare' := mt (fun hmem => hsub.subset hmem) hspare
  obtain ⟨moves, hmoves⟩ := exists_sequence hspare' (.inl (Nat.le_refl _))
  refine ⟨moves, hmoves, fun hn => ?_⟩
  have hn' := hn.sublist hsub
  have hactive : ∀ m ∈ c.moves.filter fun m => !m.isTrivial, m.isTrivial = false := by
    simp
  have hdst := dst_sequence hn' hspare' hmoves
  refine ⟨fun m hm htrivial => ?_, fun m hm => ?_, isTrivial_sequence hn' hspare' hmoves hactive, ?_⟩
  · have hmem : m.dst ∈ (c.moves.filter fun m => !m.isTrivial).map Move.dst :=
      List.mem_map_of_mem (List.mem_filter.2 ⟨hm, by simp [htrivial]⟩)
    have hne : m.dst ≠ spare := fun heq => hspare' (heq ▸ hmem)
    have hcount := List.count_filter (l := moves.map Move.dst) (p := fun a => decide (a ≠ spare))
      (by simpa using hne)
    rw [← hcount, hdst.count_eq]
    exact List.count_eq_one_of_mem hn' hmem
  · by_cases heq : m.dst = spare
    · exact .inl heq
    · have hmem := hdst.mem_iff.1 (List.mem_filter.2 ⟨List.mem_map_of_mem hm, by simpa using heq⟩)
      obtain ⟨m', hm', hdst'⟩ := List.mem_map.1 hmem
      exact .inr ⟨m', (List.mem_filter.1 hm').1, hactive m' hm', hdst'⟩
  · rw [length_sequence hn' hspare' hmoves hactive, cycles_filter hn]

end Pending

/-- A cycle with a location that is written twice. -/
def writesTwice : ParallelCopy ValueId where
  moves := [⟨⟨0⟩, .loc ⟨1⟩⟩, ⟨⟨1⟩, .loc ⟨0⟩⟩, ⟨⟨0⟩, .loc ⟨1⟩⟩]

theorem twoCycles_length : ⟨9⟩ ∉ twoCycles.defs ∧ twoCycles.defs.Nodup ∧
    (∃ moves, twoCycles.inSequence ⟨9⟩ = .ok moves ∧ moves.length = 11 ∧
      (cycles twoCycles.moves).encard = 2) ∧
    ⟨9⟩ ∉ writesTwice.defs ∧ ∃ moves, writesTwice.inSequence ⟨9⟩ = .ok moves := by
  have hn : twoCycles.defs.Nodup := by decide
  have hspare : ⟨9⟩ ∉ twoCycles.defs := by decide
  have hspare' : ⟨9⟩ ∉ writesTwice.defs := by decide
  obtain ⟨moves, hmoves, hcost⟩ := inSequence_length hspare
  obtain ⟨moves', hmoves', _⟩ := inSequence_length hspare'
  obtain ⟨_, _, _, hlength⟩ := hcost hn
  have heleven : (twoCycles.inSequence ⟨9⟩).map List.length = .ok 11 := by decide
  rw [hmoves] at heleven
  have heleven : moves.length = 11 := Except.ok.inj heleven
  have hnine : (twoCycles.moves.filter fun m => !m.isTrivial).length = 9 := by decide
  rw [heleven, hnine] at hlength
  have htwo : (2 : ℕ∞) = (cycles twoCycles.moves).encard :=
    WithTop.add_left_cancel (ENat.natCast_ne_top 9) hlength
  exact ⟨hspare, hn, ⟨moves, hmoves, heleven, htwo.symm⟩, hspare', moves', hmoves'⟩

end FlowTree.ParallelCopy
