import FlowTree.Storage.Environment
import FlowTree.Storage.Sequence
import Mathlib.Data.List.Nodup
import Mathlib.Data.List.Perm.Subperm

/-!
# Copies in sequence

Doing the moves of a copy one at a time, in the order in which they are put in sequence, has the
effect of doing them at once.

There are two kinds of rounds.  One does a free move: nothing that is pending reads its destination,
so the others do not notice.  The other parks the destination of a pending move in the spare
location, and it takes place only when no move is free.  Then every destination is the source of
some move, and as there are no more sources than destinations, every source is a destination: only
cycles are left, and nothing that is pending reads the spare location, even if something was parked
there before.

Parking frees a move, so two rounds for each move are enough.

## Main statements

* `ParallelCopy.exists_sequence`, `ParallelCopy.sequence_induction` — the rounds do not run out, and
  induction along them.
* `ParallelCopy.perm_sources_of_stuck` — where no move is free, only cycles are left.
* `Store.Delivers.of_free`, `Store.Delivers.of_park` — what the two kinds of rounds do.
* `ParallelCopy.inSequence_eq_perform` — a copy in sequence has the effect of the copy.
-/

namespace FlowTree

/-! ## Storage -/

/-- Storage with a value in every location, and a value for every constant. -/
structure Store (σ α V : Type) where
  get : σ → α → V
  set : σ → α → V → σ
  constant : Constant → V
  get_set_self : ∀ e a v, get (set e a v) a = v
  get_set_of_ne : ∀ e {a b} v, a ≠ b → get (set e a v) b = get e b

namespace Store

variable {σ α V : Type} (S : Store σ α V) {e e' e₁ e₂ : σ} {ms : List (Move α)} {m : Move α}
  {a spare : α}

def read (e : σ) : Source α → V
  | .loc a => S.get e a
  | .const c => S.constant c

/-- Do one move. -/
def move (e : σ) (m : Move α) : σ := S.set e m.dst (S.read e m.src)

def moveAll (e : σ) (ms : List (Move α)) : σ := ms.foldl S.move e

/-- Perform a parallel copy. -/
def perform (e : σ) (c : ParallelCopy α) : σ :=
  ((c.perform (fun src => return S.read (← MonadState.get) src)
    (fun a v => modify fun e => S.set e a v) : StateM σ Unit).run e).2

/-- The moves have taken place between `e` and `e'`: their destinations hold what their sources held,
and all other locations what they held themselves, but for the spare one. -/
structure Delivers (ms : List (Move α)) (spare : α) (e e' : σ) : Prop where
  moved : ∀ m ∈ ms, S.get e' m.dst = S.read e m.src
  kept : ∀ a, a ∉ ms.map Move.dst → a ≠ spare → S.get e' a = S.get e a

theorem Delivers.refl (spare : α) (e : σ) : S.Delivers [] spare e e := ⟨by simp, fun _ _ _ => rfl⟩

/-- What the moves deliver does not depend on how they were done. -/
theorem Delivers.get_eq (h₁ : S.Delivers ms spare e e₁) (h₂ : S.Delivers ms spare e e₂)
    (ha : a ≠ spare) : S.get e₁ a = S.get e₂ a := by
  by_cases hmem : a ∈ ms.map Move.dst
  · obtain ⟨m, hm, rfl⟩ := List.mem_map.1 hmem
    rw [h₁.moved m hm, h₂.moved m hm]
  · rw [h₁.kept a hmem ha, h₂.kept a hmem ha]

/-- The order of the moves does not matter. -/
theorem Delivers.perm {ms' : List (Move α)} (h : S.Delivers ms spare e e') (hp : ms.Perm ms') :
    S.Delivers ms' spare e e' where
  moved m hm := h.moved m (hp.mem_iff.2 hm)
  kept a ha := h.kept a (mt (hp.map Move.dst).mem_iff.1 ha)

/-! ## Moves at once -/

/-- **A copy writes what its sources held at the start**, one destination after the other. -/
theorem perform_eq (e : σ) (c : ParallelCopy α) :
    S.perform e c = c.moves.foldl (fun e' m => S.set e' m.dst (S.read e m.src)) e := by
  have reads : ∀ ms : List (Move α), (ms.mapM fun m =>
      (return S.read (← MonadState.get) m.src : StateM σ V)).run e =
        (ms.map fun m => S.read e m.src, e) := by
    intro ms
    induction ms with
    | nil => rfl
    | cons m rest ih =>
      rw [List.mapM_cons, StateT.run_bind, StateT.run_bind]
      exact congrArg (fun r : List V × σ => (S.read e m.src :: r.1, r.2)) ih
  have writes : ∀ (ms : List (Move α)) (e' : σ), (((ms.zip (ms.map fun m => S.read e m.src)).forM
      fun w : Move α × V => (modify fun e' => S.set e' w.1.dst w.2 : StateM σ Unit)).run e').2 =
        ms.foldl (fun e' m => S.set e' m.dst (S.read e m.src)) e' := by
    intro ms
    induction ms with
    | nil => intro e'; rfl
    | cons m rest ih => intro e'; exact ih (S.set e' m.dst (S.read e m.src))
  rw [← writes c.moves e]
  simp only [perform, ParallelCopy.perform, StateT.run_bind, reads]
  rfl

theorem perform_delivers {c : ParallelCopy α} (hn : c.defs.Nodup) (spare : α) (e : σ) :
    S.Delivers c.moves spare e (S.perform e c) := by
  rw [perform_eq]
  obtain ⟨ms⟩ := c
  -- what is read comes from the storage at the start, whatever has been written since
  have key : ∀ (ms : List (Move α)) (e' : σ), (ms.map Move.dst).Nodup →
      (∀ m ∈ ms, S.get (ms.foldl (fun e' m => S.set e' m.dst (S.read e m.src)) e') m.dst =
        S.read e m.src) ∧
      ∀ a ∉ ms.map Move.dst,
        S.get (ms.foldl (fun e' m => S.set e' m.dst (S.read e m.src)) e') a = S.get e' a := by
    intro ms
    induction ms with
    | nil => simp
    | cons m rest ih =>
      intro e' hn
      rw [List.map_cons, List.nodup_cons] at hn
      obtain ⟨hmoved, hkept⟩ := ih (S.set e' m.dst (S.read e m.src)) hn.2
      simp only [List.foldl_cons]
      refine ⟨List.forall_mem_cons.2 ⟨?_, hmoved⟩, fun a ha => ?_⟩
      · rw [hkept _ hn.1, S.get_set_self]
      · rw [List.map_cons, List.mem_cons, not_or] at ha
        rw [hkept a ha.2, S.get_set_of_ne _ _ (Ne.symm ha.1)]
  obtain ⟨hmoved, hkept⟩ := key ms e hn
  exact ⟨hmoved, fun a ha _ => hkept a ha⟩

end Store

/-! ## Free moves -/

namespace ParallelCopy

variable {α : Type} [DecidableEq α] {pending others : List (Move α)} {m first : Move α}
  {parked spare : α} {rounds : Nat}

theorem isFree_iff : isFree pending m = true ↔ ∀ other ∈ pending, other.src ≠ .loc m.dst := by
  simp [isFree]

@[simp] theorem dst_park (parked spare : α) (m : Move α) : (park parked spare m).dst = m.dst := by
  unfold park
  split <;> rfl

@[simp] theorem map_dst_park (parked spare : α) (pending : List (Move α)) :
    (pending.map (park parked spare)).map Move.dst = pending.map Move.dst := by
  simp [Function.comp_def]

/-- Nothing reads a location that was parked. -/
theorem src_park_ne (hne : parked ≠ spare) (m : Move α) : (park parked spare m).src ≠ .loc parked := by
  unfold park
  split
  · intro h
    exact hne (Source.loc.inj h).symm
  · assumption

/-- Parking a destination frees its move. -/
theorem isFree_park (hne : m.dst ≠ spare) :
    isFree (pending.map (park m.dst spare)) (park m.dst spare m) = true := by
  rw [isFree_iff, dst_park]
  intro other hother
  obtain ⟨other, _, rfl⟩ := List.mem_map.1 hother
  exact src_park_ne hne other

/-- Doing a free move takes it off the pending ones. -/
theorem perm_of_find?_isFree (h : pending.find? (isFree pending) = some m) :
    (m :: pending.eraseP (isFree pending)).Perm pending := by
  obtain ⟨hfree, before, after, hpending, hbefore⟩ := List.find?_eq_some_iff_append.1 h
  generalize isFree pending = p at *
  subst hpending
  rw [List.eraseP_append_right _ (by simpa using hbefore), List.eraseP_cons_of_pos hfree]
  exact List.perm_middle.symm

/-- **Where no move is free, only cycles are left**: the sources are the destinations. -/
theorem perm_sources_of_stuck (hn : (pending.map Move.dst).Nodup)
    (h : pending.find? (isFree pending) = none) :
    ((pending.map Move.dst).map Source.loc).Perm (pending.map Move.src) := by
  have hloc : ((pending.map Move.dst).map Source.loc).Nodup :=
    hn.map fun _ _ => Source.loc.inj
  refine (List.subperm_of_subset hloc ?_).perm_of_length_le (by simp)
  intro src hsrc
  obtain ⟨_, hdst, rfl⟩ := List.mem_map.1 hsrc
  obtain ⟨m, hm, rfl⟩ := List.mem_map.1 hdst
  have hread := List.find?_eq_none.1 h m hm
  rw [isFree_iff] at hread
  push Not at hread
  obtain ⟨other, hother, heq⟩ := hread
  exact List.mem_map.2 ⟨other, hother, heq⟩

/-- Where no move is free, nothing reads a location that nothing writes. -/
theorem src_ne_of_stuck (hn : (pending.map Move.dst).Nodup) (hspare : spare ∉ pending.map Move.dst)
    (h : pending.find? (isFree pending) = none) : ∀ m ∈ pending, m.src ≠ .loc spare := by
  intro m hm hsrc
  have hmem : Source.loc spare ∈ (pending.map Move.dst).map Source.loc := by
    rw [(perm_sources_of_stuck hn h).mem_iff, ← hsrc]
    exact List.mem_map.2 ⟨m, hm, rfl⟩
  obtain ⟨a, ha, heq⟩ := List.mem_map.1 hmem
  cases heq
  exact hspare ha

/-! ## Rounds -/

/-- A round in which some move is free. -/
theorem sequence_of_free (h : pending.find? (isFree pending) = some m) (rounds : Nat) :
    sequence spare (rounds + 1) pending =
      (return m :: (← sequence spare rounds (pending.eraseP (isFree pending)))) := by
  cases pending with
  | nil => cases h
  | cons first others => simp only [sequence, h]

/-- A round in which no move is free. -/
theorem sequence_of_stuck (h : (first :: others).find? (isFree (first :: others)) = none)
    (rounds : Nat) :
    sequence spare (rounds + 1) (first :: others) =
      (return { dst := spare, src := .loc first.dst } ::
        (← sequence spare rounds ((first :: others).map (park first.dst spare)))) := by
  simp only [sequence, h]

/-- **The rounds do not run out.**  A round is saved while some move is free. -/
theorem exists_sequence (hspare : spare ∉ pending.map Move.dst)
    (hrounds : 2 * pending.length ≤ rounds ∨
      2 * pending.length ≤ rounds + 1 ∧ ∃ m ∈ pending, isFree pending m = true) :
    ∃ moves, sequence spare rounds pending = .ok moves := by
  induction rounds generalizing pending with
  | zero =>
    cases pending with
    | nil => exact ⟨[], rfl⟩
    | cons first others =>
      simp only [List.length_cons] at hrounds
      omega
  | succ rounds ih =>
    cases hfind : pending.find? (isFree pending) with
    | some m =>
      have hperm := perm_of_find?_isFree hfind
      have hlen := hperm.length_eq
      rw [List.length_cons] at hlen
      have hspare' : spare ∉ (pending.eraseP (isFree pending)).map Move.dst := fun hmem =>
        hspare ((hperm.map Move.dst).mem_iff.1 (List.mem_cons_of_mem _ hmem))
      obtain ⟨rest, hrest⟩ := ih hspare' (.inl (by omega))
      exact ⟨m :: rest, by rw [sequence_of_free hfind, hrest]; rfl⟩
    | none =>
      cases pending with
      | nil => exact ⟨[], rfl⟩
      | cons first others =>
        have hfirst : first ∈ first :: others := List.mem_cons_self
        have hne : first.dst ≠ spare := fun heq => hspare (List.mem_map.2 ⟨first, hfirst, heq⟩)
        have hle : 2 * (first :: others).length ≤ rounds + 1 := by
          rcases hrounds with hle | ⟨_, m, hm, hfree⟩
          · exact hle
          · exact absurd hfree (List.find?_eq_none.1 hfind m hm)
        -- this round completes no move, but the next one does
        have hspare' : spare ∉ ((first :: others).map (park first.dst spare)).map Move.dst := by
          rwa [map_dst_park]
        obtain ⟨rest, hrest⟩ := ih hspare' (.inr ⟨by rwa [List.length_map], _,
          List.mem_map_of_mem hfirst, isFree_park hne⟩)
        exact ⟨_ :: rest, by rw [sequence_of_stuck hfind, hrest]; rfl⟩

/-- **Induction along the rounds**: what holds when nothing is left, and is handed on by a free move
and by a parked location, holds of what was pending and its sequence. -/
theorem sequence_induction {P : List (Move α) → List (Move α) → Prop} {moves : List (Move α)}
    (hn : (pending.map Move.dst).Nodup) (hspare : spare ∉ pending.map Move.dst)
    (h : sequence spare rounds pending = .ok moves) (done : P [] [])
    (free : ∀ pending m rest, (pending.map Move.dst).Nodup → spare ∉ pending.map Move.dst →
      pending.find? (isFree pending) = some m → P (pending.eraseP (isFree pending)) rest →
      P pending (m :: rest))
    (stuck : ∀ first others rest, ((first :: others).map Move.dst).Nodup →
      spare ∉ (first :: others).map Move.dst →
      (first :: others).find? (isFree (first :: others)) = none →
      P ((first :: others).map (park first.dst spare)) rest →
      P (first :: others) ({ dst := spare, src := .loc first.dst } :: rest)) :
    P pending moves := by
  induction rounds generalizing pending moves with
  | zero =>
    cases pending with
    | cons first others => cases h
    | nil =>
      cases h
      exact done
  | succ rounds ih =>
    cases hfind : pending.find? (isFree pending) with
    | some m =>
      simp only [sequence_of_free hfind, bind_eq_ok, pure_eq_ok] at h
      obtain ⟨rest, hrest, rfl⟩ := h
      have hperm := (perm_of_find?_isFree hfind).map Move.dst
      obtain ⟨_, hn'⟩ := List.nodup_cons.1 (hperm.nodup_iff.2 hn)
      have hspare' := mt hperm.mem_iff.1 hspare
      rw [List.map_cons, List.mem_cons, not_or] at hspare'
      exact free pending m rest hn hspare hfind (ih hn' hspare'.2 hrest)
    | none =>
      cases pending with
      | nil =>
        cases h
        exact done
      | cons first others =>
        simp only [sequence_of_stuck hfind, bind_eq_ok, pure_eq_ok] at h
        obtain ⟨rest, hrest, rfl⟩ := h
        refine stuck first others rest hn hspare hfind (ih ?_ ?_ hrest)
        · rwa [map_dst_park]
        · rwa [map_dst_park]

end ParallelCopy

namespace Store

variable {σ α V : Type} [DecidableEq α] {S : Store σ α V} {pending moves : List (Move α)}
  {m first : Move α} {spare : α} {rounds : Nat} {e e' : σ}

open ParallelCopy

/-- **Doing a free move** changes nothing that the others read. -/
theorem Delivers.of_free (hn : (pending.map Move.dst).Nodup)
    (h : pending.find? (isFree pending) = some m)
    (hrest : S.Delivers (pending.eraseP (isFree pending)) spare (S.move e m) e')
    (hne : m.dst ≠ spare) : S.Delivers pending spare e e' := by
  have hperm := perm_of_find?_isFree h
  have hfree := isFree_iff.1 (List.find?_some h)
  have hn' := (hperm.map Move.dst).nodup_iff.2 hn
  rw [List.map_cons, List.nodup_cons] at hn'
  refine Delivers.perm S
    ⟨List.forall_mem_cons.2 ⟨?_, fun other hother => ?_⟩, fun a ha hspare => ?_⟩ hperm
  · rw [hrest.kept _ hn'.1 hne, move, S.get_set_self]
  · rw [hrest.moved other hother]
    have hsrc := hfree other (hperm.mem_iff.1 (List.mem_cons_of_mem m hother))
    cases hread : other.src with
    | const c => rfl
    | loc b =>
      rw [hread] at hsrc
      exact S.get_set_of_ne _ _ fun heq => hsrc (heq ▸ rfl)
  · rw [List.map_cons, List.mem_cons, not_or] at ha
    rw [hrest.kept a ha.2 hspare, move, S.get_set_of_ne _ _ (Ne.symm ha.1)]

/-- **Parking a destination** changes nothing that is read, if nothing reads the spare location. -/
theorem Delivers.of_park {parked : α} (hread : ∀ m ∈ pending, m.src ≠ .loc spare)
    (hrest : S.Delivers (pending.map (park parked spare)) spare
      (S.move e { dst := spare, src := .loc parked }) e') : S.Delivers pending spare e e' := by
  refine ⟨fun m hm => ?_, fun a ha hne => ?_⟩
  · have hmoved := hrest.moved _ (List.mem_map_of_mem hm)
    rw [dst_park] at hmoved
    rw [hmoved, park]
    split
    · rename_i hsrc
      rw [hsrc]
      exact S.get_set_self _ _ _
    · cases hsrc : m.src with
      | const c => rfl
      | loc b => exact S.get_set_of_ne _ _ fun heq => hread m hm (by rw [hsrc, ← heq])
  · rw [hrest.kept a (by rwa [map_dst_park]) hne]
    exact S.get_set_of_ne _ _ (Ne.symm hne)

/-- Moves of a location into itself need not be done. -/
theorem Delivers.of_filter (hn : (pending.map Move.dst).Nodup) (hspare : spare ∉ pending.map Move.dst)
    (h : S.Delivers (pending.filter fun m => !m.isTrivial) spare e e') :
    S.Delivers pending spare e e' := by
  -- what only such a move goes to keeps what it holds
  have hkept : ∀ a, (∀ m ∈ pending, m.dst = a → m.isTrivial = true) → a ≠ spare →
      S.get e' a = S.get e a := by
    intro a hall hne
    refine h.kept a (fun hmem => ?_) hne
    obtain ⟨m, hm, rfl⟩ := List.mem_map.1 hmem
    obtain ⟨hm, htrivial⟩ := List.mem_filter.1 hm
    simp [hall m hm rfl] at htrivial
  refine ⟨fun m hm => ?_, fun a ha hne => hkept a (fun m hm heq => ?_) hne⟩
  · by_cases htrivial : m.isTrivial = true
    · have hne : m.dst ≠ spare := fun heq => hspare (List.mem_map.2 ⟨m, hm, heq⟩)
      rw [of_decide_eq_true htrivial]
      refine hkept m.dst (fun other hother heq => ?_) hne
      rwa [List.inj_on_of_nodup_map hn hother hm heq]
    · exact h.moved m (List.mem_filter.2 ⟨hm, by simpa using htrivial⟩)
  · exact absurd (List.mem_map.2 ⟨m, hm, heq⟩) ha

/-- **Moves in sequence deliver what was pending.** -/
theorem moveAll_sequence (hn : (pending.map Move.dst).Nodup) (hspare : spare ∉ pending.map Move.dst)
    (h : sequence spare rounds pending = .ok moves) (e : σ) :
    S.Delivers pending spare e (S.moveAll e moves) := by
  revert e
  refine sequence_induction
    (P := fun pending moves => ∀ e, S.Delivers pending spare e (S.moveAll e moves)) hn hspare h ?_ ?_ ?_
  · exact fun e => .refl S spare e
  · intro pending m rest hn hspare hfind ih e
    have hm : m.dst ∈ pending.map Move.dst := List.mem_map_of_mem (List.mem_of_find?_eq_some hfind)
    exact .of_free hn hfind (ih _) fun heq => hspare (heq ▸ hm)
  · intro first others rest hn hspare hfind ih e
    exact .of_park (src_ne_of_stuck hn hspare hfind) (ih _)

end Store

namespace ParallelCopy

variable {α : Type} [DecidableEq α] {c : ParallelCopy α} {spare : α}

/-- **A copy in sequence has the effect of the copy.**  No two moves go to one location, and none to
the spare one: then the moves can be put in sequence, and in any storage, doing them one at a time
leaves in every location but the spare one what doing them at once does. -/
theorem inSequence_eq_perform (hn : c.defs.Nodup) (hspare : spare ∉ c.defs) :
    ∃ moves, c.inSequence spare = .ok moves ∧
      ∀ {σ V : Type} (S : Store σ α V) (e : σ) (a : α), a ≠ spare →
        S.get (S.moveAll e moves) a = S.get (S.perform e c) a := by
  have hsub : (c.moves.filter fun m => !m.isTrivial).map Move.dst |>.Sublist c.defs :=
    List.filter_sublist.map Move.dst
  have hspare' := mt (fun hmem => hsub.subset hmem) hspare
  obtain ⟨moves, hmoves⟩ := exists_sequence hspare' (.inl (Nat.le_refl _))
  refine ⟨moves, hmoves, fun S e a ha => ?_⟩
  refine Store.Delivers.get_eq S ?_ (S.perform_delivers hn spare e) ha
  exact (Store.moveAll_sequence (hn.sublist hsub) hspare' hmoves e).of_filter hn hspare

end ParallelCopy

/-! ## Environments -/

theorem Environment.get_set (e : Environment) (v w : ValueId) (c : Constant) :
    (e.set v c).get w = if v = w then c else e.get w := by
  by_cases h : v = w
  · subst h
    simp only [get, set, if_true]
    rw [List.getElem?_set_self (by simp only [List.length_append, List.length_replicate]; omega)]
    rfl
  · have hne : v.index ≠ w.index := fun heq => h (Ident.ext heq)
    simp only [get, set, h, if_false, List.getElem?_set_ne hne]
    by_cases hlt : w.index < e.constants.length
    · rw [List.getElem?_append_left hlt]
    · have hle : e.constants.length ≤ w.index := by omega
      rw [List.getElem?_append_right hle, List.getElem?_eq_none hle, List.getElem?_replicate]
      split <;> rfl

/-- An environment is storage for constants. -/
def Environment.store : Store Environment ValueId Constant where
  get := get
  set := set
  constant := id
  get_set_self e v c := by rw [get_set, if_pos rfl]
  get_set_of_ne e _ _ c hne := by rw [get_set, if_neg hne]

namespace ParallelCopy

/-- Two cycles that need the spare location in turn, a chain that hangs on one of them, a constant, a
move that does nothing, and one that reads the spare location. -/
def twoCycles : ParallelCopy ValueId where
  moves := [⟨⟨0⟩, .loc ⟨1⟩⟩, ⟨⟨1⟩, .loc ⟨0⟩⟩, ⟨⟨2⟩, .loc ⟨3⟩⟩, ⟨⟨3⟩, .loc ⟨4⟩⟩, ⟨⟨4⟩, .loc ⟨2⟩⟩,
    ⟨⟨5⟩, .loc ⟨2⟩⟩, ⟨⟨6⟩, .loc ⟨5⟩⟩, ⟨⟨7⟩, .const (.int 7)⟩, ⟨⟨8⟩, .loc ⟨8⟩⟩, ⟨⟨10⟩, .loc ⟨9⟩⟩]

theorem twoCycles_inSequence : twoCycles.defs.Nodup ∧ ⟨9⟩ ∉ twoCycles.defs ∧
    ∃ moves, twoCycles.inSequence ⟨9⟩ = .ok moves ∧ moves.length = 11 ∧
      ∀ v, v ≠ ⟨9⟩ →
        (Environment.store.moveAll ⟨[.int 1, .int 2, .int 3]⟩ moves).get v =
          (Environment.store.perform ⟨[.int 1, .int 2, .int 3]⟩ twoCycles).get v := by
  have hn : twoCycles.defs.Nodup := by decide
  have hspare : ⟨9⟩ ∉ twoCycles.defs := by decide
  obtain ⟨moves, hmoves, heq⟩ := inSequence_eq_perform hn hspare
  have hlength : (twoCycles.inSequence ⟨9⟩).map List.length = .ok 11 := by decide
  rw [hmoves] at hlength
  exact ⟨hn, hspare, moves, hmoves, Except.ok.inj hlength, heq Environment.store _⟩

end ParallelCopy

end FlowTree
