import FlowTree.Proofs.CacheCallers
import Mathlib.Data.List.Dedup
import Mathlib.Data.Option.Basic

/-!
# Results of a cache

Whatever the order in which the callers of a cache take their steps, each key is lowered to
completion at most once and everybody is given that result, and calls on one key cannot tell
whether there are calls on others.

## Main statements

* `Cache.Runs.completed_eq` — what a key yields is what was completed.
* `Cache.AlikeOn.runs` — a run goes the same way without the events on other keys.
* `Cache.Runs.lowers_once` — every run is orderly.
-/

namespace FlowTree

namespace Cache

variable {κ τ : Type} [DecidableEq κ] {calls : Nat → Call κ} {s s' t : Callers κ τ} {e : Event τ}
  {events before later : List (Event τ)} {key k : κ} {i j : Nat} {r : Lowered τ}

/-! ## Results -/

/-- The result of a key that an event completes. -/
def Event.completes (calls : Nat → Call κ) (key : κ) : Event τ → Option (Except Refusal τ)
  | finish caller result => if (calls caller).key = key then some result else none
  | _ => none

/-- The results of all lowerings of a key that were completed. -/
def completed (calls : Nat → Call κ) (key : κ) (events : List (Event τ)) :
    List (Except Refusal τ) :=
  events.filterMap (Event.completes calls key)

/-- A step completes nothing and changes no result, or it completes the first result of a key. -/
theorem Step.get?_cases (hs : s.Coherent calls) (h : Step calls s e s') (k : κ) :
    (e.completes calls k = none ∧ s'.cache.get? k = s.cache.get? k) ∨
    ∃ r : Lowered τ, e.completes calls k = some r.result ∧ s.cache.get? k = none ∧
      s'.cache.get? k = some r := by
  by_cases hk : k = (calls e.caller).key
  · subst hk
    cases h with
    | request => exact .inl ⟨rfl, get?_request _ _ _⟩
    | find => exact .inl ⟨rfl, rfl⟩
    | miss => exact .inl ⟨rfl, rfl⟩
    | read => exact .inl ⟨rfl, rfl⟩
    | share _ _ hreserve =>
      exact .inl ⟨rfl, by rw [Callers.cache_advance, (reserve_eq_ready_iff.1 hreserve).2]⟩
    | reserve _ _ hreserve =>
      obtain ⟨hcell, rfl⟩ := reserve_eq_granted_iff.1 hreserve
      exact .inl ⟨rfl, by simp [get?, hcell]⟩
    | @publish i hphase result =>
      have hcell := hs.cell?_eq hphase
      refine .inr ⟨(s.cache.publish (calls i).key result).1, ?_, ?_, ?_⟩
      · simp [Event.completes, result_publish]
      · simp [get?, hcell]
      · simp [get?, hcell]
    | abandon hphase => exact .inl ⟨rfl, by simp [get?, hs.cell?_eq hphase]⟩
  · left
    refine ⟨?_, by rw [get?, get?, h.cell?_eq hk]⟩
    cases h with
    | publish => exact if_neg (Ne.symm hk)
    | _ => rfl

/-- What is published of a key is what was completed. -/
theorem Runs.completed_eq (h : Runs calls s events s') (hs : s.Coherent calls) (key : κ) :
    ((s'.cache.get? key).map Lowered.result).toList =
      ((s.cache.get? key).map Lowered.result).toList ++ completed calls key events := by
  induction h with
  | nil => simp [completed]
  | cons hstep _ ih =>
    rw [ih (hstep.coherent hs)]
    rcases hstep.get?_cases hs key with ⟨hnone, hsame⟩ | ⟨r, hsome, hbefore, hafter⟩
    · simp [completed, hnone, hsame]
    · simp [completed, hsome, hbefore, hafter]

theorem Runs.completed_init (h : Runs calls {} events s) (key : κ) :
    completed calls key events = ((s.cache.get? key).map Lowered.result).toList := by
  rw [h.completed_eq (coherent_init calls) key]
  rfl

/-- A published result stays. -/
theorem Step.get?_eq_some (hs : s.Coherent calls) (h : Step calls s e s')
    (hr : s.cache.get? key = some r) : s'.cache.get? key = some r := by
  rcases h.get?_cases hs key with ⟨_, hsame⟩ | ⟨_, _, hbefore, _⟩
  · rw [hsame, hr]
  · simp [hr] at hbefore

theorem Runs.get?_eq_some (h : Runs calls s events s') (hs : s.Coherent calls)
    (hr : s.cache.get? key = some r) : s'.cache.get? key = some r := by
  have hkept := h.keeps (P := fun s => s.Coherent calls ∧ s.cache.get? key = some r)
    (fun hs hstep => ⟨hstep.coherent hs.1, hstep.get?_eq_some hs.1 hs.2⟩) ⟨hs, hr⟩
  exact hkept.2

/-- A lookup that is under way when a result is published, or begins later, cannot miss it. -/
theorem Step.finds (h : Step calls s e s') (hr : s.cache.get? (calls i).key = some r)
    (hcall : (calls i).lowers = false)
    (hi : s.phase i = .idle ∨ s.phase i = .holding ∨ s.phase i = .answered (some r)) :
    s'.phase i = .idle ∨ s'.phase i = .holding ∨ s'.phase i = .answered (some r) := by
  by_cases hcaller : i = e.caller
  · subst hcaller
    -- It can neither miss a cell that is published, nor read anything else from it.
    cases h <;> grind [Event.caller, Callers.phase_advance_self, get?_eq_some_iff]
  · rwa [h.phase_eq hcaller]

theorem Runs.finds (h : Runs calls s events s') (hs : s.Coherent calls)
    (hr : s.cache.get? (calls i).key = some r) (hcall : (calls i).lowers = false)
    (hi : s.phase i = .idle) :
    s'.phase i = .idle ∨ s'.phase i = .holding ∨ s'.phase i = .answered (some r) := by
  have hkept := h.keeps (P := fun s => s.Coherent calls ∧ s.cache.get? (calls i).key = some r ∧
      (s.phase i = .idle ∨ s.phase i = .holding ∨ s.phase i = .answered (some r)))
    (fun hs hstep => ⟨hstep.coherent hs.1, hstep.get?_eq_some hs.1 hs.2.1,
      hstep.finds hs.2.1 hcall hs.2.2⟩) ⟨hs, hr, .inl hi⟩
  exact hkept.2.2

/-- Events on other keys change nothing of a key. -/
theorem Runs.cell?_eq (h : Runs calls s events s')
    (hother : ∀ e ∈ events, (calls e.caller).key ≠ key) :
    s'.cache.cell? key = s.cache.cell? key := by
  induction h with
  | nil => rfl
  | cons hstep _ ih =>
    rw [ih fun e he => hother e (List.mem_cons_of_mem _ he)]
    exact hstep.cell?_eq (hother _ List.mem_cons_self).symm

/-! ## Keys -/

/-- The key that an event asks for. -/
def Event.requests (calls : Nat → Call κ) : Event τ → Option κ
  | start caller => if (calls caller).lowers then some (calls caller).key else none
  | _ => none

/-- The keys that calls to `getOrLower` were begun with. -/
def requested (calls : Nat → Call κ) (events : List (Event τ)) : List κ :=
  events.filterMap (Event.requests calls)

theorem Step.mem_keys_iff (h : Step calls s e s') :
    k ∈ s'.cache.keys ↔ k ∈ s.cache.keys ∨ e.requests calls = some k := by
  cases h with
  | request hcall =>
    simp only [Callers.cache_advance, keys_request, Event.requests, hcall]
    split <;> grind
  | find hcall => simp [Event.requests, hcall]
  | miss hcall => simp [Event.requests, hcall]
  | read => simp [Event.requests]
  | share _ _ hreserve => simp [Event.requests, (reserve_eq_ready_iff.1 hreserve).2]
  | reserve _ _ hreserve => simp [Event.requests, (reserve_eq_granted_iff.1 hreserve).2]
  | publish => simp [Event.requests]
  | abandon => simp [Event.requests]

theorem Step.nodup_keys (hs : s.cache.keys.Nodup) (h : Step calls s e s') :
    s'.cache.keys.Nodup := by
  cases h with
  | request =>
    simp only [Callers.cache_advance, keys_request]
    split
    · exact hs
    · rename_i hkey
      simpa using hs.concat hkey
  | share _ _ hreserve => simpa [(reserve_eq_ready_iff.1 hreserve).2] using hs
  | reserve _ _ hreserve => simpa [(reserve_eq_granted_iff.1 hreserve).2] using hs
  | _ => simpa using hs

theorem Runs.mem_keys_iff (h : Runs calls s events s') :
    k ∈ s'.cache.keys ↔ k ∈ s.cache.keys ∨ k ∈ requested calls events := by
  induction h with
  | nil => simp [requested]
  | cons hstep _ ih =>
    rw [ih, hstep.mem_keys_iff]
    simp [requested, or_assoc]

/-- A cache has one cell for each key that was asked for. -/
theorem Runs.size_eq (h : Runs calls {} events s) :
    s.cache.size = (requested calls events).dedup.length := by
  have hnodup : s.cache.keys.Nodup := h.keeps Step.nodup_keys (by simp [keys])
  rw [size_eq_length_keys]
  apply List.Perm.length_eq
  rw [List.perm_ext_iff_of_nodup hnodup (List.nodup_dedup _)]
  intro k
  rw [h.mem_keys_iff, List.mem_dedup]
  simp [keys]

/-! ## Keys do not meet -/

/-- Cells that differ at most in a serial number. -/
inductive CellAlike : CacheCell τ → CacheCell τ → Prop where
  | free : CellAlike .free .free
  | reserved (caller : Nat) : CellAlike (.reserved caller) (.reserved caller)
  | published {r r' : Lowered τ} (h : r.result = r'.result) :
      CellAlike (.published r) (.published r')

/-- Callers of two caches that cannot be told apart by calls on a key, serial numbers aside. -/
structure AlikeOn (calls : Nat → Call κ) (key : κ) (s t : Callers κ τ) : Prop where
  cell : Option.Rel CellAlike (s.cache.cell? key) (t.cache.cell? key)
  phase : ∀ i, (calls i).key = key →
    (s.phase i).map Lowered.result = (t.phase i).map Lowered.result

namespace AlikeOn

theorem cell_eq_none (h : AlikeOn calls key s t) (hs : s.cache.cell? key = none) :
    t.cache.cell? key = none := by
  have hcell := h.cell
  rw [hs] at hcell
  cases ht : t.cache.cell? key <;> simp_all

theorem exists_cell (h : AlikeOn calls key s t) {cell : CacheCell τ}
    (hs : s.cache.cell? key = some cell) :
    ∃ cell', t.cache.cell? key = some cell' ∧ CellAlike cell cell' := by
  have hcell := h.cell
  rw [hs] at hcell
  cases ht : t.cache.cell? key <;> simp_all

theorem get?_eq (h : AlikeOn calls key s t) :
    (s.cache.get? key).map Lowered.result = (t.cache.get? key).map Lowered.result := by
  cases hs : s.cache.cell? key with
  | none => simp [get?, hs, h.cell_eq_none hs]
  | some cell =>
    obtain ⟨cell', ht, halike⟩ := h.exists_cell hs
    cases halike with
    | published hr => simp [get?, hs, ht, hr]
    | _ => simp [get?, hs, ht]

theorem map_cell (h : AlikeOn calls key s t) {cell cell' : CacheCell τ}
    (hcell : CellAlike cell cell') : Option.Rel CellAlike
      ((s.cache.cell? key).map fun _ => cell) ((t.cache.cell? key).map fun _ => cell') := by
  cases hs : s.cache.cell? key with
  | none =>
    rw [h.cell_eq_none hs]
    exact .none
  | some _ =>
    obtain ⟨_, ht, _⟩ := h.exists_cell hs
    rw [ht]
    exact .some hcell

theorem getD_cell (h : AlikeOn calls key s t) : CellAlike
    ((s.cache.cell? key).getD .free) ((t.cache.cell? key).getD .free) := by
  cases hs : s.cache.cell? key with
  | none =>
    rw [h.cell_eq_none hs]
    exact .free
  | some _ =>
    obtain ⟨_, ht, halike⟩ := h.exists_cell hs
    rw [ht]
    exact halike

/-- A call that is under way is in the same phase on both sides. -/
theorem phase_eq (h : AlikeOn calls (calls i).key s t) {phase : Phase (Lowered τ)}
    (hs : s.phase i = phase) (hphase : ∀ answer, phase ≠ .answered answer) :
    t.phase i = phase := by
  have hmap := h.phase i rfl
  rw [hs] at hmap
  cases phase <;> cases ht : t.phase i <;> simp_all

/-- The caller `i` advances on both sides. -/
theorem advance (h : AlikeOn calls key s t) {phase phase' : Phase (Lowered τ)} {c c' : Cache κ τ}
    (hphase : phase.map Lowered.result = phase'.map Lowered.result)
    (hcell : Option.Rel CellAlike (c.cell? key) (c'.cell? key)) :
    AlikeOn calls key (s.advance i phase c) (t.advance i phase' c') where
  cell := hcell
  phase j hj := by
    by_cases hji : j = i
    · simpa [hji] using hphase
    · simpa [hji] using h.phase j hj

/-- A step on another key is not noticed. -/
theorem of_other (h : AlikeOn calls key s t) (hstep : Step calls s e s')
    (hkey : (calls e.caller).key ≠ key) : AlikeOn calls key s' t where
  cell := hstep.cell?_eq hkey.symm ▸ h.cell
  phase i hi := hstep.phase_eq (fun heq => hkey (heq ▸ hi)) ▸ h.phase i hi

/-- A step on the key can be made on both sides. -/
theorem step (h : AlikeOn calls (calls e.caller).key s t) (hstep : Step calls s e s') :
    ∃ t', Step calls t e t' ∧ AlikeOn calls (calls e.caller).key s' t' := by
  cases hstep with
  | request hcall hphase =>
    refine ⟨_, .request hcall (h.phase_eq hphase (by simp)), h.advance rfl ?_⟩
    simpa using h.getD_cell
  | find hcall hphase hcell =>
    obtain ⟨_, ht, _⟩ := h.exists_cell hcell
    exact ⟨_, .find hcall (h.phase_eq hphase (by simp)) ht, h.advance rfl h.cell⟩
  | miss hcall hphase hcell =>
    exact ⟨_, .miss hcall (h.phase_eq hphase (by simp)) (h.cell_eq_none hcell),
      h.advance rfl h.cell⟩
  | read hcall hphase =>
    exact ⟨_, .read hcall (h.phase_eq hphase (by simp)),
      h.advance (congrArg Phase.answered h.get?_eq) h.cell⟩
  | share hcall hphase hreserve =>
    obtain ⟨hcell, rfl⟩ := reserve_eq_ready_iff.1 hreserve
    obtain ⟨_, ht, hr⟩ := h.exists_cell hcell
    cases hr with
    | published hr =>
      exact ⟨_, .share hcall (h.phase_eq hphase (by simp)) (reserve_eq_ready_iff.2 ⟨ht, rfl⟩),
        h.advance (by simp [hr]) h.cell⟩
  | @reserve i _ hcall hphase hreserve =>
    obtain ⟨hcell, rfl⟩ := reserve_eq_granted_iff.1 hreserve
    obtain ⟨_, ht, hfree⟩ := h.exists_cell hcell
    cases hfree
    refine ⟨_, .reserve hcall (h.phase_eq hphase (by simp))
      (reserve_eq_granted_iff.2 ⟨ht, rfl⟩), h.advance rfl ?_⟩
    simpa using h.map_cell (.reserved i)
  | publish hphase result =>
    refine ⟨_, .publish (h.phase_eq hphase (by simp)) result, h.advance ?_ ?_⟩
    · simp [result_publish]
    · simpa using h.map_cell (.published (by simp only [result_publish]))
  | abandon hphase =>
    refine ⟨_, .abandon (h.phase_eq hphase (by simp)), h.advance rfl ?_⟩
    simpa using h.map_cell .free

/-- Without the events on other keys, a run goes the same way. -/
theorem runs (h : AlikeOn calls key s t) (hruns : Runs calls s events s') :
    ∃ t', Runs calls t (events.filter fun e => (calls e.caller).key = key) t' ∧
      AlikeOn calls key s' t' := by
  induction hruns generalizing t with
  | nil => exact ⟨t, .nil t, h⟩
  | @cons s s₁ s₂ e events hstep _ ih =>
    by_cases hkey : (calls e.caller).key = key
    · subst hkey
      obtain ⟨t₁, hstep', h₁⟩ := h.step hstep
      obtain ⟨t₂, hruns', h₂⟩ := ih h₁
      refine ⟨t₂, ?_, h₂⟩
      rw [List.filter_cons, if_pos (decide_eq_true rfl)]
      exact .cons hstep' hruns'
    · obtain ⟨t₂, hruns', h₂⟩ := ih (h.of_other hstep hkey)
      refine ⟨t₂, ?_, h₂⟩
      rwa [List.filter_cons, if_neg (mt of_decide_eq_true hkey)]

end AlikeOn

theorem Runs.alikeOn (h : Runs calls {} events s) (key : κ) :
    ∃ t, Runs calls {} (events.filter fun e => (calls e.caller).key = key) t ∧
      AlikeOn calls key s t :=
  AlikeOn.runs ⟨.none, fun _ _ => rfl⟩ h

/-! ## What callers can rely on -/

/-- A call that has not returned can go on, unless it waits for another one on its key. -/
theorem Callers.Coherent.progress (hs : s.Coherent calls) (i : Nat) :
    (∃ e s', e.caller = i ∧ Step calls s e s') ∨ (∃ answer, s.phase i = .answered answer) ∨
      s.phase i = .broken ∨
      s.phase i = .holding ∧ ∃ j, j ≠ i ∧ (calls j).key = (calls i).key ∧ s.phase j = .lowering := by
  cases hphase : s.phase i with
  | idle =>
    left
    cases hcall : (calls i).lowers with
    | true => exact ⟨_, _, rfl, .request hcall hphase⟩
    | false =>
      cases hcell : s.cache.cell? (calls i).key with
      | none => exact ⟨_, _, rfl, .miss hcall hphase hcell⟩
      | some _ => exact ⟨_, _, rfl, .find hcall hphase hcell⟩
  | holding =>
    cases hcall : (calls i).lowers with
    | false => exact .inl ⟨_, _, rfl, .read hcall hphase⟩
    | true =>
      cases hcell : s.cache.cell? (calls i).key with
      | none => exact absurd hcell ((hs _).held i rfl hphase)
      | some cell =>
        cases cell with
        | free =>
          exact .inl ⟨_, _, rfl, .reserve hcall hphase (reserve_eq_granted_iff.2 ⟨hcell, rfl⟩)⟩
        | published r =>
          exact .inl ⟨_, _, rfl, .share hcall hphase (reserve_eq_ready_iff.2 ⟨hcell, rfl⟩)⟩
        | reserved j =>
          -- The caller that has the reservation is lowering, so it is another one.
          obtain ⟨hj, hlowering⟩ := ((hs _).lowering_iff j).1 hcell
          refine .inr (.inr (.inr ⟨rfl, j, ?_, hj, hlowering⟩))
          rintro rfl
          simp [hphase] at hlowering
  | lowering => exact .inl ⟨_, _, rfl, .abandon hphase⟩
  | answered answer => exact .inr (.inl ⟨answer, rfl⟩)
  | broken => exact .inr (.inr (.inl rfl))

/-- What callers can rely on after `events`. -/
structure Orderly (calls : Nat → Call κ) (events : List (Event τ)) (s : Callers κ τ) : Prop where
  exclusive : ∀ i j, (calls i).key = (calls j).key → s.phase i = .lowering →
    s.phase j = .lowering → i = j
  once : ∀ key, (completed calls key events).length ≤ 1
  /-- A key yields the result that was completed, and nothing before. -/
  yields : ∀ key, (s.cache.get? key).map Lowered.result = (completed calls key events).head?
  lowered : ∀ i answer, (calls i).lowers = true → s.phase i = .answered answer →
    ∃ r, answer = some r ∧ s.cache.get? (calls i).key = some r
  /-- A lookup returns with what its key yields, or with nothing. -/
  found : ∀ i r, (calls i).lowers = false → s.phase i = .answered (some r) →
    s.cache.get? (calls i).key = some r
  /-- Calls on a key go the same way if there are no others. -/
  isolated : ∀ key, ∃ t, Runs calls {} (events.filter fun e => (calls e.caller).key = key) t ∧
    (t.cache.get? key).map Lowered.result = (s.cache.get? key).map Lowered.result ∧
    ∀ i, (calls i).key = key → (t.phase i).map Lowered.result = (s.phase i).map Lowered.result
  size : s.cache.size = (requested calls events).dedup.length
  /-- A call that has not returned can go on, unless another one is lowering its key. -/
  progress : ∀ i, (∃ e s', e.caller = i ∧ Step calls s e s') ∨
    (∃ answer, s.phase i = .answered answer) ∨ s.phase i = .broken ∨
    s.phase i = .holding ∧ ∃ j, j ≠ i ∧ (calls j).key = (calls i).key ∧ s.phase j = .lowering
  /-- A call that begins while nobody lowers its key may do what `getOrLower` does. -/
  alone : ∀ i lowering, (calls i).lowers = true → s.phase i = .idle →
    (∀ j, (calls j).key = (calls i).key → s.phase j ≠ .lowering) →
    ∃ events, (∀ e ∈ events, e.caller = i) ∧ Runs calls s events
      (s.advance i (s.cache.getOrLower (calls i).key lowering).1.phase
        (s.cache.getOrLower (calls i).key lowering).2)
  alone_lookup : ∀ i, (calls i).lowers = false → s.phase i = .idle →
    ∃ events, (∀ e ∈ events, e.caller = i) ∧
      Runs calls s events (s.advance i (.answered (s.cache.get? (calls i).key)) s.cache)

/-- What stays from one moment to the next, with the events `later` in between. -/
structure Lasting (calls : Nat → Call κ) (s : Callers κ τ) (later : List (Event τ))
    (s' : Callers κ τ) : Prop where
  stays : ∀ key r, s.cache.get? key = some r → s'.cache.get? key = some r
  /-- A lookup that begins when there is a result returns with it. -/
  found : ∀ i r answer, (calls i).lowers = false → s.cache.get? (calls i).key = some r →
    s.phase i = .idle → s'.phase i = .answered answer → answer = some r
  /-- Calls on other keys do not change what a key yields. -/
  untouched : ∀ key, (∀ e ∈ later, (calls e.caller).key ≠ key) →
    s'.cache.get? key = s.cache.get? key

/-- Callers of a cache lower each key at most once and share the result, in whatever order they take
their steps. -/
theorem Runs.lowers_once (h : Runs calls {} before s) (h' : Runs calls s later s') :
    Orderly calls (before ++ later) s' ∧ Lasting calls s later s' := by
  have hall := h.append h'
  have hs := h.coherent
  have hs' := hall.coherent
  constructor
  · constructor
    case exclusive =>
      intro i j hkey hi hj
      have hcell := hs'.cell?_eq hi
      rw [hkey, hs'.cell?_eq hj] at hcell
      simpa using hcell.symm
    case once =>
      intro key
      rw [hall.completed_init]
      cases (s'.cache.get? key).map Lowered.result <;> simp
    case yields =>
      intro key
      rw [hall.completed_init, Option.head?_toList]
    case lowered =>
      intro i answer hcall hi
      cases answer with
      | none => exact absurd hi ((hs' _).answered i rfl hcall)
      | some r => exact ⟨r, rfl, get?_eq_some_iff.2 ((hs' _).shared i r rfl hi)⟩
    case found => exact fun i r _ hi => get?_eq_some_iff.2 ((hs' _).shared i r rfl hi)
    case isolated =>
      intro key
      obtain ⟨t, ht, halike⟩ := hall.alikeOn key
      exact ⟨t, ht, halike.get?_eq.symm, fun i hi => (halike.phase i hi).symm⟩
    case size => exact hall.size_eq
    case progress => exact hs'.progress
    case alone =>
      intro i lowering hcall hidle hnone
      refine getOrLower_runs hcall hidle (fun j hcell => ?_) lowering
      obtain ⟨hkey, hlowering⟩ := ((hs' _).lowering_iff j).1 hcell
      exact hnone j hkey hlowering
    case alone_lookup => exact fun i => get?_runs
  · constructor
    case stays => exact fun key r => h'.get?_eq_some hs
    case found =>
      intro i r answer hcall hr hidle hanswer
      have hfinds := h'.finds hs hr hcall hidle
      simpa [hanswer] using hfinds
    case untouched =>
      intro key hother
      rw [get?, get?, h'.cell?_eq hother]

/-- Callers 0 and 1 lower a key that 2 and 4 look up, 3 lowers another, and the others look up a
third. -/
def contest (i : Nat) : Call Nat :=
  [⟨7, true⟩, ⟨7, true⟩, ⟨7, false⟩, ⟨8, true⟩, ⟨7, false⟩].getD i ⟨9, false⟩

/-- Caller 0 is broken off while 1 waits, 2 looks while 1 is lowering, and 5 misses. -/
def contestBefore : List (Event Nat) :=
  [.start 0, .start 1, .look 0, .start 2, .start 3, .look 3, .breakOff 0, .look 1, .look 2,
    .start 5, .finish 1 (.ok 40)]

/-- Caller 4 begins when the result is there, and 3 is refused in the meantime. -/
def contestLater : List (Event Nat) :=
  [.start 4, .finish 3 (.error (.tooManyLoops 0)), .look 4]

theorem contest_lowers_once : ∃ s s' : Callers Nat Nat,
    Runs contest {} contestBefore s ∧ Runs contest s contestLater s' ∧
    Orderly contest (contestBefore ++ contestLater) s' ∧ Lasting contest s contestLater s' ∧
    completed contest 7 (contestBefore ++ contestLater) = [.ok 40] ∧ s'.cache.size = 2 := by
  have hruns : ∃ s s', Runs contest {} contestBefore s ∧ Runs contest s contestLater s' :=
    ⟨_, _, .cons (.request rfl rfl) <| .cons (.request rfl rfl) <| .cons (.reserve rfl rfl rfl) <|
        .cons (.find rfl rfl rfl) <| .cons (.request rfl rfl) <| .cons (.reserve rfl rfl rfl) <|
        .cons (.abandon rfl) <| .cons (.reserve rfl rfl rfl) <| .cons (.read rfl rfl) <|
        .cons (.miss rfl rfl rfl) <| .cons (.publish rfl _) <| .nil _,
      .cons (.find rfl rfl rfl) <| .cons (.publish rfl _) <| .cons (.read rfl rfl) <| .nil _⟩
  obtain ⟨s, s', hbefore, hlater⟩ := hruns
  obtain ⟨horderly, hlasting⟩ := hbefore.lowers_once hlater
  refine ⟨s, s', hbefore, hlater, horderly, hlasting, rfl, ?_⟩
  rw [horderly.size]
  rfl

end Cache

end FlowTree
