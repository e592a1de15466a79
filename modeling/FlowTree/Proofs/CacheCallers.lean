import FlowTree.Lowering.Cache
import Mathlib.Logic.Function.Basic

/-!
# Callers of a cache

Any number of callers share a cache, and their steps interleave in any order.  A call finds the cell
of its key, and looks into the cell at a later moment; a call that lowers may reserve the cell then,
and publishes its result, or is broken off, later still.  Between any two of these moments the other
callers go on.

One invariant carries what is known of a key at any moment: its cell agrees with how far the calls
on it have got.

## Main statements

* `Cache.Step.coherent` — every step keeps the cells coherent.
* `Cache.getOrLower_runs`, `Cache.get?_runs` — `getOrLower` and `get?` are runs of one caller.
-/

namespace FlowTree

/-- A published result without its serial number. -/
def Lowered.result {τ : Type} (r : Lowered τ) : Except Refusal τ := r.map Stamped.tree

namespace Cache

variable {κ τ : Type} [DecidableEq κ]

/-! ## Cells -/

section Cells

variable {c c' : Cache κ τ} {key : κ} {i : Nat} {r : Lowered τ}

def keys (c : Cache κ τ) : List κ := c.cells.map Prod.fst

omit [DecidableEq κ] in
theorem size_eq_length_keys (c : Cache κ τ) : c.size = c.keys.length := by
  simp [size, keys]

theorem cell?_eq_none_iff : c.cell? key = none ↔ key ∉ c.keys := by
  simp only [cell?, keys, List.lookup_eq_none_iff, List.mem_map, not_exists, not_and]
  constructor
  · rintro h entry hentry rfl
    simpa using h entry hentry
  · intro h entry hentry
    simpa using fun heq => h entry hentry heq.symm

theorem get?_eq_some_iff : c.get? key = some r ↔ c.cell? key = some (.published r) := by
  unfold get?
  split <;> simp_all

@[simp] theorem cell?_setCell (c : Cache κ τ) (key k : κ) (cell : CacheCell τ) :
    (c.setCell key cell).cell? k = if k = key then (c.cell? k).map fun _ => cell else c.cell? k := by
  simp only [cell?, setCell]
  induction c.cells with
  | nil => simp
  | cons entry rest ih =>
    cases entry with
    | mk first old =>
      by_cases hfirst : first = key
      · by_cases hk : k = key
        · simp [hfirst, hk]
        · simp [hfirst, hk, List.lookup_cons, beq_eq_false_iff_ne.2 hk, ih]
      · by_cases hk : k = first
        · simp [hfirst, hk]
        · simp [hfirst, List.lookup_cons, beq_eq_false_iff_ne.2 hk, ih]

@[simp] theorem keys_setCell (c : Cache κ τ) (key : κ) (cell : CacheCell τ) :
    (c.setCell key cell).keys = c.keys := by
  simp only [keys, setCell, List.map_map]
  refine List.map_congr_left fun entry _ => ?_
  simp only [Function.comp_apply]
  split <;> simp_all

@[simp] theorem setCell_setCell (c : Cache κ τ) (key : κ) (cell cell' : CacheCell τ) :
    (c.setCell key cell).setCell key cell' = c.setCell key cell' := by
  simp only [setCell, List.map_map]
  congr 1
  refine List.map_congr_left fun entry _ => ?_
  by_cases hentry : entry.1 = key <;> simp [hentry]

@[simp] theorem cell?_request (c : Cache κ τ) (key k : κ) :
    (c.request key).cell? k = if k = key then some ((c.cell? k).getD .free) else c.cell? k := by
  unfold request
  cases hcell : c.cell? key with
  | some cell => by_cases hk : k = key <;> simp [hk, hcell]
  | none =>
    -- The new cell comes last, so it is found only where there was none.
    have happend : ({ c with cells := c.cells ++ [(key, .free)] } : Cache κ τ).cell? k =
        (c.cell? k).or (if k = key then some .free else none) := by
      by_cases hk : k = key
      · simp [cell?, List.lookup_append, hk]
      · simp [cell?, List.lookup_append, List.lookup_cons, beq_eq_false_iff_ne.2 hk, hk]
    rw [happend]
    by_cases hk : k = key <;> simp [hk, hcell]

theorem get?_request (c : Cache κ τ) (key k : κ) : (c.request key).get? k = c.get? k := by
  simp only [get?, cell?_request]
  by_cases hk : k = key
  · cases c.cell? k <;> simp [hk]
  · simp [hk]

theorem keys_request (c : Cache κ τ) (key : κ) :
    (c.request key).keys = if key ∈ c.keys then c.keys else c.keys ++ [key] := by
  unfold request
  cases hcell : c.cell? key with
  | some cell =>
    have hkey : key ∈ c.keys := by
      rw [← not_not (a := key ∈ c.keys), ← cell?_eq_none_iff, hcell]
      simp
    rw [if_pos hkey]
  | none =>
    rw [if_neg (cell?_eq_none_iff.1 hcell)]
    simp [keys]

theorem result_publish (c : Cache κ τ) (key : κ) (result : Except Refusal τ) :
    Lowered.result (c.publish key result).1 = result := by
  cases result <;> rfl

@[simp] theorem cell?_publish (c : Cache κ τ) (key k : κ) (result : Except Refusal τ) :
    (c.publish key result).2.cell? k = if k = key then
      (c.cell? k).map fun _ => .published (c.publish key result).1 else c.cell? k := by
  rw [← cell?_setCell]
  cases result <;> rfl

@[simp] theorem keys_publish (c : Cache κ τ) (key : κ) (result : Except Refusal τ) :
    (c.publish key result).2.keys = c.keys := by
  rw [← keys_setCell c key (.published (c.publish key result).1)]
  cases result <;> rfl

@[simp] theorem cell?_abandon (c : Cache κ τ) (key k : κ) :
    (c.abandon key).cell? k = if k = key then (c.cell? k).map fun _ => .free else c.cell? k :=
  cell?_setCell c key k .free

@[simp] theorem keys_abandon (c : Cache κ τ) (key : κ) : (c.abandon key).keys = c.keys :=
  keys_setCell c key .free

theorem reserve_eq_ready_iff :
    c.reserve key i = (.ready r, c') ↔ c.cell? key = some (.published r) ∧ c' = c := by
  unfold reserve
  split <;> grind

theorem reserve_eq_granted_iff : c.reserve key i = (.granted, c') ↔
    c.cell? key = some .free ∧ c' = c.setCell key (.reserved i) := by
  unfold reserve
  split <;> grind

@[simp] theorem publish_setCell (c : Cache κ τ) (key : κ) (cell : CacheCell τ)
    (result : Except Refusal τ) :
    (c.setCell key cell).publish key result = c.publish key result := by
  cases result with
  | ok tree =>
    simp only [publish, setCell_setCell]
    rfl
  | error r => simp only [publish, setCell_setCell]

@[simp] theorem abandon_setCell (c : Cache κ τ) (key : κ) (cell : CacheCell τ) :
    (c.setCell key cell).abandon key = c.abandon key :=
  setCell_setCell c key cell .free

end Cells

/-! ## Calls -/

/-- A call of a caller: `getOrLower` if it lowers, else `get?`. -/
structure Call (κ : Type) where
  key : κ
  /-- Whether the caller lowers if nobody has. -/
  lowers : Bool

/-- How far a call has got, where an answer is one of `ρ`. -/
inductive Phase (ρ : Type) where
  | idle
  /-- It has found the cell of its key, and not yet looked into it. -/
  | holding
  | lowering
  | answered (answer : Option ρ)
  | broken

/-- A phase with its answer mapped. -/
@[simp] def Phase.map {ρ ρ' : Type} (f : ρ → ρ') : Phase ρ → Phase ρ'
  | idle => idle
  | holding => holding
  | lowering => lowering
  | answered answer => answered (answer.map f)
  | broken => broken

/-- A cache and the callers that share it. -/
structure Callers (κ τ : Type) where
  cache : Cache κ τ := {}
  phase : Nat → Phase (Lowered τ) := fun _ => .idle

/-- The caller `i` gets to a phase, and leaves a cache behind. -/
def Callers.advance (s : Callers κ τ) (i : Nat) (phase : Phase (Lowered τ)) (cache : Cache κ τ) :
    Callers κ τ :=
  { cache, phase := Function.update s.phase i phase }

section Advance

omit [DecidableEq κ]

variable (s : Callers κ τ) (i : Nat) (phase phase' : Phase (Lowered τ)) (cache cache' : Cache κ τ)

@[simp] theorem Callers.cache_advance : (s.advance i phase cache).cache = cache := rfl

@[simp] theorem Callers.phase_advance :
    (s.advance i phase cache).phase = Function.update s.phase i phase := rfl

theorem Callers.phase_advance_self : (s.advance i phase cache).phase i = phase :=
  Function.update_self ..

@[simp] theorem Callers.advance_advance :
    (s.advance i phase cache).advance i phase' cache' = s.advance i phase' cache' := by
  simp [advance]

end Advance

/-- What a caller does at one moment. -/
inductive Event (τ : Type) where
  /-- It finds the cell of its key. -/
  | start (caller : Nat)
  | look (caller : Nat)
  | finish (caller : Nat) (result : Except Refusal τ)
  | breakOff (caller : Nat)

/-- Who does it. -/
@[simp] def Event.caller : Event τ → Nat
  | start caller => caller
  | look caller => caller
  | finish caller _ => caller
  | breakOff caller => caller

/-- What can happen next, if caller `i` makes the call `calls i`.  A call that looks into a cell that
is reserved waits: there is no step for it. -/
inductive Step (calls : Nat → Call κ) (s : Callers κ τ) : Event τ → Callers κ τ → Prop where
  /-- It makes the cell of its key if there is none. -/
  | request {i : Nat} (hcall : (calls i).lowers = true) (hphase : s.phase i = .idle) :
      Step calls s (.start i) (s.advance i .holding (s.cache.request (calls i).key))
  | find {i : Nat} {cell : CacheCell τ} (hcall : (calls i).lowers = false)
      (hphase : s.phase i = .idle) (hcell : s.cache.cell? (calls i).key = some cell) :
      Step calls s (.start i) (s.advance i .holding s.cache)
  | miss {i : Nat} (hcall : (calls i).lowers = false) (hphase : s.phase i = .idle)
      (hcell : s.cache.cell? (calls i).key = none) :
      Step calls s (.start i) (s.advance i (.answered none) s.cache)
  | read {i : Nat} (hcall : (calls i).lowers = false) (hphase : s.phase i = .holding) :
      Step calls s (.look i) (s.advance i (.answered (s.cache.get? (calls i).key)) s.cache)
  /-- It returns with the result that is there. -/
  | share {i : Nat} {r : Lowered τ} {c : Cache κ τ} (hcall : (calls i).lowers = true)
      (hphase : s.phase i = .holding)
      (hreserve : s.cache.reserve (calls i).key i = (.ready r, c)) :
      Step calls s (.look i) (s.advance i (.answered (some r)) c)
  | reserve {i : Nat} {c : Cache κ τ} (hcall : (calls i).lowers = true)
      (hphase : s.phase i = .holding)
      (hreserve : s.cache.reserve (calls i).key i = (.granted, c)) :
      Step calls s (.look i) (s.advance i .lowering c)
  | publish {i : Nat} (hphase : s.phase i = .lowering) (result : Except Refusal τ) :
      Step calls s (.finish i result)
        (s.advance i (.answered (some (s.cache.publish (calls i).key result).1))
          (s.cache.publish (calls i).key result).2)
  | abandon {i : Nat} (hphase : s.phase i = .lowering) :
      Step calls s (.breakOff i) (s.advance i .broken (s.cache.abandon (calls i).key))

/-- What can happen, one event after the other. -/
inductive Runs (calls : Nat → Call κ) : Callers κ τ → List (Event τ) → Callers κ τ → Prop where
  | nil (s : Callers κ τ) : Runs calls s [] s
  | cons {s s₁ s₂ : Callers κ τ} {e : Event τ} {events : List (Event τ)} :
      Step calls s e s₁ → Runs calls s₁ events s₂ → Runs calls s (e :: events) s₂

variable {calls : Nat → Call κ} {s s' s₁ t : Callers κ τ} {e : Event τ}
  {events before later : List (Event τ)} {key k : κ} {i j : Nat} {r : Lowered τ}

theorem Runs.append (h : Runs calls s before s₁) (h' : Runs calls s₁ later s') :
    Runs calls s (before ++ later) s' := by
  induction h with
  | nil => exact h'
  | cons hstep _ ih => exact .cons hstep (ih h')

/-- What every step keeps holds along a run. -/
theorem Runs.keeps {P : Callers κ τ → Prop}
    (hkeep : ∀ {s e s'}, P s → Step calls s e s' → P s') (h : Runs calls s events s') (hs : P s) :
    P s' := by
  induction h with
  | nil => exact hs
  | cons hstep _ ih => exact ih (hkeep hs hstep)

/-- A step leaves the other callers where they are. -/
theorem Step.phase_eq (h : Step calls s e s') (hj : j ≠ e.caller) : s'.phase j = s.phase j := by
  cases h <;> exact Function.update_of_ne hj _ _

/-- A step leaves the cells of other keys as they are. -/
theorem Step.cell?_eq (h : Step calls s e s') (hk : k ≠ (calls e.caller).key) :
    s'.cache.cell? k = s.cache.cell? k := by
  cases h with
  | request => exact (cell?_request _ _ _).trans (if_neg hk)
  | find => rfl
  | miss => rfl
  | read => rfl
  | share _ _ hreserve => rw [Callers.cache_advance, (reserve_eq_ready_iff.1 hreserve).2]
  | reserve _ _ hreserve =>
    rw [Callers.cache_advance, (reserve_eq_granted_iff.1 hreserve).2]
    exact (cell?_setCell _ _ _ _).trans (if_neg hk)
  | publish => exact (cell?_publish _ _ _ _).trans (if_neg hk)
  | abandon => exact (cell?_abandon _ _ _).trans (if_neg hk)

/-! ## A caller on its own -/

/-- The phase of a call that was given an answer. -/
def Answer.phase (a : Answer τ) : Phase (Lowered τ) :=
  match a.result with
  | .ok r => .answered (some r)
  | .error _ => .broken

/-- What `get?` does are steps of one caller, with nobody in between. -/
theorem get?_runs (hcall : (calls i).lowers = false) (hphase : s.phase i = .idle) :
    ∃ events, (∀ e ∈ events, e.caller = i) ∧
      Runs calls s events (s.advance i (.answered (s.cache.get? (calls i).key)) s.cache) := by
  cases hcell : s.cache.cell? (calls i).key with
  | none =>
    refine ⟨[.start i], by simp, .cons (.miss hcall hphase hcell) ?_⟩
    simp only [get?, hcell]
    exact .nil _
  | some cell =>
    have hlook := Step.read hcall (s.phase_advance_self i .holding s.cache)
    refine ⟨[.start i, .look i], by simp, .cons (.find hcall hphase hcell) (.cons hlook ?_)⟩
    rw [Callers.advance_advance]
    exact .nil _

/-- What `getOrLower` does are steps of one caller, with nobody in between. -/
theorem getOrLower_runs (hcall : (calls i).lowers = true) (hphase : s.phase i = .idle)
    (hreserved : ∀ j, s.cache.cell? (calls i).key ≠ some (.reserved j)) (lowering : Attempt τ) :
    ∃ events, (∀ e ∈ events, e.caller = i) ∧ Runs calls s events
      (s.advance i (s.cache.getOrLower (calls i).key lowering).1.phase
        (s.cache.getOrLower (calls i).key lowering).2) := by
  have hstart := Step.request (s := s) hcall hphase
  have hholding := s.phase_advance_self i .holding (s.cache.request (calls i).key)
  cases hcell : (s.cache.request (calls i).key).cell? (calls i).key with
  | none => simp at hcell
  | some cell =>
    cases cell with
    | reserved j =>
      cases hbefore : s.cache.cell? (calls i).key <;> simp [hbefore] at hcell
      simp [hbefore, hcell] at hreserved
    | published r =>
      have hlook := Step.share hcall hholding (reserve_eq_ready_iff.2 ⟨hcell, rfl⟩)
      refine ⟨[.start i, .look i], by simp, .cons hstart (.cons hlook ?_)⟩
      have hlone := (reserve_eq_ready_iff (i := 0)).2 ⟨hcell, rfl⟩
      simp only [getOrLower, hlone, Answer.phase, Callers.cache_advance, Callers.advance_advance]
      exact .nil _
    | free =>
      have hlook := Step.reserve hcall hholding (reserve_eq_granted_iff.2 ⟨hcell, rfl⟩)
      have hlowering := Callers.phase_advance_self (s.advance i .holding
        (s.cache.request (calls i).key)) i .lowering
        ((s.cache.request (calls i).key).setCell (calls i).key (.reserved i))
      have hlone := (reserve_eq_granted_iff (i := 0)).2 ⟨hcell, rfl⟩
      cases lowering with
      | ok tree =>
        refine ⟨[.start i, .look i, .finish i (.ok tree)], by simp,
          .cons hstart (.cons hlook (.cons (.publish hlowering _) ?_))⟩
        simp only [getOrLower, hlone, Answer.phase, Callers.cache_advance, Callers.advance_advance,
          publish_setCell]
        exact .nil _
      | error stop =>
        cases stop with
        | fault f =>
          refine ⟨[.start i, .look i, .breakOff i], by simp,
            .cons hstart (.cons hlook (.cons (.abandon hlowering) ?_))⟩
          simp only [getOrLower, hlone, Answer.phase, Callers.cache_advance,
            Callers.advance_advance, abandon_setCell]
          exact .nil _
        | refused r =>
          refine ⟨[.start i, .look i, .finish i (.error r)], by simp,
            .cons hstart (.cons hlook (.cons (.publish hlowering _) ?_))⟩
          simp only [getOrLower, hlone, Answer.phase, Callers.cache_advance,
            Callers.advance_advance, publish_setCell]
          exact .nil _

/-! ## One key -/

/-- The cell of a key agrees with how far the calls on the key have got. -/
structure Coherent (calls : Nat → Call κ) (key : κ) (cell : Option (CacheCell τ))
    (phase : Nat → Phase (Lowered τ)) : Prop where
  lowering_iff : ∀ i, cell = some (.reserved i) ↔ (calls i).key = key ∧ phase i = .lowering
  /-- A cell that was found stays. -/
  held : ∀ i, (calls i).key = key → phase i = .holding → cell ≠ none
  /-- Whoever is given a result is given the published one. -/
  shared : ∀ i r, (calls i).key = key → phase i = .answered (some r) → cell = some (.published r)
  answered : ∀ i, (calls i).key = key → (calls i).lowers = true → phase i ≠ .answered none

namespace Coherent

omit [DecidableEq κ]

variable {cell : Option (CacheCell τ)} {phase phase' : Nat → Phase (Lowered τ)}

/-- Only the calls on the key matter. -/
theorem congr (h : Coherent calls key cell phase)
    (hphase : ∀ i, (calls i).key = key → phase' i = phase i) : Coherent calls key cell phase' where
  lowering_iff i := by
    rw [h.lowering_iff]
    exact and_congr_right fun hi => by rw [hphase i hi]
  held i hi := hphase i hi ▸ h.held i hi
  shared i r hi := hphase i hi ▸ h.shared i r hi
  answered i hi := hphase i hi ▸ h.answered i hi

/-- A call that has not begun finds the cell, which is made if it was not there. -/
theorem hold (h : Coherent calls key cell phase) (hi : phase i = .idle) :
    Coherent calls key (some (cell.getD .free)) (Function.update phase i .holding) := by
  cases cell <;> constructor <;> grind [Coherent, Function.update_apply]

/-- A call that is not lowering is answered with what is published, if it is given a result. -/
theorem answer (h : Coherent calls key cell phase) (hi : phase i ≠ .lowering)
    {answer : Option (Lowered τ)} (hnone : answer = none → (calls i).lowers = false)
    (hsome : ∀ r, answer = some r → cell = some (.published r)) :
    Coherent calls key cell (Function.update phase i (.answered answer)) := by
  constructor <;> grind [Coherent, Function.update_apply]

/-- A call takes a free cell: nobody else is lowering. -/
theorem reserve (h : Coherent calls key (some .free) phase) (hi : (calls i).key = key) :
    Coherent calls key (some (.reserved i)) (Function.update phase i .lowering) := by
  constructor <;> grind [Coherent, Function.update_apply]

/-- Whoever holds the reservation publishes: nobody was given a result before. -/
theorem publish (h : Coherent calls key (some (.reserved i)) phase) (r : Lowered τ) :
    Coherent calls key (some (.published r)) (Function.update phase i (.answered (some r))) := by
  constructor <;> grind [Coherent, Function.update_apply]

theorem abandon (h : Coherent calls key (some (.reserved i)) phase) :
    Coherent calls key (some .free) (Function.update phase i .broken) := by
  constructor <;> grind [Coherent, Function.update_apply]

end Coherent

/-- Every cell agrees with the calls on its key. -/
def Callers.Coherent (calls : Nat → Call κ) (s : Callers κ τ) : Prop :=
  ∀ key, Cache.Coherent calls key (s.cache.cell? key) s.phase

/-- The cell of a call that is lowering is reserved for it. -/
theorem Callers.Coherent.cell?_eq (hs : s.Coherent calls) (hi : s.phase i = .lowering) :
    s.cache.cell? (calls i).key = some (.reserved i) :=
  ((hs (calls i).key).lowering_iff i).2 ⟨rfl, hi⟩

theorem Step.coherent (hs : s.Coherent calls) (h : Step calls s e s') : s'.Coherent calls := by
  intro k
  by_cases hk : k = (calls e.caller).key
  · subst hk
    have hkey := hs (calls e.caller).key
    cases h with
    | request hcall hphase => simpa using hkey.hold hphase
    | find hcall hphase hcell => simpa [hcell] using hkey.hold hphase
    | miss hcall hphase hcell => exact hkey.answer (by simp [hphase]) (fun _ => hcall) (by simp)
    | read hcall hphase =>
      exact hkey.answer (by simp [hphase]) (fun _ => hcall) fun r => get?_eq_some_iff.1
    | share hcall hphase hreserve =>
      obtain ⟨hcell, rfl⟩ := reserve_eq_ready_iff.1 hreserve
      exact hkey.answer (by simp [hphase]) (by simp) (by simpa using hcell)
    | reserve hcall hphase hreserve =>
      obtain ⟨hcell, rfl⟩ := reserve_eq_granted_iff.1 hreserve
      simp only [Event.caller, hcell] at hkey
      simpa [hcell] using hkey.reserve rfl
    | publish hphase result =>
      have hcell := hs.cell?_eq hphase
      simp only [Event.caller, hcell] at hkey
      simpa [hcell] using hkey.publish _
    | abandon hphase =>
      have hcell := hs.cell?_eq hphase
      simp only [Event.caller, hcell] at hkey
      simpa [hcell] using hkey.abandon
  · rw [h.cell?_eq hk]
    exact (hs k).congr fun i hi => h.phase_eq fun heq => hk (heq ▸ hi.symm)

theorem coherent_init (calls : Nat → Call κ) : ({} : Callers κ τ).Coherent calls := by
  intro key
  constructor <;> simp [cell?]

theorem Runs.coherent (h : Runs calls {} events s) : s.Coherent calls :=
  h.keeps Step.coherent (coherent_init calls)

end Cache

end FlowTree
