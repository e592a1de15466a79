import FlowTree.Ident.Table
import FlowTree.Refusal
import Mathlib.Data.List.Forall2

/-!
# Loops that can stop

A `Checked` or `Attempt` computation is a chain of steps, each of which can stop it.  Most lemmas
here are about loops over a list: the results of the steps stand beside the members of the list, or
a state is threaded through them.

They come in pairs.  One half reads a result backwards into the results of the steps; the other
half says that a loop whose steps all have results has one itself, which is how the absence of
faults is proved.

## Main statements

* `bind_eq_error`, `liftM_eq_error` — where a chain of steps stops.
* `mapM_eq_ok`, `exists_mapM_eq_ok` — a loop that collects its results.
* `foldlM_induction`, `forall_of_foldlM_eq_ok`, `exists_foldlM_eq_ok` — a loop that threads a state.
* `exists_of_foldlM_eq_error` — where such a loop stops.
-/

namespace FlowTree

variable {ε α β : Type}

@[simp] theorem mapError_eq_ok {ε' : Type} {f : ε → ε'} {x : Except ε α} {a : α} :
    x.mapError f = .ok a ↔ x = .ok a := by
  cases x <;> simp [Except.mapError]

/-- A chain stops at its first step, or behind it. -/
theorem bind_eq_error {x : Except ε α} {f : α → Except ε β} {e : ε} :
    x >>= f = .error e ↔ x = .error e ∨ ∃ a, x = .ok a ∧ f a = .error e := by
  cases x with
  | error e' =>
    constructor
    · intro h
      cases h
      exact .inl rfl
    · rintro (h | ⟨_, h, _⟩) <;> cases h
      rfl
  | ok a => simp

theorem liftM_eq_error {x : Checked α} {stop : Stop} :
    (liftM x : Attempt α) = .error stop ↔ ∃ fault, x = .error fault ∧ stop = .fault fault := by
  cases x with
  | error fault =>
    constructor
    · intro h
      cases h
      exact ⟨fault, rfl, rfl⟩
    · rintro ⟨_, h, rfl⟩
      cases h
      rfl
  | ok a => simp

/-! ## Loops that collect -/

/-- Loops whose steps have the same results have the same result. -/
theorem mapM_congr {f f' : α → Except ε β} {as : List α} (h : ∀ a ∈ as, f a = f' a) :
    as.mapM f = as.mapM f' := by
  induction as with
  | nil => rfl
  | cons a rest ih =>
    obtain ⟨ha, hrest⟩ := List.forall_mem_cons.1 h
    rw [List.mapM_cons, List.mapM_cons, ha, ih hrest]

/-- The results of a loop stand beside the members that they came from. -/
theorem mapM_eq_ok {f : α → Except ε β} {as : List α} {bs : List β} :
    as.mapM f = .ok bs ↔ List.Forall₂ (fun a b => f a = .ok b) as bs := by
  induction as generalizing bs with
  | nil =>
    rw [List.mapM_nil, pure_eq_ok, List.forall₂_nil_left_iff]
    exact eq_comm
  | cons a rest ih =>
    simp only [List.mapM_cons, bind_eq_ok, pure_eq_ok]
    constructor
    · rintro ⟨b, hb, bs', hbs', rfl⟩
      exact .cons hb (ih.1 hbs')
    · intro h
      cases h with
      | cons hb hbs => exact ⟨_, hb, _, ih.2 hbs, rfl⟩

theorem exists_mapM_eq_ok {f : α → Except ε β} {as : List α} (h : ∀ a ∈ as, ∃ b, f a = .ok b) :
    ∃ bs, as.mapM f = .ok bs := by
  induction as with
  | nil => exact ⟨[], rfl⟩
  | cons a rest ih =>
    obtain ⟨b, hb⟩ := h a List.mem_cons_self
    obtain ⟨bs, hbs⟩ := ih fun c hc => h c (List.mem_cons_of_mem a hc)
    exact ⟨b :: bs, mapM_eq_ok.2 (.cons hb (mapM_eq_ok.1 hbs))⟩

/-- The results of a loop are those of its members. -/
theorem mem_of_mapM {f : α → Except ε β} {as : List α} {bs : List β} (h : as.mapM f = .ok bs) {b : β} :
    b ∈ bs ↔ ∃ a ∈ as, f a = .ok b := by
  have hall := mapM_eq_ok.1 h
  clear h
  induction hall with
  | nil => simp
  | cons hab _ ih => simp [ih, hab, eq_comm]

/-- The result at a position came from the member at that position. -/
theorem getElem?_of_mapM {f : α → Except ε β} {as : List α} {bs : List β} (h : as.mapM f = .ok bs)
    {n : Nat} {a : α} (ha : as[n]? = some a) : ∃ b, bs[n]? = some b ∧ f a = .ok b := by
  obtain ⟨hlen, hget⟩ := List.forall₂_iff_get.1 (mapM_eq_ok.1 h)
  obtain ⟨hlt, rfl⟩ := List.getElem?_eq_some_iff.1 ha
  exact ⟨_, List.getElem?_eq_getElem (hlen ▸ hlt), hget n hlt (hlen ▸ hlt)⟩

/-- The members of a list for which a loop answers yes. -/
theorem mem_zip_mapM {f : α → Except ε Bool} {as : List α} {flags : List Bool}
    (h : as.mapM f = .ok flags) :
    (((as.zip flags).filter Prod.snd).map Prod.fst).Sublist as ∧
      ∀ a, a ∈ ((as.zip flags).filter Prod.snd).map Prod.fst ↔ a ∈ as ∧ f a = .ok true := by
  have hall := mapM_eq_ok.1 h
  clear h
  induction hall with
  | nil => simp
  | @cons a flag as flags ha _ ih =>
    obtain ⟨hsub, hmem⟩ := ih
    cases flag with
    | true =>
      refine ⟨hsub.cons_cons a, fun c => ?_⟩
      simp only [List.zip_cons_cons, List.filter_cons, if_true, List.map_cons, List.mem_cons, hmem]
      constructor
      · rintro (rfl | ⟨hc, hfc⟩)
        · exact ⟨.inl rfl, ha⟩
        · exact ⟨.inr hc, hfc⟩
      · rintro ⟨rfl | hc, hfc⟩
        · exact .inl rfl
        · exact .inr ⟨hc, hfc⟩
    | false =>
      refine ⟨hsub.cons a, fun c => ?_⟩
      simp only [List.zip_cons_cons, List.filter_cons, Bool.false_eq_true, if_false, List.mem_cons, hmem]
      constructor
      · rintro ⟨hc, hfc⟩
        exact ⟨.inr hc, hfc⟩
      · rintro ⟨rfl | hc, hfc⟩
        · cases ha.symm.trans hfc
        · exact ⟨hc, hfc⟩

/-! ## Loops that thread a state -/

/-- A loop keeps what each of its steps keeps.  `P` may speak of the members already passed. -/
theorem foldlM_induction {f : β → α → Except ε β} (P : List α → β → Prop) {as : List α} {b b' : β}
    (h : as.foldlM f b = .ok b') (h0 : P [] b)
    (hstep : ∀ passed a later c c', as = passed ++ a :: later → P passed c → f c a = .ok c' →
      P (passed ++ [a]) c') :
    P as b' := by
  have key : ∀ later passed c, as = passed ++ later → P passed c → later.foldlM f c = .ok b' →
      P as b' := by
    intro later
    induction later with
    | nil =>
      intro passed c has hc h
      rw [List.foldlM_nil, pure_eq_ok] at h
      rw [has, List.append_nil, ← h]
      exact hc
    | cons a later ih =>
      intro passed c has hc h
      rw [List.foldlM_cons, bind_eq_ok] at h
      obtain ⟨c', hc', h⟩ := h
      exact ih (passed ++ [a]) c' (by simp [has]) (hstep passed a later c c' has hc hc') h
  exact key as [] b rfl h0 h

/-- What a step says about its member by having a result holds of all members of a loop that has
one. -/
theorem forall_of_foldlM_eq_ok {f : β → α → Except ε β} {P : α → Prop} {as : List α} {b b' : β}
    (h : as.foldlM f b = .ok b') (hstep : ∀ a c c', f c a = .ok c' → P a) : ∀ a ∈ as, P a := by
  refine foldlM_induction (fun passed _ => ∀ a ∈ passed, P a) h (by simp) ?_
  intro passed a later c c' _ hpassed hc'
  simpa [or_imp, forall_and] using ⟨hpassed, hstep a c c' hc'⟩

/-- A loop has a result if each step has one wherever `P` holds, and keeps `P`. -/
theorem exists_foldlM_eq_ok {f : β → α → Except ε β} (P : β → Prop) {as : List α} {b : β}
    (h0 : P b) (hstep : ∀ a ∈ as, ∀ c, P c → ∃ c', f c a = .ok c' ∧ P c') :
    ∃ b', as.foldlM f b = .ok b' ∧ P b' := by
  induction as generalizing b with
  | nil => exact ⟨b, rfl, h0⟩
  | cons a rest ih =>
    obtain ⟨c, hc, hP⟩ := hstep a List.mem_cons_self b h0
    obtain ⟨b', hb', hP'⟩ := ih hP fun d hd => hstep d (List.mem_cons_of_mem a hd)
    refine ⟨b', ?_, hP'⟩
    rw [List.foldlM_cons, bind_eq_ok]
    exact ⟨c, hc, hb'⟩

/-- A loop that stops has stopped at a member, in a state that the steps before it led to. -/
theorem exists_of_foldlM_eq_error {f : β → α → Except ε β} (P : β → Prop) {as : List α} {b : β} {e : ε}
    (h : as.foldlM f b = .error e) (h0 : P b)
    (hstep : ∀ a ∈ as, ∀ c c', P c → f c a = .ok c' → P c') :
    ∃ a ∈ as, ∃ c, P c ∧ f c a = .error e := by
  induction as generalizing b with
  | nil => cases h
  | cons a rest ih =>
    rw [List.foldlM_cons, bind_eq_error] at h
    rcases h with hc | ⟨c, hc, h⟩
    · exact ⟨a, List.mem_cons_self, b, h0, hc⟩
    · obtain ⟨a', ha', hfail⟩ := ih h (hstep a List.mem_cons_self b c h0 hc)
        fun a' ha' => hstep a' (List.mem_cons_of_mem a ha')
      exact ⟨a', List.mem_cons_of_mem a ha', hfail⟩

end FlowTree
