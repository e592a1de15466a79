import FlowTree.Ident.Table
import Mathlib.Data.List.Forall2
import Mathlib.Data.List.Perm.Subperm

/-!
# Tables as lists

The entries of a table, seen as a list beside the identifiers that they belong to.
-/

namespace FlowTree

variable {k : Kind} {α β : Type} {t : Table k α} {i : Ident k} {a : α}

theorem Ident.nodup_firsts (n : Nat) : (firsts n : List (Ident k)).Nodup := by
  rw [firsts, List.Nodup, List.pairwise_map]
  exact List.nodup_range.imp fun hne he => hne (congrArg Ident.index he)

theorem Ident.nodup_of_ascending {is : List (Ident k)}
    (h : is.Pairwise fun i j => i.index < j.index) : is.Nodup :=
  h.imp fun hlt he => Nat.ne_of_lt hlt (congrArg Ident.index he)

/-- There are no more distinct identifiers below `n` than `n`. -/
theorem Ident.length_le_of_nodup {is : List (Ident k)} {n : Nat} (hn : is.Nodup)
    (hlt : ∀ i ∈ is, i.index < n) : is.length ≤ n := by
  have hsub : is ⊆ firsts n := fun i hi => mem_firsts.2 (hlt i hi)
  simpa using (List.subperm_of_subset hn hsub).length_le

namespace Table

theorem getElem?_toList (t : Table k α) (n : Nat) : t.toList[n]? = t.get? ⟨n⟩ := by
  simp [toList, get?]

@[simp] theorem length_toList (t : Table k α) : t.toList.length = t.size := by
  simp [toList, size]

theorem lt_of_get? (h : t.get? i = some a) : i.index < t.size := by
  by_contra hn
  rw [get?_eq_none_iff.2 (Nat.not_lt.1 hn)] at h
  cases h

theorem exists_get? (h : i.index < t.size) : ∃ a, t.get? i = some a := by
  obtain ⟨a, ha⟩ := exists_get_eq_ok h
  exact ⟨a, get_eq_ok_iff.1 ha⟩

theorem mem_toList : a ∈ t.toList ↔ ∃ i, t.get? i = some a := by
  rw [List.mem_iff_getElem?]
  constructor
  · rintro ⟨n, hn⟩
    exact ⟨⟨n⟩, by rw [← getElem?_toList, hn]⟩
  · rintro ⟨i, hi⟩
    exact ⟨i.index, by rw [getElem?_toList, hi]⟩

@[simp] theorem toList_ofList (as : List α) : (ofList as : Table k α).toList = as := by
  simp [ofList, toList]

@[simp] theorem mem_idents : i ∈ t.idents ↔ i.index < t.size := by
  simp [idents]

theorem getElem?_idents (h : i.index < t.size) : t.idents[i.index]? = some i := by
  simp [idents, Ident.firsts, List.getElem?_range h]

theorem get?_replicate {n : Nat} (h : (replicate n a : Table k α).get? i = some b) : b = a := by
  simp only [replicate, get?, Array.getElem?_replicate] at h
  split at h <;> cases h
  rfl

theorem mem_zip_idents : (i, a) ∈ t.idents.zip t.toList ↔ t.get? i = some a := by
  rw [List.mem_iff_getElem?]
  simp only [List.getElem?_zip_eq_some, idents, Ident.firsts, List.getElem?_map, getElem?_toList]
  constructor
  · rintro ⟨n, hn, ha⟩
    obtain ⟨m, hm, rfl⟩ := Option.map_eq_some_iff.1 hn
    obtain ⟨_, rfl⟩ := List.getElem?_eq_some_iff.1 hm
    simpa using ha
  · intro h
    have hlt := lt_of_get? h
    exact ⟨i.index, by simp [List.getElem?_range hlt], h⟩

theorem mem_zip_toList {t : Table k α} {u : Table k β} {a : α} {b : β} :
    (a, b) ∈ t.toList.zip u.toList ↔ ∃ i, t.get? i = some a ∧ u.get? i = some b := by
  rw [List.mem_iff_getElem?]
  simp only [List.getElem?_zip_eq_some, getElem?_toList]
  exact ⟨fun ⟨n, h⟩ => ⟨⟨n⟩, h⟩, fun ⟨i, h⟩ => ⟨i.index, h⟩⟩

/-- Entries that know their identifiers list them all. -/
theorem map_toList_eq_firsts {key : α → Ident k} (h : ∀ {i a}, t.get? i = some a → key a = i) :
    t.toList.map key = Ident.firsts t.size := by
  refine List.ext_getElem? fun n => ?_
  rw [List.getElem?_map, getElem?_toList]
  by_cases hn : n < t.size
  · obtain ⟨a, ha⟩ := exists_get? (t := t) (i := ⟨n⟩) hn
    simp [ha, h ha, Ident.firsts, hn]
  · rw [get?_eq_none_iff.2 (Nat.not_lt.1 hn)]
    simp [Ident.firsts, hn]

/-- An update changes one entry of the list. -/
theorem toList_of_set {t t' : Table k α} {a a' : α} (hi : t.get? i = some a)
    (h : t.set i a' = .ok t') :
    ∃ before after, t.toList = before ++ a :: after ∧ t'.toList = before ++ a' :: after := by
  unfold set at h
  split at h <;> cases h
  rename_i hlt
  obtain ⟨before, after, hlist, hlen⟩ : ∃ before after, t.toList = before ++ a :: after ∧
      before.length = i.index := by
    rw [← getElem?_toList] at hi
    obtain ⟨hlt, rfl⟩ := List.getElem?_eq_some_iff.1 hi
    exact ⟨t.toList.take i.index, t.toList.drop (i.index + 1), by simp,
      List.length_take_of_le (Nat.le_of_lt hlt)⟩
  refine ⟨before, after, hlist, ?_⟩
  simp only [toList, Array.toList_set] at hlist ⊢
  rw [hlist, ← hlen, List.set_append_right _ _ (Nat.le_refl _), Nat.sub_self, List.set_cons_zero]

/-- The results of a loop over all identifiers, as a table. -/
theorem get?_ofList_of_forall₂ {n : Nat} {bs : List β} {r : Ident k → β → Prop}
    (h : List.Forall₂ r (Ident.firsts n) bs) (hi : i.index < n) :
    ∃ b, (ofList bs : Table k β).get? i = some b ∧ r i b := by
  rw [List.forall₂_iff_get] at h
  obtain ⟨hlen, hget⟩ := h
  have hlt : i.index < bs.length := by
    rw [← hlen]
    simpa using hi
  refine ⟨bs.get ⟨i.index, hlt⟩, ?_, ?_⟩
  · simp [hlt]
  · have := hget i.index (by simpa using hi) hlt
    simpa [Ident.firsts] using this

end Table

end FlowTree
