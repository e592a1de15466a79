import FlowTree.Flow.Walk
import FlowTree.Proofs.Attempts
import FlowTree.Proofs.Tables
import Mathlib.Logic.Relation

/-!
# Depth-first search

What the record of a search says about the graph that was searched.  `Walk.Traces` is the search
without its table and its rounds: a relation between a record and the lists that a paper proof
speaks of, the *path* of identifiers being explored and the identifiers *finished* so far, the
latest first.

Everything else is read off one list, the finished identifiers at the end.  An edge *advances* when
its target was finished before its source; all other edges lead back into the path.  The two facts
that carry later proofs are that an identifier is met without passing anything finished before it
(`Traces.exists_reaches`), and that advancing edges lead from the target of an edge that does not
advance to its source (`Traces.reaches_of_not_mem`).

## Main definitions

* `Adjacency.Edge` — one step in a graph.
* `Walk.Traces` — a record, the path, what was finished before, and the successors looked at.
* `Walk.Finishes` — an identifier is finished right after a list of others.
* `Before`, `Adjacency.Advances` — the order of finishing, and the edges that go down in it.
-/

namespace FlowTree

variable {k : Kind}

/-- The graph leads from `i` to `j` in one step. -/
def Adjacency.Edge (graph : Adjacency k) (i j : Ident k) : Prop :=
  ∃ js, graph.get? i = some js ∧ j ∈ js

/-- In a list of finished identifiers, the latest first, `i` comes before `j`. -/
def Before (finished : List (Ident k)) (i j : Ident k) : Prop :=
  ∃ earlier, (j :: earlier) <:+ finished ∧ i ∈ earlier

/-- An edge whose target was finished before its source. -/
def Adjacency.Advances (graph : Adjacency k) (finished : List (Ident k)) (i j : Ident k) : Prop :=
  graph.Edge i j ∧ Before finished j i

/-! ## The order of finishing -/

namespace Before

variable {finished later : List (Ident k)} {i j l : Ident k}

theorem mono (h : Before finished i j) (hl : finished <:+ later) : Before later i j := by
  obtain ⟨earlier, hs, hi⟩ := h
  exact ⟨earlier, hs.trans hl, hi⟩

theorem mem_right (h : Before finished i j) : j ∈ finished := by
  obtain ⟨earlier, hs, _⟩ := h
  exact hs.subset List.mem_cons_self

/-- What was finished before an identifier is one list. -/
theorem iff_mem (hn : finished.Nodup) {earlier : List (Ident k)} (hs : (j :: earlier) <:+ finished) :
    Before finished i j ↔ i ∈ earlier := by
  refine ⟨?_, fun hi => ⟨earlier, hs, hi⟩⟩
  rintro ⟨earlier', hs', hi⟩
  have hcons : ∀ {xs ys : List (Ident k)}, (j :: xs) <:+ (j :: ys) → (j :: ys).Nodup → xs = ys := by
    intro xs ys h hnd
    rcases List.suffix_cons_iff.1 h with heq | hsub
    · exact (List.cons.inj heq).2
    · exact absurd (hsub.subset List.mem_cons_self) (List.nodup_cons.1 hnd).1
  rcases List.suffix_or_suffix_of_suffix hs hs' with h | h
  · rw [hcons h (hn.sublist hs'.sublist)]
    exact hi
  · rw [← hcons h (hn.sublist hs.sublist)]
    exact hi

theorem irrefl (hn : finished.Nodup) : ¬ Before finished i i := by
  rintro ⟨earlier, hs, hi⟩
  exact (List.nodup_cons.1 (hn.sublist hs.sublist)).1 hi

theorem trans (hn : finished.Nodup) (hij : Before finished i j) (hjl : Before finished j l) :
    Before finished i l := by
  obtain ⟨before, hs, hj⟩ := hjl
  obtain ⟨before', hs', hi⟩ := hij
  have hnl := List.nodup_cons.1 (hn.sublist hs.sublist)
  refine ⟨before, hs, ?_⟩
  rcases List.suffix_or_suffix_of_suffix hs hs' with h | h
  · -- `l` would come before `j`, which comes before `l`
    have hnj := List.nodup_cons.1 (hn.sublist hs'.sublist)
    rcases List.suffix_cons_iff.1 h with heq | hsub
    · cases heq
      exact hi
    · exact absurd (hsub.subset (List.mem_cons_of_mem l hj)) hnj.1
  · rcases List.suffix_cons_iff.1 h with heq | hsub
    · cases heq
      exact hi
    · exact hsub.subset (List.mem_cons_of_mem j hi)

/-- Induction along the order of finishing. -/
theorem induction (hn : finished.Nodup) {C : Ident k → Prop}
    (step : ∀ j ∈ finished, (∀ i, Before finished i j → C i) → C j) : ∀ j ∈ finished, C j := by
  -- final segments of the list are closed under coming before
  have key : ∀ l : List (Ident k), l <:+ finished → ∀ j ∈ l, C j := by
    intro l
    induction l with
    | nil => intro _ j hj; cases hj
    | cons c l ih =>
      intro hl j hj
      have hC := ih ((List.suffix_cons c l).trans hl)
      rcases List.mem_cons.1 hj with rfl | hj
      · exact step j (hl.subset List.mem_cons_self) fun i hi => hC i ((iff_mem hn hl).1 hi)
      · exact hC j hj
  exact key finished (List.suffix_refl finished)

end Before

theorem Adjacency.Advances.mono {graph : Adjacency k} {finished later : List (Ident k)}
    {i j : Ident k} (h : graph.Advances finished i j) (hl : finished <:+ later) :
    graph.Advances later i j :=
  ⟨h.1, h.2.mono hl⟩

theorem Adjacency.advances_mono {graph : Adjacency k} {finished later : List (Ident k)}
    {i j : Ident k} (h : Relation.ReflTransGen (graph.Advances finished) i j)
    (hl : finished <:+ later) : Relation.ReflTransGen (graph.Advances later) i j := by
  induction h with
  | refl => exact .refl
  | tail _ hab ih => exact ih.tail (hab.mono hl)

/-- **Advancing edges form no cycle.** -/
theorem Adjacency.not_advances_cycle {graph : Adjacency k} {finished : List (Ident k)}
    (hn : finished.Nodup) (i : Ident k) :
    ¬ Relation.TransGen (graph.Advances finished) i i := by
  have down : ∀ {i j}, Relation.TransGen (graph.Advances finished) i j → Before finished j i := by
    intro i j h
    induction h with
    | single h => exact h.2
    | tail _ h ih => exact h.2.trans hn ih
  exact fun h => (down h).irrefl hn

namespace Walk

variable {graph : Adjacency k}

/-! ## Records of searches -/

/-- `w` is what a search finds at the successors `targets`, while `path` is being explored and
`finished` has been finished before, both with the latest first. -/
inductive Traces (graph : Adjacency k) :
    (path finished targets : List (Ident k)) → Walk k → Prop
  | done {path finished} : Traces graph path finished [] .done
  | descend {path finished i successors others inner rest} :
    i ∉ path → i ∉ finished → graph.get? i = some successors →
    Traces graph (i :: path) finished successors inner →
    Traces graph path (i :: inner.finished finished) others rest →
    Traces graph path finished (i :: others) (.descend i inner rest)
  | back {path finished i others rest} :
    i ∈ path → Traces graph path finished others rest →
    Traces graph path finished (i :: others) (.back i rest)
  | seen {path finished i others rest} :
    i ∈ finished → Traces graph path finished others rest →
    Traces graph path finished (i :: others) (.seen i rest)

/-- Along the walk, after `finished`, identifier `i` is finished right after `earlier`. -/
def Finishes : Walk k → List (Ident k) → Ident k → List (Ident k) → Prop
  | done, _, _, _ => False
  | descend j inner rest, finished, i, earlier =>
    inner.Finishes finished i earlier ∨ (i = j ∧ earlier = inner.finished finished) ∨
      rest.Finishes (j :: inner.finished finished) i earlier
  | back _ rest, finished, i, earlier => rest.Finishes finished i earlier
  | seen _ rest, finished, i, earlier => rest.Finishes finished i earlier

theorem suffix_finished (w : Walk k) (finished : List (Ident k)) :
    finished <:+ w.finished finished := by
  rw [finished_eq]
  exact List.suffix_append _ _

/-- What a list of finished identifiers ends with was finished before or along the walk. -/
theorem suffix_finished_iff {w : Walk k} {finished earlier : List (Ident k)} {i : Ident k} :
    (i :: earlier) <:+ w.finished finished ↔
      (i :: earlier) <:+ finished ∨ w.Finishes finished i earlier := by
  induction w generalizing finished with
  | done => simp [Walk.finished, Finishes]
  | descend j inner rest ihInner ihRest =>
    simp only [Walk.finished, Finishes]
    rw [ihRest, List.suffix_cons_iff, ihInner, List.cons.injEq]
    tauto
  | back j rest ih => exact ih
  | seen j rest ih => exact ih

theorem Finishes.suffix {w : Walk k} {finished earlier : List (Ident k)} {i : Ident k}
    (h : w.Finishes finished i earlier) : (i :: earlier) <:+ w.finished finished :=
  suffix_finished_iff.2 (.inr h)

theorem mem_finished_iff {w : Walk k} {finished : List (Ident k)} {i : Ident k} :
    i ∈ w.finished finished ↔ i ∈ finished ∨ ∃ earlier, w.Finishes finished i earlier := by
  have key : ∀ {l : List (Ident k)}, i ∈ l ↔ ∃ earlier, (i :: earlier) <:+ l := by
    intro l
    constructor
    · intro hi
      obtain ⟨front, earlier, rfl⟩ := List.append_of_mem hi
      exact ⟨earlier, List.suffix_append _ _⟩
    · rintro ⟨earlier, hs⟩
      exact hs.subset List.mem_cons_self
  rw [key, key (l := finished)]
  constructor
  · rintro ⟨earlier, h⟩
    rcases suffix_finished_iff.1 h with h | h
    · exact .inl ⟨earlier, h⟩
    · exact .inr ⟨earlier, h⟩
  · rintro (⟨earlier, h⟩ | ⟨earlier, h⟩)
    · exact ⟨earlier, suffix_finished_iff.2 (.inl h)⟩
    · exact ⟨earlier, suffix_finished_iff.2 (.inr h)⟩

/-! ## What a record says about the graph -/

namespace Traces

variable {path finished targets : List (Ident k)} {w : Walk k}

/-- Nothing is finished twice, and nothing on the path is finished. -/
theorem nodup (h : Traces graph path finished targets w) (hn : finished.Nodup)
    (hd : ∀ i ∈ path, i ∉ finished) :
    (w.finished finished).Nodup ∧ ∀ i ∈ path, i ∉ w.finished finished := by
  induction h with
  | done => exact ⟨hn, hd⟩
  | descend hp hf _ _ _ ihInner ihRest =>
    obtain ⟨hn', hd'⟩ := ihInner hn (List.forall_mem_cons.2 ⟨hf, hd⟩)
    obtain ⟨hi, hd'⟩ := List.forall_mem_cons.1 hd'
    refine ihRest (List.nodup_cons.2 ⟨hi, hn'⟩) ?_
    intro j hj hmem
    rcases List.mem_cons.1 hmem with rfl | hmem
    · exact hp hj
    · exact hd' j hj hmem
  | back _ _ ih => exact ih hn hd
  | seen _ _ ih => exact ih hn hd

/-- Every successor that was looked at is on the path or finished. -/
theorem mem_of_target (h : Traces graph path finished targets w) {j : Ident k} (hj : j ∈ targets) :
    j ∈ path ∨ j ∈ w.finished finished := by
  induction h with
  | done => cases hj
  | @descend path finished i _ _ inner rest _ _ _ _ _ _ ihRest =>
    rcases List.mem_cons.1 hj with rfl | hj
    · exact .inr ((suffix_finished rest _).subset List.mem_cons_self)
    · exact ihRest hj
  | back hi _ ih =>
    rcases List.mem_cons.1 hj with rfl | hj
    · exact .inl hi
    · exact ih hj
  | @seen path finished i _ rest hi _ ih =>
    rcases List.mem_cons.1 hj with rfl | hj
    · exact .inr ((suffix_finished rest _).subset hi)
    · exact ih hj

/-- Only identifiers of the graph are finished. -/
theorem lt_of_mem (h : Traces graph path finished targets w)
    (hf : ∀ i ∈ finished, i.index < graph.size) : ∀ i ∈ w.finished finished, i.index < graph.size := by
  induction h with
  | done => exact hf
  | descend _ _ hl _ _ ihInner ihRest =>
    exact ihRest (List.forall_mem_cons.2 ⟨Table.lt_of_get? hl, ihInner hf⟩)
  | back _ _ ih => exact ih hf
  | seen _ _ ih => exact ih hf

/-- What is finished along the walk leads to the path and to what is finished. -/
theorem edge_closed (h : Traces graph path finished targets w) {i j : Ident k}
    {earlier : List (Ident k)} (hi : w.Finishes finished i earlier) (hij : graph.Edge i j) :
    j ∈ i :: path ∨ j ∈ w.finished finished := by
  induction h with
  | done => exact hi.elim
  | @descend path finished l successors _ inner rest _ _ hl hinner _ ihInner ihRest =>
    have hsub : (l :: inner.finished finished) ⊆ rest.finished (l :: inner.finished finished) :=
      (suffix_finished rest _).subset
    rcases hi with hi | ⟨rfl, rfl⟩ | hi
    · rcases ihInner hi with hj | hj
      · rcases List.mem_cons.1 hj with rfl | hj
        · exact .inl List.mem_cons_self
        · rcases List.mem_cons.1 hj with rfl | hj
          · exact .inr (hsub List.mem_cons_self)
          · exact .inl (List.mem_cons_of_mem _ hj)
      · exact .inr (hsub (List.mem_cons_of_mem _ hj))
    · obtain ⟨js, hjs, hj⟩ := hij
      cases hl.symm.trans hjs
      rcases hinner.mem_of_target hj with hj | hj
      · exact .inl hj
      · exact .inr (hsub (List.mem_cons_of_mem _ hj))
    · exact ihRest hi
  | back _ _ ih => exact ih hi
  | seen _ _ ih => exact ih hi

/-- **An identifier is met without passing anything that was finished before it.** -/
theorem exists_reaches (h : Traces graph path finished targets w) (hn : finished.Nodup)
    (hd : ∀ i ∈ path, i ∉ finished) {i : Ident k} {earlier : List (Ident k)}
    (hi : w.Finishes finished i earlier) :
    ∃ j ∈ targets, j ∉ earlier ∧
      Relation.ReflTransGen (fun a b => graph.Edge a b ∧ b ∉ earlier) j i := by
  induction h with
  | done => exact hi.elim
  | @descend path finished l successors others inner rest hp hf hl hinner _ ihInner ihRest =>
    have hdl : ∀ j ∈ l :: path, j ∉ finished := List.forall_mem_cons.2 ⟨hf, hd⟩
    obtain ⟨hn', hd'⟩ := hinner.nodup hn hdl
    obtain ⟨hlf, hd'⟩ := List.forall_mem_cons.1 hd'
    rcases hi with hi | ⟨rfl, rfl⟩ | hi
    · obtain ⟨j, hj, hje, hr⟩ := ihInner hn hdl hi
      have hle : l ∉ earlier := fun hle =>
        hlf (hi.suffix.subset (List.mem_cons_of_mem i hle))
      exact ⟨l, List.mem_cons_self, hle, .head ⟨⟨successors, hl, hj⟩, hje⟩ hr⟩
    · exact ⟨i, List.mem_cons_self, hlf, .refl⟩
    · have hdr : ∀ j ∈ path, j ∉ l :: inner.finished finished := by
        intro j hj hmem
        rcases List.mem_cons.1 hmem with rfl | hmem
        · exact hp hj
        · exact hd' j hj hmem
      obtain ⟨j, hj, hr⟩ := ihRest (List.nodup_cons.2 ⟨hlf, hn'⟩) hdr hi
      exact ⟨j, List.mem_cons_of_mem l hj, hr⟩
  | @back path finished l others rest _ _ ih =>
    obtain ⟨j, hj, hr⟩ := ih hn hd hi
    exact ⟨j, List.mem_cons_of_mem l hj, hr⟩
  | @seen path finished l others rest _ _ ih =>
    obtain ⟨j, hj, hr⟩ := ih hn hd hi
    exact ⟨j, List.mem_cons_of_mem l hj, hr⟩

/-- Advancing edges lead from some successor to everything that was finished below it. -/
theorem exists_advances (h : Traces graph path finished targets w) {i : Ident k}
    {earlier : List (Ident k)} (hi : w.Finishes finished i earlier) :
    ∃ j ∈ targets, j ∈ w.finished finished ∧
      Relation.ReflTransGen (graph.Advances (w.finished finished)) j i := by
  induction h with
  | done => exact hi.elim
  | @descend path finished l successors others inner rest _ _ hl _ _ ihInner ihRest =>
    have hs : (l :: inner.finished finished) <:+ rest.finished (l :: inner.finished finished) :=
      suffix_finished rest _
    rcases hi with hi | ⟨rfl, rfl⟩ | hi
    · obtain ⟨j, hj, hjf, hr⟩ := ihInner hi
      have hlj : graph.Advances (rest.finished (l :: inner.finished finished)) l j :=
        ⟨⟨successors, hl, hj⟩, inner.finished finished, hs, hjf⟩
      have hmono : Relation.ReflTransGen
          (graph.Advances (rest.finished (l :: inner.finished finished))) j i :=
        Adjacency.advances_mono hr ((List.suffix_cons l _).trans hs)
      exact ⟨l, List.mem_cons_self, hs.subset List.mem_cons_self, .head hlj hmono⟩
    · exact ⟨i, List.mem_cons_self, hs.subset List.mem_cons_self, .refl⟩
    · obtain ⟨j, hj, hr⟩ := ihRest hi
      exact ⟨j, List.mem_cons_of_mem l hj, hr⟩
  | @back path finished l others rest _ _ ih =>
    obtain ⟨j, hj, hr⟩ := ih hi
    exact ⟨j, List.mem_cons_of_mem l hj, hr⟩
  | @seen path finished l others rest _ _ ih =>
    obtain ⟨j, hj, hr⟩ := ih hi
    exact ⟨j, List.mem_cons_of_mem l hj, hr⟩

/-- **An edge that does not advance leads to the path, or back to where advancing edges come
from.** -/
theorem reaches_of_not_mem (h : Traces graph path finished targets w) {i j : Ident k}
    {earlier : List (Ident k)} (hi : w.Finishes finished i earlier) (hij : graph.Edge i j)
    (hj : j ∉ earlier) :
    j ∈ path ∨ Relation.ReflTransGen (graph.Advances (w.finished finished)) j i := by
  induction h with
  | done => exact hi.elim
  | @descend path finished l successors others inner rest _ _ hl hinner _ ihInner ihRest =>
    have hs : (l :: inner.finished finished) <:+ rest.finished (l :: inner.finished finished) :=
      suffix_finished rest _
    have hmono : ∀ {a b}, Relation.ReflTransGen (graph.Advances (inner.finished finished)) a b →
        Relation.ReflTransGen (graph.Advances (rest.finished (l :: inner.finished finished))) a b :=
      fun hab => Adjacency.advances_mono hab ((List.suffix_cons l _).trans hs)
    rcases hi with hi | ⟨rfl, rfl⟩ | hi
    · rcases ihInner hi with hmem | hr
      · rcases List.mem_cons.1 hmem with rfl | hmem
        · -- the edge leads back to `l` itself, and everything below `l` is reached from it
          obtain ⟨c, hc, hcf, hr⟩ := hinner.exists_advances hi
          have hjc : graph.Advances (rest.finished (j :: inner.finished finished)) j c :=
            ⟨⟨successors, hl, hc⟩, inner.finished finished, hs, hcf⟩
          exact .inr (.head hjc (hmono hr))
        · exact .inl hmem
      · exact .inr (hmono hr)
    · obtain ⟨js, hjs, hmem⟩ := hij
      cases hl.symm.trans hjs
      rcases hinner.mem_of_target hmem with hmem | hmem
      · rcases List.mem_cons.1 hmem with rfl | hmem
        · exact .inr .refl
        · exact .inl hmem
      · exact absurd hmem hj
    · exact ihRest hi
  | back _ _ ih => exact ih hi
  | seen _ _ ih => exact ih hi

end Traces

/-! ## Cycles -/

/-- A search that meets nothing on its path finishes every identifier after its successors. -/
theorem Traces.advances_of_cycle?_eq_none {path finished targets marks : List (Ident k)}
    {w : Walk k} (h : Traces graph path finished targets w) (hc : w.cycle? marks = none)
    {i j : Ident k} {earlier : List (Ident k)} (hi : w.Finishes finished i earlier)
    (hij : graph.Edge i j) : j ∈ earlier := by
  have targets_finished : ∀ {path finished targets marks : List (Ident k)} {w : Walk k},
      Traces graph path finished targets w → w.cycle? marks = none →
      ∀ t ∈ targets, t ∈ w.finished finished := by
    intro path finished targets marks w h hc
    induction h with
    | done => intro t ht; cases ht
    | @descend path finished l successors others inner rest _ _ _ _ _ _ ihRest =>
      rw [cycle?, Option.or_eq_none_iff] at hc
      intro t ht
      rcases List.mem_cons.1 ht with rfl | ht
      · exact (suffix_finished rest _).subset List.mem_cons_self
      · exact ihRest hc.2 t ht
    | back => cases hc
    | @seen path finished l others rest hl _ ih =>
      intro t ht
      rcases List.mem_cons.1 ht with rfl | ht
      · exact (suffix_finished rest _).subset hl
      · exact ih hc t ht
  induction h generalizing marks with
  | done => exact hi.elim
  | @descend path finished l successors others inner rest _ _ hl hinner _ ihInner ihRest =>
    rw [cycle?, Option.or_eq_none_iff] at hc
    rcases hi with hi | ⟨rfl, rfl⟩ | hi
    · exact ihInner hc.1 hi
    · obtain ⟨js, hjs, hj⟩ := hij
      cases hl.symm.trans hjs
      exact targets_finished hinner hc.1 j hj
    · exact ihRest hc.2 hi
  | back => cases hc
  | seen _ _ ih => exact ih hc hi

/-- A search that meets something on its path meets it at one of its first successors, or at an
edge that does not advance. -/
theorem Traces.exists_of_cycle?_ne_none {path finished targets marks : List (Ident k)}
    {w : Walk k} (h : Traces graph path finished targets w) (hn : finished.Nodup)
    (hd : ∀ i ∈ path, i ∉ finished) (hc : w.cycle? marks ≠ none) :
    (∃ j ∈ targets, j ∈ path) ∨
      ∃ i earlier j, w.Finishes finished i earlier ∧ graph.Edge i j ∧ j ∉ earlier := by
  induction h generalizing marks with
  | done => exact absurd rfl hc
  | @descend path finished l successors others inner rest hp hf hl hinner _ ihInner ihRest =>
    have hdl : ∀ j ∈ l :: path, j ∉ finished := List.forall_mem_cons.2 ⟨hf, hd⟩
    obtain ⟨hn', hd'⟩ := hinner.nodup hn hdl
    rw [cycle?, Ne, Option.or_eq_none_iff, not_and_or] at hc
    rcases hc with hc | hc
    · rcases ihInner hn hdl hc with ⟨j, hj, hjp⟩ | ⟨i, earlier, j, hi, hij, hj⟩
      · exact .inr ⟨l, _, j, .inr (.inl ⟨rfl, rfl⟩), ⟨successors, hl, hj⟩, hd' j hjp⟩
      · exact .inr ⟨i, earlier, j, .inl hi, hij, hj⟩
    · have hdr : ∀ j ∈ path, j ∉ l :: inner.finished finished := by
        intro j hj hmem
        rcases List.mem_cons.1 hmem with rfl | hmem
        · exact hp hj
        · exact hd' j (List.mem_cons_of_mem l hj) hmem
      have hnl := List.nodup_cons.2 ⟨hd' l List.mem_cons_self, hn'⟩
      rcases ihRest hnl hdr hc with ⟨j, hj, hjp⟩ | ⟨i, earlier, j, hi, hij, hj⟩
      · exact .inl ⟨j, List.mem_cons_of_mem l hj, hjp⟩
      · exact .inr ⟨i, earlier, j, .inr (.inr hi), hij, hj⟩
  | @back path finished l others rest hl _ _ => exact .inl ⟨l, List.mem_cons_self, hl⟩
  | @seen path finished l others rest _ _ ih =>
    rcases ih hn hd hc with ⟨j, hj, hjp⟩ | hr
    · exact .inl ⟨j, List.mem_cons_of_mem l hj, hjp⟩
    · exact .inr hr

/-! ## The search follows the relation -/

/-- The table of a search says what is on the path and what is finished. -/
structure Marks (progress : Table k Progress) (path finished : List (Ident k)) : Prop where
  active : ∀ i, progress.get? i = some .active ↔ i ∈ path
  finished : ∀ i, progress.get? i = some .finished ↔ i ∈ finished

namespace Marks

variable {progress progress' : Table k Progress} {path done : List (Ident k)} {i : Ident k}

theorem activate (h : Marks progress path done) (hi : progress.get? i = some .unvisited)
    (hs : progress.set i .active = .ok progress') : Marks progress' (i :: path) done := by
  constructor
  · intro j
    rw [Table.get?_of_set hs, List.mem_cons, ← h.active j]
    by_cases hij : i = j
    · simp [hij]
    · simp [hij, Ne.symm hij]
  · intro j
    rw [Table.get?_of_set hs, ← h.finished j]
    by_cases hij : i = j
    · subst hij
      simp [hi]
    · simp [hij]

theorem finish (h : Marks progress (i :: path) done) (hp : i ∉ path)
    (hs : progress.set i .finished = .ok progress') : Marks progress' path (i :: done) := by
  constructor
  · intro j
    rw [Table.get?_of_set hs]
    by_cases hij : i = j
    · subst hij
      simp [hp]
    · rw [if_neg hij, h.active j]
      simp [Ne.symm hij]
  · intro j
    rw [Table.get?_of_set hs, List.mem_cons, ← h.finished j]
    by_cases hij : i = j
    · simp [hij]
    · simp [hij, Ne.symm hij]

end Marks

/-- **The record of a search is traced by the relation.** -/
theorem explore_traces {rounds : Nat} {path done targets : List (Ident k)}
    {progress progress' : Table k Progress} {w : Walk k}
    (h : explore graph rounds targets progress = .ok (w, progress'))
    (hm : Marks progress path done) :
    Traces graph path done targets w ∧ Marks progress' path (w.finished done) := by
  induction rounds generalizing targets progress progress' path done w with
  | zero =>
    cases targets with
    | nil =>
      cases h
      exact ⟨.done, hm⟩
    | cons i others => cases h
  | succ rounds ih =>
    cases targets with
    | nil =>
      cases h
      exact ⟨.done, hm⟩
    | cons i others =>
      simp only [explore, bind_eq_ok] at h
      obtain ⟨mark, hmark, h⟩ := h
      rw [Table.get_eq_ok_iff] at hmark
      cases mark with
      | unvisited =>
        simp only [bind_eq_ok, pure_eq_ok] at h
        obtain ⟨successors, hsucc, progress₁, hset, ⟨inner, progress₂⟩, hinner, progress₃, hset',
          ⟨rest, progress₄⟩, hrest, heq⟩ := h
        cases heq
        have hp : i ∉ path := fun hi => by simp [(hm.active i).2 hi] at hmark
        have hf : i ∉ done := fun hi => by simp [(hm.finished i).2 hi] at hmark
        obtain ⟨htInner, hmInner⟩ := ih hinner (hm.activate hmark hset)
        obtain ⟨htRest, hmRest⟩ := ih hrest (hmInner.finish hp hset')
        exact ⟨.descend hp hf (Table.get_eq_ok_iff.1 hsucc) htInner htRest, hmRest⟩
      | active =>
        simp only [bind_eq_ok, pure_eq_ok] at h
        obtain ⟨⟨rest, progress₁⟩, hrest, heq⟩ := h
        cases heq
        obtain ⟨ht, hm'⟩ := ih hrest hm
        exact ⟨.back ((hm.active i).1 hmark) ht, hm'⟩
      | finished =>
        simp only [bind_eq_ok, pure_eq_ok] at h
        obtain ⟨⟨rest, progress₁⟩, hrest, heq⟩ := h
        cases heq
        obtain ⟨ht, hm'⟩ := ih hrest hm
        exact ⟨.seen ((hm.finished i).1 hmark) ht, hm'⟩

theorem ofRoots_traces {roots : List (Ident k)} {w : Walk k} (h : ofRoots graph roots = .ok w) :
    Traces graph [] [] roots w := by
  simp only [ofRoots, bind_eq_ok, pure_eq_ok] at h
  obtain ⟨⟨w', progress⟩, hex, rfl⟩ := h
  refine (explore_traces hex ⟨?_, ?_⟩).1 <;>
  · intro i
    simp only [Table.replicate, Table.get?, Array.getElem?_replicate]
    split <;> simp

/-! ## The search ends in time -/

/-- How many successors the unvisited identifiers have together, entry by entry. -/
def pending : List (List (Ident k)) → List Progress → Nat
  | successors :: graph, mark :: marks =>
    (if mark = .unvisited then successors.length else 0) + pending graph marks
  | _, _ => 0

theorem pending_replicate (entries : List (List (Ident k))) :
    pending entries (List.replicate entries.length .unvisited) = entries.flatten.length := by
  induction entries with
  | nil => rfl
  | cons successors rest ih => simp [pending, List.replicate_succ, ih]

/-- Visiting an identifier for the first time takes its successors off the count. -/
theorem pending_set {entries : List (List (Ident k))} {marks : List Progress} {n : Nat}
    {successors : List (Ident k)} {mark mark' : Progress} (hs : entries[n]? = some successors)
    (hm : marks[n]? = some mark) (hne : mark' ≠ .unvisited) :
    pending entries (marks.set n mark') + (if mark = .unvisited then successors.length else 0) =
      pending entries marks := by
  induction entries generalizing marks n with
  | nil => simp at hs
  | cons first entries ih =>
    cases marks with
    | nil => simp at hm
    | cons first' marks =>
      cases n with
      | zero =>
        simp only [List.getElem?_cons_zero, Option.some.injEq] at hs hm
        subst hs hm
        simp only [List.set_cons_zero, pending, hne, if_false]
        omega
      | succ n =>
        simp only [List.getElem?_cons_succ] at hs hm
        have := ih hs hm
        simp only [List.set_cons_succ, pending]
        omega

/-- Every successor has an entry of its own. -/
def Closed (graph : Adjacency k) : Prop :=
  ∀ i j, graph.Edge i j → j.index < graph.size

/-- Marking an identifier takes its successors off what is pending, if it was unvisited. -/
theorem pending_of_set {progress progress' : Table k Progress} {i : Ident k}
    {successors : List (Ident k)} {mark mark' : Progress} (hi : graph.get? i = some successors)
    (hm : progress.get? i = some mark) (hne : mark' ≠ .unvisited)
    (hset : progress.set i mark' = .ok progress') :
    pending graph.toList progress'.toList + (if mark = .unvisited then successors.length else 0) =
      pending graph.toList progress.toList := by
  unfold Table.set at hset
  split at hset
  · cases hset
    simp only [Table.toList, Array.toList_set]
    exact pending_set (by simpa [Table.get?] using hi) (by simpa [Table.get?] using hm) hne
  · cases hset

/-- A search of a closed graph that has a round for each successor that can still be looked at has
a result, and leaves no more of them. -/
theorem exists_explore (hg : Closed graph) {rounds : Nat} {targets : List (Ident k)}
    {progress : Table k Progress} (hsize : progress.size = graph.size)
    (ht : ∀ i ∈ targets, i.index < graph.size)
    (hr : targets.length + pending graph.toList progress.toList ≤ rounds) :
    ∃ w progress', explore graph rounds targets progress = .ok (w, progress') ∧
      progress'.size = graph.size ∧
      pending graph.toList progress'.toList ≤ pending graph.toList progress.toList := by
  induction rounds generalizing targets progress with
  | zero =>
    have hnil : targets = [] := List.eq_nil_of_length_eq_zero (by omega)
    subst hnil
    exact ⟨.done, progress, rfl, hsize, Nat.le_refl _⟩
  | succ rounds ih =>
    cases targets with
    | nil => exact ⟨.done, progress, rfl, hsize, Nat.le_refl _⟩
    | cons i others =>
      have hi : i.index < graph.size := ht i List.mem_cons_self
      have hothers : ∀ j ∈ others, j.index < graph.size :=
        fun j hj => ht j (List.mem_cons_of_mem i hj)
      rw [List.length_cons] at hr
      obtain ⟨mark, hmark⟩ := Table.exists_get_eq_ok (t := progress) (i := i) (by omega)
      obtain ⟨successors, hsucc⟩ := Table.exists_get_eq_ok (t := graph) hi
      simp only [explore, bind_eq_ok]
      cases mark with
      | unvisited =>
        obtain ⟨progress₁, hset₁⟩ :=
          Table.exists_set_eq_ok (t := progress) (i := i) Progress.active (by omega)
        have hsize₁ := Table.size_of_set hset₁
        have hpend₁ := pending_of_set (Table.get_eq_ok_iff.1 hsucc) (Table.get_eq_ok_iff.1 hmark)
          (by simp) hset₁
        rw [if_pos rfl] at hpend₁
        have hclosed : ∀ j ∈ successors, j.index < graph.size :=
          fun j hj => hg i j ⟨successors, Table.get_eq_ok_iff.1 hsucc, hj⟩
        obtain ⟨inner, progress₂, hinner, hsize₂, hpend₂⟩ :=
          @ih successors progress₁ (by omega) hclosed (by omega)
        obtain ⟨mark₂, hmark₂⟩ := Table.exists_get_eq_ok (t := progress₂) (i := i) (by omega)
        obtain ⟨progress₃, hset₃⟩ :=
          Table.exists_set_eq_ok (t := progress₂) (i := i) Progress.finished (by omega)
        have hsize₃ := Table.size_of_set hset₃
        have hpend₃ := pending_of_set (Table.get_eq_ok_iff.1 hsucc) (Table.get_eq_ok_iff.1 hmark₂)
          (by simp) hset₃
        obtain ⟨rest, progress₄, hrest, hsize₄, hpend₄⟩ :=
          @ih others progress₃ (by omega) hothers (by omega)
        refine ⟨.descend i inner rest, progress₄, ⟨_, hmark, ?_⟩, hsize₄, by omega⟩
        simp only [bind_eq_ok, pure_eq_ok]
        exact ⟨_, hsucc, _, hset₁, _, hinner, _, hset₃, _, hrest, rfl⟩
      | active =>
        obtain ⟨rest, progress₁, hrest, hsize₁, hpend₁⟩ := ih hsize hothers (by omega)
        refine ⟨.back i rest, progress₁, ⟨_, hmark, ?_⟩, hsize₁, hpend₁⟩
        simp only [bind_eq_ok, pure_eq_ok]
        exact ⟨_, hrest, rfl⟩
      | finished =>
        obtain ⟨rest, progress₁, hrest, hsize₁, hpend₁⟩ := ih hsize hothers (by omega)
        refine ⟨.seen i rest, progress₁, ⟨_, hmark, ?_⟩, hsize₁, hpend₁⟩
        simp only [bind_eq_ok, pure_eq_ok]
        exact ⟨_, hrest, rfl⟩

/-- **A closed graph can be searched from any of its identifiers.** -/
theorem exists_ofRoots (hg : Closed graph) {roots : List (Ident k)}
    (hroots : ∀ i ∈ roots, i.index < graph.size) : ∃ w, ofRoots graph roots = .ok w := by
  have hpend : pending graph.toList
      (Table.replicate graph.size Progress.unvisited : Table k Progress).toList =
        graph.toList.flatten.length := by
    rw [← pending_replicate]
    simp [Table.toList, Table.replicate, Table.size]
  obtain ⟨w, progress, hex, _, _⟩ :=
    exists_explore hg (Table.size_replicate graph.size Progress.unvisited) hroots
      (Nat.le_of_eq (by rw [hpend, roundsFor]) : _ ≤ roundsFor graph roots)
  refine ⟨w, ?_⟩
  simp only [ofRoots, bind_eq_ok, pure_eq_ok]
  exact ⟨_, hex, rfl⟩

end Walk

end FlowTree
