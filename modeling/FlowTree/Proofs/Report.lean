import FlowTree.Loop.Discovery
import FlowTree.Proofs.Retreat

/-!
# What discovery reports

Discovery follows the record of a search and keeps sets of loops.  Read through the list of headers,
what it keeps for a block is exactly a report in the sense of `FlowGraph.IsReport`, and its headers
are exactly the targets of retreating edges.

The invariant `Discovery.Sound` says this of the blocks finished so far.  It has one clause that
looks ahead: a header found at a block still being explored lies on the part of the path that ends
in that block, so it is not finished when the block is.

## Main statements

* `Discovery.follow_sound` — following a record keeps the invariant.
* `Discovery.ofWalk_complete` — what discovery along a search from the entry says.
-/

namespace FlowTree.Discovery

variable {graph : Adjacency .block} {d d' : Discovery} {ls : LoopSet} {b h : BlockId}

/-- Some loop of the set has the header `h`. -/
def Names (d : Discovery) (ls : LoopSet) (h : BlockId) : Prop :=
  ∃ l ∈ ls, d.headers[l.index]? = some h

/-- Block `b` reported a loop with the header `h`. -/
def Reports (d : Discovery) (b h : BlockId) : Prop :=
  ∃ ls, d.reported.get? b = some ls ∧ d.Names ls h

/-- All loops of the set are known. -/
def Knows (d : Discovery) (ls : LoopSet) : Prop := ∀ l ∈ ls, l.index < d.headers.length

/-! ## Names -/

@[simp] theorem names_empty : ¬ d.Names ∅ h := by
  rintro ⟨l, hl, _⟩
  exact IdSet.not_mem_empty l hl

@[simp] theorem names_union {ls' : LoopSet} :
    d.Names (ls ∪ ls') h ↔ d.Names ls h ∨ d.Names ls' h := by
  simp only [Names, IdSet.mem_union, or_and_right, exists_or]

theorem names_insert {l : LoopId} {header : BlockId} (hl : d.headers[l.index]? = some header) :
    d.Names (ls.insert l) h ↔ h = header ∨ d.Names ls h := by
  simp only [Names, IdSet.mem_insert, or_and_right, exists_or, exists_eq_left, hl, Option.some.injEq]
  rw [@eq_comm _ header]

/-- Later headers change nothing about loops that are known. -/
theorem names_congr (hk : d.Knows ls) (hp : d.headers <+: d'.headers) :
    d'.Names ls h ↔ d.Names ls h := by
  obtain ⟨more, hmore⟩ := hp
  have hget : ∀ l ∈ ls, d'.headers[l.index]? = d.headers[l.index]? := fun l hl => by
    rw [← hmore, List.getElem?_append_left (hk l hl)]
  exact exists_congr fun l => and_congr_right fun hl => by rw [hget l hl]

theorem Knows.mono (hk : d.Knows ls) (hp : d.headers <+: d'.headers) : d'.Knows ls :=
  fun l hl => Nat.lt_of_lt_of_le (hk l hl) hp.length_le

/-! ## The steps of discovery -/

theorem getElem?_of_loopAt? {l : LoopId} (hl : d.loopAt? b = some l) :
    d.headers[l.index]? = some b := by
  obtain ⟨n, hn, rfl⟩ := Option.map_eq_some_iff.1 hl
  obtain ⟨hlt, hget, _⟩ := List.idxOf?_eq_some_iff.1 hn
  exact List.getElem?_eq_some_iff.2 ⟨hlt, by simpa using hget⟩

theorem loopAt?_eq_none_iff : d.loopAt? b = none ↔ b ∉ d.headers := by
  simp [loopAt?]

/-- Looking up the loop of a header finds it, or adds the header behind those known. -/
theorem loopAt_cases {limit : Option Nat} {l : LoopId} (hl : d.loopAt limit b = .ok (l, d')) :
    d'.reported = d.reported ∧ d'.headers[l.index]? = some b ∧
      (d' = d ∨ (b ∉ d.headers ∧ d'.headers = d.headers ++ [b])) := by
  unfold loopAt at hl
  split at hl
  · rename_i l' hl'
    cases hl
    exact ⟨rfl, getElem?_of_loopAt? hl', .inl rfl⟩
  · rename_i hnone
    split at hl
    · cases hl
    · simp only [bind_eq_ok, liftM_eq_ok, pure_eq_ok] at hl
      obtain ⟨l', hl', heq⟩ := hl
      cases heq
      have hidx : l.index = d.headers.length := by
        unfold Ident.ofIndex at hl'
        split at hl' <;> cases hl'
        rfl
      refine ⟨rfl, ?_, .inr ⟨loopAt?_eq_none_iff.1 hnone, rfl⟩⟩
      simp [hidx]

/-- A finished block reports what was reported below it, less itself. -/
theorem finish_cases {below report : LoopSet} (hn : d.headers.Nodup)
    (hf : d.finish b below = .ok (report, d')) :
    d'.headers = d.headers ∧ d.reported.set b report = .ok d'.reported ∧
      (∀ l ∈ report, l ∈ below) ∧ ∀ h, d.Names report h ↔ h ≠ b ∧ d.Names below h := by
  simp only [finish, bind_eq_ok, pure_eq_ok, Prod.mk.injEq] at hf
  obtain ⟨reported, hset, rfl, rfl⟩ := hf
  refine ⟨rfl, hset, ?_, ?_⟩
  · intro l hl
    split at hl
    · exact (IdSet.mem_erase.1 hl).1
    · exact hl
  · intro h
    split
    · rename_i l hl
      have hget := getElem?_of_loopAt? hl
      constructor
      · rintro ⟨l', hl', hh⟩
        rw [IdSet.mem_erase] at hl'
        refine ⟨?_, l', hl'.1, hh⟩
        rintro rfl
        -- no header occurs twice
        have hlt := (List.getElem?_eq_some_iff.1 hh).1
        exact hl'.2 (Ident.ext ((List.getElem?_inj hlt hn).1 (hh.trans hget.symm)))
      · rintro ⟨hne, l', hl', hh⟩
        refine ⟨l', IdSet.mem_erase.2 ⟨hl', ?_⟩, hh⟩
        rintro rfl
        exact hne (Option.some.inj (hh.symm.trans hget))
    · rename_i hnone
      refine ⟨fun hh => ⟨?_, hh⟩, fun hh => hh.2⟩
      rintro rfl
      obtain ⟨l, _, hget⟩ := hh
      exact loopAt?_eq_none_iff.1 hnone (List.mem_of_getElem? hget)

/-! ## The invariant -/

/-- What discovery knows after `finished`, the latest first, while `path` is being explored. -/
structure Sound (graph : Adjacency .block) (d : Discovery) (path finished : List BlockId) :
    Prop where
  nodup : d.headers.Nodup
  knows : ∀ {b ls}, d.reported.get? b = some ls → d.Knows ls
  reports : ∀ {a earlier h}, (a :: earlier) <:+ finished → (d.Reports a h ↔ h ≠ a ∧
    ∃ v, graph.Edge a v ∧ ((v ∉ earlier ∧ h = v) ∨ (v ∈ earlier ∧ d.Reports v h)))
  silent : ∀ {a h}, a ∉ finished → ¬ d.Reports a h
  heads : ∀ {a earlier h}, (a :: earlier) <:+ finished → graph.Edge a h → h ∉ earlier →
    h ∈ d.headers
  origin : ∀ {h}, h ∈ d.headers →
    (∃ a earlier, (a :: earlier) <:+ finished ∧ graph.Edge a h ∧ h ∉ earlier) ∨
      ∃ a below, (a :: below) <:+ path ∧ graph.Edge a h ∧ h ∈ a :: below

namespace Sound

variable {path finished : List BlockId}

/-- Starting to explore a block changes nothing. -/
theorem push (hs : Sound graph d path finished) (i : BlockId) :
    Sound graph d (i :: path) finished where
  nodup := hs.nodup
  knows := hs.knows
  reports := hs.reports
  silent := hs.silent
  heads := hs.heads
  origin hh := by
    rcases hs.origin hh with h | ⟨a, below, hp, h⟩
    · exact .inl h
    · exact .inr ⟨a, below, hp.trans (List.suffix_cons i path), h⟩

/-- A retreating edge from the block being explored makes its target a header. -/
theorem loopAt {limit : Option Nat} {l : LoopId} {a : BlockId} {below : List BlockId}
    (hs : Sound graph d (a :: below) finished) (hl : d.loopAt limit b = .ok (l, d'))
    (hb : b ∈ a :: below) (hab : graph.Edge a b) :
    Sound graph d' (a :: below) finished ∧ d.headers <+: d'.headers ∧
      ∀ c h, d'.Reports c h ↔ d.Reports c h := by
  obtain ⟨hrep, _, rfl | ⟨hnew, hheaders⟩⟩ := loopAt_cases hl
  · exact ⟨hs, List.prefix_refl _, fun _ _ => Iff.rfl⟩
  have hp : d.headers <+: d'.headers := hheaders ▸ List.prefix_append _ _
  have hreports : ∀ c h, d'.Reports c h ↔ d.Reports c h := by
    intro c h
    unfold Reports
    rw [hrep]
    exact exists_congr fun ls => and_congr_right fun hc => names_congr (hs.knows hc) hp
  refine ⟨⟨?_, ?_, ?_, ?_, ?_, ?_⟩, hp, hreports⟩
  · rw [hheaders]
    refine List.nodup_append.2 ⟨hs.nodup, by simp, fun x hx y hy e => ?_⟩
    exact hnew (List.mem_singleton.1 hy ▸ e ▸ hx)
  · intro c ls hc
    rw [hrep] at hc
    exact (hs.knows hc).mono hp
  · intro c earlier h hc
    simp only [hreports]
    exact hs.reports hc
  · intro c h hc
    rw [hreports]
    exact hs.silent hc
  · intro c earlier h hc hch hh
    exact hp.subset (hs.heads hc hch hh)
  · intro h hh
    rw [hheaders, List.mem_append, List.mem_singleton] at hh
    rcases hh with hh | rfl
    · exact hs.origin hh
    · exact .inr ⟨a, below, List.suffix_refl _, hab, hb⟩

/-- Finishing the block being explored, where `below` is what its successors reported. -/
theorem finish {below report : LoopSet} {i : BlockId} (hs : Sound graph d (i :: path) finished)
    (hd : ∀ j ∈ i :: path, j ∉ finished) (hk : d.Knows below)
    (hf : d.finish i below = .ok (report, d'))
    (htargets : ∀ v, graph.Edge i v → v ∈ i :: path ∨ v ∈ finished)
    (hheads : ∀ v, graph.Edge i v → v ∈ i :: path → v ∈ d.headers)
    (hnames : ∀ h, d.Names below h ↔
      ∃ v, graph.Edge i v ∧ ((v ∈ i :: path ∧ h = v) ∨ (v ∉ i :: path ∧ d.Reports v h))) :
    Sound graph d' path (i :: finished) ∧ d'.headers = d.headers ∧ d'.Knows report ∧
      (∀ c, c ≠ i → ∀ h, d'.Reports c h ↔ d.Reports c h) ∧
      ∀ h, d'.Names report h ↔ d'.Reports i h := by
  obtain ⟨hheaders, hset, hsub, hreport⟩ := finish_cases hs.nodup hf
  have hif : i ∉ finished := hd i List.mem_cons_self
  have hnames' : ∀ ls h, d'.Names ls h ↔ d.Names ls h := by
    intro ls h
    unfold Names
    rw [hheaders]
  have hother : ∀ c, c ≠ i → ∀ h, d'.Reports c h ↔ d.Reports c h := by
    intro c hc h
    unfold Reports
    rw [Table.get?_of_set hset, if_neg (Ne.symm hc)]
    simp only [hnames']
  have hself : ∀ h, d'.Reports i h ↔ d'.Names report h := by
    intro h
    unfold Reports
    rw [Table.get?_of_set hset, if_pos rfl]
    simp
  have hk' : d'.Knows report := fun l hl => hheaders ▸ hk l (hsub l hl)
  refine ⟨⟨?_, ?_, ?_, ?_, ?_, ?_⟩, hheaders, hk', hother, fun h => (hself h).symm⟩
  · rw [hheaders]
    exact hs.nodup
  · intro c ls hc
    rw [Table.get?_of_set hset] at hc
    split at hc
    · cases hc
      exact hk'
    · intro l hl
      rw [hheaders]
      exact hs.knows hc l hl
  · intro a earlier h ha
    rcases List.suffix_cons_iff.1 ha with heq | ha
    · cases heq
      rw [hself, hnames', hreport, hnames]
      refine and_congr_right fun _ => exists_congr fun v => and_congr_right fun hv => ?_
      -- what is not finished by now is on the path, the block itself included
      have hmem : v ∈ i :: path ↔ v ∉ finished :=
        ⟨hd v, fun hn => (htargets v hv).resolve_right hn⟩
      rw [hmem, not_not]
      refine or_congr_right (and_congr_right fun hvf => ?_)
      rw [hother v (fun e => hif (e ▸ hvf))]
    · have hne : ∀ v ∈ a :: earlier, v ≠ i := fun v hv e => hif (e ▸ ha.subset hv)
      rw [hother a (hne a List.mem_cons_self), hs.reports ha]
      refine and_congr_right fun _ => exists_congr fun v => and_congr_right fun _ => ?_
      refine or_congr_right (and_congr_right fun hv => ?_)
      rw [hother v (hne v (List.mem_cons_of_mem a hv))]
  · intro a h ha
    rw [List.mem_cons, not_or] at ha
    rw [hother a ha.1]
    exact hs.silent ha.2
  · intro a earlier h ha hah hh
    rw [hheaders]
    rcases List.suffix_cons_iff.1 ha with heq | ha
    · cases heq
      exact hheads h hah ((htargets h hah).resolve_right hh)
    · exact hs.heads ha hah hh
  · intro h hh
    rw [hheaders] at hh
    rcases hs.origin hh with ⟨a, earlier, ha, hah⟩ | ⟨a, below, hp, hah, hmem⟩
    · exact .inl ⟨a, earlier, ha.trans (List.suffix_cons i finished), hah⟩
    · rcases List.suffix_cons_iff.1 hp with heq | hp
      · cases heq
        exact .inl ⟨i, finished, List.suffix_refl _, hah, hd h hmem⟩
      · exact .inr ⟨a, below, hp, hah, hmem⟩

end Sound

/-! ## Following a record -/

/-- What following a record along the successors `targets` does to what is known. -/
structure Followed (graph : Adjacency .block) (path finished finished' targets : List BlockId)
    (d d' : Discovery) (report report' : LoopSet) : Prop where
  sound : Sound graph d' path finished'
  knows : d'.Knows report'
  extends_headers : d.headers <+: d'.headers
  reports : ∀ a ∈ finished, ∀ h, d'.Reports a h ↔ d.Reports a h
  heads : ∀ v ∈ targets, v ∈ path → v ∈ d'.headers
  names : ∀ h, d'.Names report' h ↔ d.Names report h ∨
    ∃ v ∈ targets, (v ∈ path ∧ h = v) ∨ (v ∉ path ∧ d'.Reports v h)

namespace Followed

variable {path finished finished' others : List BlockId} {d₁ : Discovery} {i : BlockId}
  {report report' reported : LoopSet}

/-- A successor that is finished: it reports what it reported then. -/
theorem seen (hip : i ∉ path) (hi : i ∈ finished) (hreported : d.reported.get? i = some reported)
    (h₁ : Followed graph path finished finished' others d d' (report ∪ reported) report') :
    Followed graph path finished finished' (i :: others) d d' report report' := by
  refine ⟨h₁.sound, h₁.knows, h₁.extends_headers, h₁.reports, ?_, ?_⟩
  · intro v hv hvp
    rcases List.mem_cons.1 hv with rfl | hv
    · exact absurd hvp hip
    · exact h₁.heads v hv hvp
  · intro h
    have hself : d.Names reported h ↔ d.Reports i h := by
      simp [Reports, hreported]
    rw [h₁.names, names_union, hself, ← h₁.reports i hi, List.exists_mem_cons_iff]
    simp only [hip, not_false_eq_true, false_and, true_and, false_or, or_assoc]

/-- A successor on the path: it is the header of a loop. -/
theorem back {l : LoopId} (hi : i ∈ path) (hk : d.Knows report) (hgrow : d.headers <+: d₁.headers)
    (hget : d₁.headers[l.index]? = some i) (hreports : ∀ c h, d₁.Reports c h ↔ d.Reports c h)
    (h₁ : Followed graph path finished finished' others d₁ d' (report.insert l) report') :
    Followed graph path finished finished' (i :: others) d d' report report' := by
  refine ⟨h₁.sound, h₁.knows, hgrow.trans h₁.extends_headers, ?_, ?_, ?_⟩
  · intro c hc h
    rw [h₁.reports c hc, hreports]
  · intro v hv hvp
    rcases List.mem_cons.1 hv with rfl | hv
    · exact h₁.extends_headers.subset (List.mem_of_getElem? hget)
    · exact h₁.heads v hv hvp
  · intro h
    rw [h₁.names, names_insert hget, names_congr hk hgrow, List.exists_mem_cons_iff]
    simp only [hi, true_and, not_true_eq_false, false_and, or_false]
    rw [@or_comm (h = i), or_assoc]

/-- A successor that was searched in between: it reports what was found below it. -/
theorem descend {below : List BlockId} (hp : i ∉ path) (hsub : finished ⊆ below)
    (hk : d.Knows report) (hgrow : d.headers <+: d₁.headers)
    (hreports : ∀ a ∈ finished, ∀ h, d₁.Reports a h ↔ d.Reports a h)
    (hself : ∀ h, d₁.Names reported h ↔ d₁.Reports i h)
    (h₁ : Followed graph path (i :: below) finished' others d₁ d' (report ∪ reported) report') :
    Followed graph path finished finished' (i :: others) d d' report report' := by
  refine ⟨h₁.sound, h₁.knows, hgrow.trans h₁.extends_headers, ?_, ?_, ?_⟩
  · intro a ha h
    rw [h₁.reports a (List.mem_cons_of_mem i (hsub ha)), hreports a ha]
  · intro v hv hvp
    rcases List.mem_cons.1 hv with rfl | hv
    · exact absurd hvp hp
    · exact h₁.heads v hv hvp
  · intro h
    rw [h₁.names, names_union, names_congr hk hgrow, hself, ← h₁.reports i List.mem_cons_self,
      List.exists_mem_cons_iff]
    simp only [hp, not_false_eq_true, false_and, true_and, false_or, or_assoc]

end Followed

/-- **Following a record keeps the invariant**, and the result names what the successors report. -/
theorem follow_sound {limit : Option Nat} {path finished targets : List BlockId}
    {w : Walk .block} {report report' : LoopSet}
    (ht : Walk.Traces graph path finished targets w) (hn : finished.Nodup)
    (hd : ∀ i ∈ path, i ∉ finished) (hs : Sound graph d path finished) (hk : d.Knows report)
    (he : ∀ a ∈ path.head?, ∀ v ∈ targets, graph.Edge a v)
    (hf : follow limit w d report = .ok (report', d')) :
    Followed graph path finished (w.finished finished) targets d d' report report' := by
  induction ht generalizing d d' report report' with
  | done =>
    cases hf
    exact ⟨hs, hk, List.prefix_refl _, fun _ _ _ => Iff.rfl, by simp, by simp⟩
  | @descend path finished i successors others inner rest hp hif hi hinner hrest ihInner ihRest =>
    simp only [follow, bind_eq_ok, liftM_eq_ok] at hf
    obtain ⟨⟨below, d₁⟩, hf₁, ⟨reported, d₂⟩, hf₂, hf⟩ := hf
    have hdi : ∀ j ∈ i :: path, j ∉ finished := List.forall_mem_cons.2 ⟨hif, hd⟩
    obtain ⟨hn₁, hd₁⟩ := hinner.nodup hn hdi
    have hedge : ∀ v, graph.Edge i v ↔ v ∈ successors := by
      intro v
      constructor
      · rintro ⟨vs, hvs, hv⟩
        exact Option.some.inj (hi.symm.trans hvs) ▸ hv
      · exact fun hv => ⟨successors, hi, hv⟩
    have h₁ := ihInner hn hdi (hs.push i) (fun l hl => absurd hl (IdSet.not_mem_empty l))
      (fun a ha v hv => by cases ha; exact (hedge v).2 hv) hf₁
    obtain ⟨hs₂, hheaders, hk₂, hother, hself⟩ := h₁.sound.finish hd₁ h₁.knows hf₂
      (fun v hv => hinner.mem_of_target ((hedge v).1 hv))
      (fun v hv hvp => h₁.heads v ((hedge v).1 hv) hvp)
      (fun h => by simp only [h₁.names, names_empty, false_or, hedge])
    have hni : i ∉ inner.finished finished := hd₁ i List.mem_cons_self
    have hd₂ : ∀ j ∈ path, j ∉ i :: inner.finished finished := by
      intro j hj hmem
      rcases List.mem_cons.1 hmem with rfl | hmem
      · exact hp hj
      · exact hd₁ j (List.mem_cons_of_mem i hj) hmem
    have hgrow : d.headers <+: d₂.headers := hheaders ▸ h₁.extends_headers
    have h₂ := ihRest (List.nodup_cons.2 ⟨hni, hn₁⟩) hd₂ hs₂ (fun l hl => by
      rcases IdSet.mem_union.1 hl with hl | hl
      · exact hk.mono hgrow l hl
      · exact hk₂ l hl) (fun a ha v hv => he a ha v (List.mem_cons_of_mem i hv)) hf
    refine h₂.descend hp (Walk.suffix_finished inner finished).subset hk hgrow ?_ hself
    intro a ha h
    rw [hother a (fun e => hif (e ▸ ha)), h₁.reports a ha]
  | @back path finished i others rest hi hrest ih =>
    simp only [follow, bind_eq_ok] at hf
    obtain ⟨⟨l, d₁⟩, hl, hf⟩ := hf
    cases path with
    | nil => cases hi
    | cons a below =>
      obtain ⟨hs₁, hgrow, hreports⟩ := hs.loopAt hl hi (he a rfl i List.mem_cons_self)
      obtain ⟨_, hget, _⟩ := loopAt_cases hl
      have hk₁ : d₁.Knows (report.insert l) := by
        intro l' hl'
        rcases IdSet.mem_insert.1 hl' with rfl | hl'
        · exact (List.getElem?_eq_some_iff.1 hget).1
        · exact hk.mono hgrow l' hl'
      have h₁ := ih hn hd hs₁ hk₁ (fun c hc v hv => he c hc v (List.mem_cons_of_mem i hv)) hf
      exact h₁.back hi hk hgrow hget hreports
  | @seen path finished i others rest hi hrest ih =>
    simp only [follow, bind_eq_ok, liftM_eq_ok, Table.get_eq_ok_iff] at hf
    obtain ⟨reported, hreported, hf⟩ := hf
    have h₁ := ih hn hd hs (fun l hl => by
      rcases IdSet.mem_union.1 hl with hl | hl
      · exact hk l hl
      · exact hs.knows hreported l hl) (fun a ha v hv => he a ha v (List.mem_cons_of_mem i hv)) hf
    exact h₁.seen (fun hip => hd i hip hi) hi hreported

/-! ## Discovery along a search -/

/-- What discovery has found when the search of a graph is over. -/
structure Complete (g : FlowGraph) (order : List BlockId) (d : Discovery) (escaping : LoopSet) :
    Prop where
  isReport : g.IsReport order d.Reports
  nodup : d.headers.Nodup
  mem_headers : ∀ h, h ∈ d.headers ↔ ∃ u, g.Retreats order u h
  knows : ∀ {b ls}, d.reported.get? b = some ls → d.Knows ls
  knows_escaping : d.Knows escaping
  escaping : ∀ h, d.Names escaping h ↔ d.Reports BlockId.entry h

/-- **Discovery along the search of a graph reports what the blocks name.** -/
theorem ofWalk_complete {g : FlowGraph} {limit : Option Nat} {w : Walk .block}
    {escaping : LoopSet} (hw : g.walk = .ok w)
    (hd : ofWalk limit g.size w = .ok (escaping, d)) :
    Complete g (w.finished []) d escaping := by
  have ht : Walk.Traces g.succs [] [] [BlockId.entry] w := Walk.ofRoots_traces hw
  have ho := FlowGraph.walk_searchOrder hw
  have hempty : ∀ {b : BlockId} {ls : LoopSet},
      (Table.replicate g.size ∅ : Table .block LoopSet).get? b = some ls → ls = ∅ := by
    intro b ls hb
    simp only [Table.replicate, Table.get?, Array.getElem?_replicate] at hb
    split at hb <;> cases hb
    rfl
  have hstart : Sound g.succs { headers := [], reported := Table.replicate g.size ∅ } [] [] := by
    refine ⟨List.nodup_nil, ?_, ?_, ?_, ?_, ?_⟩
    · intro b ls hb l hl
      exact absurd (hempty hb ▸ hl) (IdSet.not_mem_empty l)
    · intro a earlier h ha
      exact absurd ha.length_le (by simp)
    · rintro a h _ ⟨ls, hls, hnames⟩
      exact names_empty (hempty hls ▸ hnames)
    · intro a earlier h ha
      exact absurd ha.length_le (by simp)
    · intro h hh
      cases hh
  have hf := follow_sound ht List.nodup_nil (fun _ h => by cases h) hstart
    (fun l hl => absurd hl (IdSet.not_mem_empty l)) (fun _ h => by cases h) hd
  have hsuffix : ∀ {a}, a ∈ w.finished [] → ∃ earlier, (a :: earlier) <:+ w.finished [] := by
    intro a ha
    obtain ⟨front, earlier, heq⟩ := List.append_of_mem ha
    exact ⟨earlier, heq ▸ List.suffix_append _ _⟩
  refine ⟨⟨?_, hf.sound.silent⟩, hf.sound.nodup, ?_, hf.sound.knows, hf.knows, ?_⟩
  · intro a h ha
    obtain ⟨earlier, hs⟩ := hsuffix ha
    simp only [Before.iff_mem ho.nodup hs]
    exact hf.sound.reports hs
  · intro h
    constructor
    · intro hh
      rcases hf.sound.origin hh with ⟨a, earlier, hs, hah, hne⟩ | ⟨a, below, hs, _⟩
      · exact ⟨a, hah, hs.subset List.mem_cons_self, fun hb => hne ((Before.iff_mem ho.nodup hs).1 hb)⟩
      · exact absurd hs.length_le (by simp)
    · rintro ⟨u, hu⟩
      obtain ⟨earlier, hs⟩ := hsuffix hu.mem
      exact hf.sound.heads hs hu.edge fun hb => hu.not_before ((Before.iff_mem ho.nodup hs).2 hb)
  · intro h
    rw [hf.names]
    simp

end FlowTree.Discovery
