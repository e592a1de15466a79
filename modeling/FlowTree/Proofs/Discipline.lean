import FlowTree.Eval.Integer
import FlowTree.Proofs.Frames
import FlowTree.Proofs.LiveSlots

/-!
# Slot discipline

What a block's node may do to the slots of a frame.

A disciplined node runs the instructions behind the block's φs in order and then the terminator.
Each of these reads the slots of its own operands and nothing else, and if it does not fail it writes
the slot of the value that it defines and nothing else.  So what it writes, how it ends and what
becomes of the caller's state rest on the slots that it reads.  A call that may unwind writes its
result exactly if control takes its first edge.  Where a node fails it may leave the frame in any
state.

Two frames that agree where the node reads then still agree after it, and also where it wrote.

## Main statements

* `Block.Disciplined.same` — on frames that agree on what is live, a disciplined node does the same.
* `Block.Disciplined.writesWithin` — a disciplined node writes what it may.
* `Meaning.runBlock_disciplined` — running a block by an exact meaning is disciplined.
-/

namespace FlowTree

variable {σ V E α : Type} {layout : Layout}

/-! ## Frames that agree -/

/-- The frames hold the same in the slots of `S`. -/
def Frame.Agree (S : SlotId → Prop) (f f' : Frame V) : Prop := ∀ s, S s → f.cell s = f'.cell s

namespace Frame.Agree

variable {S S' : SlotId → Prop} {f f' : Frame V}

theorem mono (h : Agree S f f') (hS : ∀ s, S' s → S s) : Agree S' f f' := fun s hs => h s (hS s hs)

/-- Slots that do not count may be emptied, in either frame. -/
theorem clearAll (h : Agree S f f') {ss ss' : List SlotId} (hss : ∀ s ∈ ss, ¬ S s)
    (hss' : ∀ s ∈ ss', ¬ S s) : Agree S (f.clearAll ss) (f'.clearAll ss') := by
  intro s hs
  rw [cell_clearAll, cell_clearAll, if_neg fun hmem => hss s hmem hs,
    if_neg fun hmem => hss' s hmem hs]
  exact h s hs

/-- A copy whose sources count makes its destinations agree. -/
theorem perform [FrameValue V] (h : Agree S f f') {copy : ParallelCopy SlotId}
    (huses : ∀ s ∈ copy.uses, S s) :
    Agree (fun s => S s ∨ s ∈ copy.defs) (f.perform copy) (f'.perform copy) := by
  obtain ⟨ws, hws, hf, hf'⟩ := exists_writes_perform fun s hs => h s (huses s hs)
  have hputs : ∀ (ws : List (SlotId × Cell V)) {S : SlotId → Prop} {f f' : Frame V}, Agree S f f' →
      Agree (fun s => S s ∨ s ∈ ws.map Prod.fst) (ws.foldl (fun g w => g.put w.1 w.2) f)
        (ws.foldl (fun g w => g.put w.1 w.2) f') := by
    intro ws
    induction ws with
    | nil => exact fun h => h.mono fun s hs => hs.resolve_right List.not_mem_nil
    | cons w rest ih =>
      intro S f f' h
      have hput : Agree (fun s => S s ∨ s = w.1) (f.put w.1 w.2) (f'.put w.1 w.2) := by
        intro s hs
        rw [cell_put, cell_put]
        split
        · rfl
        · rename_i hne
          exact h s (hs.resolve_right (Ne.symm hne))
      refine (ih hput).mono fun s hs => ?_
      rw [List.map_cons, List.mem_cons] at hs
      exact or_assoc.2 hs
  rw [hf, hf', ← hws]
  exact hputs ws h

end Frame.Agree

namespace Frame

/-- A result that is there is written, whatever was in its slot before. -/
theorem agree_store {v : Option ValueId} {x : Option V} (hx : v.isSome → x.isSome) (f f' : Frame V) :
    Agree (· ∈ layout.slotsOf v.toList) (f.store layout v x) (f'.store layout v x) := by
  intro s hs
  obtain ⟨u, hu, hus⟩ := List.mem_filterMap.1 hs
  obtain rfl : v = some u := Option.mem_toList.1 hu
  obtain ⟨y, rfl⟩ := Option.isSome_iff_exists.1 (hx rfl)
  simp [store, hus, set]

theorem cell_store_of_not_mem {v : Option ValueId} {x : Option V} {s : SlotId}
    (hs : s ∉ layout.slotsOf v.toList) (f : Frame V) :
    (f.store layout v x).cell s = f.cell s := by
  refine cell_store_of_ne (fun hv => hs ?_) f x
  obtain ⟨u, rfl, hu⟩ := Option.bind_eq_some_iff.1 hv
  exact List.mem_filterMap.2 ⟨u, Option.mem_toList.2 rfl, hu⟩

end Frame

/-! ## Actions -/

/-- What running something does to the caller's state and to the frame, and how it ends. -/
abbrev Act (σ V E α : Type) := σ → Frame V → Except E α × σ × Frame V

namespace Act

/-- One action after the other, unless the first fails. -/
def andThen (first : Act σ V E Unit) (later : Act σ V E α) : Act σ V E α := fun w f =>
  match first w f with
  | (.error e, w, f) => (.error e, w, f)
  | (.ok (), w, f) => later w f

/-- Two outcomes that are the same but for the frames, which agree on some slots if the action did not
fail. -/
structure Same (S : α → SlotId → Prop) (out out' : Except E α × σ × Frame V) : Prop where
  result : out.1 = out'.1
  world : out.2.1 = out'.2.1
  frame : ∀ a, out.1 = .ok a → Frame.Agree (S a) out.2.2 out'.2.2

/-- An action reads the slots of `reads` and no others; if it does not fail it writes the slots of
`writes` and no others. -/
structure Confined (reads : List SlotId) (writes : α → List SlotId) (act : Act σ V E α) : Prop where
  reads : ∀ w {f f'}, Frame.Agree (· ∈ reads) f f' → Same (fun a s => s ∈ writes a) (act w f) (act w f')
  keeps : ∀ {w f a s}, (act w f).1 = .ok a → s ∉ writes a → (act w f).2.2.cell s = f.cell s

/-- On frames that agree where it reads, a confined action does the same, and then they agree where it
wrote as well. -/
theorem Confined.same {reads : List SlotId} {writes : α → List SlotId} {act : Act σ V E α}
    {S : SlotId → Prop} {f f' : Frame V} (h : Confined reads writes act) (hS : ∀ s ∈ reads, S s)
    (hf : Frame.Agree S f f') (w : σ) :
    Same (fun a s => S s ∨ s ∈ writes a) (act w f) (act w f') := by
  have hsame := h.reads w (hf.mono hS)
  refine ⟨hsame.result, hsame.world, fun a ha s hs => ?_⟩
  by_cases hw : s ∈ writes a
  · exact hsame.frame a ha s hw
  · rw [h.keeps ha hw, h.keeps (hsame.result ▸ ha) hw]
    exact hf s (hs.resolve_right hw)

end Act

/-! ## Blocks -/

/-- The slots that a terminator writes, by how control leaves. -/
def Terminator.writes (layout : Layout) (t : Terminator) : Transfer V → List SlotId
  | .branch position => layout.slotsOf (t.definesOn position).toList
  | .ret _ => []

/-- An action runs some instructions in order and then a terminator. -/
inductive Terminator.Disciplined (layout : Layout) (t : Terminator) :
    List Instr → Act σ V E (Transfer V) → Prop
  | leave {act : Act σ V E (Transfer V)} :
    act.Confined (layout.slotsOf t.uses) (t.writes layout) → Disciplined layout t [] act
  | instr {i : Instr} {rest : List Instr} {first : Act σ V E Unit} {later : Act σ V E (Transfer V)} :
    first.Confined (layout.slotsOf i.uses) (fun _ => layout.slotsOf i.defines.toList) →
    Disciplined layout t rest later → Disciplined layout t (i :: rest) (first.andThen later)

namespace Block

/-- An action runs a block: the instructions behind its φs, then its terminator, each of which reads
the slots of its operands and writes the slot of what it defines. -/
def Disciplined (layout : Layout) (block : Block) (act : Act σ V E (Transfer V)) : Prop :=
  block.terminator.Disciplined layout block.body act

/-- If control leaves by an edge, the action has written no slots but those of the values that the
block's body and that edge define. -/
def WritesWithin (layout : Layout) (block : Block) (act : Act σ V E (Transfer V)) : Prop :=
  ∀ ⦃w f position s⦄, (act w f).1 = .ok (.branch position) →
    s ∉ layout.slotsOf (block.body.filterMap Instr.defines) →
    s ∉ layout.slotsOf (block.terminator.definesOn position).toList →
    (act w f).2.2.cell s = f.cell s

end Block

namespace Terminator.Disciplined

variable {t : Terminator} {is : List Instr} {act : Act σ V E (Transfer V)}

/-- Instructions and a terminator do the same on frames that agree on what they read before they write
it. -/
theorem same {S : SlotId → Prop} {e e' : Effect} (h : t.Disciplined layout is act)
    (he : is.foldlM (Effect.step layout) e = .ok e')
    (hreads : ∀ s ∈ e'.reads, (∃ v, layout.slotOf v = some s) → S s)
    (huses : ∀ s ∈ layout.slotsOf t.uses, s ∉ e'.writes → S s) {w : σ} {f f' : Frame V}
    (hf : Frame.Agree (fun s => S s ∨ s ∈ e.writes) f f') :
    Act.Same (fun a s => (S s ∨ s ∈ e'.writes) ∨ s ∈ t.writes layout a) (act w f) (act w f') := by
  induction h generalizing e w f f' with
  | leave hact =>
    rw [List.foldlM_nil, pure_eq_ok] at he
    subst he
    refine hact.same (fun s hs => ?_) hf w
    by_cases hw : s ∈ e.writes
    · exact .inr hw
    · exact .inl (huses s hs hw)
  | @instr i rest first later hfirst _ ih =>
    rw [List.foldlM_cons, bind_eq_ok] at he
    obtain ⟨c, hstep, hrest⟩ := he
    obtain ⟨hcreads, hcwrites⟩ := Effect.step_cases hstep
    -- an operand was written by the block, or is read before that
    have hsame := hfirst.same (S := fun s => S s ∨ s ∈ e.writes) (fun s hs => by
      by_cases hw : s ∈ e.writes
      · exact .inr hw
      · obtain ⟨v, _, hv⟩ := List.mem_filterMap.1 hs
        have hread := Effect.reads_of_foldlM_step hrest ((hcreads s).2 (.inr ⟨hs, hw⟩))
        exact .inl (hreads s hread ⟨v, hv⟩)) hf w
    rcases hout : first w f with ⟨result, w₁, f₁⟩
    rcases hout' : first w f' with ⟨result', w₁', f₁'⟩
    rw [hout, hout'] at hsame
    obtain ⟨hresult, hworld, hframe⟩ := hsame
    obtain rfl : result = result' := hresult
    obtain rfl : w₁ = w₁' := hworld
    cases result with
    | error e =>
      simp only [Act.andThen, hout, hout']
      exact ⟨rfl, rfl, fun a ha => by cases ha⟩
    | ok _ =>
      simp only [Act.andThen, hout, hout']
      refine ih hrest ((hframe () rfl).mono fun s hs => ?_)
      rw [hcwrites] at hs
      exact or_assoc.2 hs

theorem writesWithin (h : t.Disciplined layout is act) {w : σ} {f : Frame V} {position : Nat}
    {s : SlotId} (hresult : (act w f).1 = .ok (.branch position))
    (hbody : s ∉ layout.slotsOf (is.filterMap Instr.defines))
    (hedge : s ∉ layout.slotsOf (t.definesOn position).toList) : (act w f).2.2.cell s = f.cell s := by
  induction h generalizing w f with
  | leave hact => exact hact.keeps hresult hedge
  | @instr i rest first later hfirst _ ih =>
    have hhead : s ∉ layout.slotsOf i.defines.toList := by
      intro hs
      obtain ⟨v, hv, hvs⟩ := List.mem_filterMap.1 hs
      exact hbody (List.mem_filterMap.2 ⟨v, List.mem_filterMap.2
        ⟨i, List.mem_cons_self, Option.mem_toList.1 hv⟩, hvs⟩)
    have htail : s ∉ layout.slotsOf (rest.filterMap Instr.defines) := by
      intro hs
      obtain ⟨v, hv, hvs⟩ := List.mem_filterMap.1 hs
      obtain ⟨j, hj, hjv⟩ := List.mem_filterMap.1 hv
      exact hbody (List.mem_filterMap.2 ⟨v, List.mem_filterMap.2
        ⟨j, List.mem_cons_of_mem i hj, hjv⟩, hvs⟩)
    rcases hout : first w f with ⟨result, w₁, f₁⟩
    have hkeeps := hfirst.keeps (w := w) (f := f) (a := ()) (s := s)
    cases result with
    | error e =>
      simp only [Act.andThen, hout] at hresult
      cases hresult
    | ok _ =>
      simp only [Act.andThen, hout] at hresult ⊢
      rw [ih hresult htail]
      simpa [hout] using hkeeps (congrArg Prod.fst hout) hhead

end Terminator.Disciplined

namespace Block.Disciplined

variable {block : Block} {act : Act σ V E (Transfer V)}

/-- **A disciplined node does the same on frames that agree on what its block reads**, and then they
agree on what it wrote as well. -/
theorem same {S : SlotId → Prop} {e : Effect} (h : block.Disciplined layout act)
    (he : Effect.ofBlock layout block = .ok e)
    (hreads : ∀ s ∈ e.reads, (∃ v, layout.slotOf v = some s) → S s) {f f' : Frame V}
    (hf : Frame.Agree S f f') (w : σ) :
    Act.Same (fun a s => (S s ∨ s ∈ e.writes) ∨ s ∈ block.terminator.writes layout a)
      (act w f) (act w f') := by
  obtain ⟨body, hbody, hwrites, hcases⟩ := Effect.ofBlock_cases he
  rw [hwrites]
  refine Terminator.Disciplined.same h hbody (fun s hs => hreads s ((hcases s).2 (.inl hs))) ?_
    (hf.mono fun s hs => hs.resolve_right (IdSet.not_mem_empty s))
  intro s hs hw
  obtain ⟨v, _, hv⟩ := List.mem_filterMap.1 hs
  exact hreads s ((hcases s).2 (.inr ⟨hs, hw⟩)) ⟨v, hv⟩

theorem writesWithin (h : block.Disciplined layout act) : block.WritesWithin layout act :=
  fun _ _ _ _ hresult hbody hedge => Terminator.Disciplined.writesWithin h hresult hbody hedge

end Block.Disciplined

/-! ## Meanings -/

namespace Meaning

variable [FrameValue V] {M : Meaning σ V E}

/-- A meaning in which everything that an instruction does rests on what its operands hold, failures
included, and in which what defines a value computes one. -/
structure Exact (M : Meaning σ V E) : Prop where
  instr_congr : ∀ {w read read' i}, (∀ x ∈ Instr.operands i, read x = read' x) →
    M.instr w read i = M.instr w read' i
  leave_congr : ∀ {w read read' t}, (∀ x ∈ Terminator.operands t, read x = read' x) →
    M.leave w read t = M.leave w read' t
  instr_defines : ∀ {w read i x w'}, M.instr w read i = .ok (x, w') → i.defines.isSome → x.isSome
  leave_defines : ∀ {w read t position x w'}, M.leave w read t = .ok (.take position x, w') →
    (t.definesOn position).isSome → x.isSome

def runInstr (M : Meaning σ V E) (layout : Layout) (i : Instr) : Act σ V E Unit := fun w f =>
  match M.instr w (M.read layout f) i with
  | .error e => (.error e, w, f)
  | .ok (x, w) => (.ok (), w, f.store layout i.defines x)

/-- Operands are read from their slots. -/
theorem read_congr {xs : List Operand} {f f' : Frame V}
    (h : Frame.Agree (· ∈ layout.slotsOf (xs.filterMap Operand.value?)) f f') :
    ∀ x ∈ xs, M.read layout f x = M.read layout f' x := by
  intro x hx
  cases x with
  | const c => rfl
  | value v =>
    cases hs : layout.slotOf v with
    | none => simp only [read, hs]
    | some s =>
      have hmem : s ∈ layout.slotsOf (xs.filterMap Operand.value?) :=
        List.mem_filterMap.2 ⟨v, List.mem_filterMap.2 ⟨_, hx, rfl⟩, hs⟩
      simp only [read, hs, Frame.get?, h s hmem]

theorem runInstr_confined (hM : M.Exact) (i : Instr) :
    (M.runInstr layout i).Confined (layout.slotsOf i.uses) fun _ => layout.slotsOf i.defines.toList := by
  constructor
  · intro w f f' hf
    have hcongr := hM.instr_congr (w := w) (read_congr (M := M) hf)
    simp only [runInstr, hcongr]
    cases hinstr : M.instr w (M.read layout f') i with
    | error e => exact ⟨rfl, rfl, fun a ha => by cases ha⟩
    | ok r => exact ⟨rfl, rfl, fun _ _ => Frame.agree_store (hM.instr_defines hinstr) f f'⟩
  · intro w f a s ha hs
    cases hinstr : M.instr w (M.read layout f) i with
    | error e =>
      simp only [runInstr, hinstr] at ha
      cases ha
    | ok r =>
      simp only [runInstr, hinstr]
      exact Frame.cell_store_of_not_mem hs f

theorem runTerminator_confined (hM : M.Exact) (t : Terminator) :
    Act.Confined (layout.slotsOf t.uses) (t.writes layout) (M.runTerminator layout t) := by
  constructor
  · intro w f f' hf
    have hcongr := hM.leave_congr (w := w) (read_congr (M := M) hf)
    simp only [runTerminator, hcongr]
    rcases hleave : M.leave w (M.read layout f') t with e | ⟨_ | ⟨position, x⟩, w'⟩
    · exact ⟨rfl, rfl, fun a ha => by cases ha⟩
    · refine ⟨rfl, rfl, fun a ha => ?_⟩
      cases ha
      exact fun s hs => absurd hs List.not_mem_nil
    · refine ⟨rfl, rfl, fun a ha => ?_⟩
      cases ha
      exact Frame.agree_store (hM.leave_defines hleave) f f'
  · intro w f a s ha hs
    rcases hleave : M.leave w (M.read layout f) t with e | ⟨_ | ⟨position, x⟩, w'⟩
    · simp only [runTerminator, hleave] at ha
      cases ha
    · simp only [runTerminator, hleave]
    · simp only [runTerminator, hleave] at ha ⊢
      cases ha
      exact Frame.cell_store_of_not_mem hs f

/-- **Running a block by an exact meaning is disciplined.** -/
theorem runBlock_disciplined (hM : M.Exact) (block : Block) :
    block.Disciplined layout (M.runBlock layout block) := by
  have hinstrs : ∀ is : List Instr, block.terminator.Disciplined layout is fun w f =>
      match M.runInstrs layout is w f with
      | (.error e, w, f) => (.error e, w, f)
      | (.ok (), w, f) => M.runTerminator layout block.terminator w f := by
    intro is
    induction is with
    | nil => exact .leave (runTerminator_confined hM block.terminator)
    | cons i rest ih =>
      have heq : (fun w f => match M.runInstrs layout (i :: rest) w f with
          | (.error e, w, f) => (.error e, w, f)
          | (.ok (), w, f) => M.runTerminator layout block.terminator w f) =
          (M.runInstr layout i).andThen fun w f => match M.runInstrs layout rest w f with
            | (.error e, w, f) => (.error e, w, f)
            | (.ok (), w, f) => M.runTerminator layout block.terminator w f := by
        funext w f
        simp only [Act.andThen, runInstr, runInstrs]
        cases M.instr w (M.read layout f) i <;> rfl
      rw [heq]
      exact .instr (runInstr_confined hM i) ih
  exact hinstrs block.body

end Meaning

namespace IntegerMeaning

variable {read read' : Reader}

theorem word_congr {x : Operand} (h : read x = read' x) : word read x = word read' x := by
  rw [word, word, h]

theorem sum_congr {args : List Operand} (h : ∀ x ∈ args, read x = read' x) :
    sum read args = sum read' args := by
  have key : ∀ (xs : List Operand), (∀ x ∈ xs, read x = read' x) → ∀ total : Int64,
      xs.foldlM (fun total x => return total + (← word read x)) total =
        xs.foldlM (fun total x => return total + (← word read' x)) total := by
    intro xs
    induction xs with
    | nil => exact fun _ _ => rfl
    | cons x rest ih =>
      intro hxs total
      rw [List.foldlM_cons, List.foldlM_cons, word_congr (hxs x List.mem_cons_self)]
      congr 1
      funext n
      exact ih (fun y hy => hxs y (List.mem_cons_of_mem x hy)) n
  exact key args h 0

theorem instr_congr {i : Instr} (h : ∀ x ∈ i.operands, read x = read' x) :
    instr read i = instr read' i := by
  cases i with
  | phi dst incoming => rfl
  | copy dst x => simp only [instr, h x List.mem_cons_self]
  | unary dst op x => simp only [instr, word_congr (h x List.mem_cons_self)]
  | binary dst op x y =>
    simp only [instr, word_congr (h x (by simp [Instr.operands])),
      word_congr (h y (by simp [Instr.operands]))]
  | compare dst test x y =>
    simp only [instr, word_congr (h x (by simp [Instr.operands])),
      word_congr (h y (by simp [Instr.operands]))]
  | select dst condition whenTrue whenFalse =>
    have hchosen : ∀ n : Int64, read (if n ≠ 0 then whenTrue else whenFalse) =
        read' (if n ≠ 0 then whenTrue else whenFalse) := by
      intro n
      split <;> exact h _ (by simp [Instr.operands])
    simp only [instr, word_congr (h condition List.mem_cons_self), hchosen]
  | load dst address => simp only [instr, word_congr (h address List.mem_cons_self)]
  | store address value =>
    simp only [instr, h address (by simp [Instr.operands]), h value (by simp [Instr.operands])]
  | call dst callee args =>
    have hsum : sum read args = sum read' args := sum_congr h
    simp only [instr, hsum]

theorem leave_congr {t : Terminator} (h : ∀ x ∈ t.operands, read x = read' x) :
    leave read t = leave read' t := by
  cases t with
  | ret operand =>
    cases operand with
    | none => rfl
    | some x => simp only [leave, h x List.mem_cons_self]
  | br target => rfl
  | condBr condition whenTrue whenFalse =>
    simp only [leave, word_congr (h condition List.mem_cons_self)]
  | switch scrutinee cases otherwise =>
    simp only [leave, word_congr (h scrutinee List.mem_cons_self)]
  | indirectBr address targets => simp only [leave, word_congr (h address List.mem_cons_self)]
  | invoke dst callee args normal unwind =>
    have hsum : sum read args = sum read' args := sum_congr h
    simp only [leave, hsum]
  | resume x => simp only [leave, h x List.mem_cons_self]
  | unreachable => rfl

/-- An instruction that defines a value computes one. -/
theorem isSome_of_instr {i : Instr} {x : Option Constant} (h : instr read i = .ok x)
    (hi : i.defines.isSome) : x.isSome := by
  cases i with
  | store address value => cases hi
  | phi dst incoming => cases h
  | binary dst op y z =>
    simp only [instr, bind_eq_ok] at h
    obtain ⟨n, _, m, _, h⟩ := h
    split at h <;> cases h
    rfl
  | _ =>
    simp only [instr, bind_eq_ok, pure_eq_ok] at h
    grind

/-- A call that returns normally has a result. -/
theorem isSome_of_leave {t : Terminator} {position : Nat} {x : Option Constant}
    (h : leave read t = .ok (.take position x)) (ht : (t.definesOn position).isSome) : x.isSome := by
  cases t with
  | invoke dst callee args normal unwind =>
    simp only [leave, bind_eq_ok] at h
    obtain ⟨n, _, h⟩ := h
    split at h <;> cases h
    · cases ht
    · rfl
  | _ => cases ht

end IntegerMeaning

/-- The meaning in which everything is an integer is exact. -/
theorem integerMeaning_exact : integerMeaning.Exact := by
  constructor
  · intro w read read' i h
    simp only [integerMeaning, IntegerMeaning.instr_congr h]
  · intro w read read' t h
    simp only [integerMeaning, IntegerMeaning.leave_congr h]
  · intro w read i x w' h
    simp only [integerMeaning, bind_eq_ok, pure_eq_ok, Prod.mk.injEq] at h
    obtain ⟨_, h, rfl, _⟩ := h
    exact IntegerMeaning.isSome_of_instr h
  · intro w read t position x w' h
    simp only [integerMeaning, bind_eq_ok, pure_eq_ok, Prod.mk.injEq] at h
    obtain ⟨_, h, rfl, _⟩ := h
    exact IntegerMeaning.isSome_of_leave h

end FlowTree
