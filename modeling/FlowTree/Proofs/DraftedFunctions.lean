import FlowTree.Program.Command
import FlowTree.Proofs.EdgeMoves
import Mathlib.Data.List.TakeWhile
import Mathlib.Order.Basic

/-!
# Drafted functions

A draft can be edited in any order: blocks are left and come back to, instructions are added behind
an end, φs are given more predecessors, and a fault in between leaves what was done up to it.  The
function that comes out has its blocks where their names say, φs before everything else, and one
place of definition for every value.

All commands come down to eight changes of a draft, `Draft.Change`.  Each invariant is proved once
over them.  A command that faults makes one of these changes too: it leaves the draft alone, or has
taken a name that nothing will use.

## Main statements

* `Draft.perform_change` — commands make changes.
* `Draft.Change.wellFormed`, `Draft.Change.endsWith` — changes keep drafts in order, and ends.
* `Draft.performAll_wellFormed` — whatever is drafted is well-formed.
-/

namespace FlowTree

/-! ## Functions in order -/

/-- The values that a block defines: those of its instructions, and the result of the call that ends
it. -/
def Block.defined (b : Block) : List ValueId :=
  b.instrs.filterMap Instr.defines ++ (b.terminator.definesOn 0).toList

/-- The values that a function defines, once for each place where it does. -/
def Func.defined (f : Func) : List ValueId := f.params ++ f.blocks.flatMap Block.defined

/-- Blocks stand where their names say, no φ stands behind another instruction, and no value is
defined twice or goes uncounted. -/
structure Func.WellFormed (f : Func) : Prop where
  nonempty : f.blocks ≠ []
  id : ∀ {n} {b : Block}, f.blocks[n]? = some b → b.id = ⟨n⟩
  phis_first : ∀ b ∈ f.blocks, ∀ i ∈ b.body, i.isPhi = false
  nodup : f.defined.Nodup
  lt : ∀ v ∈ f.defined, v.index < f.valueCount

/-- The block that a drafted block becomes. -/
def DraftBlock.block (b : DraftBlock) : Block :=
  { id := b.id, instrs := b.instrs, terminator := b.terminator.getD .unreachable }

namespace Draft

theorem finish_blocks (d : Draft) : d.finish.blocks = d.blocks.map DraftBlock.block := rfl

theorem getElem?_finish {d : Draft} {n : Nat} {block : Block} :
    d.finish.blocks[n]? = some block ↔ ∃ b, d.blocks[n]? = some b ∧ b.block = block := by
  rw [finish_blocks, List.getElem?_map, Option.map_eq_some_iff]

/-! ## Changes -/

/-- A result has no name, or takes the next one. -/
inductive Names (d : Draft) : Option ValueId → Nat → Prop
  | none : d.Names Option.none d.nextValue
  | next : d.Names (some ⟨d.nextValue⟩) (d.nextValue + 1)

/-- What one command can do to a draft. -/
inductive Change (d : Draft) : Draft → Prop
  | same : d.Change d
  | moveTo (b : BlockId) : d.Change { d with current := b }
  | freshValue : d.Change { d with nextValue := d.nextValue + 1 }
  | param :
    d.Change { d with params := d.params ++ [⟨d.nextValue⟩], nextValue := d.nextValue + 1 }
  | newBlock : d.Change { d with blocks := d.blocks ++ [{ id := ⟨d.blocks.length⟩ }] }
  | push {before after b next} {i : Instr} : d.blocks = before ++ b :: after →
    (i.isPhi = true → ∀ j ∈ b.instrs, j.isPhi = true) → d.Names i.defines next →
    d.Change { d with
      blocks := before ++ { b with instrs := b.instrs ++ [i] } :: after, nextValue := next }
  | extendPhi {before after b v more instrs} : d.blocks = before ++ b :: after →
    Edit.extendPhi v more b.instrs = some instrs →
    d.Change { d with blocks := before ++ { b with instrs } :: after }
  | terminate {before after b next} {t : Terminator} : d.blocks = before ++ b :: after →
    b.terminator = none → d.Names (t.definesOn 0) next →
    d.Change { d with
      blocks := before ++ { b with terminator := some t } :: after, nextValue := next }

variable {d d' : Draft} {before after : List DraftBlock} {b b' : DraftBlock} {v : Option ValueId}
  {next : Nat}

theorem Names.change (h : d.Names v next) : d.Change { d with nextValue := next } := by
  cases h with
  | none => exact .same
  | next => exact .freshValue

/-- Changing a block that is there changes one place in the list of blocks. -/
theorem modifyBlock_cases {id : BlockId} (h : d.blocks[id.index]? = some b) :
    ∃ before after, d.blocks = before ++ b :: after ∧
      ∀ f, d.modifyBlock id f = { d with blocks := before ++ f b :: after } := by
  obtain ⟨hlt, rfl⟩ := List.getElem?_eq_some_iff.1 h
  refine ⟨d.blocks.take id.index, d.blocks.drop (id.index + 1), ?_, fun f => ?_⟩
  · rw [← List.drop_eq_getElem_cons hlt, List.take_append_drop]
  · rw [modifyBlock, List.modify_eq_take_cons_drop hlt]

end Draft

/-! ## Edits -/

namespace Edit

variable {α β : Type} {d d₀ : Draft} {i : Instr}

/-- An edit of `d` leaves what one change makes of `d₀`, with a result or a fault. -/
def Makes (e : Edit α) (d d₀ : Draft) : Prop :=
  ∃ d', d₀.Change d' ∧ ((∃ a, e.run d = .ok a d') ∨ ∃ fault, e.run d = .error fault d')

@[simp] theorem run_throw (fault : Fault) (d : Draft) :
    (throw fault : Edit α).run d = .error fault d := rfl

@[simp] theorem run_check_ok (a : α) (d : Draft) : (check (.ok a)).run d = .ok a d := rfl

@[simp] theorem run_check_error (fault : Fault) (d : Draft) :
    (check (.error fault : Checked α)).run d = .error fault d := rfl

namespace Makes

theorem of_ok {e : Edit α} {d' : Draft} (a : α) (h : e.run d = .ok a d') (hd : d₀.Change d') :
    e.Makes d d₀ :=
  ⟨d', hd, .inl ⟨a, h⟩⟩

theorem of_error {e : Edit α} {d' : Draft} (fault : Fault) (h : e.run d = .error fault d')
    (hd : d₀.Change d') : e.Makes d d₀ :=
  ⟨d', hd, .inr ⟨fault, h⟩⟩

theorem map {e : Edit α} (h : e.Makes d d₀) (f : α → β) :
    (e >>= fun a => pure (f a)).Makes d d₀ := by
  obtain ⟨d', hchange, ⟨a, ha⟩ | ⟨fault, hfault⟩⟩ := h
  · exact .of_ok (f a) (by rw [EStateM.run_bind, ha]; rfl) hchange
  · exact .of_error fault (by rw [EStateM.run_bind, hfault]) hchange

/-- What comes after an edit decides what is left. -/
theorem bind {e : Edit α} {k : α → Edit β} {a : α} {c : Draft} (h : e.run d = .ok a c)
    (hk : (k a).Makes c d₀) : (e >>= k).Makes d d₀ := by
  obtain ⟨d', hchange, hrun⟩ := hk
  refine ⟨d', hchange, ?_⟩
  rw [EStateM.run_bind, h]
  exact hrun

theorem bind_error {e : Edit α} {k : α → Edit β} (fault : Fault) (h : e.run d = .error fault d) :
    (e >>= k).Makes d d :=
  .of_error fault (by rw [EStateM.run_bind, h]) .same

end Makes

theorem run_freshValue (d : Draft) :
    freshValue.run d = .ok ⟨d.nextValue⟩ { d with nextValue := d.nextValue + 1 } ∨
      freshValue.run d = .error .valuesUsedUp d := by
  by_cases h : d.nextValue + 1 < Ident.capacity
  -- binds are run one by one here and below, and not turned into maps first
  · exact .inl (by simp [freshValue, h, -bind_pure_comp])
  · exact .inr (by simp [freshValue, h])

/-- A result is named, or there are no names left and the draft stays as it is. -/
theorem run_freshResult (hasResult : Bool) (d : Draft) :
    (∃ v next, d.Names v next ∧
      (freshResult hasResult).run d = .ok v { d with nextValue := next }) ∨
    (freshResult hasResult).run d = .error .valuesUsedUp d := by
  cases hasResult with
  | false => exact .inl ⟨none, d.nextValue, .none, by simp [freshResult]⟩
  | true =>
    rcases run_freshValue d with h | h
    · exact .inl ⟨_, _, .next, by simp [freshResult, h, -bind_pure_comp]⟩
    · exact .inr (by simp [freshResult, h, -bind_pure_comp])

/-- An instruction is added at one place, or the draft stays as it is. -/
theorem run_push (i : Instr) (d : Draft) :
    (∃ before b after, d.blocks = before ++ b :: after ∧ d.currentBlock = .ok b ∧
      (push i).run d = .ok () { d with
        blocks := before ++ { b with instrs := b.instrs ++ [i] } :: after }) ∨
    (push i).run d = .error .outOfBounds d := by
  cases hb : d.blocks[d.current.index]? with
  | none => exact .inr (by simp [push, Draft.currentBlock, hb])
  | some b =>
    have hcurrent : d.currentBlock = .ok b := by simp [Draft.currentBlock, hb]
    obtain ⟨before, after, hsplit, hmodify⟩ := Draft.modifyBlock_cases hb
    exact .inl ⟨before, b, after, hsplit, hcurrent, by simp [push, hcurrent, hmodify]⟩

/-- A block gets its end, or the draft stays as it is. -/
theorem run_terminate (t : Terminator) (d : Draft) :
    (∃ before b after, d.blocks = before ++ b :: after ∧ b.terminator = none ∧
      (terminate t).run d = .ok () { d with
        blocks := before ++ { b with terminator := some t } :: after }) ∨
    ∃ fault, (terminate t).run d = .error fault d := by
  cases hb : d.blocks[d.current.index]? with
  | none => exact .inr ⟨.outOfBounds, by simp [terminate, Draft.currentBlock, hb]⟩
  | some b =>
    have hcurrent : d.currentBlock = .ok b := by simp [Draft.currentBlock, hb]
    obtain ⟨before, after, hsplit, hmodify⟩ := Draft.modifyBlock_cases hb
    cases ht : b.terminator with
    | some t' => exact .inr ⟨.terminatedTwice b.id, by simp [terminate, hcurrent, ht]⟩
    | none => exact .inl ⟨before, b, after, hsplit, ht, by simp [terminate, hcurrent, ht, hmodify]⟩

/-- An instruction whose result has been named is added, or only the name is taken. -/
theorem push_makes {next : Nat} (hname : d.Names i.defines next)
    (hphi : i.isPhi = true → ∀ b, d.currentBlock = .ok b → ∀ j ∈ b.instrs, j.isPhi = true) :
    (push i).Makes { d with nextValue := next } d := by
  rcases run_push i { d with nextValue := next } with ⟨before, b, after, hsplit, hcur, hrun⟩ | hrun
  · exact .of_ok _ hrun (.push hsplit (fun hi => hphi hi b hcur) hname)
  · exact .of_error _ hrun hname.change

/-- An end whose result has been named is given, or only the name is taken. -/
theorem terminate_makes {next : Nat} {t : Terminator} (hname : d.Names (t.definesOn 0) next) :
    (terminate t).Makes { d with nextValue := next } d := by
  rcases run_terminate t { d with nextValue := next } with ⟨_, _, _, hsplit, ht, hrun⟩ | ⟨_, hrun⟩
  · exact .of_ok _ hrun (.terminate hsplit ht hname)
  · exact .of_error _ hrun hname.change

theorem freshValue_makes (d : Draft) : freshValue.Makes d d := by
  rcases run_freshValue d with h | h
  · exact .of_ok _ h .freshValue
  · exact .of_error _ h .same

theorem param_makes (d : Draft) : param.Makes d d := by
  rcases run_freshValue d with h | h
  · exact .bind h (.of_ok _ rfl .param)
  · exact .bind_error _ h

theorem newBlock_makes (d : Draft) : newBlock.Makes d d := by
  refine .bind (a := d) rfl ?_
  by_cases h : d.blocks.length < Ident.capacity
  · refine .bind (c := d) (a := ⟨d.blocks.length⟩) (by simp [Ident.ofIndex, h]) ?_
    exact .of_ok _ rfl .newBlock
  · exact .bind_error (.tooWide .block d.blocks.length) (by simp [Ident.ofIndex, h])

theorem moveTo_makes (b : BlockId) (d : Draft) : (moveTo b).Makes d d := by
  by_cases h : b.index < d.blocks.length
  · exact .of_ok () (by simp [moveTo, h]) (.moveTo b)
  · exact .of_error (.noSuchBlock b d.blocks.length) (by simp [moveTo, h]) .same

theorem isTerminated_makes (d : Draft) : isTerminated.Makes d d := by
  cases h : d.currentBlock with
  | ok b => exact .of_ok b.terminator.isSome (by simp [isTerminated, h, -bind_pure_comp]) .same
  | error fault => exact .of_error fault (by simp [isTerminated, h, -bind_pure_comp]) .same

theorem define_makes {instr : ValueId → Instr} (hdef : ∀ v, (instr v).defines = some v)
    (hphi : ∀ v, (instr v).isPhi = true → ∀ b, d.currentBlock = .ok b →
      ∀ j ∈ b.instrs, j.isPhi = true) : (define instr).Makes d d := by
  rcases run_freshValue d with h | h
  · exact .bind h ((push_makes (by rw [hdef]; exact .next) (hphi _)).map _)
  · exact .bind_error _ h

/-- A φ is added to φs only. -/
theorem phi_makes (incoming : List Incoming) (d : Draft) : (phi incoming).Makes d d := by
  cases hb : d.currentBlock with
  | error fault => exact .of_error fault (by simp [phi, hb]) .same
  | ok b =>
    by_cases hall : ∀ i ∈ b.instrs, i.isPhi = true
    · have hrun : (phi incoming).run d = (define fun dst => .phi dst incoming).run d := by
        simp [phi, hb, if_pos hall]
      have hmakes : (define fun dst => .phi dst incoming).Makes d d :=
        define_makes (fun _ => rfl) fun _ _ b' hb' => by
          cases hb.symm.trans hb'
          exact hall
      simpa only [Makes, hrun] using hmakes
    · exact .of_error (.latePhi d.current) (by simp [phi, hb, hall]) .same

theorem addIncoming_makes (id : BlockId) (v : ValueId) (more : Incoming) (d : Draft) :
    (addIncoming id v more).Makes d d := by
  cases hb : d.blocks[id.index]? with
  | none => exact .of_ok false (by simp [addIncoming, hb]) .same
  | some b =>
    obtain ⟨before, after, hsplit, hmodify⟩ := Draft.modifyBlock_cases hb
    cases hinstrs : extendPhi v more b.instrs with
    | none => exact .of_ok false (by simp [addIncoming, hb, hinstrs]) .same
    | some instrs =>
      exact .of_ok true (by simp [addIncoming, hb, hinstrs, hmodify, -bind_pure_comp])
        (.extendPhi hsplit hinstrs)

theorem call_makes (callee : String) (args : List Operand) (hasResult : Bool) (d : Draft) :
    (call callee args hasResult).Makes d d := by
  rcases run_freshResult hasResult d with ⟨v, next, hname, h⟩ | h
  · exact .bind h ((push_makes hname fun h => Bool.noConfusion h).map _)
  · exact .bind_error _ h

theorem invoke_makes (callee : String) (args : List Operand) (normal unwind : BlockId)
    (hasResult : Bool) (d : Draft) : (invoke callee args normal unwind hasResult).Makes d d := by
  rcases run_freshResult hasResult d with ⟨v, next, hname, h⟩ | h
  · exact .bind h ((terminate_makes hname).map _)
  · exact .bind_error _ h

end Edit

namespace Command

variable {d : Draft}

theorem define_makes {instr : ValueId → Instr} (hdef : ∀ v, (instr v).defines = some v)
    (hphi : ∀ v, (instr v).isPhi = false) : (define instr).Makes d d :=
  (Edit.define_makes hdef fun v hv => by simp [hphi v] at hv).map _

theorem terminate_makes {t : Terminator} (ht : t.definesOn 0 = none) : (terminate t).Makes d d :=
  (Edit.terminate_makes (by rw [ht]; exact .none)).map _

theorem edit_makes (c : Command) (d : Draft) : c.edit.Makes d d := by
  cases c with
  | freshValue => exact (Edit.freshValue_makes d).map _
  | param => exact (Edit.param_makes d).map _
  | newBlock => exact (Edit.newBlock_makes d).map _
  | moveTo b => exact (Edit.moveTo_makes b d).map _
  | current => exact .of_ok _ rfl .same
  | isTerminated => exact (Edit.isTerminated_makes d).map _
  | phi incoming => exact (Edit.phi_makes incoming d).map _
  | addIncoming b v more => exact (Edit.addIncoming_makes b v more d).map _
  | copy | unary | binary | compare | select | load =>
    exact define_makes (fun _ => rfl) fun _ => rfl
  | store address value => exact (Edit.push_makes .none fun h => Bool.noConfusion h).map _
  | call callee args hasResult => exact (Edit.call_makes callee args hasResult d).map _
  | ret | br | condBr | switch | indirectBr | resume | unreachable => exact terminate_makes rfl
  | invoke callee args normal unwind hasResult =>
    exact (Edit.invoke_makes callee args normal unwind hasResult d).map _

end Command

namespace Draft

variable {d d' : Draft} {before after : List DraftBlock} {b b' : DraftBlock} {v : Option ValueId}
  {next : Nat}

theorem perform_change (d : Draft) (c : Command) : d.Change (d.perform c).2 := by
  obtain ⟨d', hchange, ⟨reply, h⟩ | ⟨fault, h⟩⟩ := c.edit_makes d
  · rwa [perform, h]
  · rwa [perform, h]

/-- What every change keeps, a draft keeps over commands. -/
theorem performAll_induction {P : Draft → Prop} (hstep : ∀ d d', P d → d.Change d' → P d')
    (h : P d) (cs : List Command) : P (d.performAll cs).2 := by
  induction cs generalizing d with
  | nil => exact h
  | cons c rest ih => exact ih (hstep d _ h (d.perform_change c))

/-! ## What changes keep -/

theorem phis_first_push {instrs : List Instr} {i : Instr}
    (h : ∀ j ∈ instrs.dropWhile Instr.isPhi, j.isPhi = false)
    (hi : i.isPhi = true → ∀ j ∈ instrs, j.isPhi = true) :
    ∀ j ∈ (instrs ++ [i]).dropWhile Instr.isPhi, j.isPhi = false := by
  cases hphi : i.isPhi with
  | true =>
    -- Only φs stand here, so nothing is left behind them.
    have hall : ∀ j ∈ instrs ++ [i], j.isPhi = true := by
      simpa [or_imp, forall_and, hphi] using hi hphi
    simp [List.dropWhile_eq_nil_iff.2 hall]
  | false =>
    intro j hj
    rw [List.dropWhile_append] at hj
    split at hj
    · simpa [hphi] using List.mem_singleton.1 (List.dropWhile_subset _ hj) ▸ hphi
    · rcases List.mem_append.1 hj with hj | hj
      · exact h j hj
      · exact List.mem_singleton.1 hj ▸ hphi

/-- One more predecessor changes neither what is defined nor where the φs stand. -/
theorem extendPhi_cases {v : ValueId} {more : Incoming} {instrs instrs' : List Instr}
    (h : Edit.extendPhi v more instrs = some instrs') :
    instrs'.filterMap Instr.defines = instrs.filterMap Instr.defines ∧
      instrs'.map Instr.isPhi = instrs.map Instr.isPhi := by
  fun_induction Edit.extendPhi v more instrs generalizing instrs' with
  | case1 => cases h
  | case2 incoming rest =>
    cases h
    exact ⟨rfl, rfl⟩
  | case3 dst incoming rest hne ih | case4 i rest hphi ih =>
    obtain ⟨rest', hrest, rfl⟩ := Option.map_eq_some_iff.1 h
    simp [List.filterMap_cons, ih hrest]

theorem phis_first_of_map_eq {instrs instrs' : List Instr}
    (hmap : instrs'.map Instr.isPhi = instrs.map Instr.isPhi)
    (h : ∀ j ∈ instrs.dropWhile Instr.isPhi, j.isPhi = false) :
    ∀ j ∈ instrs'.dropWhile Instr.isPhi, j.isPhi = false := by
  have hflags : ∀ is : List Instr, (∀ j ∈ is.dropWhile Instr.isPhi, j.isPhi = false) ↔
      ∀ x ∈ (is.map Instr.isPhi).dropWhile id, x = false := by
    intro is
    simp [List.dropWhile_map]
  rw [hflags] at h ⊢
  rwa [hmap]

/-- A new name is not in use, and all names stay below the next. -/
theorem Names.fresh (h : d.Names v next) (hd : d.finish.WellFormed) (xs : List ValueId)
    (hperm : xs.Perm (v.toList ++ d.finish.defined)) :
    xs.Nodup ∧ ∀ w ∈ xs, w.index < next := by
  have hlt : ∀ w ∈ d.finish.defined, w.index < d.nextValue := hd.lt
  cases h with
  | none => exact ⟨hperm.nodup_iff.2 hd.nodup, fun w hw => hlt w (hperm.mem_iff.1 hw)⟩
  | next =>
    have hnew : (⟨d.nextValue⟩ : ValueId) ∉ d.finish.defined := fun hmem => (hlt _ hmem).false
    refine ⟨hperm.nodup_iff.2 (List.nodup_cons.2 ⟨hnew, hd.nodup⟩), fun w hw => ?_⟩
    rcases List.mem_cons.1 (hperm.mem_iff.1 hw) with rfl | hw
    · exact Nat.lt_succ_self _
    · exact Nat.lt_succ_of_lt (hlt w hw)

/-- Replacing a block is seen at its place and nowhere else. -/
theorem getElem?_replace {n : Nat} {c : DraftBlock} (b' : DraftBlock)
    (hc : (before ++ b :: after)[n]? = some c) :
    (before ++ b' :: after)[n]? = some c ∨ c = b ∧ (before ++ b' :: after)[n]? = some b' := by
  rcases Nat.lt_trichotomy n before.length with hn | rfl | hn
  · exact .inl (by rwa [List.getElem?_append_left hn] at hc ⊢)
  · exact .inr (by simpa [eq_comm] using hc)
  · have hne : n - before.length ≠ 0 := Nat.sub_ne_zero_of_lt hn
    rw [List.getElem?_append_right hn.le, List.getElem?_cons, if_neg hne] at hc ⊢
    exact .inl hc

/-- A block that is replaced by one of its name, with φs first and at most one new definition. -/
theorem replace_wellFormed (hd : d.finish.WellFormed) (hsplit : d.blocks = before ++ b :: after)
    (hid : b'.id = b.id) (hphis : ∀ i ∈ b'.block.body, i.isPhi = false) (hname : d.Names v next)
    (hdefined : b'.block.defined.Perm (v.toList ++ b.block.defined)) :
    ({ d with blocks := before ++ b' :: after, nextValue := next } : Draft).finish.WellFormed := by
  obtain ⟨hnodup, hlt⟩ := hname.fresh hd (d.params ++
      ((before ++ b' :: after).map DraftBlock.block).flatMap Block.defined) <| by
    rw [List.perm_iff_count] at hdefined ⊢
    intro w
    have hw := hdefined w
    simp only [Func.defined, finish_blocks, hsplit, List.map_append, List.map_cons,
      List.flatMap_append, List.flatMap_cons, List.count_append] at hw ⊢
    have hparams : d.finish.params = d.params := rfl
    rw [hparams]
    omega
  refine ⟨by simp [finish_blocks], ?_, ?_, hnodup, hlt⟩
  · intro n block hblock
    obtain ⟨c, hc, rfl⟩ := getElem?_finish.1 hblock
    rcases getElem?_replace b hc with hc | ⟨rfl, hb⟩
    · exact hd.id (getElem?_finish.2 ⟨c, hsplit ▸ hc, rfl⟩)
    · exact hid.trans (hd.id (getElem?_finish.2 ⟨b, hsplit ▸ hb, rfl⟩))
  · intro block hblock
    simp only [finish_blocks, List.map_append, List.map_cons, List.mem_append, List.mem_cons]
      at hblock
    rcases hblock with hblock | rfl | hblock
    · exact hd.phis_first block (by simp [finish_blocks, hsplit, hblock])
    · exact hphis
    · exact hd.phis_first block (by simp [finish_blocks, hsplit, hblock])

/-- **Every change keeps a draft in order.** -/
theorem Change.wellFormed (h : d.Change d') (hd : d.finish.WellFormed) : d'.finish.WellFormed := by
  have hphis : ∀ {before after b}, d.blocks = before ++ b :: after →
      ∀ j ∈ b.instrs.dropWhile Instr.isPhi, j.isPhi = false :=
    fun {_ _ b} hsplit => hd.phis_first b.block (by simp [finish_blocks, hsplit])
  cases h with
  | same => exact hd
  | moveTo b => exact ⟨hd.nonempty, hd.id, hd.phis_first, hd.nodup, hd.lt⟩
  | freshValue =>
    exact ⟨hd.nonempty, hd.id, hd.phis_first, hd.nodup, fun v hv => Nat.lt_succ_of_lt (hd.lt v hv)⟩
  | param =>
    obtain ⟨hnodup, hlt⟩ := Names.next.fresh hd (d.params ++ [⟨d.nextValue⟩] ++
      d.finish.blocks.flatMap Block.defined) (by simp [Func.defined, finish])
    exact ⟨hd.nonempty, hd.id, hd.phis_first, hnodup, hlt⟩
  | newBlock =>
    have hdefined : (({ d with blocks := d.blocks ++ [{ id := ⟨d.blocks.length⟩ }] } : Draft).finish
        ).defined = d.finish.defined := by
      simp [Func.defined, finish, Block.defined, Terminator.definesOn]
    refine ⟨by simp [finish_blocks], ?_, ?_, hdefined ▸ hd.nodup, hdefined ▸ hd.lt⟩
    · intro n block hblock
      obtain ⟨c, hc, rfl⟩ := getElem?_finish.1 hblock
      rw [List.getElem?_append] at hc
      split at hc
      · exact hd.id (getElem?_finish.2 ⟨c, hc, rfl⟩)
      · rw [List.getElem?_singleton] at hc
        split at hc <;> cases hc
        have hn : d.blocks.length = n := by omega
        exact Ident.ext hn
    · intro block hblock
      rw [finish_blocks, List.map_append, List.mem_append] at hblock
      rcases hblock with hblock | hblock
      · exact hd.phis_first block hblock
      · rw [List.mem_singleton.1 hblock]
        exact fun i hi => nomatch hi
  | @push _ _ _ _ i hsplit hphi hname =>
    refine replace_wellFormed hd hsplit rfl (phis_first_push (hphis hsplit) hphi) hname ?_
    have hfilter : [i].filterMap Instr.defines = i.defines.toList := by
      cases h : i.defines <;> simp [h]
    rw [List.perm_iff_count]
    intro w
    simp only [Block.defined, DraftBlock.block, List.filterMap_append, hfilter, List.count_append]
    omega
  | extendPhi hsplit hinstrs =>
    obtain ⟨hdefined, hflags⟩ := extendPhi_cases hinstrs
    refine replace_wellFormed hd hsplit rfl (phis_first_of_map_eq hflags (hphis hsplit)) .none ?_
    simp [Block.defined, DraftBlock.block, hdefined]
  | @terminate _ _ b _ t hsplit hterm hname =>
    refine replace_wellFormed hd hsplit rfl (hphis hsplit) hname ?_
    have hnone : (b.terminator.getD .unreachable).definesOn 0 = none := by rw [hterm]; rfl
    simpa [Block.defined, DraftBlock.block, hnone] using List.perm_append_comm

theorem start_wellFormed (name : String) : (start name).finish.WellFormed where
  nonempty := by simp [finish_blocks, start]
  id {n b} hb := by
    obtain ⟨c, hc, rfl⟩ := getElem?_finish.1 hb
    rw [start, List.getElem?_singleton] at hc
    split at hc <;> cases hc
    rename_i hn
    exact Ident.ext hn.symm
  phis_first := by simp [finish_blocks, start, DraftBlock.block, Block.body]
  nodup := by simp [Func.defined, finish, start, Block.defined, Terminator.definesOn]
  lt := by simp [Func.defined, finish, start, Block.defined, Terminator.definesOn]

/-- The block at a position has been given the end `t`. -/
def EndsWith (d : Draft) (n : Nat) (t : Terminator) : Prop :=
  ∃ b, d.blocks[n]? = some b ∧ b.terminator = some t

/-- **An end stays as it was given.** -/
theorem Change.endsWith {n : Nat} {t : Terminator} (h : d.Change d') (hc : d.EndsWith n t) :
    d'.EndsWith n t := by
  obtain ⟨c, hc, ht⟩ := hc
  cases h with
  | same | moveTo | freshValue | param => exact ⟨c, hc, ht⟩
  | newBlock => exact ⟨c, by rw [List.getElem?_append_left (List.getElem?_eq_some_iff.1 hc).1, hc], ht⟩
  | push hsplit | extendPhi hsplit =>
    rcases getElem?_replace _ (hsplit ▸ hc) with hc | ⟨rfl, hb⟩
    · exact ⟨c, hc, ht⟩
    · exact ⟨_, hb, ht⟩
  | terminate hsplit hnone =>
    rcases getElem?_replace _ (hsplit ▸ hc) with hc | ⟨rfl, _⟩
    · exact ⟨c, hc, ht⟩
    · exact absurd (hnone.symm.trans ht) nofun

/-- **Whatever is drafted is well-formed.**  The commands may come in any order and may fault; the
function has its blocks in place, φs first and one definition for every value.  Ends stay as they
were given.  So only a successor that was never drafted can keep it from having a flow graph, and
its copies on edges are never refused for a late φ. -/
theorem performAll_wellFormed (name : String) (cs : List Command) :
    let d := ((start name).performAll cs).2
    d.finish.WellFormed ∧
    (∀ more n t, d.EndsWith n t → (d.performAll more).2.EndsWith n t) ∧
    (∀ stop, FlowGraph.ofFunc d.finish = .error stop → ∃ b ∈ d.finish.blocks,
      ∃ t ∈ b.terminator.successors, d.finish.blocks.length ≤ t.index ∧
        stop = .refused (.malformed b.id (.noSuchSuccessor t))) ∧
    ∀ g b, EdgeCopies.ofFunc d.finish g ≠ .error (.refused (.malformed b .latePhi)) := by
  intro d
  have hd : d.finish.WellFormed :=
    performAll_induction (P := fun d => d.finish.WellFormed)
      (fun _ _ hd hchange => hchange.wellFormed hd) (start_wellFormed name) cs
  refine ⟨hd, fun more n t ht => ?_, fun stop hstop => ?_, fun g b hlate => ?_⟩
  · exact performAll_induction (P := fun d => d.EndsWith n t)
      (fun _ _ ht hchange => hchange.endsWith ht) ht more
  · rcases FlowGraph.ofFunc_error hstop with ⟨hnil, _⟩ | ⟨n, b, hb, ⟨hplace, _⟩ | hdangling⟩
    · exact absurd hnil hd.nonempty
    · exact absurd (congrArg Ident.index (hd.id hb)) hplace
    · exact ⟨b, List.mem_of_getElem? hb, hdangling⟩
  · obtain ⟨block, hblock, ⟨⟨i, hi, hphi⟩, _⟩ | ⟨dst, incoming, _, i, _, e, hi⟩⟩ :=
      EdgeCopies.ofFunc_error hlate
    · exact absurd hphi (by simp [hd.phis_first block hblock i hi])
    · rcases EdgeCopies.addIncoming_error hi with ⟨_, _, h⟩ | h | h <;> cases h

/-- A block is ended twice, the second time by a call whose result has taken a name; a φ of another
block reads it. -/
def endedTwice : List Command :=
  [.br ⟨1⟩, .invoke "get" [] ⟨0⟩ ⟨0⟩ true, .newBlock, .moveTo ⟨1⟩, .phi [⟨⟨0⟩, .value ⟨0⟩⟩], .ret none]

theorem endedTwice_wellFormed :
    let d := ((start "main").performAll endedTwice).2
    ((start "main").performAll endedTwice).1[1]? = some (.error (.terminatedTwice ⟨0⟩)) ∧
    d.finish.defined = [⟨1⟩] ∧ d.finish.valueCount = 2 ∧ d.finish.WellFormed ∧
    d.EndsWith 0 (.br ⟨1⟩) ∧ (d.performAll [.moveTo ⟨0⟩, .unreachable]).2.EndsWith 0 (.br ⟨1⟩) := by
  intro d
  have hends : d.EndsWith 0 (.br ⟨1⟩) := ⟨_, rfl, rfl⟩
  obtain ⟨hd, hkeep, -⟩ := performAll_wellFormed "main" endedTwice
  exact ⟨by decide +kernel, by decide +kernel, by decide +kernel, hd, hends, hkeep _ _ _ hends⟩

end Draft

end FlowTree
