import FlowTree.Eval.Meaning
import FlowTree.Proofs.EdgeMoves

/-!
# Running on values

What a function does, said without frames, slots and trees.  A run goes from block to block with the
values that are set so far.  On arrival at a block all its φs are set at once, each to what it takes
from the block that control comes from; then the instructions behind the φs run in order, then the
terminator.  Where control starts there is no block that it comes from, and no φ is set.

A run is stuck when a φ takes nothing from the block at hand, when a value is read that is not set,
when an instruction fails, or when an edge does not exist.

## Main definitions

* `Values` — the values that are set.
* `Block.reads` — the values that a block reads.
* `Meaning.arrive`, `Meaning.evalBlock` — the φs of a block, and what stands behind them.
* `Meaning.eval` — a function run on arguments.
-/

namespace FlowTree

variable {σ V E : Type}

/-! ## Values -/

/-- What each value is, as far as it is set. -/
def Values (V : Type) := ValueId → Option V

namespace Values

def none : Values V := fun _ => Option.none

/-- Set a value to a result.  Without a result the value is unset; without a value nothing
happens. -/
def set (vals : Values V) (v : Option ValueId) (x : Option V) : Values V :=
  fun u => if v = some u then x else vals u

def setAll (vals : Values V) (sets : List (ValueId × V)) : Values V :=
  sets.foldl (fun vals (v, x) => vals.set (some v) (some x)) vals

@[simp] theorem set_apply (vals : Values V) (v : Option ValueId) (x : Option V) (u : ValueId) :
    vals.set v x u = if v = some u then x else vals u := rfl

/-- A value is set to something that is in the list for it, or left alone. -/
theorem setAll_cases (vals : Values V) (sets : List (ValueId × V)) (v : ValueId) :
    (∃ x, (v, x) ∈ sets ∧ vals.setAll sets v = some x) ∨
      v ∉ sets.map Prod.fst ∧ vals.setAll sets v = vals v := by
  unfold setAll
  induction sets generalizing vals with
  | nil => exact .inr ⟨by simp, rfl⟩
  | cons p rest ih =>
    obtain ⟨u, y⟩ := p
    rw [List.foldl_cons]
    rcases ih (vals.set (some u) (some y)) with ⟨x, hx, heq⟩ | ⟨hv, heq⟩
    · exact .inl ⟨x, List.mem_cons_of_mem _ hx, heq⟩
    · by_cases hu : u = v
      · subst hu
        exact .inl ⟨y, List.mem_cons_self, by simp [heq]⟩
      · refine .inr ⟨?_, by simp [heq, hu]⟩
        rw [List.map_cons, List.mem_cons, not_or]
        exact ⟨Ne.symm hu, hv⟩

end Values

/-- What an instruction takes from predecessors. -/
def Instr.incoming : Instr → List Incoming
  | phi _ incoming => incoming
  | _ => []

/-- The values that a block reads: its φs on arrival, its instructions and its terminator. -/
def Block.reads (b : Block) : List ValueId :=
  (b.phis.flatMap Instr.incoming).filterMap (fun i => i.operand.value?) ++
    b.body.flatMap Instr.uses ++ b.terminator.uses

theorem Block.Takes.mem_reads {block : Block} {source : BlockId} {m : Move ValueId} {v : ValueId}
    (h : block.Takes source m) (hsrc : m.src = .loc v) : v ∈ block.reads := by
  obtain ⟨dst, incoming, hphi, i, hi, _, rfl⟩ := h
  refine List.mem_append_left _ (List.mem_append_left _ (List.mem_filterMap.2 ⟨i, ?_, ?_⟩))
  · exact List.mem_flatMap.2 ⟨_, hphi, hi⟩
  · cases hop : i.operand with
    | const c =>
      rw [hop] at hsrc
      cases hsrc
    | value u =>
      rw [hop] at hsrc
      cases hsrc
      rfl

/-! ## Runs -/

/-- Why a run does not return. -/
inductive Stuck (E : Type) where
  /-- Something failed in a block, or a value was read that is not set. -/
  | failed (e : E)
  /-- A φ takes nothing from the block that control comes from. -/
  | noIncoming (source : BlockId)
  | noBlock
  | unfinished
deriving DecidableEq, Repr

/-- What a run comes to. -/
structure Outcome (σ V : Type) where
  value : Option V
  world : σ
  /-- The blocks that were run, in order. -/
  path : List BlockId
deriving DecidableEq, Repr

namespace Meaning

variable [FrameValue V]

/-- What an operand is; reading a value that is not set fails. -/
def readValue (M : Meaning σ V E) (vals : Values V) : Reader V E
  | .const c => .ok (FrameValue.ofConstant c)
  | .value v =>
    match vals v with
    | none => .error (M.emptySlot v)
    | some x => .ok x

theorem readValue_value {M : Meaning σ V E} {vals : Values V} {v : ValueId} {x : V} :
    M.readValue vals (.value v) = .ok x ↔ vals v = some x := by
  simp only [readValue]
  split <;> simp_all

/-- What a φ is set to on arrival from `source`. -/
def takePhi (M : Meaning σ V E) (source : BlockId) (vals : Values V) :
    Instr → Except (Stuck E) (ValueId × V)
  | .phi dst incoming =>
    match incoming.find? fun i => i.source = source with
    | none => .error (.noIncoming source)
    | some i => do
      let x ← (M.readValue vals i.operand).mapError .failed
      return (dst, x)
  | _ => .error (.noIncoming source)

/-- Arrive at a block from `source`: every φ is read before any is set. -/
def arrive (M : Meaning σ V E) (source : BlockId) (target : Block) (vals : Values V) :
    Except (Stuck E) (Values V) := do
  let sets ← target.phis.mapM (M.takePhi source vals)
  return vals.setAll sets

def evalInstrs (M : Meaning σ V E) : List Instr → σ → Values V → Except E (σ × Values V)
  | [], w, vals => return (w, vals)
  | i :: rest, w, vals => do
    let (x, w) ← M.instr w (M.readValue vals) i
    M.evalInstrs rest w (vals.set i.defines x)

/-- Run a block whose φs are set. -/
def evalBlock (M : Meaning σ V E) (b : Block) (w : σ) (vals : Values V) :
    Except E (Leave V × σ × Values V) := do
  let (w, vals) ← M.evalInstrs b.body w vals
  let (leave, w) ← M.leave w (M.readValue vals) b.terminator
  return (leave, w, vals)

/-- The block that a position names. -/
def blockOf (f : Func) (b : BlockId) : Except (Stuck E) Block :=
  match f.block? b with
  | none => .error .noBlock
  | some block => .ok block

@[simp] theorem blockOf_eq_ok {f : Func} {b : BlockId} {block : Block} :
    (blockOf f b : Except (Stuck E) Block) = .ok block ↔ f.block? b = some block := by
  unfold blockOf
  split <;> simp_all

/-- Go on from block `b`, whose φs are set, for at most `limit` blocks. -/
def evalFrom (M : Meaning σ V E) (f : Func) :
    Nat → BlockId → σ → Values V → Except (Stuck E) (Outcome σ V)
  | 0, _, _, _ => .error .unfinished
  | limit + 1, b, w, vals => do
    let block ← blockOf f b
    match ← (M.evalBlock block w vals).mapError .failed with
    | (.ret value, w, _) => return { value, world := w, path := [b] }
    | (.take position result, w, vals) =>
      match block.terminator.successors[position]? with
      | none => .error .noBlock
      | some next =>
        let target ← blockOf f next
        let vals ← M.arrive b target (vals.set (block.terminator.definesOn position) result)
        let rest ← M.evalFrom f limit next w vals
        return { rest with path := b :: rest.path }

/-- Run a function on arguments for at most `limit` blocks. -/
def eval (M : Meaning σ V E) (f : Func) (limit : Nat) (world : σ) (args : List V) :
    Except (Stuck E) (Outcome σ V) :=
  M.evalFrom f limit BlockId.entry world (Values.none.setAll (f.params.zip args))

/-- **One block of a run**: it returns there, or takes an edge and goes on. -/
theorem evalFrom_cases {M : Meaning σ V E} {f : Func} {rounds : Nat} {b : BlockId} {w : σ}
    {vals : Values V} {o : Outcome σ V} (h : M.evalFrom f (rounds + 1) b w vals = .ok o) :
    ∃ block, f.block? b = some block ∧
      ((∃ value w' vals', M.evalBlock block w vals = .ok (.ret value, w', vals') ∧
        o = ⟨value, w', [b]⟩) ∨
      ∃ position result w' vals₁ next target vals₂ rest,
        M.evalBlock block w vals = .ok (.take position result, w', vals₁) ∧
        block.terminator.successors[position]? = some next ∧ f.block? next = some target ∧
        M.arrive b target (vals₁.set (block.terminator.definesOn position) result) = .ok vals₂ ∧
        M.evalFrom f rounds next w' vals₂ = .ok rest ∧
        o = ⟨rest.value, rest.world, b :: rest.path⟩) := by
  simp only [evalFrom, bind_eq_ok, blockOf_eq_ok, mapError_eq_ok] at h
  obtain ⟨block, hblock, ⟨leave, w', vals₁⟩, heval, h⟩ := h
  refine ⟨block, hblock, ?_⟩
  cases leave with
  | ret value =>
    rw [pure_eq_ok] at h
    exact .inl ⟨value, w', vals₁, heval, h.symm⟩
  | take position result =>
    dsimp only at h
    split at h
    · cases h
    · rename_i next hnext
      simp only [bind_eq_ok, pure_eq_ok, blockOf_eq_ok] at h
      obtain ⟨target, htarget, vals₂, harrive, rest, hrest, rfl⟩ := h
      exact .inr ⟨position, result, w', vals₁, next, target, vals₂, rest, heval, hnext, htarget,
        harrive, hrest, rfl⟩

/-! ## Arriving -/

variable {M : Meaning σ V E} {source : BlockId} {target : Block} {vals vals' : Values V}

theorem takePhi_cases {i : Instr} {v : ValueId} {x : V} (h : M.takePhi source vals i = .ok (v, x)) :
    ∃ incoming, i = .phi v incoming ∧
      ∃ j ∈ incoming, j.source = source ∧ M.readValue vals j.operand = .ok x := by
  cases i with
  | phi dst incoming =>
    simp only [takePhi] at h
    split at h
    · cases h
    · rename_i j hj
      simp only [bind_eq_ok, mapError_eq_ok, pure_eq_ok, Prod.mk.injEq] at h
      obtain ⟨_, hx, rfl, rfl⟩ := h
      exact ⟨incoming, rfl, j, List.mem_of_find?_eq_some hj, by simpa using List.find?_some hj, hx⟩
  | _ => cases h

/-- **Arriving at a block** sets each φ to what it takes, as it was before, and nothing else. -/
theorem arrive_cases (h : M.arrive source target vals = .ok vals') (v : ValueId) :
    (∃ operand x, target.Takes source ⟨v, Source.ofOperand operand⟩ ∧
      M.readValue vals operand = .ok x ∧ vals' v = some x) ∨
    (∀ m, target.Takes source m → m.dst ≠ v) ∧ vals' v = vals v := by
  simp only [arrive, bind_eq_ok, pure_eq_ok] at h
  obtain ⟨sets, hsets, rfl⟩ := h
  rcases vals.setAll_cases sets v with ⟨x, hx, heq⟩ | ⟨hv, heq⟩
  · obtain ⟨i, hi, htake⟩ := (mem_of_mapM hsets).1 hx
    obtain ⟨incoming, rfl, j, hj, hsource, hread⟩ := takePhi_cases htake
    exact .inl ⟨j.operand, x, ⟨v, incoming, hi, j, hj, hsource, rfl⟩, hread, heq⟩
  · refine .inr ⟨?_, heq⟩
    rintro m ⟨dst, incoming, hphi, i, _, _, rfl⟩ rfl
    obtain ⟨n, hn⟩ := List.mem_iff_getElem?.1 hphi
    obtain ⟨⟨u, x⟩, hset, htake⟩ := getElem?_of_mapM hsets hn
    obtain ⟨_, hi, _⟩ := takePhi_cases htake
    cases hi
    exact hv (List.mem_map.2 ⟨(dst, x), List.mem_of_getElem? hset, rfl⟩)

end Meaning

end FlowTree
