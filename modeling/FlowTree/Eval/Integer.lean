import FlowTree.Eval.Meaning

/-!
# Blocks of integers

A small meaning of instructions in which everything computes with 64-bit integers that wrap around.
Values are constants.  Memory is not modelled: a load computes something from its address, a store
only reads its operands, and a call adds up its arguments.

## Main definitions

* `Constant.toWord` — a constant as an integer.
* `EvalError`, `EvalError.message` — what can go wrong.
* `BinaryOp.apply?`, `UnaryOp.apply`, `Comparison.holds` — the operators.
* `integerMeaning` — the meaning.
-/

namespace FlowTree

/-- A constant as an integer: a floating-point number is its bit pattern. -/
def Constant.toWord : Constant → Int64
  | int n => n
  | float bits => bits.toInt64
  | bool b => if b then 1 else 0
  | null => 0
  | undefined => 0

/-- What can go wrong in a block. -/
inductive EvalError where
  | noSlot (v : ValueId)
  | emptySlot (v : ValueId)
  | division
  | phiInBody
  | negativeAddress
  /-- Unwinding goes on out of the function. -/
  | resumed (c : Constant)
  | unreachable
deriving DecidableEq, Repr

def EvalError.message : EvalError → String
  | noSlot v => s!"{v.text} has no slot"
  | emptySlot v => s!"read of {v.text} from empty slot"
  | division => "division error"
  | phiInBody => "phi in block body"
  | negativeAddress => "negative address"
  | resumed c => s!"resume {c.code}"
  | unreachable => "unreachable executed"

def UnaryOp.apply (op : UnaryOp) (x : Int64) : Int64 :=
  match op with
  | neg => -x
  | not => ~~~x

/-- Whether a quotient fits: the divisor is not zero, and the smallest integer is not negated. -/
def divides (x y : Int64) : Bool := y ≠ 0 && !(x = Int64.minValue && y = -1)

/-- Apply a binary operator.  Division rounds toward zero, a shift takes the low six bits of its
amount, and a shift to the right keeps the sign. -/
def BinaryOp.apply? (op : BinaryOp) (x y : Int64) : Option Int64 :=
  match op with
  | add => some (x + y)
  | sub => some (x - y)
  | mul => some (x * y)
  | div => if divides x y then some (x / y) else none
  | rem => if divides x y then some (x % y) else none
  | and => some (x &&& y)
  | or => some (x ||| y)
  | xor => some (x ^^^ y)
  | shl => some (x <<< (y &&& 63))
  | shr => some (x >>> (y &&& 63))

def Comparison.holds (test : Comparison) (x y : Int64) : Bool :=
  match test with
  | eq => x = y
  | ne => x ≠ y
  | lt => x < y
  | le => x ≤ y
  | gt => y < x
  | ge => y ≤ x

namespace IntegerMeaning

/-- What operands hold. -/
abbrev Reader := FlowTree.Reader Constant EvalError

def word (read : Reader) (x : Operand) : Except EvalError Int64 := return (← read x).toWord

def sum (read : Reader) (args : List Operand) : Except EvalError Int64 :=
  args.foldlM (fun total x => return total + (← word read x)) 0

/-- What an instruction computes. -/
def instr (read : Reader) : Instr → Except EvalError (Option Constant)
  | .phi _ _ => .error .phiInBody
  | .copy _ x => return some (← read x)
  | .unary _ op x => return some (.int (op.apply (← word read x)))
  | .binary _ op l r => do
    let x ← word read l
    let y ← word read r
    match op.apply? x y with
    | some z => return some (.int z)
    | none => .error .division
  | .compare _ test l r => do
    let x ← word read l
    let y ← word read r
    return some (.bool (test.holds x y))
  | .select _ condition whenTrue whenFalse => do
    let x ← word read condition
    return some (← read (if x ≠ 0 then whenTrue else whenFalse))
  | .load _ address => return some (.int ((← word read address) * 3 + 1))
  | .store address value => do
    let _ ← read address
    let _ ← read value
    return none
  | .call _ _ args => return some (.int (← sum read args))

/-- How a terminator leaves its block.  A call unwinds if the callee's name starts with `throw`. -/
def leave (read : Reader) : Terminator → Except EvalError (Leave Constant)
  | .ret none => return .ret none
  | .ret (some x) => return .ret (some (← read x))
  | .br _ => return .take 0 none
  | .condBr condition _ _ => return .take (if (← word read condition) ≠ 0 then 0 else 1) none
  | .switch scrutinee cases _ => do
    let x ← word read scrutinee
    return .take (cases.findIdx fun arm => arm.1 = x) none
  | .indirectBr address _ => do
    let x ← word read address
    if x < 0 then .error .negativeAddress else return .take x.toInt.toNat none
  | .invoke _ callee args _ _ => do
    let x ← sum read args
    if callee.startsWith "throw" then return .take 1 none else return .take 0 (some (.int x))
  | .resume x => do .error (.resumed (← read x))
  | .unreachable => .error .unreachable

/-! ## What is read -/

variable {read read' : Reader}

theorem word_eq_ok {x : Operand} {n : Int64} :
    word read x = .ok n ↔ ∃ c, read x = .ok c ∧ c.toWord = n := by
  simp only [word, bind_eq_ok, pure_eq_ok]

theorem word_extends {xs : List Operand} {x : Operand} {n : Int64}
    (h : Reader.Extends xs read read') (hx : x ∈ xs) (hn : word read x = .ok n) :
    word read' x = .ok n := by
  obtain ⟨c, hc, hw⟩ := word_eq_ok.1 hn
  exact word_eq_ok.2 ⟨c, h x hx c hc, hw⟩

theorem sum_extends {args : List Operand} {n : Int64} (h : Reader.Extends args read read')
    (hn : sum read args = .ok n) : sum read' args = .ok n := by
  have key : ∀ (xs : List Operand), (∀ x ∈ xs, x ∈ args) → ∀ total,
      xs.foldlM (fun total x => return total + (← word read x)) total = .ok n →
      xs.foldlM (fun total x => return total + (← word read' x)) total = .ok n := by
    intro xs
    induction xs with
    | nil => exact fun _ _ h => h
    | cons x rest ih =>
      intro hxs total hn
      simp only [List.foldlM_cons, bind_eq_ok, pure_eq_ok] at hn ⊢
      obtain ⟨_, ⟨c, hc, rfl⟩, hrest⟩ := hn
      exact ⟨_, ⟨c, word_extends h (hxs x List.mem_cons_self) hc, rfl⟩,
        ih (fun y hy => hxs y (List.mem_cons_of_mem x hy)) _ hrest⟩
  exact key args (fun _ hx => hx) 0 hn

/-- An instruction reads its own operands. -/
theorem instr_extends {i : Instr} {r : Option Constant}
    (h : Reader.Extends i.operands read read') (hr : instr read i = .ok r) :
    instr read' i = .ok r := by
  cases i with
  | phi dst incoming => exact hr
  | copy dst x =>
    simp only [instr, bind_eq_ok, pure_eq_ok] at hr ⊢
    obtain ⟨c, hc, rfl⟩ := hr
    exact ⟨c, h x List.mem_cons_self c hc, rfl⟩
  | unary dst op x =>
    simp only [instr, bind_eq_ok, pure_eq_ok] at hr ⊢
    obtain ⟨n, hn, rfl⟩ := hr
    exact ⟨n, word_extends h List.mem_cons_self hn, rfl⟩
  | binary dst op x y =>
    simp only [instr, bind_eq_ok] at hr ⊢
    obtain ⟨n, hn, m, hm, hr⟩ := hr
    exact ⟨n, word_extends h (by simp [Instr.operands]) hn, m,
      word_extends h (by simp [Instr.operands]) hm, hr⟩
  | compare dst test x y =>
    simp only [instr, bind_eq_ok] at hr ⊢
    obtain ⟨n, hn, m, hm, hr⟩ := hr
    exact ⟨n, word_extends h (by simp [Instr.operands]) hn, m,
      word_extends h (by simp [Instr.operands]) hm, hr⟩
  | select dst condition whenTrue whenFalse =>
    simp only [instr, bind_eq_ok, pure_eq_ok] at hr ⊢
    obtain ⟨n, hn, c, hc, rfl⟩ := hr
    refine ⟨n, word_extends h (by simp [Instr.operands]) hn, c, h _ ?_ c hc, rfl⟩
    split <;> simp [Instr.operands]
  | load dst address =>
    simp only [instr, bind_eq_ok, pure_eq_ok] at hr ⊢
    obtain ⟨n, hn, rfl⟩ := hr
    exact ⟨n, word_extends h List.mem_cons_self hn, rfl⟩
  | store address value =>
    simp only [instr, bind_eq_ok] at hr ⊢
    obtain ⟨c, hc, d, hd, hr⟩ := hr
    exact ⟨c, h address (by simp [Instr.operands]) c hc, d,
      h value (by simp [Instr.operands]) d hd, hr⟩
  | call dst callee args =>
    simp only [instr, bind_eq_ok, pure_eq_ok] at hr ⊢
    obtain ⟨n, hn, rfl⟩ := hr
    exact ⟨n, sum_extends h hn, rfl⟩

/-- A terminator reads its own operands. -/
theorem leave_extends {t : Terminator} {r : Leave Constant}
    (h : Reader.Extends t.operands read read') (hr : leave read t = .ok r) :
    leave read' t = .ok r := by
  cases t with
  | ret operand =>
    cases operand with
    | none => exact hr
    | some x =>
      simp only [leave, bind_eq_ok, pure_eq_ok] at hr ⊢
      obtain ⟨c, hc, rfl⟩ := hr
      exact ⟨c, h x List.mem_cons_self c hc, rfl⟩
  | br target => exact hr
  | condBr condition whenTrue whenFalse =>
    simp only [leave, bind_eq_ok, pure_eq_ok] at hr ⊢
    obtain ⟨n, hn, rfl⟩ := hr
    exact ⟨n, word_extends h List.mem_cons_self hn, rfl⟩
  | switch scrutinee cases otherwise =>
    simp only [leave, bind_eq_ok, pure_eq_ok] at hr ⊢
    obtain ⟨n, hn, rfl⟩ := hr
    exact ⟨n, word_extends h List.mem_cons_self hn, rfl⟩
  | indirectBr address targets =>
    simp only [leave, bind_eq_ok] at hr ⊢
    obtain ⟨n, hn, hr⟩ := hr
    exact ⟨n, word_extends h List.mem_cons_self hn, hr⟩
  | invoke dst callee args normal unwind =>
    simp only [leave, bind_eq_ok] at hr ⊢
    obtain ⟨n, hn, hr⟩ := hr
    exact ⟨n, sum_extends h hn, hr⟩
  | resume x =>
    simp only [leave, bind_eq_ok] at hr
    obtain ⟨c, _, hr⟩ := hr
    cases hr
  | unreachable => cases hr

end IntegerMeaning

/-- The meaning in which everything is an integer. -/
def integerMeaning : Meaning Unit Constant EvalError where
  noSlot := .noSlot
  emptySlot := .emptySlot
  instr _ read i := return (← IntegerMeaning.instr read i, ())
  leave _ read t := return (← IntegerMeaning.leave read t, ())
  instr_extends h hr := by
    simp only [bind_eq_ok, pure_eq_ok] at hr ⊢
    obtain ⟨r, hr, rfl⟩ := hr
    exact ⟨r, IntegerMeaning.instr_extends h hr, rfl⟩
  leave_extends h hr := by
    simp only [bind_eq_ok, pure_eq_ok] at hr ⊢
    obtain ⟨r, hr, rfl⟩ := hr
    exact ⟨r, IntegerMeaning.leave_extends h hr, rfl⟩

end FlowTree
