import FlowTree.Fault

/-!
# Refusals

Why a function is not lowered.  A refusal is an answer about the input, unlike a `Fault`, which is
about the caller.  An `Attempt` keeps the two apart, so that "the function was refused" and "a
precondition was broken" are different results of one computation.
-/

namespace FlowTree

/-- What is wrong with a malformed function. -/
inductive Defect where
  | noBlocks
  /-- A block does not stand where its name says. -/
  | misplaced (position : Nat)
  | noSuchSuccessor (target : BlockId)
  | latePhi
  /-- A φ names a block from which control does not arrive. -/
  | notPredecessor (phi : ValueId) (source : BlockId)
  | conflictingValues (phi : ValueId) (source : BlockId)
  /-- A loop was folded before its header was free. -/
  | headerFolded (loop : LoopId)
  /-- Anything else, in the words of whoever found it. -/
  | described (words : String)
deriving DecidableEq, Repr

def Defect.message : Defect → String
  | noBlocks => "function has no blocks"
  | misplaced position => s!"block stored at position {position}"
  | noSuchSuccessor target => s!"successor {target.text} does not exist"
  | latePhi => "φ after a non-φ instruction"
  | notPredecessor phi source => s!"φ {phi.text} names {source.text}, which is not a predecessor"
  | conflictingValues phi source => s!"φ {phi.text} has conflicting values from {source.text}"
  | headerFolded loop => s!"header of {loop.text} was folded into another loop"
  | described words => words

/-- Why a function is not lowered. -/
inductive Refusal where
  | malformed (block : BlockId) (defect : Defect)
  /-- A region is entered at more than one block. -/
  | irreducible (headers region : List BlockId)
  | tooManyLoops (limit : Nat)
deriving DecidableEq, Repr

/-- Blocks in a row, parted by commas. -/
def blocksText (bs : List BlockId) : String := ", ".intercalate (bs.map Ident.text)

def Refusal.message : Refusal → String
  | malformed block defect => s!"malformed CFG at {block.text}: {defect.message}"
  | irreducible headers region =>
    s!"irreducible control flow: headers [{blocksText headers}], region [{blocksText region}]"
  | tooManyLoops limit => s!"too many loops: limit is {limit}"

/-- Why a computation has no result. -/
inductive Stop where
  | refused (r : Refusal)
  | fault (f : Fault)
deriving DecidableEq, Repr

/-- A result, or what prevented it. -/
abbrev Attempt := Except Stop

def refuse {α : Type} (r : Refusal) : Attempt α := .error (.refused r)

/-- What can only fault is also an attempt. -/
instance : MonadLift Checked Attempt where
  monadLift
    | .ok a => .ok a
    | .error f => .error (.fault f)

section Results

variable {α : Type}

@[simp] theorem liftM_ok {a : α} : (liftM (.ok a : Checked α) : Attempt α) = .ok a := rfl

@[simp] theorem liftM_eq_ok {x : Checked α} {a : α} :
    (liftM x : Attempt α) = .ok a ↔ x = .ok a := by
  cases x with
  | error f => constructor <;> intro h <;> cases h
  | ok b => constructor <;> intro h <;> cases h <;> rfl

@[simp] theorem refuse_ne_ok {r : Refusal} {a : α} : ¬ (refuse r : Attempt α) = .ok a :=
  fun h => nomatch h

end Results

end FlowTree
