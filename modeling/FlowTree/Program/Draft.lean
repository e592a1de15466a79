import FlowTree.Fault
import FlowTree.Program.Func

/-!
# Drafts

A draft is a function being written: pick a block, add instructions, end it.  Values and blocks are
numbered in the order in which they are asked for, and a draft starts with its entry block picked.

An edit out of order is a fault, and a fault leaves behind what was done up to it: a call that may
unwind has already taken the name of its result when it finds its block ended.  So an edit is a
computation whose state outlives the fault, `Edit α`.

## Main definitions

* `Draft`, `Draft.start`, `Draft.finish` — a draft, its first state, and the function it becomes.
* `Edit α` — an edit with a result.
* `Edit.freshValue`, `Edit.param`, `Edit.newBlock`, `Edit.moveTo` — names and position.
* `Edit.define`, `Edit.phi`, `Edit.call`, `Edit.push` — instructions.
* `Edit.terminate`, `Edit.invoke` — ends of blocks.
-/

namespace FlowTree

/-- A block being written. -/
structure DraftBlock where
  id : BlockId
  instrs : List Instr := []
  terminator : Option Terminator := none
deriving DecidableEq, Repr

/-- A function being written. -/
structure Draft where
  name : String
  params : List ValueId := []
  blocks : List DraftBlock
  current : BlockId
  /-- How many values have been named. -/
  nextValue : Nat := 0
deriving DecidableEq, Repr

namespace Draft

/-- A draft with its entry block picked. -/
def start (name : String) : Draft :=
  { name, blocks := [{ id := BlockId.entry }], current := BlockId.entry }

def currentBlock (d : Draft) : Checked DraftBlock :=
  match d.blocks[d.current.index]? with
  | some b => .ok b
  | none => .error .outOfBounds

/-- The draft with the block at a position changed. -/
def modifyBlock (d : Draft) (b : BlockId) (f : DraftBlock → DraftBlock) : Draft :=
  { d with blocks := d.blocks.modify b.index f }

/-- The function that the draft has become; a block without an end is not reached. -/
def finish (d : Draft) : Func where
  name := d.name
  params := d.params
  blocks := d.blocks.map fun b =>
    { id := b.id, instrs := b.instrs, terminator := b.terminator.getD .unreachable }
  valueCount := d.nextValue

end Draft

/-- An edit of a draft: a result or a fault, and in both cases the draft as it is left. -/
abbrev Edit := EStateM Fault Draft

namespace Edit

/-- Do what may fault, without touching the draft. -/
def check {α : Type} (c : Checked α) : Edit α :=
  match c with
  | .ok a => pure a
  | .error e => throw e

def freshValue : Edit ValueId := do
  let d ← get
  if d.nextValue + 1 < Ident.capacity then
    set { d with nextValue := d.nextValue + 1 }
    return ⟨d.nextValue⟩
  else
    throw .valuesUsedUp

def param : Edit ValueId := do
  let v ← freshValue
  modify fun d => { d with params := d.params ++ [v] }
  return v

/-- Add a block, without moving to it. -/
def newBlock : Edit BlockId := do
  let id ← check (Ident.ofIndex .block (← get).blocks.length)
  modify fun d => { d with blocks := d.blocks ++ [{ id }] }
  return id

/-- Go on writing at block `b`. -/
def moveTo (b : BlockId) : Edit Unit := do
  let d ← get
  if b.index < d.blocks.length then
    set { d with current := b }
  else
    throw (.noSuchBlock b d.blocks.length)

def current : Edit BlockId := return (← get).current

def isTerminated : Edit Bool := do
  let b ← check (← get).currentBlock
  return b.terminator.isSome

def push (i : Instr) : Edit Unit := do
  let d ← get
  let _ ← check d.currentBlock
  set (d.modifyBlock d.current fun b => { b with instrs := b.instrs ++ [i] })

/-- Add an instruction that defines a new value. -/
def define (instr : ValueId → Instr) : Edit ValueId := do
  let dst ← freshValue
  push (instr dst)
  return dst

/-- Add a φ; only φs may stand before it. -/
def phi (incoming : List Incoming) : Edit ValueId := do
  let b ← check (← get).currentBlock
  unless b.instrs.all Instr.isPhi do
    throw (.latePhi (← get).current)
  define fun dst => .phi dst incoming

/-- The instructions with one more predecessor for the first φ that defines `v`, if there is one. -/
def extendPhi (v : ValueId) (more : Incoming) : List Instr → Option (List Instr)
  | [] => none
  | .phi dst incoming :: rest =>
    if dst = v then some (.phi dst (incoming ++ [more]) :: rest)
    else (extendPhi v more rest).map (.phi dst incoming :: ·)
  | i :: rest => (extendPhi v more rest).map (i :: ·)

/-- Give the φ that defines `v` in block `b` one more predecessor.  The answer is whether there is
such a φ. -/
def addIncoming (b : BlockId) (v : ValueId) (more : Incoming) : Edit Bool := do
  let d ← get
  match d.blocks[b.index]?.bind fun draft => extendPhi v more draft.instrs with
  | none => return false
  | some instrs =>
    set (d.modifyBlock b fun draft => { draft with instrs })
    return true

/-- Name a result, if there is to be one. -/
def freshResult (hasResult : Bool) : Edit (Option ValueId) := do
  if hasResult then
    let v ← freshValue
    return some v
  else
    return none

def call (callee : String) (args : List Operand) (hasResult : Bool) : Edit (Option ValueId) := do
  let dst ← freshResult hasResult
  push (.call dst callee args)
  return dst

def terminate (t : Terminator) : Edit Unit := do
  let d ← get
  let b ← check d.currentBlock
  if b.terminator.isSome then
    throw (.terminatedTwice b.id)
  else
    set (d.modifyBlock d.current fun b => { b with terminator := some t })

/-- End the block that is being written with a call that may unwind.  The result is named first,
also if the block then turns out to have its end. -/
def invoke (callee : String) (args : List Operand) (normal unwind : BlockId) (hasResult : Bool) :
    Edit (Option ValueId) := do
  let dst ← freshResult hasResult
  terminate (.invoke dst callee args normal unwind)
  return dst

end Edit

end FlowTree
