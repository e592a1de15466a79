import FlowTree.Storage.Copy

/-!
# Environments

A row of constants, one for each value, undefined past its end.  A parallel copy between values can
be performed on an environment, with a record of what it reads and writes.
-/

namespace FlowTree

/-- A constant for each value; undefined past the end. -/
structure Environment where
  constants : List Constant
deriving DecidableEq, Repr

/-- One read or write of a copy. -/
inductive Access where
  | read (src : Source ValueId)
  | write (dst : ValueId)
deriving DecidableEq, Repr

namespace Environment

def get (e : Environment) (v : ValueId) : Constant := e.constants[v.index]?.getD .undefined

/-- The environment with a value set; values in between are undefined. -/
def set (e : Environment) (v : ValueId) (c : Constant) : Environment :=
  let grown := e.constants ++ List.replicate (v.index + 1 - e.constants.length) .undefined
  ⟨grown.set v.index c⟩

/-- Read a source, and record it. -/
def read (src : Source ValueId) : StateM (Environment × List Access) Constant := do
  let (e, log) ← MonadState.get
  MonadState.set (e, log ++ [.read src])
  match src with
  | .loc v => return e.get v
  | .const c => return c

/-- Write a value, and record it. -/
def write (v : ValueId) (c : Constant) : StateM (Environment × List Access) Unit := do
  let (e, log) ← MonadState.get
  MonadState.set (e.set v c, log ++ [.write v])

/-- Perform a parallel copy, and record its accesses in order. -/
def perform (e : Environment) (copy : ParallelCopy ValueId) : Environment × List Access :=
  ((copy.perform read write).run (e, [])).2

end Environment

end FlowTree
