import FlowTree.Ident.Basic

/-!
# Options of lowering

How many loops are allowed, which slots are never emptied, and whether any are.
-/

namespace FlowTree

/-- What the caller can choose. -/
structure Options where
  /-- How many loops a function may have; any number if there is no limit. -/
  maxLoops : Option Nat := none
  neverCleared : List SlotId := []
  clearDead : Bool := true
deriving DecidableEq, Repr

namespace Options

def withMaxLoops (o : Options) (limit : Nat) : Options := { o with maxLoops := some limit }

/-- Never empty the given slots, nor those already named. -/
def withNeverCleared (o : Options) (slots : List SlotId) : Options :=
  { o with neverCleared := o.neverCleared ++ slots }

/-- Choose whether slots are emptied when nothing reads them any more. -/
def withClearDead (o : Options) (clearDead : Bool) : Options := { o with clearDead }

end Options

end FlowTree
