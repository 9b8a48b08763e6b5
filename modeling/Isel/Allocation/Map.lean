import Isel.Register
import Isel.Table

/-! Register assignments: a register for the value of a node, and registers for the temporaries
that a node asked for by class. -/

namespace Isel

structure Allocation where
  values : Table Nat Reg := {}
  scratches : Table (Nat × Nat) Reg := {}
deriving DecidableEq, Repr

namespace Allocation

/-- The register of the value of a node. -/
def get? (a : Allocation) (id : Nat) : Option Reg := a.values.get? id

def set (a : Allocation) (id : Nat) (r : Reg) : Allocation :=
  { a with values := a.values.set id r }

/-- The register of a temporary of a node. -/
def scratch? (a : Allocation) (id index : Nat) : Option Reg := a.scratches.get? (id, index)

def setScratch (a : Allocation) (id index : Nat) (r : Reg) : Allocation :=
  { a with scratches := a.scratches.set (id, index) r }

def size (a : Allocation) : Nat := a.values.entries.length

/-- The values with their registers, by the number of the node. -/
def toList (a : Allocation) : List (Nat × Reg) := a.values.entries.mergeSort fun x y => x.1 ≤ y.1

end Allocation

end Isel
