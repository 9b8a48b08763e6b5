import Isel.Instruction.Printer

/-! Code: instructions with labels bound to positions in front of them, and an assembler that
records code step by step. -/

namespace Isel

structure Code where
  insts : Array Inst
  /-- The number of instructions in front of each label, if it is bound. -/
  labels : Array (Option Nat)
deriving DecidableEq, Repr

namespace Code

def offset? (c : Code) (l : Nat) : Option Nat := c.labels[l]?.join

/-- The labels bound in front of an instruction, in order. -/
def labelsAt (c : Code) (position : Nat) : List Nat :=
  (List.range c.labels.size).filter fun l => c.offset? l == some position

/-- The lines of the listing. A label that no instruction follows is not listed. -/
def listing (c : Code) : List String :=
  (c.insts.toList.mapIdx fun position i =>
    (c.labelsAt position).map (fun l => s!"L{l}:") ++ [s!"  {i.render}"]).flatten

end Code

/-- Code in the making. -/
structure Assembler where
  insts : Array Inst := #[]
  labels : Array (Option Nat) := #[]
deriving DecidableEq, Repr

namespace Assembler

/-- A new label, not yet bound. -/
def newLabel (a : Assembler) : Nat × Assembler :=
  (a.labels.size, { a with labels := a.labels.push none })

/-- Binds an existing label to the current position. -/
def bind? (a : Assembler) (l : Nat) : Option Assembler :=
  if l < a.labels.size then
    some { a with labels := a.labels.setIfInBounds l (some a.insts.size) }
  else none

/-- Appends an instruction; its labels have to exist. -/
def emit? (a : Assembler) (i : Inst) : Option Assembler :=
  if i.labels.all (· < a.labels.size) then some { a with insts := a.insts.push i } else none

def isReferenced (a : Assembler) (l : Nat) : Bool := a.insts.any (·.mentions l)

def finish (a : Assembler) : Code := ⟨a.insts, a.labels⟩

end Assembler

end Isel
