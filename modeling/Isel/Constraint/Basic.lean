import Isel.Register

/-! Constraints: where the operands of a node have to be for the instructions emitted for it. A
constraint lists the output, the inputs, temporaries that the instructions destroy, and registers
that they overwrite besides. -/

namespace Isel

inductive Role
  | input
  | output
  /-- A temporary, disjoint from output and inputs. -/
  | scratch
  /-- A register that is overwritten. It may be that of the output or of a pinned input. -/
  | clobber
deriving DecidableEq, Repr

/-- Where an operand may be. -/
inductive Requirement
  | fixed (r : Reg)
  | register (c : RegClass)
  /-- A register or memory; only registers are used. -/
  | registerOrMemory (c : RegClass)
  | any
deriving DecidableEq, Repr

namespace Requirement

def gpr : Requirement := register .int

def xmm : Requirement := register .float

def fixed? : Requirement → Option Reg
  | fixed r => some r
  | _ => none

def cls : Requirement → RegClass
  | fixed r => r.cls
  | register c | registerOrMemory c => c
  | any => .any

def isMetBy : Requirement → Reg → Bool
  | fixed r, reg => r = reg
  | register c, reg | registerOrMemory c, reg => c.contains reg
  | any, _ => true

def render : Requirement → String
  | fixed r => s!"={r.name}"
  | register c => c.name
  | registerOrMemory c => s!"{c.name}/mem"
  | any => "any"

end Requirement

/-- An operand with its place among those of the same role. Places are bytes. -/
structure Demand where
  role : Role
  index : Nat
  requirement : Requirement
deriving DecidableEq, Repr

/-- What the instructions of a node demand of its registers. -/
structure Constraint where
  demands : List Demand := []
  /-- Whether the two inputs may change places. -/
  isCommutative : Bool := false
deriving DecidableEq, Repr

namespace Constraint

/-- The number of operands in a role, kept in a byte. -/
def count (c : Constraint) (role : Role) : Nat := (c.demands.countP (·.role = role)) % 256

def add (c : Constraint) (role : Role) (r : Requirement) : Constraint :=
  let index := if role = .output then 0 else c.count role
  { c with demands := c.demands ++ [⟨role, index, r⟩] }

def output (c : Constraint) (r : Requirement) : Constraint := c.add .output r

def input (c : Constraint) (r : Requirement) : Constraint := c.add .input r

/-- Adds `n` inputs with the same requirement. -/
def inputs (c : Constraint) (n : Nat) (r : Requirement) : Constraint :=
  n.fold (fun _ _ c => c.input r) c

def scratch (c : Constraint) (r : Requirement) : Constraint := c.add .scratch r

def clobber (c : Constraint) (r : Reg) : Constraint := c.add .clobber (.fixed r)

def commutative (c : Constraint) : Constraint := { c with isCommutative := true }

/-- The operands in a role. -/
def ofRole (c : Constraint) (role : Role) : List Demand := c.demands.filter (·.role = role)

/-- The requirement on the output, if the node has one. -/
def output? (c : Constraint) : Option Requirement :=
  (c.demands.find? (·.role = .output)).map Demand.requirement

/-- The requirement on the input at a place. -/
def input? (c : Constraint) (index : Nat) : Option Requirement :=
  ((c.ofRole .input).find? (·.index = index)).map Demand.requirement

/-- The registers that are overwritten: fixed ones of the output, of temporaries and of clobbers. -/
def overwritten (c : Constraint) : List Reg :=
  (c.demands.filter (·.role ≠ .input)).filterMap (·.requirement.fixed?)

/-- Two inputs and an output of a class, with a detour register. -/
def binary (cls : RegClass) (isCommutative : Bool) (detour : Reg) : Constraint :=
  let c := ((({} : Constraint).output (.register cls)).inputs 2 (.registerOrMemory cls)).scratch
    (.fixed detour)
  if isCommutative then c.commutative else c

/-- One input and an output of a class. -/
def unary (cls : RegClass) : Constraint :=
  (({} : Constraint).output (.register cls)).input (.registerOrMemory cls)

/-- The dividend is in `rax`; both halves of `rdx:rax` are overwritten. -/
def division (output : Gpr) : Constraint :=
  (((({} : Constraint).output (.fixed (.gpr output))).input (.fixed (.gpr .rax))).input
    .gpr).clobber (.gpr .rax) |>.clobber (.gpr .rdx)

/-- The count is in `rcx`. -/
def shift (detour : Gpr) : Constraint :=
  (((({} : Constraint).output .gpr).input (.registerOrMemory .int)).input
    (.fixed (.gpr .rcx))).scratch (.fixed (.gpr detour))

end Constraint

end Isel
