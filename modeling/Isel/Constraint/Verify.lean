import Isel.Constraint.Basic

/-! Checking registers against a constraint. -/

namespace Isel

/-- The first rule of a constraint that registers break. -/
inductive Violation
  | output (r : Reg) (q : Requirement)
  | missingInput (index : Nat)
  | input (index : Nat) (r : Reg) (q : Requirement)
  | missingScratch (index : Nat)
  | scratch (index : Nat) (r : Reg) (q : Requirement)
  | overlap (r : Reg)
  | clobbered (index : Nat) (r : Reg)
deriving DecidableEq, Repr

def Violation.message : Violation → String
  | output r q => s!"output in {r.name} violates {q.render}"
  | missingInput index => s!"missing input {index}"
  | input index r q => s!"input {index} in {r.name} violates {q.render}"
  | missingScratch index => s!"missing scratch {index}"
  | scratch index r q => s!"scratch {index} in {r.name} violates {q.render}"
  | overlap r => s!"scratch {r.name} overlaps an operand"
  | clobbered index r => s!"input {index} in {r.name} is clobbered"

/-- The registers of one node. An input comes with the node that it is the value of. -/
structure Assignment where
  output : Option Reg
  inputs : List (Nat × Reg)
  scratches : List Reg
deriving DecidableEq, Repr

namespace Constraint

def outputViolation? (c : Constraint) (a : Assignment) : Option Violation :=
  match c.output?, a.output with
  | some q, some r => if q.isMetBy r then none else some (.output r q)
  | _, _ => none

def inputViolation? (a : Assignment) (d : Demand) : Option Violation :=
  match a.inputs[d.index]? with
  | none => some (.missingInput d.index)
  | some (_, r) => if d.requirement.isMetBy r then none else some (.input d.index r d.requirement)

def scratchViolation? (a : Assignment) (d : Demand) : Option Violation :=
  match a.scratches[d.index]? with
  | none => some (.missingScratch d.index)
  | some r =>
    if !d.requirement.isMetBy r then some (.scratch d.index r d.requirement)
    else if a.output = some r ∨ a.inputs.any (·.2 = r) then some (.overlap r)
    else none

/-- Whether a value is pinned to a register by one of the inputs. -/
def isPinned (c : Constraint) (a : Assignment) (value : Nat) (r : Reg) : Bool :=
  (c.ofRole .input).any fun d =>
    d.requirement.fixed? = some r && (a.inputs[d.index]?.map Prod.fst) = some value

/-- An input that is not pinned may not be in an overwritten register, unless the same value is
pinned there. -/
def clobberViolation? (c : Constraint) (a : Assignment) (reg : Reg) (d : Demand) :
    Option Violation :=
  match d.requirement.fixed?, a.inputs[d.index]? with
  | none, some (value, r) =>
    if r = reg ∧ !c.isPinned a value reg then some (.clobbered d.index reg) else none
  | _, _ => none

/-- The first violation: of the output, of the inputs, of the temporaries, then of inputs that are
overwritten. -/
def violation? (c : Constraint) (a : Assignment) : Option Violation :=
  let inputs := c.ofRole .input
  (c.outputViolation? a).or
    ((inputs.findSome? (inputViolation? a)).or
      (((c.ofRole .scratch).findSome? (scratchViolation? a)).or
        (c.overwritten.findSome? fun reg => inputs.findSome? (c.clobberViolation? a reg))))

end Constraint

end Isel
