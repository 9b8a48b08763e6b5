import Isel.Allocation.Map
import Isel.Config
import Isel.Constraint.Verify
import Isel.Instruction.Code
import Isel.Opcode.Emit
import Isel.Opcode.Registry

/-! Code for a graph with registers. The instructions of the blocks follow one another in the
order of the blocks, with a label in front of each block; failed bounds checks jump to one more
label at the end. -/

namespace Isel

namespace Emission

-- Sums start from the zero of the core library, whatever else is imported.
attribute [local instance (2000)] Zero.ofOfNat0

def location (a : Allocation) (id : Nat) : Except Error Reg :=
  match a.get? id with
  | some r => .ok r
  | none => .error (.unallocated id)

/-- The register of a temporary: the fixed one, or the one that was allocated. -/
def scratchLocation (a : Allocation) (id : Nat) (d : Demand) : Except Error Reg :=
  match d.requirement with
  | .fixed r => .ok r
  | _ =>
    match a.scratch? id d.index with
    | some r => .ok r
    | none => .error (.unallocated id)

/-- The registers of a node. -/
def assignment (a : Allocation) (id : Nat) (n : Node) (c : Constraint) :
    Except Error Assignment := do
  let output ← c.output?.mapM fun _ => location a id
  let inputs ← n.inputs.mapM fun v => do return (v, ← location a v)
  let scratches ← (c.ofRole .scratch).mapM (scratchLocation a id)
  return { output, inputs, scratches }

def checkFeatures (config : Config) (d : Descriptor) : Except Error Unit :=
  match d.features.firstMissing config.features with
  | some missing => .error (.missingFeature d.opcode.name missing.name)
  | none => .ok ()

/-- Checks the registers of a node against its constraint. -/
def checkAssignment (config : Config) (id : Nat) (n : Node) (c : Constraint) (x : Assignment) :
    Except Failure Unit :=
  match c.violation? x with
  | none => .ok ()
  | some v =>
    if config.strictConstraints then
      .error (.broken s!"allocator broke the constraints of i{id} ({n.op.name}): {v.message}")
    else .error (.error (.violation n.op.name v.message))

/-- The instructions of a node in block `b`. -/
def emitNode (g : Graph) (a : Allocation) (config : Config) (b : Nat) (block : Block) (id : Nat)
    (n : Node) : Except Failure (List Inst) := do
  let d ← orError n.op.require
  orError (checkFeatures config d)
  let c := d.family.constraint n
  let x ← orError (assignment a id n c)
  checkAssignment config id n c x
  if block.successors.any (g.blocks.size ≤ ·) then .error .dangling
  else
    let site : Site :=
      { node := n
        output := x.output
        inputs := x.inputs.map Prod.snd
        scratches := x.scratches
        successors := block.successors
        fallthrough := if b + 1 < g.blocks.size then some (b + 1) else none
        trap := g.blocks.size }
    (d.family.emit site).mapError fun e => .error e.2

/-- The instructions of a block. -/
def emitBlock (g : Graph) (a : Allocation) (config : Config) (b : Nat) (block : Block) :
    Except Failure (List Inst) := do
  let parts ← (g.members b).mapM fun id => do
    let n ← orDangling (g.node? id)
    emitNode g a config b block id n
  return parts.flatten

/-- The positions at which stretches of code start. -/
def starts (parts : List (List Inst)) : List Nat :=
  (List.range parts.length).map fun k => ((parts.take k).map List.length).sum

/-- Code from the instructions of the blocks. The label after those of the blocks is bound to a
trap at the end if anything jumps to it. -/
def link (parts : List (List Inst)) : Code :=
  let body := parts.flatten
  let trap := parts.length
  let bound := (starts parts).map some
  if body.any (·.mentions trap) then
    { insts := (body ++ [Inst.ud2]).toArray, labels := (bound ++ [some body.length]).toArray }
  else { insts := body.toArray, labels := (bound ++ [none]).toArray }

end Emission

/-- Code for a graph with registers. -/
def emit (g : Graph) (a : Allocation) (config : Config) : Except Failure Code := do
  let parts ← g.blocks.toList.zipIdx.mapM fun (block, b) => Emission.emitBlock g a config b block
  return Emission.link parts

end Isel
