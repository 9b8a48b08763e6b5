import Isel.Constraint.Basic
import Isel.Graph.Basic

/-! Families of opcodes. Each family publishes a constraint for a node and emits instructions for
it. A family looks at the operator of the node for what differs between its members. -/

namespace Isel

inductive Family
  | arith
  | shift
  | division
  | bitCount
  | extend32
  | intConst
  | intBool
  | compare
  | floatBinary
  | floatUnary
  | floatConst
  | floatBool
  /-- Loads from the memory context. -/
  | context
  | boundsCheck
  | load
  | store
  | state
  | updateState
  | ret
  | intRet
  | floatRet
  | branch
  | branchOn
  | jump
deriving DecidableEq, Repr

def TargetLoad.cls : TargetLoad → RegClass
  | .word _ | .extended _ _ => .int
  | .float _ => .float

def TargetStore.cls : TargetStore → RegClass
  | .int _ => .int
  | .float _ => .float

namespace Operator

/-- Whether the inputs of an integer operation may change places. -/
def isCommutativeInt : Operator → Bool
  | target (.int op) => op.toBinary.isCommutative
  | intBinary _ op => op.isCommutative
  | _ => false

/-- The half of `rdx:rax` in which a division leaves its result. -/
def divisionOutput : Operator → Gpr
  | intBinary _ (.division op) => if op.isRemainder then .rdx else .rax
  | _ => .rax

def loadClass : Operator → RegClass
  | target (.load access) => access.cls
  | _ => .int

def storeClass : Operator → RegClass
  | target (.store access) => access.cls
  | _ => .int

end Operator

namespace Family

/-- Where the operands of a node have to be. -/
def constraint (f : Family) (n : Node) : Constraint :=
  let c : Constraint := {}
  match f with
  | arith => .binary .int n.op.isCommutativeInt (.gpr Gpr.scratch)
  | shift => .shift Gpr.scratch
  | division => .division n.op.divisionOutput
  | bitCount | extend32 | intBool => .unary .int
  | intConst => c.output .gpr
  | compare => (c.output .gpr).inputs 2 (.registerOrMemory .int)
  | floatBinary =>
    match n.op with
    | .floatBinary _ .copysign =>
      (Constraint.binary .float false (.xmm Xmm.scratch)).scratch (.fixed (.xmm Xmm.maskScratch))
    | .floatBinary _ op => .binary .float op.isCommutative (.xmm Xmm.scratch)
    | _ => .binary .float false (.xmm Xmm.scratch)
  | floatUnary =>
    match n.op with
    | .floatUnary _ .abs | .floatUnary _ .neg =>
      (Constraint.unary .float).scratch (.fixed (.xmm Xmm.maskScratch))
    | _ => .unary .float
  | floatConst => (c.output .xmm).scratch (.fixed (.gpr Gpr.scratch))
  | floatBool => (c.output .gpr).input (.registerOrMemory .float)
  | context => (c.output .gpr).input (.registerOrMemory .int)
  | boundsCheck => ((c.output .gpr).inputs 3 (.registerOrMemory .int)).scratch .gpr
  | load => (c.output (.register n.op.loadClass)).inputs 3 .gpr
  | store => (c.inputs 3 .gpr).input (.register n.op.storeClass)
  | state => c.output (.fixed (.gpr Gpr.state))
  | updateState => (c.output .gpr).input .any
  | ret => c.inputs n.inputs.length .any
  | intRet => c.input (.fixed (.gpr .rax))
  | floatRet => c.input (.fixed (.xmm .xmm0))
  | branch => c.input (.registerOrMemory .int)
  | branchOn => c.inputs 2 (.registerOrMemory .int)
  | jump => c

end Family

end Isel
