import Isel.Error
import Isel.Feature
import Isel.Opcode.Family

/-! The table of opcodes: which operators can be emitted, by which family, and what the emitted
instructions need of the machine. -/

namespace Isel

structure Descriptor where
  opcode : Operator
  family : Family
  features : Features := Features.empty
deriving DecidableEq, Repr

/-- The extension that an instruction for counting bits belongs to. -/
def BitCount.feature : BitCount → Feature
  | .leading => .lzcnt
  | .trailing => .bmi1
  | .ones => .popcnt

namespace Operator

/-- The family that emits an operator, if the target has it. -/
def family? : Operator → Option Family
  | state => some .state
  | updateState => some .updateState
  | const (.int _) => some .intConst
  | const (.float _) => some .floatConst
  | intBinary .w32 (.arith _) => some .arith
  | intBinary .w64 (.arith _) => none
  | intBinary .w64 (.shift .left) => none
  | intBinary _ (.shift _) => some .shift
  | intBinary _ (.division _) => some .division
  | bitCount _ _ => some .bitCount
  | compare .w64 _ => some .compare
  | compare .w32 _ => none
  | floatBinary _ _ => some .floatBinary
  | floatUnary _ _ => some .floatUnary
  | bool (.int _) => some .intBool
  | bool (.float _) => some .floatBool
  | extend _ | wrap | address _ | load _ | store _ | convert _ | typedRet _ => none
  | ret => some .ret
  | branch => some .branch
  | jump => some .jump
  | target op =>
    match op with
    | .extend32 _ => some .extend32
    | .int (.arith _) => some .arith
    | .int .shiftLeft => some .shift
    | .branchOn _ => some .branchOn
    | .intRet => some .intRet
    | .floatRet => some .floatRet
    | .memorySpace | .memorySize => some .context
    | .boundsCheck => some .boundsCheck
    | .load _ => some .load
    | .store _ => some .store

/-- What the instructions emitted for an operator need. -/
def features : Operator → Features
  | bitCount _ op => .single op.feature
  | floatUnary _ (.round _) => .single .sse41
  | _ => .empty

def descriptor? (op : Operator) : Option Descriptor :=
  op.family?.map fun family => ⟨op, family, op.features⟩

/-- The descriptor of an operator, or an error if the target does not have it. -/
def require (op : Operator) : Except Error Descriptor :=
  match op.descriptor? with
  | some d => .ok d
  | none => .error (.missingOpcode op.name)

end Operator

/-- The constraint of a node whose operator the target has. -/
def Node.constraint (n : Node) : Except Error Constraint := do
  return (← n.op.require).family.constraint n

/-- A table of opcodes that can be added to. An opcode is in it at most once. -/
structure Registry where
  descriptors : List Descriptor := []
deriving DecidableEq, Repr

namespace Registry

/-- Every opcode of the target. -/
def x64 : Registry := ⟨Operator.all.filterMap Operator.descriptor?⟩

def get? (r : Registry) (op : Operator) : Option Descriptor :=
  r.descriptors.find? (·.opcode = op)

def contains (r : Registry) (op : Operator) : Bool := (r.get? op).isSome

def require (r : Registry) (op : Operator) : Except Error Descriptor :=
  match r.get? op with
  | some d => .ok d
  | none => .error (.missingOpcode op.name)

def constraintFor (r : Registry) (n : Node) : Except Error Constraint := do
  return (← r.require n.op).family.constraint n

def register (r : Registry) (d : Descriptor) : Except Error Registry :=
  if r.contains d.opcode then .error (.duplicateOpcode d.opcode.name)
  else .ok ⟨r.descriptors ++ [d]⟩

/-- Registers opcodes until one is there already. -/
def registerEach (r : Registry) : List Descriptor → Registry × Except Error Unit
  | [] => (r, .ok ())
  | d :: ds =>
    match r.register d with
    | .ok r => r.registerEach ds
    | .error e => (r, .error e)

def size (r : Registry) : Nat := r.descriptors.length

/-- The names of all opcodes in order. -/
def names (r : Registry) : List String :=
  (r.descriptors.map (·.opcode.name)).mergeSort (· ≤ ·)

end Registry

end Isel
