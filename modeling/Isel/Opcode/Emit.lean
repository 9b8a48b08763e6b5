import Isel.Error
import Isel.Instruction.Basic
import Isel.Opcode.Family

/-! The instructions of one node. Most machine instructions overwrite their first operand, so an
operation with two inputs first brings the left one to the output; if the output is where the right
input is, the inputs change places or the result takes a detour. -/

namespace Isel

/-- All that emission sees of a node: its registers, and where control can go. The label of a block
is the number of the block. -/
structure Site where
  node : Node
  output : Option Reg
  inputs : List Reg
  scratches : List Reg
  successors : List Nat
  /-- The block that is laid out next. -/
  fallthrough : Option Nat
  /-- The label to which a failed bounds check jumps. -/
  trap : Nat
deriving DecidableEq, Repr

/-- Instructions, or an error together with the instructions written before it. -/
abbrev Emitted := Except (List Inst × Error) (List Inst)

namespace Site

def op (s : Site) : Operator := s.node.op

def violation (s : Site) (message : String) : Error := .violation s.op.name message

/-- The family has nothing for the operator. -/
def wrongFamily (s : Site) : Error := s.violation "operator dispatched to the wrong family"

def outGpr (s : Site) : Except Error Gpr :=
  match s.output.bind Reg.gpr? with
  | some r => .ok r
  | none => .error (s.violation "output is not a general purpose register")

def outXmm (s : Site) : Except Error Xmm :=
  match s.output.bind Reg.xmm? with
  | some r => .ok r
  | none => .error (s.violation "output is not an xmm register")

def inGpr (s : Site) (i : Nat) : Except Error Gpr :=
  match s.inputs[i]?.bind Reg.gpr? with
  | some r => .ok r
  | none => .error (s.violation s!"input {i} is not a general purpose register")

def inXmm (s : Site) (i : Nat) : Except Error Xmm :=
  match s.inputs[i]?.bind Reg.xmm? with
  | some r => .ok r
  | none => .error (s.violation s!"input {i} is not an xmm register")

def scratchGpr (s : Site) (i : Nat) : Except Error Gpr :=
  match s.scratches[i]?.bind Reg.gpr? with
  | some r => .ok r
  | none => .error (s.violation s!"scratch {i} is not a general purpose register")

def literal (s : Site) : Except Error Literal :=
  match s.node.literals.head? with
  | some l => .ok l
  | none => .error (s.violation "missing literal")

/-- The label of a successor, or nothing if control falls through to it. -/
def successor (s : Site) (i : Nat) : Except Error (Option Nat) :=
  match s.successors[i]? with
  | some b => .ok (if s.fallthrough = some b then none else some b)
  | none => .error (s.violation s!"missing successor {i}")

end Site

/-- `out = left op right` by an operation that overwrites its first operand. -/
def twoOperand {R : Type} [DecidableEq R] (isCommutative : Bool) (detour : R) (mov : R → R → Inst)
    (op : R → R → List Inst) (out left right : R) : List Inst :=
  if out = left then op out right
  else if out = right then
    if isCommutative then op out left
    else mov detour left :: (op detour right ++ [mov out detour])
  else mov out left :: op out right

/-- A condition as zero or one in a whole register. -/
def materialize (c : Condition) (out : Gpr) : List Inst :=
  [.set c out, .extend (.widen .unsigned8) out (.gpr out)]

namespace Emit

/-- The operation and the size of two-operand arithmetic. -/
def arithOf (s : Site) : Except Error (Arith × Size) :=
  match s.op with
  | .target (.int (.arith op)) => .ok (op, .s64)
  | .intBinary w (.arith op) => .ok (op, .ofWidth w)
  | _ => .error s.wrongFamily

def arith (s : Site) : Except Error (List Inst) := do
  let (op, size) ← arithOf s
  let out ← s.outGpr
  let left ← s.inGpr 0
  let right ← s.inGpr 1
  return twoOperand op.isCommutative Gpr.scratch (Inst.mov size)
    (fun d r => [.gprs (.arith op) size d r]) out left right

def shiftOf (s : Site) : Except Error (Shift × Size) :=
  match s.op with
  | .target (.int .shiftLeft) => .ok (.left, .s64)
  | .intBinary w (.shift op) => .ok (op, .ofWidth w)
  | _ => .error s.wrongFamily

/-- The count has to stay in `rcx` until the shift, so an output there always takes the detour. -/
def shift (s : Site) : Except Error (List Inst) := do
  let (op, size) ← shiftOf s
  let out ← s.outGpr
  let value ← s.inGpr 0
  let count ← s.inGpr 1
  return twoOperand false Gpr.scratch (Inst.mov size)
    (fun d _ => [.shift (.shift op) size d]) out value count

/-- The width of a division and whether it is signed; every other operation counts as unsigned. -/
def divisionOf (s : Site) : Except Error (IntWidth × Bool) :=
  match s.op with
  | .intBinary w (.division op) => .ok (w, op.isSigned)
  | .intBinary w _ => .ok (w, false)
  | _ => .error s.wrongFamily

def division (s : Site) : Except Error (List Inst) := do
  let (w, signed) ← divisionOf s
  let divisor ← s.inGpr 1
  let extend : Inst :=
    if signed then
      match w with
      | .w64 => .cqo
      | .w32 => .cdq
    else .gprs (.arith .xor) .s32 .rdx .rdx
  return [extend, .divide (.divide signed) (.ofWidth w) divisor]

def bitCount (s : Site) : Except Error (List Inst) :=
  match s.op with
  | .bitCount w op => do
    let out ← s.outGpr
    let input ← s.inGpr 0
    return [.gprs (.count op) (.ofWidth w) out input]
  | _ => .error s.wrongFamily

/-- A move of 32 bits clears the upper half. -/
def extend32 (s : Site) : Except Error (List Inst) := do
  let out ← s.outGpr
  let input ← s.inGpr 0
  match s.op with
  | .target (.extend32 true) => return [.extend (.widen .signed32) out (.gpr input)]
  | .target (.extend32 false) => return [.mov .s32 out input]
  | _ => .error s.wrongFamily

def intConst (s : Site) : Except Error (List Inst) := do
  let value := (← s.literal).toInt
  let out ← s.outGpr
  match s.op with
  | .const (.int .w32) => return [.movImm .s32 out ((value.setWidth 32).signExtend 64)]
  | _ => return [.movImm .s64 out value]

def intBool (s : Site) : Except Error (List Inst) :=
  match s.op with
  | .bool (.int w) => do
    let out ← s.outGpr
    let input ← s.inGpr 0
    return .gprs .test (.ofWidth w) input input :: materialize .ne out
  | _ => .error s.wrongFamily

def compare (s : Site) : Except Error (List Inst) :=
  match s.op with
  | .compare .w64 c => do
    let out ← s.outGpr
    let left ← s.inGpr 0
    let right ← s.inGpr 1
    return .gprs .cmp .s64 left right :: materialize (.ofComparison c) out
  | _ => .error s.wrongFamily

/-- Sets every bit of the mask register. -/
def allOnes : Inst := .xmms .pcmpeqd Xmm.maskScratch Xmm.maskScratch

/-- Flips the sign of `d` where that of `sign` is set. -/
def copySign (w : FloatWidth) (d sign : Xmm) : List Inst :=
  [allOnes, .xmmImm .psllq Xmm.maskScratch (BitVec.ofNat 64 (w.bits - 1)),
    .xmms .andpd Xmm.maskScratch sign, .xmms .xorpd d Xmm.maskScratch]

/-- The magnitude of `copysign` comes with its sign bit clear. -/
def floatBinary (s : Site) : Except Error (List Inst) :=
  match s.op with
  | .floatBinary w op => do
    let out ← s.outXmm
    let left ← s.inXmm 0
    let right ← s.inXmm 1
    let body : Xmm → Xmm → List Inst :=
      match op with
      | .copysign => copySign w
      | .arith op => fun d r => [.xmms (.scalar op w) d r]
    return twoOperand op.isCommutative Xmm.scratch (Inst.xmms (.movs w)) body out left right
  | _ => .error s.wrongFamily

def floatUnary (s : Site) : Except Error (List Inst) :=
  match s.op with
  | .floatUnary w op => do
    let out ← s.outXmm
    let input ← s.inXmm 0
    let copy : List Inst := if out = input then [] else [.xmms (.movs w) out input]
    match op with
    | .sqrt => return [.xmms (.sqrt w) out input]
    | .round mode => return [.round (.round w) mode out input]
    | .abs =>
      return [allOnes, .xmmImm .psrlq Xmm.maskScratch (BitVec.ofNat 64 (64 - w.bits + 1))] ++ copy
        ++ [.xmms .andpd out Xmm.maskScratch]
    | .neg =>
      return [allOnes, .xmmImm .psllq Xmm.maskScratch (BitVec.ofNat 64 (w.bits - 1))] ++ copy
        ++ [.xmms .xorpd out Xmm.maskScratch]
  | _ => .error s.wrongFamily

/-- The bits of a constant at a width, zero-extended. -/
def constBits : FloatWidth → Literal → BitVec 64
  | .single, l => (Ieee.narrow l.toFloat).setWidth 64
  | .double, l => l.toFloat

def floatConst (s : Site) : Except Error (List Inst) := do
  let l ← s.literal
  match s.op with
  | .const (.float w) =>
    let out ← s.outXmm
    return [.movImm .s64 Gpr.scratch (constBits w l), .movqToXmm out Gpr.scratch]
  | _ => .error s.wrongFamily

/-- Adding the bits to themselves shifts the sign out. -/
def floatBool (s : Site) : Except Error (List Inst) :=
  match s.op with
  | .bool (.float w) => do
    let out ← s.outGpr
    let input ← s.inXmm 0
    let size : Size := match w with
      | .single => .s32
      | .double => .s64
    return [.movqToGpr out input, .gprs (.arith .add) size out out] ++ materialize .ne out
  | _ => .error s.wrongFamily

def contextOffset (s : Site) : Except Error (BitVec 32) :=
  match s.op with
  | .target .memorySpace => .ok memoryBaseOffset
  | .target .memorySize => .ok memorySizeOffset
  | _ => .error s.wrongFamily

def context (s : Site) : Except Error (List Inst) := do
  let disp ← contextOffset s
  let out ← s.outGpr
  let base ← s.inGpr 0
  return [.load .s64 out { base, disp }]

/-- The width of a bounds check as a displacement. -/
def checkWidth (s : Site) : Except Error (BitVec 32) := do
  let width := (← s.literal).toInt
  if (width.setWidth 32).signExtend 64 = width then return width.setWidth 32
  else .error (.malformed s!"bounds check width {Decimal.renderInt width} out of range")

/-- Jumps to the trap if `addr + width` wraps or passes the size. Widths are positive, so the sum
is below `addr` only after a wrap. -/
def boundsCheck (s : Site) : Except Error (List Inst) := do
  let disp ← checkWidth s
  let out ← s.outGpr
  let addr ← s.inGpr 1
  let size ← s.inGpr 2
  let stop ← s.scratchGpr 0
  let copy : List Inst := if out = addr then [] else [.mov .s64 out addr]
  return [.lea stop { base := addr, disp }, .gprs .cmp .s64 stop addr, .jumpIf .b s.trap,
    .gprs .cmp .s64 stop size, .jumpIf .a s.trap] ++ copy

/-- The address `space + checked` of an access. -/
def accessAddress (s : Site) : Except Error Address := do
  let base ← s.inGpr 1
  let index ← s.inGpr 2
  return { base, index := some index }

def load (s : Site) : Except Error (List Inst) :=
  match s.op with
  | .target (.load access) => do
    let a ← accessAddress s
    match access with
    | .float w => return [.loadXmm (.movs w) (← s.outXmm) a]
    | .word w => return [.load (.ofWidth w) (← s.outGpr) a]
    | .extended .p8 signed =>
      return [.extend (.widen (if signed then .signed8 else .unsigned8)) (← s.outGpr) (.mem a)]
    | .extended .p16 signed =>
      return [.extend (.widen (if signed then .signed16 else .unsigned16)) (← s.outGpr) (.mem a)]
    | .extended .p32 true => return [.extend (.widen .signed32) (← s.outGpr) (.mem a)]
    | .extended .p32 false => return [.load .s32 (← s.outGpr) a]
  | _ => .error s.wrongFamily

def store (s : Site) : Except Error (List Inst) :=
  match s.op with
  | .target (.store access) => do
    let a ← accessAddress s
    match access with
    | .float w => return [.storeXmm (.movs w) a (← s.inXmm 3)]
    | .int size => return [.store size a (← s.inGpr 3)]
  | _ => .error s.wrongFamily

def updateState (s : Site) : Except Error (List Inst) := do
  let out ← s.outGpr
  let state ← s.inGpr 0
  return if out = state then [] else [.mov .s64 out state]

/-- Moves the value, if there is one, to where values are returned. -/
def ret (s : Site) : List Inst :=
  let move : List Inst :=
    match s.inputs.head? with
    | some (.gpr r) => if r = .rax then [] else [.mov .s64 .rax r]
    | some (.xmm r) => if r = .xmm0 then [] else [.xmms (.movs .double) .xmm0 r]
    | none => []
  move ++ [.ret]

/-- Goes to the first successor if a condition holds and else to the second, without a jump to the
block that is laid out next. -/
def branchTo (s : Site) (c : Condition) : Except Error (List Inst) := do
  let taken ← s.successor 0
  let other ← s.successor 1
  return match taken, other with
    | none, some o => [.jumpIf c.inverse o]
    | some t, none => [.jumpIf c t]
    | some t, some o => [.jumpIf c t, .jmp o]
    | none, none => []

/-- A test of the flags, and then a branch on it. -/
def branchAfter (s : Site) (test : Inst) (c : Condition) : Emitted :=
  match branchTo s c with
  | .ok jumps => .ok (test :: jumps)
  | .error e => .error ([test], e)

def jump (s : Site) : Except Error (List Inst) := do
  return match ← s.successor 0 with
    | some l => [.jmp l]
    | none => []

/-- An emission that writes nothing before it fails. -/
def whole (x : Except Error (List Inst)) : Emitted := x.mapError fun e => ([], e)

def branch (s : Site) : Emitted := do
  let predicate ← (s.inGpr 0).mapError fun e => ([], e)
  branchAfter s (.gprs .test .s64 predicate predicate) .ne

def branchOn (s : Site) : Emitted :=
  match s.op with
  | .target (.branchOn c) => do
    let left ← (s.inGpr 0).mapError fun e => ([], e)
    let right ← (s.inGpr 1).mapError fun e => ([], e)
    branchAfter s (.gprs .cmp .s64 left right) (.ofComparison c)
  | _ => .error ([], s.violation "not a fused branch")

end Emit

/-- The instructions of a node. -/
def Family.emit (f : Family) (s : Site) : Emitted :=
  match f with
  | .arith => Emit.whole (Emit.arith s)
  | .shift => Emit.whole (Emit.shift s)
  | .division => Emit.whole (Emit.division s)
  | .bitCount => Emit.whole (Emit.bitCount s)
  | .extend32 => Emit.whole (Emit.extend32 s)
  | .intConst => Emit.whole (Emit.intConst s)
  | .intBool => Emit.whole (Emit.intBool s)
  | .compare => Emit.whole (Emit.compare s)
  | .floatBinary => Emit.whole (Emit.floatBinary s)
  | .floatUnary => Emit.whole (Emit.floatUnary s)
  | .floatConst => Emit.whole (Emit.floatConst s)
  | .floatBool => Emit.whole (Emit.floatBool s)
  | .context => Emit.whole (Emit.context s)
  | .boundsCheck => Emit.whole (Emit.boundsCheck s)
  | .load => Emit.whole (Emit.load s)
  | .store => Emit.whole (Emit.store s)
  | .state => .ok []
  | .updateState => Emit.whole (Emit.updateState s)
  | .ret => .ok (Emit.ret s)
  | .intRet | .floatRet => .ok [.ret]
  | .branch => Emit.branch s
  | .branchOn => Emit.branchOn s
  | .jump => Emit.whole (Emit.jump s)

end Isel
