import Isel.Machine.State

/-! One instruction. Integer instructions read their operands, compute at the operand size and
write back; a form that is not listed stops the machine. A trap leaves the registers and the heap
as they were, and what the instruction did to the flags before it stays. -/

namespace Isel

/-- Where execution goes on. -/
inductive Flow
  | next
  | jump (l : Nat)
  | halt
deriving DecidableEq, Repr

/-- A computation on the machine that may trap. The state at a trap is kept. -/
abbrev Exec := ExceptT Trap (StateM Machine)

namespace Exec

/-- Looks at the machine. -/
def look {α : Type} (f : Machine → Except Trap α) : Exec α := fun m => (f m, m)

/-- Changes the machine. -/
def change (f : Machine → Machine) : Exec Unit := fun m => (.ok (), f m)

end Exec

section Bits

variable {n : Nat}

/-- The number of zeros above the highest one. -/
def leadingZeros (x : BitVec n) : Nat :=
  ((List.range n).reverse.takeWhile fun i => !x.getLsbD i).length

/-- The number of zeros below the lowest one. -/
def trailingZeros (x : BitVec n) : Nat := ((List.range n).takeWhile fun i => !x.getLsbD i).length

def onesCount (x : BitVec n) : Nat := (List.range n).countP fun i => x.getLsbD i

def BitCount.apply (op : BitCount) (x : BitVec n) : Nat :=
  match op with
  | .leading => leadingZeros x
  | .trailing => trailingZeros x
  | .ones => onesCount x

def Arith.apply (op : Arith) (x y : BitVec n) : BitVec n :=
  match op with
  | .add => x + y
  | .sub => x - y
  | .mul => x * y
  | .and => x &&& y
  | .or => x ||| y
  | .xor => x ^^^ y

def Shift.apply (op : Shift) (x : BitVec n) (count : Nat) : BitVec n :=
  match op with
  | .left => x <<< count
  | .rightSigned => x.sshiftRight count
  | .rightUnsigned => x >>> count

/-- The flags after `op` on `x` and `y`. A product clears carry and overflow. -/
def Arith.flags (op : Arith) (x y : BitVec n) : Flags :=
  let r := op.apply x y
  let flags : Flags := { zero := r == 0, sign := r.msb }
  match op with
  | .add =>
    { flags with carry := r.ult x, overflow := x.msb == y.msb && x.msb != r.msb }
  | .sub =>
    { flags with carry := x.ult y, overflow := x.msb != y.msb && x.msb != r.msb }
  | _ => flags

/-- All ones or all zeros in each half, by whether the halves are equal. -/
def equalHalves (x y : BitVec 64) : BitVec 64 :=
  let mask (a b : BitVec 32) : BitVec 32 := if a = b then BitVec.allOnes 32 else 0
  mask (x.extractLsb' 32 32) (y.extractLsb' 32 32) ++ mask (x.setWidth 32) (y.setWidth 32)

/-- A shift by an immediate count; a count past the width clears the lane. -/
def shiftLane (op : Shift) (count x : BitVec 64) : BitVec 64 :=
  if count.toNat < 64 then op.apply x count.toNat else 0

/-- Quotient and remainder of the double-length number `high:low`, unless the divisor is zero or
the quotient does not fit. -/
def divide (signed : Bool) (high low divisor : BitVec n) : Option (BitVec n × BitVec n) :=
  if divisor = 0 then none
  else if signed then
    let dividend := high.toInt * 2 ^ n + low.toNat
    let q := dividend.tdiv divisor.toInt
    if -2 ^ (n - 1) ≤ q ∧ q < 2 ^ (n - 1) then
      some (BitVec.ofInt n q, BitVec.ofInt n (dividend.tmod divisor.toInt))
    else none
  else
    let dividend := high.toNat * 2 ^ n + low.toNat
    let q := dividend / divisor.toNat
    if q < 2 ^ n then some (BitVec.ofNat n q, BitVec.ofNat n (dividend % divisor.toNat)) else none

end Bits

namespace Machine

def read (m : Machine) (s : Size) : Operand → Except Trap (BitVec s.bits)
  | .gpr r => .ok ((m.gpr r).setWidth s.bits)
  | .imm v => .ok (v.setWidth s.bits)
  | .mem a => m.loadAt s.bytes (m.address a)
  | o => .error (.unknownOperand .integerRead o)

/-- The low lane of a register, or as many bytes from memory. -/
def readLane (m : Machine) : (w : FloatWidth) → Operand → Except Trap (BitVec w.bits)
  | w, .xmm r => .ok (m.lane w r)
  | .single, .mem a => m.loadAt 4 (m.address a)
  | .double, .mem a => m.loadAt 8 (m.address a)
  | _, o => .error (.unknownOperand .xmmRead o)

/-- Stores the low `n` bytes of a word at an address. -/
def storeAt (n : Nat) (p v : BitVec 64) : Exec Unit := fun m =>
  if p.toNat + n ≤ m.heap.size then
    (.ok (), { m with heap := writeBytes m.heap p.toNat (bytesOf n v.toNat) })
  else (.error (.fault p), m)

def store (n : Nat) (a : Address) (v : BitVec 64) : Exec Unit := do
  let p ← Exec.look fun m => .ok (m.address a)
  storeAt n p v

def write (s : Size) (o : Operand) (v : BitVec s.bits) : Exec Unit :=
  match o with
  | .gpr r => Exec.change fun m => m.writeGpr s r v
  | .mem a => store s.bytes a (v.setWidth 64)
  | o => throw (.unknownOperand .integerWrite o)

/-- Reads two operands and sets the flags; gives the result. -/
def compute (op : Arith) (s : Size) (dst src : Operand) : Exec (BitVec s.bits) := do
  let x ← Exec.look fun m => m.read s dst
  let y ← Exec.look fun m => m.read s src
  Exec.change fun m => { m with flags := op.flags x y }
  return op.apply x y

/-- The instructions on floating-point registers. -/
def stepXmm (i : Inst) : Exec Unit :=
  match i.mnemonic, i.operands with
  | .movs w, [.xmm d, .xmm s] => Exec.change fun m => m.setLane w d (m.lane w s)
  | .movs w, [.xmm d, .mem a] => do
    let v ← Exec.look fun m => m.readLane w (.mem a)
    Exec.change fun m => m.setXmmLow d (v.setWidth 64)
  | .movs w, [.mem a, .xmm s] => do
    let v ← Exec.look fun m => .ok (m.lane w s)
    store (w.bits / 8) a (v.setWidth 64)
  | .movq, [.xmm d, .gpr s] => Exec.change fun m => m.setXmmLow d (m.gpr s)
  | .movq, [.gpr d, .xmm s] => Exec.change fun m => m.setGpr d (m.xmm s).low
  | .scalar op w, [.xmm d, src] => do
    let y ← Exec.look fun m => m.readLane w src
    Exec.change fun m => m.setLane w d (Ieee.apply op (m.lane w d) y)
  | .sqrt w, [.xmm d, src] => do
    let y ← Exec.look fun m => m.readLane w src
    Exec.change fun m => m.setLane w d (Ieee.sqrt y)
  | .round w, [.xmm d, src, .imm v] => do
    let y ← Exec.look fun m => m.readLane w src
    Exec.change fun m => m.setLane w d (Ieee.roundToIntegral (.ofImmediate v) y)
  | .pcmpeqd, [.xmm d, .xmm s] =>
    Exec.change fun m => m.setXmm d ((m.xmm d).zipWith equalHalves (m.xmm s))
  | .psllq, [.xmm d, .imm v] =>
    Exec.change fun m => m.setXmm d ((m.xmm d).map (shiftLane .left v))
  | .psrlq, [.xmm d, .imm v] =>
    Exec.change fun m => m.setXmm d ((m.xmm d).map (shiftLane .rightUnsigned v))
  | .andpd, [.xmm d, .xmm s] =>
    Exec.change fun m => m.setXmm d ((m.xmm d).zipWith (· &&& ·) (m.xmm s))
  | .xorpd, [.xmm d, .xmm s] =>
    Exec.change fun m => m.setXmm d ((m.xmm d).zipWith (· ^^^ ·) (m.xmm s))
  | _, _ => throw (.unknownForm i)

/-- Executes one instruction. -/
def step (i : Inst) : Exec Flow :=
  match i.mnemonic, i.operands with
  | .mov, [dst, src] => do
    let v ← Exec.look fun m => m.read i.size src
    write i.size dst v
    return .next
  | .widen kind, [dst, src] => do
    let v ← Exec.look fun m => m.read kind.source src
    write i.size dst (if kind.isSigned then v.signExtend i.size.bits else v.setWidth i.size.bits)
    return .next
  | .lea, [.gpr d, .mem a] => do
    Exec.change fun m => m.setGpr d (m.address a)
    return .next
  | .arith op, [dst, src] => do
    let r ← compute op i.size dst src
    write i.size dst r
    return .next
  | .cmp, [dst, src] => do
    let _ ← compute .sub i.size dst src
    return .next
  | .test, [dst, src] => do
    let _ ← compute .and i.size dst src
    return .next
  | .shift op, [dst, .gpr count] => do
    let n ← Exec.look fun m => .ok ((m.gpr count).toNat % i.size.bits)
    let v ← Exec.look fun m => m.read i.size dst
    write i.size dst (op.apply v n)
    return .next
  | .cqo, [] => do
    Exec.change fun m => m.setGpr .rdx ((m.gpr .rax).sshiftRight 63)
    return .next
  | .cdq, [] => do
    Exec.change fun m => m.writeGpr .s32 .rdx (((m.gpr .rax).setWidth 32).sshiftRight 31)
    return .next
  | .divide signed, [divisor] => do
    let d ← Exec.look fun m => m.read i.size divisor
    let (q, r) ← Exec.look fun m =>
      let low := (m.gpr .rax).setWidth i.size.bits
      let high := (m.gpr .rdx).setWidth i.size.bits
      (divide signed high low d).elim (.error .divideError) .ok
    Exec.change fun m => (m.writeGpr i.size .rax q).writeGpr i.size .rdx r
    return .next
  | .count op, [dst, src] => do
    let v ← Exec.look fun m => m.read i.size src
    write i.size dst (BitVec.ofNat i.size.bits (op.apply v))
    return .next
  | .set c, [dst] => do
    let holds ← Exec.look fun m => .ok (m.flags.holds c)
    write .s8 dst (if holds then 1 else 0)
    return .next
  | .jumpIf c, [.label l] => do
    let holds ← Exec.look fun m => .ok (m.flags.holds c)
    return if holds then .jump l else .next
  | .jmp, [.label l] => return .jump l
  | .ret, [] => return .halt
  | .ud2, [] => throw .unreachable
  | _, _ => do
    stepXmm i
    return .next

end Machine

end Isel
