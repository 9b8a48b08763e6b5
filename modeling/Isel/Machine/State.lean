import Isel.Instruction.Printer

/-! The state of the machine: two register files, four flags and a heap of bytes. Words are held
in the heap with their low byte first. -/

namespace Isel

abbrev Byte := BitVec 8

/-- The number that bytes stand for, low byte first. -/
def littleEndian : List Byte → Nat
  | [] => 0
  | b :: bs => b.toNat + 256 * littleEndian bs

/-- The low `n` bytes of a number, low byte first. -/
def bytesOf : Nat → Nat → List Byte
  | 0, _ => []
  | n + 1, v => BitVec.ofNat 8 v :: bytesOf n (v / 256)

/-- Overwrites the bytes from an index on. -/
def writeBytes (heap : Array Byte) (start : Nat) : List Byte → Array Byte
  | [] => heap
  | b :: bs => writeBytes (heap.setIfInBounds start b) (start + 1) bs

/-- The two halves of a floating-point register. -/
structure Lanes where
  low : BitVec 64
  high : BitVec 64
deriving DecidableEq, Repr

namespace Lanes

def zero : Lanes := ⟨0, 0⟩

def map (f : BitVec 64 → BitVec 64) (x : Lanes) : Lanes := ⟨f x.low, f x.high⟩

def zipWith (f : BitVec 64 → BitVec 64 → BitVec 64) (x y : Lanes) : Lanes :=
  ⟨f x.low y.low, f x.high y.high⟩

end Lanes

structure Flags where
  zero : Bool := false
  sign : Bool := false
  carry : Bool := false
  overflow : Bool := false
deriving DecidableEq, Repr

namespace Flags

def holds (f : Flags) : Condition → Bool
  | .e => f.zero
  | .ne => !f.zero
  | .l => f.sign != f.overflow
  | .le => f.zero || f.sign != f.overflow
  | .g => !f.zero && f.sign == f.overflow
  | .ge => f.sign == f.overflow
  | .b => f.carry
  | .be => f.carry || f.zero
  | .a => !f.carry && !f.zero
  | .ae => !f.carry

end Flags

/-- How an instruction uses an operand. -/
inductive OperandUse
  | integerRead
  | integerWrite
  | xmmRead
deriving DecidableEq, Repr

/-- Why execution stops before its end. -/
inductive Trap
  /-- A division by zero, or a quotient that does not fit. -/
  | divideError
  | unreachable
  /-- An access outside the heap. -/
  | fault (address : BitVec 64)
  | unboundLabel
  | stepLimit
  /-- An instruction form that the machine does not know. -/
  | unknownForm (i : Inst)
  /-- An operand of a kind that cannot be used so. -/
  | unknownOperand (use : OperandUse) (o : Operand)
deriving DecidableEq, Repr

/-- An operand by its kind and its value. -/
def Operand.describe : Operand → String
  | gpr r => s!"Gpr({r.name64.capitalize})"
  | xmm r => s!"Xmm({r.name.capitalize})"
  | imm v => s!"Imm({Decimal.renderInt v})"
  | mem a => s!"Mem({a.render})"
  | label l => s!"Label(Label({l}))"

def OperandUse.describe : OperandUse → String
  | integerRead => "integer read of"
  | integerWrite => "integer write to"
  | xmmRead => "xmm read of"

namespace Trap

/-- Hexadecimal digits with a leading `0x`. -/
def renderAddress (a : BitVec 64) : String := "0x" ++ String.ofList (Nat.toDigits 16 a.toNat)

def message : Trap → String
  | divideError => "divide error"
  | unreachable => "unreachable executed"
  | fault address => s!"memory fault at {renderAddress address}"
  | unboundLabel => "branch to unbound label"
  | stepLimit => "step limit exceeded"
  | unknownForm i => s!"unsupported instruction: {i.render}"
  | unknownOperand use o => s!"unsupported instruction: {use.describe} {o.describe}"

end Trap

structure Machine where
  gprs : Vector (BitVec 64) 16
  xmms : Vector Lanes 16
  flags : Flags
  heap : Array Byte
deriving DecidableEq, Repr

namespace Machine

/-- All registers zero, and no heap. -/
def initial : Machine :=
  { gprs := Vector.replicate 16 0
    xmms := Vector.replicate 16 Lanes.zero
    flags := {}
    heap := #[] }

/-- Where linear memory starts in the heap. -/
def memoryStart : Nat := 16

/-- The memory context: start and size of linear memory. -/
def contextBytes (size : Nat) : List Byte := bytesOf 8 memoryStart ++ bytesOf 8 size

/-- A machine whose heap is a memory context followed by linear memory. The state register points
to the context. -/
def withMemory (memory : Array Byte) : Machine :=
  { initial with heap := (contextBytes memory.size).toArray ++ memory }

def memory (m : Machine) : Array Byte := m.heap.extract memoryStart m.heap.size

def gpr (m : Machine) (r : Gpr) : BitVec 64 := m.gprs.get r.encoding

def setGpr (m : Machine) (r : Gpr) (v : BitVec 64) : Machine :=
  { m with gprs := m.gprs.set r.encoding.val v r.encoding.isLt }

def xmm (m : Machine) (r : Xmm) : Lanes := m.xmms.get r.encoding

def setXmm (m : Machine) (r : Xmm) (x : Lanes) : Machine :=
  { m with xmms := m.xmms.set r.encoding.val x r.encoding.isLt }

/-- Sets the low half of a floating-point register and clears the rest. -/
def setXmmLow (m : Machine) (r : Xmm) (v : BitVec 64) : Machine := m.setXmm r ⟨v, 0⟩

/-- The low lane of a floating-point register. -/
def lane (m : Machine) (w : FloatWidth) (r : Xmm) : BitVec w.bits :=
  (m.xmm r).low.setWidth w.bits

/-- Replaces the low bits of a word. -/
def replaceLow {n : Nat} (old : BitVec 64) (v : BitVec n) : BitVec 64 :=
  (old >>> n) <<< n ||| v.setWidth 64

/-- Sets the low lane of a floating-point register and keeps all other bits. -/
def setLane (m : Machine) (w : FloatWidth) (r : Xmm) (v : BitVec w.bits) : Machine :=
  m.setXmm r { m.xmm r with low := replaceLow (m.xmm r).low v }

/-- Writes the low part of a register. A write of 32 bits clears the upper half; smaller writes
keep the other bits. -/
def writeGpr (m : Machine) (s : Size) (r : Gpr) (v : BitVec s.bits) : Machine :=
  m.setGpr r <|
    match s with
    | .s64 | .s32 => v.setWidth 64
    | .s16 | .s8 => replaceLow (m.gpr r) v

def address (m : Machine) (a : Address) : BitVec 64 :=
  let index := match a.index with
    | some r => m.gpr r
    | none => 0
  m.gpr a.base + index + a.disp.signExtend 64

/-- The `n` bytes at an address. -/
def loadAt (m : Machine) (n : Nat) (p : BitVec 64) : Except Trap (BitVec (8 * n)) :=
  if p.toNat + n ≤ m.heap.size then
    .ok (BitVec.ofNat (8 * n) (littleEndian (m.heap.extract p.toNat (p.toNat + n)).toList))
  else .error (.fault p)

end Machine

end Isel
