import Isel.Operator.Basic
import Isel.Register

/-! Instructions of the machine: a mnemonic, an operand size and operands. Any combination can be
written down; the machine decides which of them it knows. -/

namespace Isel

/-- A condition on the flags. -/
inductive Condition
  | e
  | ne
  | l
  | le
  | g
  | ge
  | b
  | be
  | a
  | ae
deriving DecidableEq, Repr

namespace Condition

def all : List Condition := [e, ne, l, le, g, ge, b, be, a, ae]

def encoding : Condition → Nat
  | e => 0x4
  | ne => 0x5
  | l => 0xc
  | le => 0xe
  | g => 0xf
  | ge => 0xd
  | b => 0x2
  | be => 0x6
  | a => 0x7
  | ae => 0x3

def suffix : Condition → String
  | e => "e"
  | ne => "ne"
  | l => "l"
  | le => "le"
  | g => "g"
  | ge => "ge"
  | b => "b"
  | be => "be"
  | a => "a"
  | ae => "ae"

/-- The condition that holds exactly if this one does not. -/
def inverse : Condition → Condition
  | e => ne
  | ne => e
  | l => ge
  | le => g
  | g => le
  | ge => l
  | b => ae
  | be => a
  | a => be
  | ae => b

/-- The condition that holds after `cmp x, y` exactly if `x` compares so to `y`. -/
def ofComparison : Comparison → Condition
  | .eq => e
  | .ne => ne
  | .ltS => l
  | .leS => le
  | .gtS => g
  | .geS => ge
  | .ltU => b
  | .leU => be
  | .gtU => a
  | .geU => ae

end Condition

namespace Rounding

/-- The immediate operand that selects a mode. -/
def immediate : Rounding → BitVec 64
  | nearest => 0
  | down => 1
  | up => 2
  | zero => 3

/-- The mode that an immediate operand selects by its two low bits. -/
def ofImmediate (v : BitVec 64) : Rounding :=
  match v.toNat % 4 with
  | 0 => nearest
  | 1 => down
  | 2 => up
  | _ => zero

end Rounding

/-- Moves from a part of a register or from memory that fill the upper bits. -/
inductive Widening
  | signed8
  | signed16
  | signed32
  | unsigned8
  | unsigned16
deriving DecidableEq, Repr

namespace Widening

def source : Widening → Size
  | signed8 | unsigned8 => .s8
  | signed16 | unsigned16 => .s16
  | signed32 => .s32

def isSigned : Widening → Bool
  | signed8 | signed16 | signed32 => true
  | unsigned8 | unsigned16 => false

end Widening

inductive Operand
  | gpr (r : Gpr)
  | xmm (r : Xmm)
  | imm (v : BitVec 64)
  | mem (a : Address)
  | label (l : Nat)
deriving DecidableEq, Repr

inductive Mnemonic
  | mov
  | widen (kind : Widening)
  | lea
  | arith (op : Arith)
  | shift (op : Shift)
  /-- The sign of `rax` in every bit of `rdx`. -/
  | cqo
  /-- The sign of `eax` in every bit of `edx`. -/
  | cdq
  | divide (signed : Bool)
  | count (op : BitCount)
  | cmp
  | test
  | set (c : Condition)
  | jumpIf (c : Condition)
  | jmp
  | ret
  | ud2
  | movs (width : FloatWidth)
  | movq
  | scalar (op : FloatArith) (width : FloatWidth)
  | sqrt (width : FloatWidth)
  | round (width : FloatWidth)
  | pcmpeqd
  | psllq
  | psrlq
  | andpd
  | xorpd
deriving DecidableEq, Repr

structure Inst where
  mnemonic : Mnemonic
  size : Size
  operands : List Operand
deriving DecidableEq, Repr

namespace Inst

/-- Whether a label is among the operands. -/
def mentions (i : Inst) (l : Nat) : Bool := i.operands.contains (.label l)

def labels (i : Inst) : List Nat :=
  i.operands.filterMap fun
    | .label l => some l
    | _ => none

def gprs (m : Mnemonic) (size : Size) (dst src : Gpr) : Inst := ⟨m, size, [.gpr dst, .gpr src]⟩

def xmms (m : Mnemonic) (dst src : Xmm) : Inst := ⟨m, .s64, [.xmm dst, .xmm src]⟩

def mov (size : Size) (dst src : Gpr) : Inst := gprs .mov size dst src

def movImm (size : Size) (dst : Gpr) (v : BitVec 64) : Inst := ⟨.mov, size, [.gpr dst, .imm v]⟩

def load (size : Size) (dst : Gpr) (a : Address) : Inst := ⟨.mov, size, [.gpr dst, .mem a]⟩

def store (size : Size) (a : Address) (src : Gpr) : Inst := ⟨.mov, size, [.mem a, .gpr src]⟩

/-- A move to a whole register with a source of another size. -/
def extend (m : Mnemonic) (dst : Gpr) (src : Operand) : Inst := ⟨m, .s64, [.gpr dst, src]⟩

def lea (dst : Gpr) (a : Address) : Inst := ⟨.lea, .s64, [.gpr dst, .mem a]⟩

/-- A shift by the count in `cl`. -/
def shift (m : Mnemonic) (size : Size) (dst : Gpr) : Inst := gprs m size dst .rcx

def cqo : Inst := ⟨.cqo, .s64, []⟩

def cdq : Inst := ⟨.cdq, .s32, []⟩

def divide (m : Mnemonic) (size : Size) (divisor : Gpr) : Inst := ⟨m, size, [.gpr divisor]⟩

def set (c : Condition) (dst : Gpr) : Inst := ⟨.set c, .s8, [.gpr dst]⟩

def jumpIf (c : Condition) (l : Nat) : Inst := ⟨.jumpIf c, .s64, [.label l]⟩

def jmp (l : Nat) : Inst := ⟨.jmp, .s64, [.label l]⟩

def ret : Inst := ⟨.ret, .s64, []⟩

def ud2 : Inst := ⟨.ud2, .s64, []⟩

def xmmImm (m : Mnemonic) (dst : Xmm) (v : BitVec 64) : Inst := ⟨m, .s64, [.xmm dst, .imm v]⟩

def round (m : Mnemonic) (mode : Rounding) (dst src : Xmm) : Inst :=
  ⟨m, .s64, [.xmm dst, .xmm src, .imm mode.immediate]⟩

def loadXmm (m : Mnemonic) (dst : Xmm) (a : Address) : Inst := ⟨m, .s64, [.xmm dst, .mem a]⟩

def storeXmm (m : Mnemonic) (a : Address) (src : Xmm) : Inst := ⟨m, .s64, [.mem a, .xmm src]⟩

def movqToXmm (dst : Xmm) (src : Gpr) : Inst := ⟨.movq, .s64, [.xmm dst, .gpr src]⟩

def movqToGpr (dst : Gpr) (src : Xmm) : Inst := ⟨.movq, .s64, [.gpr dst, .xmm src]⟩

end Inst

end Isel
