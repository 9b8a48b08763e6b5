import Isel.Size

/-! The registers of the machine and their names, and memory operands. -/

namespace Isel

/-- General purpose registers, in the order of their encoding. -/
inductive Gpr
  | rax | rcx | rdx | rbx | rsp | rbp | rsi | rdi
  | r8 | r9 | r10 | r11 | r12 | r13 | r14 | r15
deriving DecidableEq, Repr

namespace Gpr

def all : List Gpr :=
  [rax, rcx, rdx, rbx, rsp, rbp, rsi, rdi, r8, r9, r10, r11, r12, r13, r14, r15]

def encoding : Gpr → Fin 16
  | rax => 0
  | rcx => 1
  | rdx => 2
  | rbx => 3
  | rsp => 4
  | rbp => 5
  | rsi => 6
  | rdi => 7
  | r8 => 8
  | r9 => 9
  | r10 => 10
  | r11 => 11
  | r12 => 12
  | r13 => 13
  | r14 => 14
  | r15 => 15

def ofEncoding? (n : Nat) : Option Gpr := all[n]?

def name64 : Gpr → String
  | rax => "rax"
  | rcx => "rcx"
  | rdx => "rdx"
  | rbx => "rbx"
  | rsp => "rsp"
  | rbp => "rbp"
  | rsi => "rsi"
  | rdi => "rdi"
  | r8 => "r8"
  | r9 => "r9"
  | r10 => "r10"
  | r11 => "r11"
  | r12 => "r12"
  | r13 => "r13"
  | r14 => "r14"
  | r15 => "r15"

def name32 : Gpr → String
  | rax => "eax"
  | rcx => "ecx"
  | rdx => "edx"
  | rbx => "ebx"
  | rsp => "esp"
  | rbp => "ebp"
  | rsi => "esi"
  | rdi => "edi"
  | r => r.name64 ++ "d"

def name16 : Gpr → String
  | rax => "ax"
  | rcx => "cx"
  | rdx => "dx"
  | rbx => "bx"
  | rsp => "sp"
  | rbp => "bp"
  | rsi => "si"
  | rdi => "di"
  | r => r.name64 ++ "w"

def name8 : Gpr → String
  | rax => "al"
  | rcx => "cl"
  | rdx => "dl"
  | rbx => "bl"
  | rsp => "spl"
  | rbp => "bpl"
  | rsi => "sil"
  | rdi => "dil"
  | r => r.name64 ++ "b"

/-- The name of the low part of a register. -/
def name (r : Gpr) : Size → String
  | .s8 => r.name8
  | .s16 => r.name16
  | .s32 => r.name32
  | .s64 => r.name64

/-- The detour register of emitted sequences. -/
def scratch : Gpr := r11

/-- The register in which the memory context arrives. -/
def state : Gpr := rdi

/-- The stack registers and the detour register are not given out. -/
def isAllocatable (r : Gpr) : Bool := r ≠ rsp && r ≠ rbp && r ≠ scratch

def allocatable : List Gpr := all.filter isAllocatable

end Gpr

/-- Floating-point registers. -/
inductive Xmm
  | xmm0 | xmm1 | xmm2 | xmm3 | xmm4 | xmm5 | xmm6 | xmm7
  | xmm8 | xmm9 | xmm10 | xmm11 | xmm12 | xmm13 | xmm14 | xmm15
deriving DecidableEq, Repr

namespace Xmm

def all : List Xmm :=
  [xmm0, xmm1, xmm2, xmm3, xmm4, xmm5, xmm6, xmm7, xmm8, xmm9, xmm10, xmm11, xmm12, xmm13,
    xmm14, xmm15]

def encoding : Xmm → Fin 16
  | xmm0 => 0
  | xmm1 => 1
  | xmm2 => 2
  | xmm3 => 3
  | xmm4 => 4
  | xmm5 => 5
  | xmm6 => 6
  | xmm7 => 7
  | xmm8 => 8
  | xmm9 => 9
  | xmm10 => 10
  | xmm11 => 11
  | xmm12 => 12
  | xmm13 => 13
  | xmm14 => 14
  | xmm15 => 15

def ofEncoding? (n : Nat) : Option Xmm := all[n]?

def name (r : Xmm) : String := s!"xmm{r.encoding.val}"

/-- Holds bit masks in emitted sequences. -/
def maskScratch : Xmm := xmm15

/-- The detour register of emitted sequences. -/
def scratch : Xmm := xmm14

def isAllocatable (r : Xmm) : Bool := r ≠ scratch && r ≠ maskScratch

end Xmm

/-- Which registers a value may be in. -/
inductive RegClass
  | int
  | float
  | any
deriving DecidableEq, Repr

def RegClass.name : RegClass → String
  | .int => "Int"
  | .float => "Float"
  | .any => "Any"

/-- A register of either file. -/
inductive Reg
  | gpr (r : Gpr)
  | xmm (r : Xmm)
deriving DecidableEq, Repr

namespace Reg

def all : List Reg := Gpr.all.map gpr ++ Xmm.all.map xmm

def gpr? : Reg → Option Gpr
  | gpr r => some r
  | xmm _ => none

def xmm? : Reg → Option Xmm
  | gpr _ => none
  | xmm r => some r

def cls : Reg → RegClass
  | gpr _ => .int
  | xmm _ => .float

def encoding : Reg → Fin 16
  | gpr r => r.encoding
  | xmm r => r.encoding

def name : Reg → String
  | gpr r => r.name64
  | xmm r => r.name

def ofName? (name : String) : Option Reg := all.find? (·.name == name)

end Reg

def RegClass.contains : RegClass → Reg → Bool
  | .any, _ => true
  | .int, .gpr _ => true
  | .float, .xmm _ => true
  | _, _ => false

/-- The address `base + index + disp`. -/
structure Address where
  base : Gpr
  index : Option Gpr := none
  disp : BitVec 32 := 0
deriving DecidableEq, Repr

namespace Address

def render (a : Address) : String :=
  let index := match a.index with
    | some r => s!" + {r.name64}"
    | none => ""
  let n := a.disp.toInt
  let disp := if n = 0 then "" else if n < 0 then s!" - {n.natAbs}" else s!" + {n}"
  s!"[{a.base.name64}{index}{disp}]"

end Address

/-- Where the memory context holds the start of linear memory. -/
def memoryBaseOffset : BitVec 32 := 0

/-- Where the memory context holds the size of linear memory. -/
def memorySizeOffset : BitVec 32 := 8

end Isel
