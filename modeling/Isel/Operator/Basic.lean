import Isel.Ieee.Arithmetic
import Isel.Size

/-! The operators of graph nodes. Generic operators name what is computed; target operators name
how the x64 machine does it. Each family carries its width, type or kind as data, and holds only
members that have a name. -/

namespace Isel

/-- Two-operand integer arithmetic that the machine does in one instruction. -/
inductive Arith
  | add
  | sub
  | mul
  | and
  | or
  | xor
deriving DecidableEq, Repr

namespace Arith

def all : List Arith := [add, sub, mul, and, or, xor]

def isCommutative : Arith → Bool
  | sub => false
  | _ => true

end Arith

inductive Shift
  | left
  | rightSigned
  | rightUnsigned
deriving DecidableEq, Repr

def Shift.all : List Shift := [.left, .rightSigned, .rightUnsigned]

/-- The part of a division that is kept, and how the operands are read. -/
inductive Division
  | quotientSigned
  | quotientUnsigned
  | remainderSigned
  | remainderUnsigned
deriving DecidableEq, Repr

namespace Division

def all : List Division := [quotientSigned, quotientUnsigned, remainderSigned, remainderUnsigned]

def isSigned : Division → Bool
  | quotientSigned | remainderSigned => true
  | quotientUnsigned | remainderUnsigned => false

def isRemainder : Division → Bool
  | remainderSigned | remainderUnsigned => true
  | quotientSigned | quotientUnsigned => false

end Division

inductive IntBinary
  | arith (op : Arith)
  | shift (op : Shift)
  | division (op : Division)
deriving DecidableEq, Repr

namespace IntBinary

def all : List IntBinary :=
  Arith.all.map arith ++ Shift.all.map shift ++ Division.all.map division

def isCommutative : IntBinary → Bool
  | arith op => op.isCommutative
  | _ => false

end IntBinary

/-- The 64-bit operations that are selected to one target operator. -/
inductive Fused
  | arith (op : Arith)
  | shiftLeft
deriving DecidableEq, Repr

namespace Fused

def all : List Fused := Arith.all.map arith ++ [shiftLeft]

def toBinary : Fused → IntBinary
  | arith op => .arith op
  | shiftLeft => .shift .left

end Fused

def IntBinary.fused? : IntBinary → Option Fused
  | arith op => some (.arith op)
  | shift .left => some .shiftLeft
  | _ => none

/-- Counts of bits: zeros in front, zeros at the end, ones. -/
inductive BitCount
  | leading
  | trailing
  | ones
deriving DecidableEq, Repr

def BitCount.all : List BitCount := [.leading, .trailing, .ones]

inductive Comparison
  | eq
  | ne
  | ltS
  | ltU
  | leS
  | leU
  | gtS
  | gtU
  | geS
  | geU
deriving DecidableEq, Repr

namespace Comparison

def all : List Comparison := [eq, ne, ltS, ltU, leS, leU, gtS, gtU, geS, geU]

/-- Whether the order on signed integers is meant. -/
def isSigned : Comparison → Bool
  | ltS | leS | gtS | geS => true
  | eq | ne | ltU | leU | gtU | geU => false

end Comparison

namespace FloatArith

def all : List FloatArith := [add, sub, mul, div, max, min]

def isCommutative : FloatArith → Bool
  | add | mul | max | min => true
  | sub | div => false

end FloatArith

inductive FloatBinary
  | arith (op : FloatArith)
  /-- The magnitude of the left operand with the sign of the right one. -/
  | copysign
deriving DecidableEq, Repr

namespace FloatBinary

def all : List FloatBinary := FloatArith.all.map arith ++ [copysign]

def isCommutative : FloatBinary → Bool
  | arith op => op.isCommutative
  | copysign => false

end FloatBinary

inductive FloatUnary
  | abs
  | neg
  | sqrt
  | round (mode : Rounding)
deriving DecidableEq, Repr

def Rounding.all : List Rounding := [.nearest, .down, .up, .zero]

def FloatUnary.all : List FloatUnary := [.abs, .neg, .sqrt] ++ Rounding.all.map .round

/-- Conversions between integers and floating-point numbers. The target has none of them. -/
inductive Conversion
  | truncateSigned
  | truncateUnsigned
  | ofSigned
  | ofUnsigned
deriving DecidableEq, Repr

namespace Conversion

def all : List Conversion := [truncateSigned, truncateUnsigned, ofSigned, ofUnsigned]

def resultType : Conversion → ValueType
  | truncateSigned | truncateUnsigned => .i64
  | ofSigned | ofUnsigned => .f64

end Conversion

/-- An integer type together with a size below its own. -/
inductive Narrow
  | i32of8
  | i32of16
  | i64of8
  | i64of16
  | i64of32
deriving DecidableEq, Repr

namespace Narrow

def all : List Narrow := [i32of8, i32of16, i64of8, i64of16, i64of32]

def width : Narrow → IntWidth
  | i32of8 | i32of16 => .w32
  | i64of8 | i64of16 | i64of32 => .w64

def part : Narrow → Part
  | i32of8 | i64of8 => .p8
  | i32of16 | i64of16 => .p16
  | i64of32 => .p32

end Narrow

/-- A load by the target. -/
inductive TargetLoad
  | word (width : IntWidth)
  /-- A part of a word, extended to 64 bits by its sign or by zeros. -/
  | extended (part : Part) (signed : Bool)
  | float (width : FloatWidth)
deriving DecidableEq, Repr

namespace TargetLoad

def all : List TargetLoad :=
  IntWidth.all.map word
    ++ Part.all.flatMap (fun p => [extended p true, extended p false])
    ++ FloatWidth.all.map float

def bits : TargetLoad → Nat
  | word w => w.bits
  | extended p _ => p.size.bits
  | float w => w.bits

def bytes (a : TargetLoad) : Nat := a.bits / 8

def resultType : TargetLoad → ValueType
  | word w => .int w
  | extended _ _ => .i64
  | float w => .float w

end TargetLoad

/-- A store by the target. -/
inductive TargetStore
  | int (size : Size)
  | float (width : FloatWidth)
deriving DecidableEq, Repr

namespace TargetStore

def all : List TargetStore := Size.all.map int ++ FloatWidth.all.map float

def bits : TargetStore → Nat
  | int s => s.bits
  | float w => w.bits

def bytes (a : TargetStore) : Nat := a.bits / 8

end TargetStore

/-- A generic load: a whole value, or an integer from fewer bytes. -/
inductive Load
  | full (ty : ValueType)
  | narrow (n : Narrow) (signed : Bool)
deriving DecidableEq, Repr

namespace Load

def all : List Load :=
  ValueType.all.map full ++ Narrow.all.flatMap (fun n => [narrow n true, narrow n false])

def type : Load → ValueType
  | full ty => ty
  | narrow n _ => .int n.width

/-- The load that the target does for it. -/
def access : Load → TargetLoad
  | full (.int w) => .word w
  | full (.float w) => .float w
  | narrow n signed => .extended n.part signed

end Load

/-- A generic store: a whole value, or the low bytes of an integer. -/
inductive Store
  | full (ty : ValueType)
  | narrow (n : Narrow)
deriving DecidableEq, Repr

namespace Store

def all : List Store := ValueType.all.map full ++ Narrow.all.map narrow

def type : Store → ValueType
  | full ty => ty
  | narrow n => .int n.width

/-- The store that the target does for it. -/
def access : Store → TargetStore
  | full (.int w) => .int (.ofWidth w)
  | full (.float w) => .float w
  | narrow n => .int n.part.size

end Store

/-- Operators that only the x64 target has. -/
inductive Target
  /-- The low 32 bits extended to 64 by their sign or by zeros. -/
  | extend32 (signed : Bool)
  | int (op : Fused)
  /-- Compare two words and branch. -/
  | branchOn (c : Comparison)
  | intRet
  | floatRet
  /-- The address at which linear memory starts. -/
  | memorySpace
  /-- The size of linear memory in bytes. -/
  | memorySize
  /-- The address, once an access of the literal's width at it is known to lie in linear memory. -/
  | boundsCheck
  | load (access : TargetLoad)
  | store (access : TargetStore)
deriving DecidableEq, Repr

namespace Target

def all : List Target :=
  [extend32 true, extend32 false] ++ Fused.all.map int ++ Comparison.all.map branchOn
    ++ [intRet, floatRet, memorySpace, memorySize, boundsCheck]
    ++ TargetLoad.all.map load ++ TargetStore.all.map store

end Target

inductive Operator
  /-- The incoming memory state. -/
  | state
  /-- The memory state after an effect. -/
  | updateState
  | const (ty : ValueType)
  | intBinary (width : IntWidth) (op : IntBinary)
  | bitCount (width : IntWidth) (op : BitCount)
  | compare (width : IntWidth) (op : Comparison)
  | floatBinary (width : FloatWidth) (op : FloatBinary)
  | floatUnary (width : FloatWidth) (op : FloatUnary)
  /-- One if the value is not zero, else zero. -/
  | bool (ty : ValueType)
  /-- A 32-bit integer extended to 64 bits by its sign or by zeros. -/
  | extend (signed : Bool)
  /-- The low 32 bits of a 64-bit integer. -/
  | wrap
  /-- An address from an integer. -/
  | address (width : IntWidth)
  | load (op : Load)
  | store (op : Store)
  | convert (op : Conversion)
  /-- A return with or without a value of any type. -/
  | ret
  | typedRet (ty : ValueType)
  /-- A two-way branch on a predicate. -/
  | branch
  | jump
  | target (op : Target)
deriving DecidableEq, Repr

namespace Operator

def all : List Operator :=
  [state, updateState] ++ ValueType.all.map const
    ++ IntWidth.all.flatMap (fun w =>
      IntBinary.all.map (intBinary w) ++ BitCount.all.map (bitCount w)
        ++ Comparison.all.map (compare w))
    ++ FloatWidth.all.flatMap (fun w =>
      FloatBinary.all.map (floatBinary w) ++ FloatUnary.all.map (floatUnary w))
    ++ ValueType.all.map bool ++ [extend true, extend false, wrap]
    ++ IntWidth.all.map address ++ Load.all.map load ++ Store.all.map store
    ++ Conversion.all.map convert ++ [ret] ++ ValueType.all.map typedRet
    ++ [branch, jump] ++ Target.all.map target

/-- The type of the value, if there is one. -/
def resultType : Operator → Option ValueType
  | state | updateState => some .i64
  | const ty => some ty
  | intBinary w _ | bitCount w _ | compare w _ => some (.int w)
  | floatBinary w _ | floatUnary w _ => some (.float w)
  | bool _ => some .i64
  | extend _ => some .i64
  | wrap => some .i32
  | address _ => some .i64
  | load op => some op.type
  | convert op => some op.resultType
  | store _ | ret | typedRet _ | branch | jump => none
  | target op =>
    match op with
    | .extend32 _ | .int _ | .memorySpace | .memorySize | .boundsCheck => some .i64
    | .load access => some access.resultType
    | .branchOn _ | .intRet | .floatRet | .store _ => none

/-- Whether the operator ends a block. -/
def isTerminator : Operator → Bool
  | ret | typedRet _ | branch | jump => true
  | target (.branchOn _) | target .intRet | target .floatRet => true
  | _ => false

def isReturn : Operator → Bool
  | ret | typedRet _ | target .intRet | target .floatRet => true
  | _ => false

def isTarget : Operator → Bool
  | target _ => true
  | _ => false

end Operator

end Isel
