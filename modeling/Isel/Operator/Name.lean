import Isel.Operator.Basic

/-! The names of operators. -/

namespace Isel

def Arith.name : Arith → String
  | .add => "add"
  | .sub => "sub"
  | .mul => "mul"
  | .and => "and"
  | .or => "or"
  | .xor => "xor"

def Shift.name : Shift → String
  | .left => "shl"
  | .rightSigned => "shr_s"
  | .rightUnsigned => "shr_u"

def Division.name : Division → String
  | .quotientSigned => "div_s"
  | .quotientUnsigned => "div_u"
  | .remainderSigned => "rem_s"
  | .remainderUnsigned => "rem_u"

def IntBinary.name : IntBinary → String
  | .arith op => op.name
  | .shift op => op.name
  | .division op => op.name

def BitCount.name : BitCount → String
  | .leading => "clz"
  | .trailing => "ctz"
  | .ones => "popcnt"

def Comparison.name : Comparison → String
  | .eq => "eq"
  | .ne => "ne"
  | .ltS => "lt_s"
  | .ltU => "lt_u"
  | .leS => "le_s"
  | .leU => "le_u"
  | .gtS => "gt_s"
  | .gtU => "gt_u"
  | .geS => "ge_s"
  | .geU => "ge_u"

def FloatArith.name : FloatArith → String
  | .add => "add"
  | .sub => "sub"
  | .mul => "mul"
  | .div => "div"
  | .max => "max"
  | .min => "min"

def FloatBinary.name : FloatBinary → String
  | .arith op => op.name
  | .copysign => "copysign"

def FloatUnary.name : FloatUnary → String
  | .abs => "abs"
  | .neg => "neg"
  | .sqrt => "sqrt"
  | .round .up => "ceil"
  | .round .down => "floor"
  | .round .nearest => "nearest"
  | .round .zero => "trunc"

def Conversion.name : Conversion → String
  | .truncateSigned => "i64.trunc_s_f64"
  | .truncateUnsigned => "i64.trunc_u_f64"
  | .ofSigned => "f64.convert_s_i64"
  | .ofUnsigned => "f64.convert_u_i64"

/-- The letter that marks a signed or an unsigned reading. -/
def signName (signed : Bool) : String := if signed then "s" else "u"

def Load.name : Load → String
  | .full ty => s!"{ty.name}.load"
  | .narrow n signed => s!"{n.width.name}.load{n.part.size.bits}_{signName signed}"

def Store.name : Store → String
  | .full ty => s!"{ty.name}.store"
  | .narrow n => s!"{n.width.name}.store{n.part.size.bits}"

def TargetLoad.name : TargetLoad → String
  | .word w => s!"load{w.bits}"
  | .extended p signed => s!"load{p.size.bits}_{signName signed}"
  | .float w => s!"{w.name}.load"

def TargetStore.name : TargetStore → String
  | .int s => s!"store{s.bits}"
  | .float w => s!"{w.name}.store"

def Target.name : Target → String
  | .extend32 signed => s!"change-{signName signed}32-to-i64"
  | .int op => s!"int.{op.toBinary.name}"
  | .branchOn c => s!"if.i64.{c.name}"
  | .intRet => "int.ret"
  | .floatRet => "float.ret"
  | .memorySpace => "memory.space"
  | .memorySize => "memory.size"
  | .boundsCheck => "memory.bounds-check"
  | .load access => access.name
  | .store access => access.name

namespace Operator

def name : Operator → String
  | state => "state"
  | updateState => "updateState"
  | const ty => s!"{ty.name}.const"
  | intBinary w op => s!"{w.name}.{op.name}"
  | bitCount w op => s!"{w.name}.{op.name}"
  | compare w op => s!"{w.name}.{op.name}"
  | floatBinary w op => s!"{w.name}.{op.name}"
  | floatUnary w op => s!"{w.name}.{op.name}"
  | bool ty => s!"{ty.name}.bool"
  | extend signed => s!"i64.extend_{signName signed}"
  | wrap => "i32.wrap"
  | address w => s!"addr.from_{w.bits}"
  | load op => op.name
  | store op => op.name
  | convert op => op.name
  | ret => "ret"
  | typedRet ty => s!"{ty.name}.ret"
  | branch => "if"
  | jump => "jump"
  | target op => s!"x64:{op.name}"

end Operator

end Isel
