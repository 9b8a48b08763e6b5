import Isel.ValueType

/-! Binary floating-point numbers as bit patterns. A pattern is a sign bit, an exponent field and
a fraction field. Without its sign bit a pattern is a natural number that grows with the magnitude
it stands for, so rounding to nearest needs no case for subnormal numbers, for a carry into the
exponent or for overflow: it counts units from zero and cuts at infinity. -/

namespace Isel

namespace FloatWidth

def fractionBits : FloatWidth → Nat
  | single => 23
  | double => 52

def exponentBits : FloatWidth → Nat
  | single => 8
  | double => 11

/-- The unit of the smallest positive number is `2 ^ (1 - scale)`. -/
def scale (w : FloatWidth) : Nat := 2 ^ (w.exponentBits - 1) - 1 + w.fractionBits

/-- The magnitude pattern of infinity. -/
def infinity (w : FloatWidth) : Nat := (2 ^ w.exponentBits - 1) * 2 ^ w.fractionBits

end FloatWidth

namespace Ieee

variable {w : FloatWidth}

def isNegative (x : BitVec w.bits) : Bool := x.msb

/-- The pattern without its sign bit. -/
def magnitude (x : BitVec w.bits) : Nat := x.toNat % 2 ^ (w.bits - 1)

def isNaN (x : BitVec w.bits) : Bool := w.infinity < magnitude x

def isInfinite (x : BitVec w.bits) : Bool := magnitude x == w.infinity

def isFinite (x : BitVec w.bits) : Bool := magnitude x < w.infinity

def ofMagnitude (w : FloatWidth) (negative : Bool) (k : Nat) : BitVec w.bits :=
  BitVec.ofNat w.bits (if negative then 2 ^ (w.bits - 1) + k else k)

/-- The absolute value of a finite number is `numerator x / 2 ^ w.scale`. -/
def numerator (x : BitVec w.bits) : Nat :=
  let field := magnitude x / 2 ^ w.fractionBits
  let fraction := magnitude x % 2 ^ w.fractionBits
  if field = 0 then fraction * 2 else (2 ^ w.fractionBits + fraction) * 2 ^ field

/-- The natural number nearest to `num / den`; of two that are equally near, the even one. -/
def roundHalfEven (num den : Nat) : Nat :=
  let q := num / den
  let r := num % den
  if 2 * r < den then q
  else if den < 2 * r then q + 1
  else if q % 2 = 0 then q else q + 1

/-- The magnitude pattern nearest to `num / den`, ties to even, infinity above the largest
finite number. -/
def nearest (w : FloatWidth) (num den : Nat) : Nat :=
  let scaled := num * 2 ^ w.scale
  let field := max 1 ((scaled / den).log2 - w.fractionBits)
  min ((field - 1) * 2 ^ w.fractionBits + roundHalfEven scaled (den * 2 ^ field)) w.infinity

/-- The number nearest to a ratio, with the given sign. -/
def ofRatio (w : FloatWidth) (negative : Bool) (num den : Nat) : BitVec w.bits :=
  ofMagnitude w negative (nearest w num den)

end Ieee

end Isel
