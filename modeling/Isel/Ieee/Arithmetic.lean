import Isel.Ieee.Format

/-! Scalar floating-point operations on bit patterns. Sums, products, quotients and square roots
are the correctly rounded ones. A NaN operand is handed on with its quiet bit set, the left one
first; an operation that has no result gives the quiet NaN with the sign bit set and an empty
payload. Minimum and maximum compare strictly and otherwise take the right operand, so they pass
its bits through unchanged. -/

namespace Isel

/-- How a number is rounded to an integer. -/
inductive Rounding
  | nearest
  | down
  | up
  | zero
deriving DecidableEq, Repr

/-- The two-operand operations on numbers. -/
inductive FloatArith
  | add
  | sub
  | mul
  | div
  | max
  | min
deriving DecidableEq, Repr

namespace Ieee

variable {w : FloatWidth}

/-- The bit that marks a NaN as quiet. -/
def quietBit (w : FloatWidth) : BitVec w.bits := BitVec.ofNat w.bits (2 ^ (w.fractionBits - 1))

def quiet (x : BitVec w.bits) : BitVec w.bits := x ||| quietBit w

/-- The result of an operation that has none. -/
def invalid (w : FloatWidth) : BitVec w.bits :=
  ofMagnitude w true (w.infinity + 2 ^ (w.fractionBits - 1))

/-- Position on the number line; both zeros stand at zero. -/
def rank (x : BitVec w.bits) : Int :=
  if isNegative x then -(magnitude x : Int) else magnitude x

def lt (x y : BitVec w.bits) : Bool := !isNaN x && !isNaN y && rank x < rank y

/-- The rounded result of an operation on operands that are not NaN; some NaN if there is no
result. -/
def compute (single : Float32 → Float32 → Float32) (double : Float → Float → Float) :
    (w : FloatWidth) → BitVec w.bits → BitVec w.bits → BitVec w.bits
  | .single, x, y => (single (Float32.ofBits ⟨x⟩) (Float32.ofBits ⟨y⟩)).toBits.toBitVec
  | .double, x, y => (double (Float.ofBits ⟨x⟩) (Float.ofBits ⟨y⟩)).toBits.toBitVec

def orInvalid (x : BitVec w.bits) : BitVec w.bits := if isNaN x then invalid w else x

/-- The result `r` of an operation on `x` and `y`, unless one of them is a NaN. -/
def handOn (x y r : BitVec w.bits) : BitVec w.bits :=
  if isNaN x then quiet x else if isNaN y then quiet y else orInvalid r

def maximum (x y : BitVec w.bits) : BitVec w.bits := if lt y x then x else y

def minimum (x y : BitVec w.bits) : BitVec w.bits := if lt x y then x else y

def apply (op : FloatArith) (x y : BitVec w.bits) : BitVec w.bits :=
  match op with
  | .add => handOn x y (compute (· + ·) (· + ·) w x y)
  | .sub => handOn x y (compute (· - ·) (· - ·) w x y)
  | .mul => handOn x y (compute (· * ·) (· * ·) w x y)
  | .div => handOn x y (compute (· / ·) (· / ·) w x y)
  | .max => maximum x y
  | .min => minimum x y

def root : (w : FloatWidth) → BitVec w.bits → BitVec w.bits
  | .single, x => (Float32.ofBits ⟨x⟩).sqrt.toBits.toBitVec
  | .double, x => (Float.ofBits ⟨x⟩).sqrt.toBits.toBitVec

def sqrt (x : BitVec w.bits) : BitVec w.bits :=
  if isNaN x then quiet x else orInvalid (root w x)

/-- `num / den` as an integer magnitude; `negative` tells which way is down. -/
def roundRatio (mode : Rounding) (negative : Bool) (num den : Nat) : Nat :=
  let away := if num % den = 0 then num / den else num / den + 1
  match mode with
  | .nearest => roundHalfEven num den
  | .zero => num / den
  | .down => if negative then away else num / den
  | .up => if negative then num / den else away

/-- The integer next to a number in the given direction; the sign stays, also on zero. -/
def roundToIntegral (mode : Rounding) (x : BitVec w.bits) : BitVec w.bits :=
  if isNaN x then quiet x
  else if isFinite x then
    ofRatio w (isNegative x) (roundRatio mode (isNegative x) (numerator x) (2 ^ w.scale)) 1
  else x

/-- The single nearest to a double. A NaN keeps its sign and the upper part of its payload. -/
def narrow (x : BitVec 64) : BitVec 32 :=
  let x : BitVec FloatWidth.double.bits := x
  if isNaN x then
    let payload := magnitude x % 2 ^ 52 / 2 ^ 29
    quiet (ofMagnitude .single (isNegative x) (FloatWidth.infinity .single + payload))
  else if isFinite x then
    ofRatio .single (isNegative x) (numerator x) (2 ^ FloatWidth.scale .double)
  else ofMagnitude .single (isNegative x) (FloatWidth.infinity .single)

/-- The double nearest to a signed integer. -/
def ofInt (v : BitVec 64) : BitVec 64 := ofRatio .double v.msb v.toInt.natAbs 1

/-- The integer part of a double as a signed word: the nearest word if it does not fit, and zero
for a NaN. -/
def toInt (x : BitVec 64) : BitVec 64 :=
  let x : BitVec FloatWidth.double.bits := x
  if isNaN x then 0
  else
    let n := if isFinite x then numerator x / 2 ^ FloatWidth.scale .double else 2 ^ 64
    if isNegative x then BitVec.ofInt 64 (-(Nat.min n (2 ^ 63) : Int))
    else BitVec.ofNat 64 (Nat.min n (2 ^ 63 - 1))

end Ieee

end Isel
