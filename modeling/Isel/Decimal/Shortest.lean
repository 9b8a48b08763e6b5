import Isel.Decimal.Numeral

/-! Doubles written with the fewest digits that read back, always in positional notation. Of two
numerals of the same length that read back the nearer one is taken, and of two equally near the
larger. -/

namespace Isel.Decimal

/-- The number of digits of the part before the point; minus the number of zeros right after the
point if there is no such part. -/
def places (num den : Nat) : Int :=
  (Nat.toDigits 10 (num * 10 ^ 400 / den)).length - 400

/-- The two numerals around `num / den` whose last digit stands for `10 ^ exponent`, the nearer
first. -/
def neighbours (num den : Nat) (exponent : Int) : List Numeral :=
  let (num, den) :=
    if 0 ≤ exponent then (num, den * 10 ^ exponent.toNat)
    else (num * 10 ^ (-exponent).toNat, den)
  let below : Numeral := ⟨num / den, exponent⟩
  let above : Numeral := ⟨num / den + 1, exponent⟩
  if 2 * (num % den) < den then [below, above] else [above, below]

/-- All digits of `num / 2 ^ k`. -/
def exact (num k : Nat) : Numeral := ⟨num * 5 ^ k, -k⟩

/-- The shortest numeral that reads back as the magnitude of a finite number. -/
def shortest (x : BitVec 64) : Numeral :=
  let x : BitVec FloatWidth.double.bits := x
  let num := Ieee.numerator x
  let den := 2 ^ FloatWidth.scale .double
  let top := places num den
  let found := (List.range 17).findSome? fun n =>
    (neighbours num den (top - (n + 1 : Nat))).find? fun d => d.nearest .double == Ieee.magnitude x
  found.getD (exact num (FloatWidth.scale .double))

/-- Digits with a point `k` places from the right; zeros at the end of the fraction are left
out. -/
def withPoint (digits : List Char) (k : Nat) : List Char :=
  let padded := List.replicate (k + 1 - digits.length) '0' ++ digits
  let whole := padded.take (padded.length - k)
  let fraction := ((padded.drop (padded.length - k)).reverse.dropWhile (· == '0')).reverse
  if fraction.isEmpty then whole else whole ++ '.' :: fraction

def Numeral.render (d : Numeral) : List Char :=
  let digits := Nat.toDigits 10 d.coefficient
  if 0 ≤ d.exponent then digits ++ List.replicate d.exponent.toNat '0'
  else withPoint digits (-d.exponent).toNat

/-- The text of a double. A NaN is written without its sign. -/
def renderFloat (x : BitVec 64) : String :=
  let y : BitVec FloatWidth.double.bits := x
  if Ieee.isNaN y then "NaN"
  else
    let sign := if Ieee.isNegative y then "-" else ""
    if Ieee.isInfinite y then sign ++ "inf"
    else if Ieee.magnitude y = 0 then sign ++ "0"
    else sign ++ String.ofList (shortest x).render

/-- The text of a signed 64-bit integer. -/
def renderInt (v : BitVec 64) : String :=
  let n := v.toInt
  if n < 0 then "-" ++ String.ofList (Nat.toDigits 10 n.natAbs)
  else String.ofList (Nat.toDigits 10 n.natAbs)

end Isel.Decimal
