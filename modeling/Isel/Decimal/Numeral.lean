import Isel.Ieee.Format

/-! Numbers written in decimal notation. An integer is an optional sign and digits, and has to fit
a signed 64-bit word. A floating-point number is an optional sign and one of the words `inf`,
`infinity` and `nan` in any case, or digits with an optional point and an optional exponent; it
stands for the nearest number of the format that is asked for. -/

namespace Isel.Decimal

def digit? (c : Char) : Option Nat :=
  if '0' ≤ c ∧ c ≤ '9' then some (c.toNat - '0'.toNat) else none

/-- The digits at the front, and the rest. -/
def takeDigits : List Char → List Nat × List Char
  | [] => ([], [])
  | c :: cs =>
    match digit? c with
    | none => ([], c :: cs)
    | some d => let (ds, rest) := takeDigits cs; (d :: ds, rest)

def ofDigits (ds : List Nat) : Nat := ds.foldl (fun n d => 10 * n + d) 0

/-- Whether a minus sign is in front, and the rest after the sign. -/
def takeSign : List Char → Bool × List Char
  | '+' :: cs => (false, cs)
  | '-' :: cs => (true, cs)
  | cs => (false, cs)

/-- A signed 64-bit integer. -/
def readInt? (cs : List Char) : Option (BitVec 64) :=
  let (negative, cs) := takeSign cs
  let (ds, rest) := takeDigits cs
  let n := ofDigits ds
  if ds.isEmpty || !rest.isEmpty then none
  else if negative then
    if n ≤ 2 ^ 63 then some (BitVec.ofInt 64 (-(n : Int))) else none
  else
    if n < 2 ^ 63 then some (BitVec.ofNat 64 n) else none

/-- `coefficient · 10 ^ exponent` -/
structure Numeral where
  coefficient : Nat
  exponent : Int
deriving DecidableEq, Repr

namespace Numeral

def ratio (d : Numeral) : Nat × Nat :=
  if 0 ≤ d.exponent then (d.coefficient * 10 ^ d.exponent.toNat, 1)
  else (d.coefficient, 10 ^ (-d.exponent).toNat)

/-- Beyond this many places left or right of the point every number is infinite or zero. -/
def farthestPlace : Int := 400

/-- The magnitude pattern of the nearest number of a format. -/
def nearest (w : FloatWidth) (d : Numeral) : Nat :=
  let places := (Nat.toDigits 10 d.coefficient).length + d.exponent
  if d.coefficient = 0 || places < -farthestPlace then 0
  else if farthestPlace < places then w.infinity
  else Ieee.nearest w d.ratio.1 d.ratio.2

end Numeral

/-- An exponent part, or nothing at all. -/
def readExponent? : List Char → Option Int
  | [] => some 0
  | c :: cs =>
    if c = 'e' ∨ c = 'E' then
      let (negative, cs) := takeSign cs
      let (ds, rest) := takeDigits cs
      if ds.isEmpty || !rest.isEmpty then none
      else some (if negative then -(ofDigits ds : Int) else ofDigits ds)
    else none

/-- Digits with an optional point, at least one digit in all, and an optional exponent. -/
def readNumeral? (cs : List Char) : Option Numeral :=
  let (whole, cs) := takeDigits cs
  let (fraction, cs) :=
    match cs with
    | '.' :: cs => takeDigits cs
    | cs => ([], cs)
  if whole.isEmpty && fraction.isEmpty then none
  else (readExponent? cs).map fun e => ⟨ofDigits (whole ++ fraction), e - fraction.length⟩

/-- The magnitude pattern of an unsigned number. -/
def readMagnitude? (w : FloatWidth) (cs : List Char) : Option Nat :=
  let word := cs.map Char.toLower
  if word = ['i', 'n', 'f'] ∨ word = ['i', 'n', 'f', 'i', 'n', 'i', 't', 'y'] then
    some w.infinity
  else if word = ['n', 'a', 'n'] then
    some (w.infinity + 2 ^ (w.fractionBits - 1))
  else (readNumeral? cs).map (Numeral.nearest w)

/-- The bits of a floating-point number. -/
def readFloat? (w : FloatWidth) (cs : List Char) : Option (BitVec w.bits) :=
  let (negative, cs) := takeSign cs
  (readMagnitude? w cs).map (Ieee.ofMagnitude w negative)

end Isel.Decimal
