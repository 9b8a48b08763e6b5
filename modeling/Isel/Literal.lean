import Isel.Decimal.Shortest
import Isel.Ieee.Arithmetic

/-! The numbers written in a graph: signed 64-bit integers and doubles. Every literal can be taken
as either kind. -/

namespace Isel

inductive Literal
  | int (value : BitVec 64)
  /-- A double, by its bits. -/
  | float (bits : BitVec 64)
deriving DecidableEq, Repr

namespace Literal

/-- The literal as a signed integer: a double loses its fraction, and the nearest word is taken
where it does not fit. -/
def toInt : Literal → BitVec 64
  | int v => v
  | float x => Ieee.toInt x

/-- The bits of the literal as a double. -/
def toFloat : Literal → BitVec 64
  | int v => Ieee.ofInt v
  | float x => x

def render : Literal → String
  | int v => Decimal.renderInt v
  | float x => Decimal.renderFloat x

/-- An integer if it reads as one, otherwise a double. -/
def read? (cs : List Char) : Option Literal :=
  match Decimal.readInt? cs with
  | some v => some (int v)
  | none => (Decimal.readFloat? .double cs).map float

end Literal

end Isel
