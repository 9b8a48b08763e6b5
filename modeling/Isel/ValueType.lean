/-! The types of values: integers and floating-point numbers, each of 32 or 64 bits. -/

-- Powers of natural numbers and integers are those of the core library, whatever else is imported.
attribute [instance (2000)] instPowNat instNatPowNat
attribute [default_instance (20000)] instPowNat

namespace Isel

inductive IntWidth
  | w32
  | w64
deriving DecidableEq, Repr

namespace IntWidth

def bits : IntWidth → Nat
  | w32 => 32
  | w64 => 64

def all : List IntWidth := [w32, w64]

def name : IntWidth → String
  | w32 => "i32"
  | w64 => "i64"

end IntWidth

inductive FloatWidth
  | single
  | double
deriving DecidableEq, Repr

namespace FloatWidth

def bits : FloatWidth → Nat
  | single => 32
  | double => 64

def all : List FloatWidth := [single, double]

def name : FloatWidth → String
  | single => "f32"
  | double => "f64"

end FloatWidth

inductive ValueType
  | int (width : IntWidth)
  | float (width : FloatWidth)
deriving DecidableEq, Repr

namespace ValueType

abbrev i32 : ValueType := .int .w32
abbrev i64 : ValueType := .int .w64
abbrev f32 : ValueType := .float .single
abbrev f64 : ValueType := .float .double

def all : List ValueType := IntWidth.all.map .int ++ FloatWidth.all.map .float

def bits : ValueType → Nat
  | int w => w.bits
  | float w => w.bits

def name : ValueType → String
  | int w => w.name
  | float w => w.name

def isInt : ValueType → Bool
  | int _ => true
  | float _ => false

def isFloat : ValueType → Bool
  | int _ => false
  | float _ => true

end ValueType

end Isel
