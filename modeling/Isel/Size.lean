import Isel.ValueType

/-! The sizes in which words are moved and computed on. -/

namespace Isel

/-- One, two, four or eight bytes. -/
inductive Size
  | s8
  | s16
  | s32
  | s64
deriving DecidableEq, Repr

namespace Size

def bytes : Size → Nat
  | s8 => 1
  | s16 => 2
  | s32 => 4
  | s64 => 8

def bits (s : Size) : Nat := 8 * s.bytes

def all : List Size := [s8, s16, s32, s64]

def ofBytes? (n : Nat) : Option Size := all.find? (·.bytes == n)

def ofWidth : IntWidth → Size
  | .w32 => s32
  | .w64 => s64

end Size

/-- A size below that of a word. -/
inductive Part
  | p8
  | p16
  | p32
deriving DecidableEq, Repr

namespace Part

def size : Part → Size
  | p8 => .s8
  | p16 => .s16
  | p32 => .s32

def all : List Part := [p8, p16, p32]

end Part

end Isel
