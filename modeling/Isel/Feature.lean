/-! Extensions of the instruction set. A set of them is a word with one bit each; a word may have
further bits that stand for no known extension. -/

namespace Isel

inductive Feature
  | sse
  | sse2
  | sse41
  | popcnt
  | bmi1
  | lzcnt
deriving DecidableEq, Repr

namespace Feature

/-- In the order of their bits. -/
def all : List Feature := [sse, sse2, sse41, popcnt, bmi1, lzcnt]

def position : Feature → Nat
  | sse => 0
  | sse2 => 1
  | sse41 => 2
  | popcnt => 3
  | bmi1 => 4
  | lzcnt => 5

def name : Feature → String
  | sse => "sse"
  | sse2 => "sse2"
  | sse41 => "sse4.1"
  | popcnt => "popcnt"
  | bmi1 => "bmi1"
  | lzcnt => "lzcnt"

def ofName? (name : String) : Option Feature := all.find? (·.name == name)

end Feature

/-- A set of extensions. -/
structure Features where
  bits : BitVec 32
deriving DecidableEq, Repr

namespace Features

def empty : Features := ⟨0⟩

def single (f : Feature) : Features := ⟨BitVec.twoPow 32 f.position⟩

def union (x y : Features) : Features := ⟨x.bits ||| y.bits⟩

def ofList (fs : List Feature) : Features := fs.foldl (fun x f => x.union (single f)) empty

/-- Every known extension. -/
def all : Features := ofList Feature.all

/-- What every x64 machine has. -/
def baseline : Features := ofList [.sse, .sse2]

def contains (x : Features) (f : Feature) : Bool := x.bits.getLsbD f.position

def isEmpty (x : Features) : Bool := x.bits == 0

def difference (x y : Features) : Features := ⟨x.bits &&& ~~~y.bits⟩

/-- The known extensions of a set, in the order of their bits. -/
def known (x : Features) : List Feature := Feature.all.filter x.contains

/-- The bits that stand for no known extension. -/
def rest (x : Features) : Features := x.difference all

/-- The name of a set with one known extension. -/
def name (x : Features) : String :=
  match Feature.all.find? fun f => single f == x with
  | some f => f.name
  | none => "unknown"

/-- The first of the needed extensions that is not there; bits that stand for no known extension
come last, together. -/
def firstMissing (need given : Features) : Option Features :=
  let missing := need.difference given
  match missing.known with
  | f :: _ => some (single f)
  | [] => if missing.isEmpty then none else some missing

end Features

end Isel
