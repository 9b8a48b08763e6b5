import Isel.Operator.Name
import Isel.Text.Piece

/-! Reading operators from their names. Names that stand for themselves are tried first. Any other
name is a type, a point and a suffix: the suffix is one of the words that go with every type, or the
name of an operation on numbers of the type, or an access to memory, which may give the number of bits
that are moved and a sign. The operators of the target are marked at the start of their names, and
have rules of their own. -/

namespace Isel

namespace Text

/-- What follows a word at the start of a text. -/
def after? (word text : String) : Option String :=
  (word.toList.isPrefixOf? text.toList).map String.ofList

/-- What stands before and after the first occurrence of a character. -/
def cutAt? (c : Char) (text : String) : Option (String × String) :=
  (Piece.cutChars [c] text.toList).map fun (before, after) => (.ofList before, .ofList after)

end Text

open Text

/-- The first member of a list that has a name. -/
def named? {α : Type} (members : List α) (nameOf : α → String) (name : String) : Option α :=
  members.find? (nameOf · == name)

def ValueType.ofName? : String → Option ValueType
  | "i32" => some .i32
  | "i64" => some .i64
  | "f32" => some .f32
  | "f64" => some .f64
  | _ => none

/-- Whether a letter marks a signed reading. -/
def signOf? : String → Option Bool
  | "s" => some true
  | "u" => some false
  | _ => none

def Part.ofBits? : String → Option Part
  | "8" => some .p8
  | "16" => some .p16
  | "32" => some .p32
  | _ => none

/-- The type of a width with a part of it, if the part is smaller. -/
def Narrow.of? : IntWidth → Part → Option Narrow
  | .w32, .p8 => some i32of8
  | .w32, .p16 => some i32of16
  | .w32, .p32 => none
  | .w64, .p8 => some i64of8
  | .w64, .p16 => some i64of16
  | .w64, .p32 => some i64of32

/-- The load of a type that a suffix names. -/
def Load.ofSuffix? (ty : ValueType) (suffix : String) : Option Load := do
  let rest ← after? "load" suffix
  if rest = "" then return full ty
  match ty with
  | .float _ => none
  | .int w =>
    let (bits, sign) ← cutAt? '_' rest
    let signed ← signOf? sign
    let part ← Part.ofBits? bits
    let n ← Narrow.of? w part
    return narrow n signed

/-- The store of a type that a suffix names. -/
def Store.ofSuffix? (ty : ValueType) (suffix : String) : Option Store := do
  let rest ← after? "store" suffix
  if rest = "" then return full ty
  match ty with
  | .float _ => none
  | .int w =>
    let part ← Part.ofBits? rest
    let n ← Narrow.of? w part
    return narrow n

namespace Target

/-- The accesses to memory, which are found by their names as a whole. -/
def accesses : List Target := TargetLoad.all.map load ++ TargetStore.all.map store

def ofName? (name : String) : Option Target :=
  match name with
  | "change-s32-to-i64" => some (extend32 true)
  | "change-u32-to-i64" => some (extend32 false)
  | "int.ret" => some intRet
  | "float.ret" => some floatRet
  | "memory.space" => some memorySpace
  | "memory.size" => some memorySize
  | "memory.bounds-check" => some boundsCheck
  | _ =>
    match after? "int." name with
    | some rest => ((named? IntBinary.all IntBinary.name rest).bind IntBinary.fused?).map int
    | none =>
      match after? "if.i64." name with
      | some rest => (named? Comparison.all Comparison.name rest).map branchOn
      | none => named? accesses Target.name name

end Target

namespace Operator

/-- The operator of a name that stands for itself. -/
def plain? (name : String) : Option Operator :=
  match name with
  | "state" => some state
  | "updateState" => some updateState
  | "ret" => some ret
  | "if" => some branch
  | "jump" => some jump
  | "i64.extend_s" => some (extend true)
  | "i64.extend_u" => some (extend false)
  | "i32.wrap" => some wrap
  | "addr.from_32" => some (address .w32)
  | "addr.from_64" => some (address .w64)
  | _ => (named? Conversion.all Conversion.name name).map convert

/-- The operation on numbers of a type that a suffix names. -/
def numeric? (ty : ValueType) (suffix : String) : Option Operator :=
  match ty with
  | .int w =>
    ((named? IntBinary.all IntBinary.name suffix).map (intBinary w)).or
      (((named? BitCount.all BitCount.name suffix).map (bitCount w)).or
        ((named? Comparison.all Comparison.name suffix).map (compare w)))
  | .float w =>
    ((named? FloatBinary.all FloatBinary.name suffix).map (floatBinary w)).or
      ((named? FloatUnary.all FloatUnary.name suffix).map (floatUnary w))

/-- The operator of a type that a suffix names. -/
def typed? (ty : ValueType) (suffix : String) : Option Operator :=
  match suffix with
  | "const" => some (const ty)
  | "bool" => some (bool ty)
  | "ret" => some (typedRet ty)
  | _ =>
    (numeric? ty suffix).or
      (((Load.ofSuffix? ty suffix).map load).or ((Store.ofSuffix? ty suffix).map store))

/-- The operator of a name. -/
def ofName? (name : String) : Option Operator :=
  match after? "x64:" name with
  | some rest => (Target.ofName? rest).map target
  | none =>
    (plain? name).or do
      let (type, suffix) ← cutAt? '.' name
      let ty ← ValueType.ofName? type
      typed? ty suffix

end Operator

end Isel
