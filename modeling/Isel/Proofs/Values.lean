import Isel.Proofs.Evaluation
import Isel.Proofs.Integer

/-! Graphs in generic integer operators, read on values with a width. Numbers of 32 and of 64 bits
are kept apart, and both from states of memory. An access outside of linear memory traps. -/

namespace Isel

/-- A value of an integer graph. -/
inductive Value
  | i32 (v : BitVec 32)
  | i64 (v : BitVec 64)
  /-- The state of memory. What is in memory is kept beside the values. -/
  | state
deriving DecidableEq, Repr

namespace Value

def int : (w : IntWidth) → BitVec w.bits → Value
  | .w32, v => i32 v
  | .w64, v => i64 v

/-- The number of a width that a value is. -/
def int? : (w : IntWidth) → Value → Option (BitVec w.bits)
  | .w32, i32 v => some v
  | .w64, i64 v => some v
  | _, _ => none

/-- Whether a number, of whichever width, is not zero. -/
def truth? : Value → Option Bool
  | i32 v => some (v != 0)
  | i64 v => some (v != 0)
  | state => none

end Value

/-- The value that a generic load makes of the number it finds in memory. -/
def Load.read? (op : Load) (v : Nat) : Option Value :=
  match op with
  | .full (.int w) => some (.int w (BitVec.ofNat w.bits v))
  | .full (.float _) => none
  | .narrow n signed =>
    let x := BitVec.ofNat n.part.size.bits v
    some (.int n.width (if signed then x.signExtend n.width.bits else x.setWidth n.width.bits))

/-- The number whose low bytes a generic store writes. -/
def Store.written? (op : Store) (x : Value) : Option Nat :=
  match op.type with
  | .int w => (x.int? w).map BitVec.toNat
  | .float _ => none

namespace Values

def ofBool (w : IntWidth) (b : Bool) : Value := .int w (if b then 1 else 0)

/-- The value of an operator that neither traps nor looks at memory. -/
def pure? (n : Node) (xs : List Value) : Option Value :=
  match n.op, xs with
  | .state, [] => some .state
  | .updateState, [.state] => some .state
  | .const (.int w), [] => n.literals.head?.map fun l => .int w (l.toInt.setWidth w.bits)
  | .bitCount w op, [x] => do
    let x ← x.int? w
    return .int w (BitVec.ofNat w.bits (op.apply x))
  | .compare w c, [x, y] => do
    let x ← x.int? w
    let y ← y.int? w
    return ofBool w (c.holds x y)
  | .bool (.int w), [x] => do
    let x ← x.int? w
    return ofBool .w64 (x != 0)
  | .extend signed, [x] => do
    let x ← x.int? .w32
    return .i64 (extend32 signed x)
  | .wrap, [x] => do
    let x ← x.int? .w64
    return .i32 (x.setWidth 32)
  | .address .w32, [x] => do
    let x ← x.int? .w32
    return .i64 (x.setWidth 64)
  | .address .w64, [x] => do
    let x ← x.int? .w64
    return .i64 x
  | _, _ => none

/-- The value of a node that is no access to memory. -/
def value (n : Node) (xs : List Value) (memory : Array Byte) : Except Halt Value :=
  match n.op, xs with
  | .intBinary w op, [x, y] => do
    let x ← orStuck (x.int? w)
    let y ← orStuck (y.int? w)
    match op.apply? x y with
    | some r => .ok (.int w r)
    | none => .error (.trapped .divideError memory)
  | _, xs => orStuck (pure? n xs)

/-- The place in linear memory of `n` bytes at an address. -/
def place (memory : Array Byte) (n : Nat) (address : Value) : Except Halt Nat := do
  let p ← orStuck (address.int? .w64)
  if p.toNat + n ≤ memory.size then .ok p.toNat else .error (.trapped (.fault p) memory)

/-- The value of a node, with memory after it. -/
def compute (n : Node) (xs : List Value) (memory : Array Byte) :
    Except Halt (Option Value × Array Byte) :=
  match n.op, xs with
  | .load op, [.state, address] => do
    let start ← place memory op.access.bytes address
    let v ← orStuck (readBytes? memory start op.access.bytes)
    return (some (← orStuck (op.read? v)), memory)
  | .store op, [.state, address, x] => do
    let start ← place memory op.access.bytes address
    let v ← orStuck (op.written? x)
    return (none, ← orStuck (replaceBytes? memory start op.access.bytes v))
  | _, xs => return (some (← value n xs memory), memory)

/-- Where a terminator leads. -/
def exit (n : Node) (xs : List Value) : Except Halt (Exit Value) :=
  match n.op, xs with
  | .ret, [] => .ok (.leave none)
  | .ret, [x] | .typedRet _, [x] => .ok (.leave (some x))
  | .branch, [x] => do
    let taken ← orStuck x.truth?
    return .goto (if taken then 0 else 1)
  | .jump, [] => .ok (.goto 0)
  | _, _ => .error .stuck

/-- Generic integer operators on values with a width, and linear memory. -/
def meaning : Meaning Value where
  compute := compute
  exit := exit

end Values

end Isel
