import Isel.Proofs.Evaluation
import Isel.Proofs.Integer

/-! Graphs in the operators of the target, read on words. Every value is a word of 64 bits; an
operation on 32 bits takes the low halves of its operands and clears the high half of its result. A
state of memory is the address of the memory context. -/

namespace Isel

abbrev Word := BitVec 64

namespace TargetLoad

/-- The word that a load makes of the number it finds in memory. -/
def extend (a : TargetLoad) (v : Nat) : Word :=
  match a with
  | .word _ | .float _ => BitVec.ofNat 64 v
  | .extended p signed =>
    if signed then (BitVec.ofNat p.size.bits v).signExtend 64 else BitVec.ofNat 64 v

end TargetLoad

/-- Where the memory context and linear memory are found. -/
structure MemoryLayout where
  /-- The start of linear memory at a state. -/
  space : Array Byte → Word → Except Halt Word
  /-- The size of linear memory at a state. -/
  size : Array Byte → Word → Except Halt Word
  /-- The place of `n` bytes at an address. -/
  place : Array Byte → (n : Nat) → Word → Except Halt Nat

namespace MemoryLayout

def heapPlace (heap : Array Byte) (n : Nat) (p : Word) : Except Halt Nat :=
  if p.toNat + n ≤ heap.size then .ok p.toNat else .error (.trapped (.fault p) heap)

/-- The word at an address of the heap. -/
def heapWord (heap : Array Byte) (p : Word) : Except Halt Word := do
  let start ← heapPlace heap 8 p
  return BitVec.ofNat 64 (← orStuck (readBytes? heap start 8))

/-- The heap of the machine: a state points to a memory context in it. -/
def heap : MemoryLayout where
  space heap state := heapWord heap (state + memoryBaseOffset.signExtend 64)
  size heap state := heapWord heap (state + memorySizeOffset.signExtend 64)
  place := heapPlace

/-- Linear memory alone: it starts at a fixed address, and nothing else can be reached. The machine does
not check this. It is a reading in between: selection is compared with it, and a graph whose accesses are
guarded does the same on the heap. -/
def linear : MemoryLayout where
  space _ _ := .ok (BitVec.ofNat 64 Machine.memoryStart)
  size memory _ := .ok (BitVec.ofNat 64 memory.size)
  place memory n p :=
    if Machine.memoryStart ≤ p.toNat ∧ p.toNat + n ≤ Machine.memoryStart + memory.size then
      .ok (p.toNat - Machine.memoryStart)
    else .error (.trapped (.fault p) memory)

end MemoryLayout

namespace Words

def ofBool (b : Bool) : Word := if b then 1 else 0

/-- The value of an operator that neither traps nor looks at memory. -/
def pure? (n : Node) (xs : List Word) : Option Word :=
  match n.op, xs with
  | .state, _ => some 0
  | .updateState, x :: _ => some x
  | .const (.int w), _ => n.literals.head?.map fun l => (l.toInt.setWidth w.bits).setWidth 64
  | .bitCount w op, x :: _ =>
    some ((BitVec.ofNat w.bits (op.apply (x.setWidth w.bits))).setWidth 64)
  | .compare .w64 c, x :: y :: _ => some (ofBool (c.holds x y))
  | .bool (.int w), x :: _ => some (ofBool (x.setWidth w.bits != 0))
  | .target (.extend32 signed), x :: _ => some (Isel.extend32 signed (x.setWidth 32))
  | _, _ => none

/-- The result of an operation at a width, in a word. -/
def binary (w : IntWidth) (op : IntBinary) (x y : Word) (memory : Array Byte) : Except Halt Word :=
  match op.apply? (x.setWidth w.bits) (y.setWidth w.bits) with
  | some r => .ok (r.setWidth 64)
  | none => .error (.trapped .divideError memory)

/-- The address, unless an access of the given width at it would pass the size. -/
def checkBounds (width addr size : Word) (memory : Array Byte) : Except Halt Word :=
  let stop := addr + width
  if stop.ult addr || size.ult stop then .error (.trapped .unreachable memory) else .ok addr

section

variable (L : MemoryLayout)

/-- The value of a node that is no access to linear memory. -/
def value (n : Node) (xs : List Word) (memory : Array Byte) : Except Halt Word :=
  match n.op, xs with
  | .target .memorySpace, state :: _ => L.space memory state
  | .target .memorySize, state :: _ => L.size memory state
  | .target .boundsCheck, _ :: addr :: size :: _ => do
    let l ← orStuck n.literals.head?
    checkBounds l.toInt addr size memory
  | .target (.int op), x :: y :: _ => binary .w64 op.toBinary x y memory
  | .intBinary w op, x :: y :: _ => binary w op x y memory
  | _, xs => orStuck (pure? n xs)

/-- The word that a load finds. -/
def load (a : TargetLoad) (xs : List Word) (memory : Array Byte) : Except Halt Word :=
  match xs with
  | _ :: space :: checked :: _ => do
    let start ← L.place memory a.bytes (space + checked)
    return a.extend (← orStuck (readBytes? memory start a.bytes))
  | _ => .error .stuck

/-- Memory after a store. -/
def store (a : TargetStore) (xs : List Word) (memory : Array Byte) : Except Halt (Array Byte) :=
  match xs with
  | _ :: space :: checked :: v :: _ => do
    let start ← L.place memory a.bytes (space + checked)
    orStuck (replaceBytes? memory start a.bytes v.toNat)
  | _ => .error .stuck

/-- The value of a node from words, with memory after it. -/
def compute (n : Node) (xs : List Word) (memory : Array Byte) :
    Except Halt (Option Word × Array Byte) :=
  match n.op with
  | .target (.load a) => return (some (← load L a xs memory), memory)
  | .target (.store a) => return (none, ← store L a xs memory)
  | _ => return (some (← value L n xs memory), memory)

theorem compute_load {a : TargetLoad} {control : List Control} {literals : List Literal}
    {inputs : List Nat} {xs : List Word} {memory : Array Byte} :
    compute L ⟨.target (.load a), control, literals, inputs⟩ xs memory
      = (load L a xs memory).map fun x => (some x, memory) := by
  change (load L a xs memory >>= _) = _
  cases load L a xs memory <;> rfl

theorem compute_store {a : TargetStore} {control : List Control} {literals : List Literal}
    {inputs : List Nat} {xs : List Word} {memory : Array Byte} :
    compute L ⟨.target (.store a), control, literals, inputs⟩ xs memory
      = (store L a xs memory).map fun memory => (none, memory) := by
  change (store L a xs memory >>= _) = _
  cases store L a xs memory <;> rfl

theorem compute_of_value {n : Node} (hload : ∀ a, n.op ≠ .target (.load a))
    (hstore : ∀ a, n.op ≠ .target (.store a)) (xs : List Word) (memory : Array Byte) :
    compute L n xs memory = (value L n xs memory).map fun x => (some x, memory) := by
  unfold compute
  split
  · next a hop => exact absurd hop (hload a)
  · next a hop => exact absurd hop (hstore a)
  · cases value L n xs memory <;> rfl

end

/-- Where a terminator leads. -/
def exit (n : Node) (xs : List Word) : Except Halt (Exit Word) :=
  match n.op, xs with
  | .ret, xs => .ok (.leave xs.head?)
  | .target .intRet, x :: _ | .target .floatRet, x :: _ => .ok (.leave (some x))
  | .branch, x :: _ => .ok (.goto (if x ≠ 0 then 0 else 1))
  | .target (.branchOn c), x :: y :: _ => .ok (.goto (if c.holds x y then 0 else 1))
  | .jump, _ => .ok (.goto 0)
  | _, _ => .error .stuck

/-- The number of operands with which an operator computes a word or stores one. -/
def operandCount? : Operator → Option Nat
  | .state | .const (.int _) => some 0
  | .updateState | .bitCount _ _ | .bool (.int _) => some 1
  | .compare .w64 _ | .intBinary _ _ => some 2
  | .target (.extend32 _) | .target .memorySpace | .target .memorySize => some 1
  | .target (.int _) => some 2
  | .target .boundsCheck | .target (.load _) => some 3
  | .target (.store _) => some 4
  | _ => none

/-- Whether a node has the operands and the literal that its operator computes with. -/
def computes (n : Node) : Bool :=
  operandCount? n.op == some n.inputs.length &&
    match n.op with
    | .const _ | .target .boundsCheck => !n.literals.isEmpty
    | _ => true

/-- Operators on words, with linear memory laid out as `L` says. -/
def meaning (L : MemoryLayout) : Meaning Word where
  compute := compute L
  exit := exit

end Words

end Isel
