import Isel.Allocation.Map
import Isel.Opcode.Registry

/-! A simple allocator. A value that a constraint pins gets the register it is pinned to; every
other value gets the register that has been in a pool for longest, and gives it back after its last
use along the layout. Nothing is ever moved, so a graph in which a value would have to survive in a
register that is overwritten is refused. -/

namespace Isel

namespace Pool

/-- A node with its constraint. -/
structure Item where
  id : Nat
  node : Node
  constraint : Constraint
deriving DecidableEq, Repr

/-- The nodes of a graph along the layout. -/
def items (g : Graph) : Except Error (List Item) :=
  g.entries.mapM fun (id, n) => do return ⟨id, n, ← n.constraint⟩

/-- The registers to which a node pins its own value and its inputs. -/
def pinsOf (i : Item) : List (Nat × Reg) :=
  ((i.constraint.output?.bind Requirement.fixed?).map (i.id, ·)).toList
    ++ (i.constraint.ofRole .input).filterMap fun d => do
      let value ← i.node.inputs[d.index]?
      let r ← d.requirement.fixed?
      return (value, r)

/-- All pinned values: forced ones first, then the first pin along the layout. -/
def pins (forced : List (Nat × Reg)) (is : List Item) : Table Nat Reg :=
  let forced := forced.foldl (fun t (id, r) => t.set id r) ({} : Table Nat Reg)
  (is.flatMap pinsOf).foldl (fun t (id, r) => t.setIfNew id r) forced

/-- The last position at which each value is an input. -/
def lastUses (is : List Item) : Table Nat Nat :=
  is.zipIdx.foldl (fun t (i, position) => i.node.inputs.foldl (fun t v => t.set v position) t) {}

/-- The general purpose registers that no opcode pins. -/
def gprs : List Gpr := [.rbx, .rsi, .r8, .r9, .r10, .r12, .r13, .r14, .r15]

/-- The floating-point registers that no opcode pins. -/
def xmms : List Xmm := Xmm.all.filter fun r => r.isAllocatable && r ≠ .xmm0

/-- Free registers, the next one first, and what has been given out. -/
structure State where
  gprs : List Reg
  xmms : List Reg
  allocation : Allocation := {}
deriving DecidableEq, Repr

namespace State

/-- All registers that are not pinned. -/
def initial (pinned : Table Nat Reg) : State :=
  let free (rs : List Reg) := rs.filter fun r => !(pinned.entries.map Prod.snd).contains r
  { gprs := free (Pool.gprs.map .gpr), xmms := free (Pool.xmms.map .xmm) }

/-- Takes the next register of a class; either class will do with a general purpose register. -/
def take (s : State) (c : RegClass) : Except Error (Reg × State) :=
  let exhausted : Error := .malformed "test allocator ran out of registers"
  match c with
  | .float =>
    match s.xmms with
    | r :: rest => .ok (r, { s with xmms := rest })
    | [] => .error exhausted
  | .int | .any =>
    match s.gprs with
    | r :: rest => .ok (r, { s with gprs := rest })
    | [] => .error exhausted

def giveBack (s : State) (r : Reg) : State :=
  match r with
  | .gpr _ => { s with gprs := s.gprs ++ [r] }
  | .xmm _ => { s with xmms := s.xmms ++ [r] }

end State

/-- Gives a node the register of its value. -/
def placeValue (pinned : Table Nat Reg) (i : Item) (s : State) : Except Error State :=
  match i.constraint.output? with
  | none => .ok s
  | some q =>
    match pinned.get? i.id with
    | some r => .ok { s with allocation := s.allocation.set i.id r }
    | none => do
      let (r, s) ← s.take q.cls
      return { s with allocation := s.allocation.set i.id r }

/-- Gives a node the temporaries that it asks for by class, in order. -/
def placeScratches (i : Item) : List Demand → State → Except Error (List Reg × State)
  | [], s => .ok ([], s)
  | d :: ds, s =>
    match d.requirement.fixed? with
    | some _ => placeScratches i ds s
    | none => do
      let (r, s) ← s.take d.requirement.cls
      let s := { s with allocation := s.allocation.setScratch i.id d.index r }
      let (rs, s) ← placeScratches i ds s
      return (r :: rs, s)

/-- The values that are not needed after a position: inputs used there for the last time, and the
value of the node itself if nothing uses it. -/
def dying (lastUse : Table Nat Nat) (position : Nat) (i : Item) : List Nat :=
  let inputs := i.node.inputs.filter fun v => lastUse.get? v = some position
  let own := if lastUse.contains i.id then [] else [i.id]
  ((inputs ++ own).mergeSort (· ≤ ·)).eraseDups

/-- Allocates for the node at a position. -/
def step (pinned : Table Nat Reg) (lastUse : Table Nat Nat) (s : State) (entry : Item × Nat) :
    Except Error State := do
  let (i, position) := entry
  let s ← placeValue pinned i s
  let (temporaries, s) ← placeScratches i (i.constraint.ofRole .scratch) s
  let freed := ((dying lastUse position i).filter fun v => !pinned.contains v).filterMap
    s.allocation.get?
  return (temporaries ++ freed).foldl State.giveBack s

/-- The registers that a node writes. -/
def written (a : Allocation) (i : Item) : List Reg :=
  i.constraint.overwritten ++ (a.get? i.id).toList
    ++ (i.constraint.ofRole .scratch).filterMap fun d => a.scratch? i.id d.index

/-- The first earlier value that is overwritten at a position although it is used later. -/
def overwrittenAt? (a : Allocation) (lastUse : Table Nat Nat) (is : List Item)
    (entry : Item × Nat) : Option Error :=
  let (i, position) := entry
  (is.take position).findSome? fun earlier =>
    match a.get? earlier.id, lastUse.get? earlier.id with
    | some r, some last =>
      if position < last ∧ (written a i).contains r then
        some (.malformed
          s!"i{earlier.id} in {r.name} is live across i{i.id}, which overwrites it")
      else none
    | _, _ => none

/-- Registers for a graph, where `forced` nodes get the register they are forced into. -/
def allocate (forced : List (Nat × Reg)) (g : Graph) : Except Error Allocation := do
  let is ← items g
  let pinned := pins forced is
  let lastUse := lastUses is
  let s ← is.zipIdx.foldlM (step pinned lastUse) (State.initial pinned)
  match is.zipIdx.findSome? (overwrittenAt? s.allocation lastUse is) with
  | some e => .error e
  | none => return s.allocation

end Pool

end Isel
