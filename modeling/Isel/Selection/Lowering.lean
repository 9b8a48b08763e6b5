import Isel.Config
import Isel.Error
import Isel.Graph.Uses
import Isel.Table

/-! Lowering: every node is replaced by nodes that the target has. A node is lowered once, after
the nodes that it refers to, and the new nodes are recorded in the order in which they arise. Helper
nodes stand in the block of the node that needs them. -/

namespace Isel

/-- What selection did to a graph. -/
structure Stats where
  /-- Nodes replaced by a target operator. -/
  retargeted : Nat := 0
  /-- Comparisons taken over by a branch. -/
  fused : Nat := 0
  /-- Nodes that stand for their first input. -/
  eliminated : Nat := 0
  /-- Helper nodes made. -/
  inserted : Nat := 0
  /-- Helper nodes used once more instead of made. -/
  shared : Nat := 0
deriving DecidableEq, Repr

/-- The helper nodes that read the memory context of a state. -/
structure MemoryContext where
  space : Nat
  size : Nat
deriving DecidableEq, Repr

/-- A bounds check by what it checks, in one block. -/
structure CheckKey where
  block : Nat
  state : Nat
  address : Nat
  bytes : Nat
deriving DecidableEq, Repr

/-- The progress of lowering. New nodes refer to one another by their place in `nodes`. -/
structure Lowering where
  /-- The new node of each lowered node. -/
  lowered : Table Nat Nat := {}
  nodes : Array Placed := #[]
  /-- Memory contexts that can be shared, by block and state. -/
  contexts : Table (Nat × Nat) MemoryContext := {}
  /-- Bounds checks that can be shared. -/
  checks : Table CheckKey Nat := {}
  stats : Stats := {}
deriving DecidableEq, Repr

abbrev Select := StateT Lowering (Except Failure)

namespace Graph

def op? (g : Graph) (id : Nat) : Option Operator := (g.node? id).map Node.op

/-- Whether a branch takes over a comparison: its only use is to be the predicate of the branch. -/
def isFusable (g : Graph) (id : Nat) : Bool :=
  match g.op? id with
  | some (.compare _ _) =>
    match g.singleUse? id with
    | some ⟨user, .input 0⟩ => g.op? user == some .branch
    | _ => false
  | _ => false

/-- Whether the only use of a node is to be returned as an integer. -/
def isOnlyReturned (g : Graph) (id : Nat) : Bool :=
  match g.singleUse? id with
  | some ⟨user, .input _⟩ =>
    match g.op? user with
    | some .ret => true
    | some (.typedRet ty) => ty.isInt
    | _ => false
  | _ => false

end Graph

namespace Select

def fail {α : Type} (e : Error) : Select α := throw (.error e)

def malformed {α : Type} (message : String) : Select α := fail (.malformed message)

def count (f : Stats → Stats) : Select Unit := modify fun l => { l with stats := f l.stats }

def countRetargeted : Select Unit := count fun s => { s with retargeted := s.retargeted + 1 }

def countFused : Select Unit := count fun s => { s with fused := s.fused + 1 }

def countEliminated : Select Unit := count fun s => { s with eliminated := s.eliminated + 1 }

def countShared (n : Nat) : Select Unit := count fun s => { s with shared := s.shared + n }

/-- Records a new node. -/
def add (b : Nat) (n : Node) : Select Nat :=
  modifyGet fun l => (l.nodes.size, { l with nodes := l.nodes.push ⟨b, n⟩ })

/-- Records a helper node. -/
def insert (b : Nat) (n : Node) : Select Nat := do
  count fun s => { s with inserted := s.inserted + 1 }
  add b n

section Nodes

variable (recur : Nat → Select Nat)

/-- Lowers the input at a position. -/
def input (id : Nat) (n : Node) (index : Nat) : Select Nat :=
  match n.inputs[index]? with
  | some v => recur v
  | none => malformed s!"i{id} ({n.op.name}) is missing input {index}"

def control : Control → Select Control
  | .block b => return .block b
  | .node n => return .node (← recur n)

/-- Lowers all that a node refers to, and records it with another operator. -/
def copy (b : Nat) (n : Node) (op : Operator) : Select Nat := do
  let control ← n.control.mapM (control recur)
  let inputs ← n.inputs.mapM recur
  add b { op, control, literals := n.literals, inputs }

/-- Replaces the operator by one of the target. -/
def retarget (b : Nat) (n : Node) (op : Target) : Select Nat := do
  countRetargeted
  copy recur b n (.target op)

/-- Lets a node stand for its first input. -/
def eliminate (id : Nat) (n : Node) : Select Nat := do
  countEliminated
  input recur id n 0

/-- Lowers an operand of a 32-bit comparison and extends it. -/
def widen (b id : Nat) (n : Node) (c : Comparison) (index : Nat) : Select Nat := do
  let v ← input recur id n index
  insert b { op := .target (.extend32 c.isSigned), inputs := [v] }

/-- The operands of a comparison as words. -/
def compared (b id : Nat) (n : Node) (w : IntWidth) (c : Comparison) : Select (List Nat) := do
  match w with
  | .w64 => return [← input recur id n 0, ← input recur id n 1]
  | .w32 => return [← widen recur b id n c 0, ← widen recur b id n c 1]

/-- The start and the size of linear memory at a state. -/
def memoryContext (config : Config) (b state : Nat) : Select MemoryContext := do
  let known := (← get).contexts.get? (b, state)
  match known.filter fun _ => config.shareMemoryChecks with
  | some context =>
    countShared 2
    return context
  | none =>
    let space ← insert b { op := .target .memorySpace, inputs := [state] }
    let size ← insert b { op := .target .memorySize, inputs := [state] }
    let context : MemoryContext := { space, size }
    if config.shareMemoryChecks then
      modify fun l => { l with contexts := l.contexts.set (b, state) context }
    return context

/-- The checked address of an access. -/
def checkedAddress (config : Config) (key : CheckKey) (size : Nat) : Select Nat := do
  let known := (← get).checks.get? key
  match known.filter fun _ => config.shareMemoryChecks with
  | some checked =>
    countShared 1
    return checked
  | none =>
    let checked ← insert key.block
      { op := .target .boundsCheck
        literals := [.int (BitVec.ofNat 64 key.bytes)]
        inputs := [key.state, key.address, size] }
    if config.shareMemoryChecks then
      modify fun l => { l with checks := l.checks.set key checked }
    return checked

/-- Records an access of `bytes` bytes, with the nodes that guard it. -/
def access (config : Config) (b : Nat) (n : Node) (op : Target) (bytes state address : Nat)
    (value : List Nat) : Select Nat := do
  let context ← memoryContext config b state
  let checked ← checkedAddress config { block := b, state, address, bytes } context.size
  let control ← n.control.mapM (control recur)
  countRetargeted
  add b { op := .target op, control, inputs := [state, context.space, checked] ++ value }

def load (config : Config) (b id : Nat) (n : Node) (op : Load) : Select Nat := do
  let state ← input recur id n 0
  let address ← input recur id n 1
  access recur config b n (.load op.access) op.access.bytes state address []

def store (config : Config) (b id : Nat) (n : Node) (op : Store) : Select Nat := do
  let state ← input recur id n 0
  let address ← input recur id n 1
  let value ← input recur id n 2
  access recur config b n (.store op.access) op.access.bytes state address [value]

/-- The magnitude gets an absolute value in front, so that its sign bit is clear. -/
def copysign (b id : Nat) (n : Node) (w : FloatWidth) : Select Nat := do
  let magnitude ← input recur id n 0
  let sign ← input recur id n 1
  let abs ← insert b { op := .floatUnary w .abs, inputs := [magnitude] }
  add b { op := n.op, inputs := [abs, sign] }

/-- A branch takes over the comparison that it is on, if nothing else uses it. -/
def branch (g : Graph) (config : Config) (b id : Nat) (n : Node) : Select Nat := do
  match n.inputs.head? with
  | none => malformed s!"i{id} branches without a predicate"
  | some predicate =>
    let control ← n.control.mapM (control recur)
    let some p := g.node? predicate | throw .dangling
    match p.op, config.fuseBranches && g.isFusable predicate with
    | .compare w c, true =>
      let inputs ← compared recur b predicate p w c
      countFused
      add b { op := .target (.branchOn c), control, inputs }
    | op, _ =>
      let v ← recur predicate
      let v ←
        if op.resultType = some .i32 then
          insert b { op := .target (.extend32 false), inputs := [v] }
        else pure v
      add b { op := .branch, control, inputs := [v] }

/-- Lowers a node of block `b`. -/
def node (g : Graph) (config : Config) (b id : Nat) (n : Node) : Select Nat :=
  match n.op with
  | .wrap | .address .w64 => eliminate recur id n
  | .bool (.int .w64) =>
    if config.eliminateReturnBools && g.isOnlyReturned id then eliminate recur id n
    else copy recur b n n.op
  | .extend signed => retarget recur b n (.extend32 signed)
  | .address .w32 => retarget recur b n (.extend32 false)
  | .intBinary .w64 op =>
    match op.fused? with
    | some op => retarget recur b n (.int op)
    | none => copy recur b n n.op
  | .floatBinary w .copysign => copysign recur b id n w
  | .compare .w32 c => do
    let inputs ← compared recur b id n .w32 c
    countRetargeted
    add b { op := .compare .w64 c, inputs }
  | .branch => branch recur g config b id n
  | .typedRet ty => retarget recur b n (if ty.isFloat then .floatRet else .intRet)
  | .load op => load recur config b id n op
  | .store op => store recur config b id n op
  | .convert _ => fail (.unsupported n.op.name id)
  | op => copy recur b n op

end Nodes

/-- Lowers a node, unless it has been lowered before. By itself the recursion has no bound, and on a
node that depends on itself it does not end. It is cut here where a chain of references is as long as
the graph has nodes, and so is no chain of different nodes; the error stands for that recursion, which
nothing else in selection looks for. -/
def lower (g : Graph) (config : Config) : Nat → Nat → Select Nat
  | 0, id => malformed s!"i{id} depends on itself"
  | fuel + 1, id => do
    match (← get).lowered.get? id with
    | some new => return new
    | none =>
      let some p := g.nodes[id]? | throw .dangling
      let new ← node (lower g config fuel) g config p.block id p.node
      modify fun l => { l with lowered := l.lowered.set id new }
      return new

/-- Lowers all nodes along the layout but for comparisons that a branch takes over. -/
def lowerAll (g : Graph) (config : Config) : Select Unit :=
  g.layout.forM fun id => do
    if config.fuseBranches && g.isFusable id then return ()
    else let _ ← lower g config g.nodes.size id

end Select

end Isel
