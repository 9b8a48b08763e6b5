import Isel.Graph.Basic

/-! Scheduling: the order of lowered nodes within their blocks. A block is written from the nodes
that no other node of it needs, terminators last; each node is preceded by the nodes of its block
that it depends on and that are not yet written. Besides their operands, accesses to memory wait for
the stores before them, and stores for all accesses before them. -/

namespace Isel

namespace Operator

def isTargetLoad : Operator → Bool
  | target (.load _) => true
  | _ => false

def isTargetStore : Operator → Bool
  | target (.store _) => true
  | _ => false

end Operator

namespace Schedule

section

variable (nodes : Array Placed)

def blockOf? (id : Nat) : Option Nat := nodes[id]?.map Placed.block

/-- Whether a node lies in block `b` and its operator is of a kind. -/
def isIn (b : Nat) (kind : Operator → Bool) (id : Nat) : Bool :=
  nodes[id]?.any fun p => p.block == b && kind p.node.op

/-- The nodes of block `b` in the order in which they arose. -/
def members (b : Nat) : List Nat := (List.range nodes.size).filter (isIn nodes b fun _ => true)

/-- The last store of block `b` before a node. -/
def lastStore? (b id : Nat) : Option Nat :=
  ((List.range id).filter (isIn nodes b Operator.isTargetStore)).getLast?

/-- The loads of block `b` before a node and after the last store. -/
def pendingLoads (b id : Nat) : List Nat :=
  let last := lastStore? nodes b id
  (List.range id).filter fun i => isIn nodes b Operator.isTargetLoad i && last.all (· < i)

/-- The accesses that an access has to wait for. -/
def memoryOrder (id : Nat) (p : Placed) : List Nat :=
  if p.node.op.isTargetStore then
    pendingLoads nodes p.block id ++ (lastStore? nodes p.block id).toList
  else if p.node.op.isTargetLoad then (lastStore? nodes p.block id).toList
  else []

/-- The nodes of the same block that have to stand before a node. -/
def dependencies (id : Nat) : List Nat :=
  match nodes[id]? with
  | none => []
  | some p =>
    (p.node.controlNodes ++ p.node.inputs ++ memoryOrder nodes id p).filter fun d =>
      blockOf? nodes d == some p.block

/-- The nodes that some node of their block has to wait for. -/
def consumed : List Nat := (List.range nodes.size).flatMap (dependencies nodes)

/-- The nodes of a block that none has to wait for, terminators last. -/
def roots (b : Nat) : List Nat :=
  let needed := consumed nodes
  let free := (members nodes b).filter (!needed.contains ·)
  free.filter (!isIn nodes b Operator.isTerminator ·)
    ++ free.filter (isIn nodes b Operator.isTerminator ·)

/-- Writes a node after its dependencies, unless it is written. A node depends on nodes that arose
before it, so there is fuel enough if there is as much as nodes. -/
def visit : Nat → List Nat → Nat → List Nat
  | 0, written, _ => written
  | fuel + 1, written, id =>
    if written.contains id then written
    else (dependencies nodes id).foldl (visit fuel) written ++ [id]

/-- The nodes of a block in their new order. -/
def blockOrder (b : Nat) : List Nat := (roots nodes b).foldl (visit nodes nodes.size) []

end

/-- The nodes in their new order, block by block. -/
def order (blockCount : Nat) (nodes : Array Placed) : List Nat :=
  (List.range blockCount).flatMap (blockOrder nodes)

/-- A node with the references to other nodes changed. -/
def renumber (f : Nat → Nat) (n : Node) : Node :=
  { n with
    inputs := n.inputs.map f
    control := n.control.map fun
      | .node id => .node (f id)
      | .block b => .block b }

end Schedule

/-- The graph with the given blocks whose nodes are lowered nodes in their new order. -/
def schedule (blocks : Array Block) (nodes : Array Placed) : Graph :=
  let order := Schedule.order blocks.size nodes
  let placed := order.filterMap fun id =>
    nodes[id]?.map fun p => { p with node := Schedule.renumber order.idxOf p.node }
  .ofParts blocks placed.toArray

end Isel
