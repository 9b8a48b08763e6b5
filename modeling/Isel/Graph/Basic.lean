import Isel.Literal
import Isel.Operator.Name

/-! Graphs of operations. A graph has blocks, and nodes that each lie in one block. Nodes are
numbered in the order in which they were added, which is also their order within their block. -/

namespace Isel

/-- What a node waits for besides its inputs. -/
inductive Control
  | block (b : Nat)
  | node (n : Nat)
deriving DecidableEq, Repr

def Control.node? : Control → Option Nat
  | block _ => none
  | node n => some n

def Control.block? : Control → Option Nat
  | block b => some b
  | node _ => none

structure Node where
  op : Operator
  control : List Control := []
  literals : List Literal := []
  inputs : List Nat := []
deriving DecidableEq, Repr

namespace Node

def controlNodes (n : Node) : List Nat := n.control.filterMap Control.node?

def controlBlocks (n : Node) : List Nat := n.control.filterMap Control.block?

/-- The nodes that a node refers to. -/
def references (n : Node) : List Nat := n.inputs ++ n.controlNodes

end Node

/-- A node and the block it lies in. -/
structure Placed where
  block : Nat
  node : Node
deriving DecidableEq, Repr

structure Block where
  name : String
  /-- The blocks that control may go to; the first is the one a branch takes. -/
  successors : List Nat := []
deriving DecidableEq, Repr

structure Graph where
  blocks : Array Block := #[]
  nodes : Array Placed := #[]
  block_lt : ∀ p ∈ nodes, p.block < blocks.size := by simp
deriving DecidableEq, Repr

namespace Graph

def empty : Graph := {}

/-- A graph from blocks and nodes in order. A node of a block that does not exist is left out. -/
def ofParts (blocks : Array Block) (nodes : Array Placed) : Graph where
  blocks := blocks
  nodes := nodes.filter fun p => p.block < blocks.size
  block_lt p hp := by simpa using (Array.mem_filter.mp hp).2

/-- Adds a block without nodes. -/
def addBlock (g : Graph) (name : String) : Graph where
  blocks := g.blocks.push { name }
  nodes := g.nodes
  block_lt p hp := by
    have := g.block_lt p hp
    rw [Array.size_push]
    omega

/-- Adds a node at the end of an existing block. -/
def push? (g : Graph) (b : Nat) (n : Node) : Option Graph :=
  if h : b < g.blocks.size then
    some
      { blocks := g.blocks
        nodes := g.nodes.push ⟨b, n⟩
        block_lt := fun p hp => by
          rcases Array.mem_push.mp hp with hp | rfl
          · exact g.block_lt p hp
          · exact h }
  else none

/-- Adds a successor to an existing block. -/
def addSuccessor? (g : Graph) (source target : Nat) : Option Graph :=
  if source < g.blocks.size then
    some
      { blocks := g.blocks.modify source fun b => { b with successors := b.successors ++ [target] }
        nodes := g.nodes
        block_lt := fun p hp => by
          rw [Array.size_modify]
          exact g.block_lt p hp }
  else none

def node? (g : Graph) (id : Nat) : Option Node := g.nodes[id]?.map Placed.node

def blockOf? (g : Graph) (id : Nat) : Option Nat := g.nodes[id]?.map Placed.block

def block? (g : Graph) (b : Nat) : Option Block := g.blocks[b]?

/-- The nodes of a block, in order. -/
def members (g : Graph) (b : Nat) : List Nat :=
  (List.range g.nodes.size).filter fun id => g.blockOf? id == some b

/-- All nodes, block by block. -/
def layout (g : Graph) : List Nat := (List.range g.blocks.size).flatMap g.members

/-- All nodes with their numbers, block by block. -/
def entries (g : Graph) : List (Nat × Node) :=
  g.layout.filterMap fun id => (g.node? id).map (id, ·)

/-- Whether every node that is referred to exists. -/
def isClosed (g : Graph) : Bool :=
  g.nodes.all fun p => p.node.references.all (· < g.nodes.size)

end Graph

end Isel
