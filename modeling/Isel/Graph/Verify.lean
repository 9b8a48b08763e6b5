import Isel.Graph.Basic

/-! Structural rules for graphs: every reference leads somewhere, a terminator ends its block, and
within a block a node stands after the nodes it refers to. -/

namespace Isel

/-- A broken rule. -/
inductive Flaw
  | unknownSuccessor (block : String)
  | terminatorNotLast (id : Nat) (block : String)
  | undefinedNode (id used : Nat)
  | useBeforeDefinition (id used : Nat)
  | unknownControlBlock (id : Nat)
deriving DecidableEq, Repr

def Flaw.message : Flaw → String
  | unknownSuccessor block => s!"{block} has an unknown successor"
  | terminatorNotLast id block => s!"terminator i{id} is not last in {block}"
  | undefinedNode id used => s!"i{id} uses undefined node i{used}"
  | useBeforeDefinition id used => s!"i{id} uses i{used} before its definition"
  | unknownControlBlock id => s!"i{id} depends on an unknown block"

namespace Graph

/-- The first flaw of a reference from a node in block `b`. -/
def referenceFlaw? (g : Graph) (b : Nat) (id used : Nat) : Option Flaw :=
  match g.blockOf? used with
  | none => some (.undefinedNode id used)
  | some c => if c = b ∧ id ≤ used then some (.useBeforeDefinition id used) else none

/-- The first flaw of a node in block `b`, which is called `name`. -/
def nodeFlaw? (g : Graph) (b : Nat) (name : String) (id : Nat) (n : Node) : Option Flaw :=
  if n.op.isTerminator && (g.members b).getLast? != some id then
    some (.terminatorNotLast id name)
  else
    (n.references.findSome? (g.referenceFlaw? b id)).or
      (n.controlBlocks.findSome? fun c =>
        if c < g.blocks.size then none else some (.unknownControlBlock id))

/-- The first flaw of a block. -/
def blockFlaw? (g : Graph) (b : Nat) (block : Block) : Option Flaw :=
  (block.successors.findSome? fun s =>
      if s < g.blocks.size then none else some (.unknownSuccessor block.name)).or
    ((g.members b).findSome? fun id => (g.node? id).bind (g.nodeFlaw? b block.name id))

/-- The first flaw in layout order. -/
def flaw? (g : Graph) : Option Flaw :=
  (List.range g.blocks.size).findSome? fun b => (g.block? b).bind (g.blockFlaw? b)

end Graph

end Isel
