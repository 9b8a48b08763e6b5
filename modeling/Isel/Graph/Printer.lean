import Isel.Graph.Basic

/-! The text of a graph. Nodes are numbered along the layout, and the operands of a node are its
controls, its literals and its inputs, so graphs with the same structure have the same text. There
is no text if a reference leads nowhere. -/

namespace Isel.Graph

/-- The number of a node along the layout. -/
def number? (g : Graph) (id : Nat) : Option Nat := g.layout.idxOf? id

def nodeName? (g : Graph) (id : Nat) : Option String := (g.number? id).map fun n => s!"i{n}"

def blockName? (g : Graph) (b : Nat) : Option String := (g.block? b).map Block.name

def renderControl? (g : Graph) : Control → Option String
  | .block b => (g.blockName? b).map ("^" ++ ·)
  | .node n => (g.nodeName? n).map ("^" ++ ·)

/-- The operands of a node in the order in which they are written. -/
def operands? (g : Graph) (n : Node) : Option (List String) := do
  let controls ← n.control.mapM g.renderControl?
  let inputs ← n.inputs.mapM g.nodeName?
  return controls ++ n.literals.map Literal.render ++ inputs

def renderNode? (g : Graph) (id : Nat) : Option String := do
  let n ← g.node? id
  let name ← g.nodeName? id
  let operands ← g.operands? n
  let operands := if operands.isEmpty then "" else " " ++ ", ".intercalate operands
  return s!"    {name} = {n.op.name}{operands}\n"

def renderBlock? (g : Graph) (b : Nat) : Option String := do
  let block ← g.block? b
  let nodes ← (g.members b).mapM g.renderNode?
  let successors ← block.successors.mapM g.blockName?
  let edges :=
    if successors.isEmpty then "" else s!"  {block.name} -> " ++ ", ".intercalate successors ++ "\n"
  return s!"  {block.name} \x7b\n" ++ String.join nodes ++ "  \x7d\n" ++ edges

def render? (g : Graph) : Option String := do
  let blocks ← (List.range g.blocks.size).mapM g.renderBlock?
  return "pipeline \x7b\n" ++ String.join blocks ++ "\x7d\n"

end Isel.Graph
