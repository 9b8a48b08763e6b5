import Isel.Error
import Isel.Graph.Basic
import Isel.Operator.Reader

/-! Reading a graph from its text:

    pipeline {
      b0 {
        i0 = i64.const 123
        i1 = ret ^b0, i0
      }
      b0 -> b1
      ...
    }

The text is read line by line into a draft, in which operands and edges are still pieces of the
text. When all lines are read every name is known, and the draft is turned into a graph. -/

namespace Isel

open Text

/-- A message about a piece of the text. -/
structure Complaint where
  message : String
  span : Span
deriving DecidableEq, Repr

namespace Draft

/-- A node whose operands are still text. -/
structure Line where
  block : Nat
  name : List Char
  op : Operator
  operands : List Piece
deriving DecidableEq, Repr

/-- Where the next line belongs. -/
inductive Scope
  | start
  | pipeline
  | block (b : Nat)
  | done
deriving DecidableEq, Repr

end Draft

/-- What has been read of a graph. -/
structure Draft where
  blocks : Array (List Char) := #[]
  lines : Array Draft.Line := #[]
  edges : Array (Nat × Piece) := #[]
deriving DecidableEq, Repr

namespace Draft

def complain {α : Type} (message : String) (p : Piece) : Except Complaint α :=
  .error ⟨message, p.span⟩

def findBlock? (d : Draft) (name : List Char) : Option Nat := d.blocks.findIdx? (· == name)

def findNode? (d : Draft) (name : List Char) : Option Nat :=
  d.lines.findIdx? (·.name == name)

/-- The word that opens a graph. -/
def keyword : List Char := "pipeline".toList

/-- A lone closing brace. -/
def isClosing (p : Piece) : Bool := p.chars == ['\x7d']

/-- What stands before an opening brace at the end of a line. -/
def beforeOpening? (p : Piece) : Option Piece := (p.beforeLast? '\x7b').map Piece.trim

/-- Reads `name = opcode operand, ...`. -/
def readNode (d : Draft) (b : Nat) (line : Piece) : Except Complaint Draft :=
  match line.cut? ['='] with
  | none => complain "expected `<name> = <opcode>`" line
  | some (name, rest) =>
    let name := name.trim
    let rest := rest.trim
    if name.isEmpty || (d.findNode? name.chars).isSome then
      complain "invalid or duplicate node name" line
    else
      let (opcode, operands) :=
        match rest.cutBlank? with
        | some (opcode, operands) => (opcode, operands.trim)
        | none => (rest, rest.tail)
      match Operator.ofName? opcode.text with
      | none => complain s!"unknown opcode `{opcode.text}`" opcode
      | some op =>
        let operands := if operands.isEmpty then [] else (operands.split ',').map Piece.trim
        .ok { d with lines := d.lines.push ⟨b, name.chars, op, operands⟩ }

/-- Reads a line between blocks. -/
def readOuter (d : Draft) (line : Piece) : Except Complaint (Scope × Draft) :=
  if isClosing line then .ok (.done, d)
  else
    match line.cut? ['-', '>'] with
    | some (source, targets) =>
      let source := source.trim
      match d.findBlock? source.chars with
      | none => complain "unknown block" source
      | some b =>
        let edges := (targets.split ',').map fun t => (b, t.trim)
        .ok (.pipeline, { d with edges := d.edges ++ edges.toArray })
    | none =>
      match beforeOpening? line with
      | none => complain "expected a block" line
      | some name =>
        if name.isEmpty || (d.findBlock? name.chars).isSome then
          complain "invalid or duplicate block name" line
        else .ok (.block d.blocks.size, { d with blocks := d.blocks.push name.chars })

def readLine : Scope × Draft → Piece → Except Complaint (Scope × Draft)
  | (.start, d), line =>
    if (beforeOpening? line).map Piece.chars == some keyword then .ok (.pipeline, d)
    else complain "expected `pipeline \x7b`" line
  | (.pipeline, d), line => d.readOuter line
  | (.block b, d), line =>
    if isClosing line then .ok (.pipeline, d)
    else (d.readNode b line).map fun d => (.block b, d)
  | (.done, _), line => complain "trailing input after pipeline" line

def read (text : Piece) : Except Complaint Draft := do
  let (scope, d) ← text.lines.foldlM readLine (.start, {})
  if scope = .done then return d else complain "unterminated pipeline" text.tail

/-- The control that a name stands for: a node of that name, else a block. -/
def control (d : Draft) (name : Piece) : Except Complaint Control :=
  match d.findNode? name.chars with
  | some n => .ok (.node n)
  | none =>
    match d.findBlock? name.chars with
    | some b => .ok (.block b)
    | none => complain "unknown control dependency" name

/-- Adds an operand to a node: a control after `^`, the node of a name, or a literal. -/
def addOperand (d : Draft) (n : Node) (token : Piece) : Except Complaint Node :=
  match token.afterFirst? '^' with
  | some name => do return { n with control := n.control ++ [← d.control name] }
  | none =>
    match d.findNode? token.chars with
    | some id => .ok { n with inputs := n.inputs ++ [id] }
    | none =>
      match Literal.read? token.chars with
      | some l => .ok { n with literals := n.literals ++ [l] }
      | none => complain s!"unknown value `{token.text}`" token

def node (d : Draft) (line : Line) : Except Complaint Placed := do
  let n ← line.operands.foldlM d.addOperand { op := line.op }
  return ⟨line.block, n⟩

/-- The edge to the block of a name. -/
def edge (d : Draft) : Nat × Piece → Except Complaint (Nat × Nat)
  | (source, target) =>
    match d.findBlock? target.chars with
    | some b => .ok (source, b)
    | none => complain "unknown successor block" target

/-- The blocks with their successors in the order of the edges. -/
def blocksWith (d : Draft) (edges : List (Nat × Nat)) : Array Block :=
  d.blocks.mapIdx fun b name =>
    { name := String.ofList name, successors := (edges.filter (·.1 == b)).map Prod.snd }

def toGraph (d : Draft) : Except Complaint Graph := do
  let nodes ← d.lines.toList.mapM d.node
  let edges ← d.edges.toList.mapM d.edge
  return Graph.ofParts (d.blocksWith edges) nodes.toArray

end Draft

/-- Reads a graph from its text. -/
def Graph.parse (text : String) : Except Error Graph :=
  match Draft.read (Piece.ofString text) >>= Draft.toGraph with
  | .ok g => .ok g
  | .error c => .error (.inText c.message text c.span)

end Isel
