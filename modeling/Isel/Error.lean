import Isel.Text.Piece

/-! Why code generation stops. An `Error` is a fault of the input that is reported to the caller. A
`Failure` is an error, or a fault of the caller: a reference that leads nowhere, or registers that
break the constraints that the allocator had to meet. -/

namespace Isel

open Text

inductive Error
  | duplicateOpcode (opcode : String)
  | missingOpcode (opcode : String)
  /-- The target has nothing for the operation. -/
  | unsupported (opcode : String) (node : Nat)
  | malformed (message : String)
  | parse (message : String) (line : Nat) (span : Span)
  /-- A node has no register. -/
  | unallocated (node : Nat)
  | missingFeature (opcode feature : String)
  /-- The registers of a node do not meet its constraint. -/
  | violation (opcode message : String)
deriving DecidableEq, Repr

/-- The stage of code generation that an error belongs to. -/
inductive Error.Kind
  | config
  | lowering
  | graph
  | parse
  | emit
deriving DecidableEq, Repr

namespace Error

def Kind.name : Kind → String
  | config => "ConfigError"
  | lowering => "LoweringError"
  | graph => "GraphError"
  | parse => "ParseError"
  | emit => "EmitError"

def kind : Error → Kind
  | duplicateOpcode _ | missingOpcode _ => .config
  | unsupported _ _ => .lowering
  | malformed _ => .graph
  | parse _ _ _ => .parse
  | unallocated _ | missingFeature _ _ | violation _ _ => .emit

/-- Whether the table of opcodes is at fault. -/
def isConfiguration (e : Error) : Bool := e.kind = .config

def detail : Error → String
  | duplicateOpcode opcode => s!"opcode '{opcode}' registered twice"
  | missingOpcode opcode => s!"opcode '{opcode}' is not registered"
  | unsupported opcode node => s!"unsupported operation '{opcode}' at node i{node}"
  | malformed message => message
  | parse message line _ => s!"{message} at line {line}"
  | unallocated node => s!"node i{node} has no allocated location"
  | missingFeature opcode feature => s!"opcode '{opcode}' requires {feature}"
  | violation opcode message => s!"constraint violation in '{opcode}': {message}"

def message (e : Error) : String := s!"{e.kind.name}: {e.detail}"

/-- A complaint about a range of a text. -/
def inText (message text : String) (span : Span) : Error := parse message (span.line text) span

end Error

inductive Failure
  | error (e : Error)
  /-- A reference to a node, a block or a label that does not exist. -/
  | dangling
  /-- An allocation that breaks a constraint, where allocations are trusted. -/
  | broken (message : String)
deriving DecidableEq, Repr

/-- A result, or a dangling reference. -/
def orDangling {α : Type} (x : Option α) : Except Failure α :=
  match x with
  | some a => .ok a
  | none => .error .dangling

/-- A result, or an error. -/
def orError {α : Type} (x : Except Error α) : Except Failure α := x.mapError .error

end Isel
