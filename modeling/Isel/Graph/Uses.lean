import Isel.Graph.Basic

/-! Who uses a node. -/

namespace Isel

/-- The place in which a user refers to a node. -/
inductive Slot
  | input (index : Nat)
  | control
deriving DecidableEq, Repr

structure Use where
  user : Nat
  slot : Slot
deriving DecidableEq, Repr

def Slot.render : Slot → String
  | input index => s!"{index}"
  | control => "control"

def Use.render (u : Use) : String := s!"i{u.user}:{u.slot.render}"

/-- The places in which a node refers to `id`: inputs first, then control. -/
def Node.slotsOf (n : Node) (id : Nat) : List Slot :=
  (n.inputs.zipIdx.filter (·.1 == id)).map (fun (_, index) => .input index)
    ++ (n.controlNodes.filter (· == id)).map fun _ => .control

namespace Graph

/-- All uses of a node, users in layout order. -/
def usesOf (g : Graph) (id : Nat) : List Use :=
  g.entries.flatMap fun (user, n) => (n.slotsOf id).map (⟨user, ·⟩)

/-- The use of a node that is used once. -/
def singleUse? (g : Graph) (id : Nat) : Option Use :=
  match g.usesOf id with
  | [only] => some only
  | _ => none

end Graph

end Isel
