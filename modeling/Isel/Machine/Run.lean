import Isel.Instruction.Code
import Isel.Machine.Step

/-! Running code from its first instruction until it returns, runs off its end or traps. -/

namespace Isel.Machine

/-- A run that executes more instructions than this is stopped. -/
def stepLimit : Nat := 2 ^ 20

/-- Runs from a position with a bound on the number of instructions. -/
def runFrom (code : Code) : Nat → Nat → Exec Unit
  | fuel, position =>
    match code.insts[position]? with
    | none => pure ()
    | some i =>
      match fuel with
      | 0 => throw .stepLimit
      | fuel + 1 => do
        match ← step i with
        | .next => runFrom code fuel (position + 1)
        | .jump l =>
          match code.offset? l with
          | some target => runFrom code fuel target
          | none => throw .unboundLabel
        | .halt => pure ()

/-- Runs code. -/
def run (code : Code) : Exec Unit := runFrom code stepLimit 0

end Isel.Machine
