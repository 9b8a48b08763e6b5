import Isel.Feature

/-! What code generation may do, and for which machine. -/

namespace Isel

structure Config where
  /-- Share memory context and bounds checks between accesses. -/
  shareMemoryChecks : Bool := true
  /-- Let a branch take over the comparison that only it uses. -/
  fuseBranches : Bool := true
  /-- Drop a truth value that only a return uses. -/
  eliminateReturnBools : Bool := true
  /-- Trust allocations: a broken constraint is no error but a fault of the allocator. -/
  strictConstraints : Bool := true
  features : Features := Features.all
deriving DecidableEq, Repr

namespace Config

/-- Only what every x64 machine has. -/
def baseline : Config := { features := Features.baseline }

/-- Broken constraints are reported as errors. -/
def testing : Config := { strictConstraints := false }

end Config

end Isel
