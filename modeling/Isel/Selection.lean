import Isel.Opcode.Registry
import Isel.Selection.Lowering
import Isel.Selection.Schedule

/-! Selection: a graph in the operators of the target. -/

namespace Isel

/-- Selects target operators for a graph. -/
def select (g : Graph) (config : Config) : Except Failure (Graph × Stats) := do
  if !g.isClosed then throw .dangling
  let (_, l) ← (Select.lowerAll g config).run {}
  let selected := schedule g.blocks l.nodes
  selected.entries.forM fun (_, n) => do let _ ← orError n.op.require
  return (selected, l.stats)

end Isel
