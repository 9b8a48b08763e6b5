import Isel.Proofs.Families
import Isel.Proofs.OperatorNames

/-! The table of opcodes. It holds every operator that the target has, with the family that emits it,
and what a family declares of a node covers all that the instructions of the node change. -/

namespace Isel

namespace Operator

theorem opcode_of_descriptor? {op : Operator} {d : Descriptor} (h : op.descriptor? = some d) :
    d.opcode = op ∧ op.family? = some d.family := by
  obtain ⟨f, hf, rfl⟩ := Option.map_eq_some_iff.mp h
  exact ⟨rfl, hf⟩

end Operator

/-- The table has the descriptor of each operator that the target has, and no other. -/
theorem Registry.x64_get? (op : Operator) : x64.get? op = op.descriptor? := by
  rcases hfound : x64.get? op with _ | d
  · rcases hd : op.descriptor? with _ | d
    · rfl
    · have hmem : d ∈ x64.descriptors := List.mem_filterMap.mpr ⟨op, op.mem_all, hd⟩
      have hne := List.find?_eq_none.mp hfound d hmem
      exact absurd (decide_eq_true (Operator.opcode_of_descriptor? hd).1) hne
  · obtain ⟨op', -, hd⟩ := List.mem_filterMap.mp (List.mem_of_find?_eq_some hfound)
    have hop : d.opcode = op := by simpa using List.find?_some hfound
    rw [← hop, (Operator.opcode_of_descriptor? hd).1, hd]

theorem Registry.x64_require (op : Operator) : x64.require op = op.require := by
  rw [require, x64_get?, Operator.require]

/-! ### What is declared covers what is changed -/

/-- Without a return of any value, only the output, the temporaries and what the constraint lists are
written. -/
theorem Site.mem_written {s : Site} {f : Family} {r : Reg} (hf : f ≠ .ret) :
    r ∈ s.written f ↔
      r ∈ (f.constraint s.node).overwritten ∨ s.output = some r ∨ r ∈ s.scratches := by
  simp [written, hf, Option.mem_toList]

/-- The constraint of an opcode covers what its instructions change. Wherever the instructions of a
node start and however they end, and in whatever registers its operands are, they leave every register
alone that is not its output, one of its temporaries or listed as overwritten, and only a store
changes the heap. A return of any value is the exception, for it moves the value. -/
theorem emit_footprint {s : Site} {d : Descriptor} {is : List Inst}
    (hopcode : Registry.x64.get? s.node.op = some d) (hret : s.node.op ≠ .ret)
    (hemit : d.family.emit s = .ok is) (m : Machine) :
    (∀ r, s.output ≠ some (.gpr r) → .gpr r ∉ s.scratches →
      .gpr r ∉ (d.family.constraint s.node).overwritten → (Machine.exec is m).2.gpr r = m.gpr r) ∧
    (∀ r, s.output ≠ some (.xmm r) → .xmm r ∉ s.scratches →
      .xmm r ∉ (d.family.constraint s.node).overwritten → (Machine.exec is m).2.xmm r = m.xmm r) ∧
    ((∀ a, s.node.op ≠ .target (.store a)) → (Machine.exec is m).2.heap = m.heap) := by
  rw [Registry.x64_get?] at hopcode
  obtain ⟨-, hfamily⟩ := Operator.opcode_of_descriptor? hopcode
  have hne : d.family ≠ .ret := by
    intro heq
    rw [heq] at hfamily
    exact hret (Operator.of_family? hfamily).2
  have hfree {r : Reg} (hout : s.output ≠ some r) (hscratch : r ∉ s.scratches)
      (hlisted : r ∉ (d.family.constraint s.node).overwritten) : r ∉ s.written d.family := by
    rw [Site.mem_written hne]
    tauto
  have hchanges := Family.exec_changes hemit m
  refine ⟨fun r hout hscratch hlisted => hchanges.gprs r (hfree hout hscratch hlisted),
    fun r hout hscratch hlisted => hchanges.xmms r (hfree hout hscratch hlisted),
    fun hload => hchanges.heap ?_⟩
  rw [beq_eq_false_iff_ne]
  intro heq
  rw [heq] at hfamily
  obtain ⟨-, a, ha⟩ := Operator.of_family? hfamily
  exact hload a ha

/-- A sign is copied onto the register that it comes from, so the result takes a detour. -/
def copySignSite : Site where
  node := { op := .floatBinary .double .copysign, inputs := [0, 1] }
  output := some (.xmm .xmm1)
  inputs := [.xmm .xmm2, .xmm .xmm1]
  scratches := [.xmm Xmm.scratch, .xmm Xmm.maskScratch]
  successors := []
  fallthrough := none
  trap := 1

theorem emit_footprint_copySign :
    ∃ d is, Registry.x64.get? copySignSite.node.op = some d ∧ d.family.emit copySignSite = .ok is ∧
      is.length = 6 ∧
      (Machine.exec is (.withMemory #[7])).2.xmm .xmm2 = (Machine.withMemory #[7]).xmm .xmm2 ∧
      (Machine.exec is (.withMemory #[7])).2.heap = (Machine.withMemory #[7]).heap := by
  have hopcode : Registry.x64.get? copySignSite.node.op
      = some ⟨.floatBinary .double .copysign, .floatBinary, .empty⟩ := Registry.x64_get? _
  have hemit : Family.floatBinary.emit copySignSite = .ok (.xmms (.movs .double) Xmm.scratch .xmm2 ::
      (Emit.copySign .double Xmm.scratch .xmm1 ++ [.xmms (.movs .double) .xmm1 Xmm.scratch])) := rfl
  obtain ⟨-, hxmm, hheap⟩ := emit_footprint hopcode (by decide) hemit (.withMemory #[7])
  exact ⟨_, _, hopcode, hemit, rfl, hxmm .xmm2 (by decide) (by decide) (by decide),
    hheap fun a => by simp [copySignSite]⟩

end Isel
