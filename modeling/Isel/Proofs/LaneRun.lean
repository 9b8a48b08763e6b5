import Isel.Proofs.Accepted

/-! What the instructions of floating-point nodes do to the low lanes of their registers. A sequence
that overwrites its first operand applies its operation to the two operands, in their order, unless it
may swap them and the output is where the right one was. -/

namespace Isel

namespace Machine

variable (m : Machine) (w : FloatWidth) {d r r' : Xmm}

@[simp] theorem lane_setLane_self (v : BitVec w.bits) : (m.setLane w d v).lane w d = v := by
  rw [setLane, lane, xmm_setXmm_self]
  exact replaceLow_setWidth (by cases w <;> decide) _ v

@[simp] theorem lane_setXmm_of_ne (h : r ≠ d) (x : Lanes) : (m.setXmm d x).lane w r = m.lane w r := by
  rw [lane, xmm_setXmm_of_ne m h, lane]

@[simp] theorem lane_setLane_of_ne (h : r ≠ d) (v : BitVec w.bits) :
    (m.setLane w d v).lane w r = m.lane w r := lane_setXmm_of_ne m w h _

theorem lane_setXmm_self (x : Lanes) : (m.setXmm d x).lane w d = x.low.setWidth w.bits := by
  rw [lane, xmm_setXmm_self]

theorem getLsbD_lane {i : Nat} (hi : i < w.bits) : (m.lane w r).getLsbD i = (m.xmm r).low.getLsbD i := by
  rw [lane, BitVec.getLsbD_setWidth, decide_eq_true hi, Bool.true_and]

theorem step_movs (d s : Xmm) :
    step (.xmms (.movs w) d s) m = (.ok .next, m.setLane w d (m.lane w s)) := rfl

theorem step_scalar (op : FloatArith) (d s : Xmm) : step (.xmms (.scalar op w) d s) m
    = (.ok .next, m.setLane w d (Ieee.apply op (m.lane w d) (m.lane w s))) := rfl

end Machine

namespace Emit

open Machine

variable (m : Machine) (w : FloatWidth)

/-- A two-operand sequence on lanes. The operation is only asked about registers that it is used on. -/
theorem exec_twoOperand_lane {isCommutative : Bool} {detour out left right : Xmm}
    {op : Xmm → Xmm → List Inst} {F : BitVec w.bits → BitVec w.bits → BitVec w.bits}
    (hop : ∀ d r, d = out ∨ d = detour → r = left ∨ r = right → ∀ m,
      ∃ m', exec (op d r) m = (.ok .next, m') ∧ m'.lane w d = F (m.lane w d) (m.lane w r))
    (hdetour : detour ≠ right) :
    ∃ m', exec (twoOperand isCommutative detour (Inst.xmms (.movs w)) op out left right) m
        = (.ok .next, m') ∧
      m'.lane w out
        = if isCommutative = true ∧ out = right ∧ out ≠ left then F (m.lane w right) (m.lane w left)
          else F (m.lane w left) (m.lane w right) := by
  unfold twoOperand
  split
  · next heq =>
      subst heq
      rw [if_neg fun h => h.2.2 rfl]
      exact hop out right (.inl rfl) (.inr rfl) m
  · next hleft =>
      split
      · next heq =>
          subst heq
          split
          · next hc =>
              rw [if_pos ⟨hc, rfl, hleft⟩]
              exact hop out left (.inl rfl) (.inl rfl) m
          · next hc =>
              obtain ⟨m', hexec, hm'⟩ := hop detour out (.inr rfl) (.inr rfl)
                (m.setLane w detour (m.lane w left))
              refine ⟨_, (exec_cons_next (step_movs m w detour left)).trans
                ((exec_append hexec).trans (exec_cons_next (step_movs m' w out detour))), ?_⟩
              rw [if_neg fun h => hc h.1, lane_setLane_self, hm', lane_setLane_self,
                lane_setLane_of_ne _ _ hdetour.symm]
      · next hright =>
          obtain ⟨m', hexec, hm'⟩ := hop out right (.inl rfl) (.inr rfl)
            (m.setLane w out (m.lane w left))
          refine ⟨m', (exec_cons_next (step_movs m w out left)).trans hexec, ?_⟩
          rw [if_neg fun h => hright h.2.1, hm', lane_setLane_self, lane_setLane_of_ne _ _ (Ne.symm hright)]

end Emit

/-! ### Where floating-point nodes have their operands -/

namespace Constraint.Met

variable {c : Constraint} {x : Assignment} {d : Demand} {r q : Reg}

/-- A fixed temporary is not the output. -/
theorem fixed_scratch_output (h : c.Met x) (hd : d ∈ c.ofRole .scratch) (hr : d.requirement = .fixed r)
    (hq : x.output = some q) : q ≠ r := by
  obtain ⟨r', -, hmet, hout, -⟩ := h.scratch d hd
  obtain rfl : r = r' := by simpa [hr, Requirement.isMetBy] using hmet
  rintro rfl
  exact hout hq

end Constraint.Met

namespace Accepted

open Emission

variable {n : Node} {d : Descriptor} {x : Assignment} {w : FloatWidth}

/-- The detour is a temporary of every two-operand operation on numbers. -/
theorem detour_scratch {op : FloatBinary} (hop : n.op = .floatBinary w op) :
    ⟨.scratch, 0, .fixed (.xmm Xmm.scratch)⟩ ∈ (Family.floatBinary.constraint n).ofRole .scratch := by
  simp only [Family.constraint, hop]
  cases op with
  | copysign => exact List.mem_cons_self
  | arith op => cases op <;> exact List.mem_cons_self

/-- The registers of a two-operand operation on numbers. The right operand is not in the detour. -/
theorem floatBinary (h : Accepted n d x) {op : FloatBinary} (hop : n.op = .floatBinary w op) (g : Graph)
    (b : Nat) (block : Block) : ∃ out left right, x.output = some (.xmm out) ∧
      (x.inputs.map Prod.snd)[0]? = some (Reg.xmm left) ∧
      (x.inputs.map Prod.snd)[1]? = some (Reg.xmm right) ∧ Xmm.scratch ≠ right ∧
      d.family.emit (siteOf g b block n x)
        = .ok (twoOperand op.isCommutative Xmm.scratch (Inst.xmms (.movs w)) (Emit.floatBody w op)
            out left right) := by
  have hsite : (siteOf g b block n x).op = .floatBinary w op := hop
  obtain ⟨hfamily, is, hemit⟩ := h.emits_as (f := .floatBinary) g b block
    (congrArg Operator.family? hop) (by rw [Site.Ready, hsite]; trivial)
  have hmet := h.met
  rw [hfamily] at hmet ⊢
  obtain ⟨w', op', out, left, right, hop', hout, hleft, hright, rfl⟩ :=
    Emit.floatBinary_ok (Emit.whole_eq_ok.mp hemit)
  obtain ⟨rfl, rfl⟩ : w = w' ∧ op = op' := by simpa using hsite.symm.trans hop'
  refine ⟨out, left, right, hout, hleft, hright, ?_, hemit⟩
  rintro rfl
  exact hmet.fixed_scratch (detour_scratch hop) rfl _ (List.mem_of_getElem? hright) rfl

end Accepted

end Isel
