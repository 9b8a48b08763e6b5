import Isel.Proofs.LaneRun
import Isel.Proofs.Rounding

/-! Whether it shows in a floating-point result where its operands were. A sequence may swap operands to
save a copy. A sum and a product are the same number either way; a maximum and a minimum prefer their
right operand, and do so exactly where one operand alone is a NaN or both are zeros of unlike sign. -/

namespace Isel

/-! ### Sums and products of the logical model of floats -/

section Model

open Float.Model

theorem sign_mul_comm (s t : UnpackedFloat.Sign) : s * t = t * s := by
  cases s <;> cases t <;> rfl

theorem unpacked_add_comm (spec : Format) (a b : UnpackedFloat) :
    UnpackedFloat.add spec a b = UnpackedFloat.add spec b a := by
  cases a with
  | finite s m e hm =>
      cases b with
      | finite t k f hk => simp only [UnpackedFloat.add, Int.min_comm e f, Int.add_comm]
      | _ => rfl
  | zero s =>
      cases b with
      | zero t => cases s <;> cases t <;> rfl
      | _ => rfl
  | infinity s =>
      cases b with
      | infinity t => cases s <;> cases t <;> rfl
      | _ => rfl
  | notANumber => cases b <;> rfl

theorem unpacked_mul_comm (spec : Format) (a b : UnpackedFloat) :
    UnpackedFloat.mul spec a b = UnpackedFloat.mul spec b a := by
  cases a <;> cases b <;> simp only [UnpackedFloat.mul, sign_mul_comm, Nat.mul_comm, Int.add_comm]

theorem float_add_comm (x y : Float) : x + y = y + x :=
  congrArg (fun u => Float.ofModel (Float.Model.pack u)) (unpacked_add_comm _ _ _)

theorem float_mul_comm (x y : Float) : x * y = y * x :=
  congrArg (fun u => Float.ofModel (Float.Model.pack u)) (unpacked_mul_comm _ _ _)

theorem float32_add_comm (x y : Float32) : x + y = y + x :=
  congrArg (fun u => Float32.ofModel (Float32.Model.pack u)) (unpacked_add_comm _ _ _)

theorem float32_mul_comm (x y : Float32) : x * y = y * x :=
  congrArg (fun u => Float32.ofModel (Float32.Model.pack u)) (unpacked_mul_comm _ _ _)

end Model

namespace Ieee

variable {w : FloatWidth} {x y : BitVec w.bits}

/-- Neither is a NaN unless both are, and they are not zeros of unlike sign. -/
def Ordered (x y : BitVec w.bits) : Prop :=
  isNaN x = isNaN y ∧ (magnitude x = 0 → magnitude y = 0 → x = y)

instance (x y : BitVec w.bits) : Decidable (Ordered x y) := inferInstanceAs (Decidable (_ ∧ _))

theorem compute_comm {single : Float32 → Float32 → Float32} {double : Float → Float → Float}
    (hsingle : ∀ x y, single x y = single y x) (hdouble : ∀ x y, double x y = double y x) :
    compute single double w x y = compute single double w y x := by
  cases w
  · rw [compute, compute, hsingle]
  · rw [compute, compute, hdouble]

theorem isNaN_quiet (h : isNaN x = true) : isNaN (quiet x) = true := by
  have hle : magnitude x ≤ magnitude (quiet x) := by
    rw [magnitude, magnitude, quiet, BitVec.toNat_or, Nat.or_mod_two_pow]
    exact Nat.left_le_or
  rw [isNaN, decide_eq_true_iff] at h ⊢
  exact h.trans_le hle

/-- A NaN is handed on whichever operand it is. -/
theorem handOn_comm (r : BitVec w.bits) : Alike (handOn x y r) (handOn y x r) := by
  cases hx : isNaN x with
  | true =>
      cases hy : isNaN y with
      | true =>
          refine .inr ⟨?_, ?_⟩
          · rw [handOn, if_pos hx]
            exact isNaN_quiet hx
          · rw [handOn, if_pos hy]
            exact isNaN_quiet hy
      | false => exact .inl (by simp [handOn, hx, hy])
  | false => exact .inl (by cases hy : isNaN y <;> simp [handOn, hx, hy])

/-- Only zeros share their place on the number line. -/
theorem eq_or_zero_of_rank (h : rank x = rank y) : x = y ∨ (magnitude x = 0 ∧ magnitude y = 0) := by
  unfold rank at h
  cases hx : isNegative x <;> cases hy : isNegative y <;> simp only [hx, hy] at h
  case false.false | true.true =>
    exact .inl (eq_of_magnitude (hx.trans hy.symm) (by simpa using h))
  all_goals
    refine .inr ?_
    simp only [if_true, if_false, Bool.false_eq_true] at h
    omega

theorem lt_iff : lt x y = true ↔ isNaN x = false ∧ isNaN y = false ∧ rank x < rank y := by
  simp [lt, and_assoc]

theorem lt_asymm (h : lt x y = true) : lt y x = false := by
  rw [lt_iff] at h
  rw [Bool.eq_false_iff]
  intro h'
  exact absurd (lt_iff.mp h').2.2 h.2.2.asymm

theorem Ordered.symm (h : Ordered x y) : Ordered y x := ⟨h.1.symm, fun hy hx => (h.2 hx hy).symm⟩

theorem Ordered.of_lt (h : lt x y = true) : Ordered x y := by
  obtain ⟨hx, hy, hlt⟩ := lt_iff.mp h
  refine ⟨hx.trans hy.symm, fun hx₀ hy₀ => absurd hlt ?_⟩
  simp [rank, hx₀, hy₀]

/-- Numbers of which neither is below the other. -/
theorem alike_iff_ordered (hxy : lt x y = false) (hyx : lt y x = false) : Alike x y ↔ Ordered x y := by
  constructor
  · rintro (rfl | ⟨hx, hy⟩)
    · exact ⟨rfl, fun _ _ => rfl⟩
    · refine ⟨hx.trans hy.symm, fun hx₀ => absurd hx ?_⟩
      simp [isNaN, hx₀]
  · rintro ⟨hnan, hzero⟩
    cases hx : isNaN x with
    | true => exact .inr ⟨hx, hnan.symm.trans hx⟩
    | false =>
        have hy : isNaN y = false := hnan.symm.trans hx
        have hle : rank y ≤ rank x := not_lt.mp fun h => by simp [lt_iff.mpr ⟨hx, hy, h⟩] at hxy
        have hge : rank x ≤ rank y := not_lt.mp fun h => by simp [lt_iff.mpr ⟨hy, hx, h⟩] at hyx
        obtain heq | ⟨hx₀, hy₀⟩ := eq_or_zero_of_rank (le_antisymm hge hle)
        · exact .inl heq
        · exact .inl (hzero hx₀ hy₀)

/-- A choice between two numbers that falls on the second one unless they are strictly ordered. -/
theorem choice_comm_iff {choose : BitVec w.bits → BitVec w.bits → BitVec w.bits}
    (hlt : ∀ x y, lt x y = true → choose x y = choose y x)
    (hsecond : ∀ x y, lt x y = false → lt y x = false → choose x y = y) :
    Alike (choose x y) (choose y x) ↔ Ordered x y := by
  -- Where one is below the other the choice is made by value, and they are ordered.
  cases hxy : lt x y with
  | true => exact ⟨fun _ => .of_lt hxy, fun _ => .inl (hlt x y hxy)⟩
  | false =>
      cases hyx : lt y x with
      | true => exact ⟨fun _ => (Ordered.of_lt hyx).symm, fun _ => .inl (hlt y x hyx).symm⟩
      | false =>
          rw [hsecond x y hxy hyx, hsecond y x hyx hxy, ← alike_iff_ordered hxy hyx]
          exact ⟨.symm, .symm⟩

theorem maximum_comm_iff : Alike (maximum x y) (maximum y x) ↔ Ordered x y :=
  choice_comm_iff (fun _ _ h => by simp [maximum, h, lt_asymm h]) fun _ _ _ h => by simp [maximum, h]

theorem minimum_comm_iff : Alike (minimum x y) (minimum y x) ↔ Ordered x y :=
  choice_comm_iff (fun _ _ h => by simp [minimum, h, lt_asymm h]) fun _ _ h _ => by simp [minimum, h]

/-- When operands may change places. -/
theorem apply_comm_iff {op : FloatArith} (hop : op.isCommutative = true) (x y : BitVec w.bits) :
    Alike (apply op x y) (apply op y x) ↔ (op = .max ∨ op = .min → Ordered x y) := by
  cases op with
  | add =>
      have hcomm := compute_comm (x := x) (y := y) float32_add_comm float_add_comm
      simpa [apply, hcomm] using handOn_comm _
  | mul =>
      have hcomm := compute_comm (x := x) (y := y) float32_mul_comm float_mul_comm
      simpa [apply, hcomm] using handOn_comm _
  | max => simpa [apply] using maximum_comm_iff
  | min => simpa [apply] using minimum_comm_iff
  | sub | div => exact absurd hop (by decide)

end Ieee

/-! ### Two sequences of one operation -/

open Machine Emission

/-- A node of an operation on numbers, registers that are accepted for it, and a state in which they hold
`a` and `c`. Distinct operands are in distinct registers. -/
structure Placement (w : FloatWidth) (op : FloatBinary) (a c : BitVec w.bits) where
  graph : Graph
  index : Nat
  block : Block
  node : Node
  descriptor : Descriptor
  registers : Assignment
  machine : Machine
  op_eq : node.op = .floatBinary w op
  accepted : Accepted node descriptor registers
  apart : ∀ l r, registers.inputs[0]? = some l → registers.inputs[1]? = some r → l.1 ≠ r.1 → l.2 ≠ r.2
  left : ∃ r, (registers.inputs.map Prod.snd)[0]? = some (Reg.xmm r) ∧ machine.lane w r = a
  right : ∃ r, (registers.inputs.map Prod.snd)[1]? = some (Reg.xmm r) ∧ machine.lane w r = c

namespace Placement

variable {w : FloatWidth} {a c u v : BitVec w.bits}

/-- The node is emitted, and its instructions run through and leave `v` as the result. -/
def Leaves {op : FloatBinary} (p : Placement w op a c) (v : BitVec w.bits) : Prop :=
  ∃ (out : Xmm) (is : List Inst) (m : Machine), p.registers.output = some (.xmm out) ∧
    p.descriptor.family.emit (siteOf p.graph p.index p.block p.node p.registers) = .ok is ∧
    exec is p.machine = (.ok .next, m) ∧ m.lane w out = v

theorem Leaves.unique {op : FloatBinary} {p : Placement w op a c} (hu : p.Leaves u) (hv : p.Leaves v) :
    u = v := by
  obtain ⟨out, is, m, hout, hemit, hexec, rfl⟩ := hu
  obtain ⟨out', is', m', hout', hemit', hexec', rfl⟩ := hv
  obtain rfl : out = out' := by simpa [hout] using hout'
  obtain rfl : is = is' := by simpa [hemit] using hemit'
  rw [(Prod.mk.inj (hexec.symm.trans hexec')).2]

variable {op : FloatArith}

/-- Operands change places where the output is in the register of the right one alone. -/
theorem leaves (p : Placement w (.arith op) a c) : ∃ out left right,
    p.registers.output = some (.xmm out) ∧
    (p.registers.inputs.map Prod.snd)[0]? = some (Reg.xmm left) ∧
    (p.registers.inputs.map Prod.snd)[1]? = some (Reg.xmm right) ∧
    p.Leaves (if op.isCommutative = true ∧ out = right ∧ out ≠ left then Ieee.apply op c a
      else Ieee.apply op a c) := by
  obtain ⟨out, left, right, hout, hleft, hright, hdetour, hemit⟩ :=
    p.accepted.floatBinary p.op_eq p.graph p.index p.block
  obtain ⟨l, hl, ha⟩ := p.left
  obtain ⟨r, hr, hc⟩ := p.right
  obtain rfl : left = l := by simpa [hleft] using hl
  obtain rfl : right = r := by simpa [hright] using hr
  have hbody (d r : Xmm) (m : Machine) : ∃ m', exec (Emit.floatBody w (.arith op) d r) m = (.ok .next, m') ∧
      m'.lane w d = Ieee.apply op (m.lane w d) (m.lane w r) :=
    ⟨_, exec_cons_next (step_scalar m w op d r), lane_setLane_self m w _⟩
  obtain ⟨m, hexec, hlane⟩ :=
    Emit.exec_twoOperand_lane p.machine w (fun d r _ _ => hbody d r) hdetour
  rw [ha, hc] at hlane
  exact ⟨out, left, right, hout, hleft, hright, out, _, m, hout, hemit, hexec, hlane⟩

theorem leaves_or (p : Placement w (.arith op) a c) :
    p.Leaves (Ieee.apply op a c) ∨ p.Leaves (Ieee.apply op c a) := by
  obtain ⟨out, left, right, -, -, -, h⟩ := p.leaves
  split at h
  · exact .inr h
  · exact .inl h

/-- A node with its operands in the first two registers, in a state that has them there. -/
def into (out : Xmm) (hout : out = .xmm1 ∨ out = .xmm2) (op : FloatArith) (a c : BitVec w.bits) :
    Placement w (.arith op) a c where
  graph := .empty
  index := 0
  block := ⟨"entry", []⟩
  node := { op := .floatBinary w (.arith op), inputs := [0, 1] }
  descriptor := ⟨.floatBinary w (.arith op), .floatBinary, .empty⟩
  registers :=
    { output := some (.xmm out), inputs := [(0, .xmm .xmm0), (1, .xmm .xmm1)],
      scratches := [.xmm Xmm.scratch] }
  machine := (initial.setLane w .xmm0 a).setLane w .xmm1 c
  op_eq := rfl
  accepted := by
    refine ⟨Registry.x64_get? _, ?_, fun _ => rfl⟩
    obtain rfl | rfl := hout <;> cases op <;> rfl
  apart := by
    rintro _ _ ⟨⟩ ⟨⟩ -
    decide
  left := ⟨.xmm0, rfl, by simp⟩
  right := ⟨.xmm1, rfl, by simp⟩

/-- The output in a register of its own. -/
theorem leaves_into_fresh : (into .xmm2 (.inr rfl) op a c).Leaves (Ieee.apply op a c) := by
  obtain ⟨out, left, right, hout, hleft, hright, h⟩ := (into .xmm2 (.inr rfl) op a c).leaves
  obtain rfl : Xmm.xmm2 = out := Reg.xmm.inj (Option.some.inj hout)
  obtain rfl : Xmm.xmm1 = right := Reg.xmm.inj (Option.some.inj hright)
  rwa [if_neg (by simp)] at h

/-- The output in the register of the right operand. -/
theorem leaves_into_right (hop : op.isCommutative = true) :
    (into .xmm1 (.inl rfl) op a c).Leaves (Ieee.apply op c a) := by
  obtain ⟨out, left, right, hout, hleft, hright, h⟩ := (into .xmm1 (.inl rfl) op a c).leaves
  obtain rfl : Xmm.xmm1 = out := Reg.xmm.inj (Option.some.inj hout)
  obtain rfl : Xmm.xmm0 = left := Reg.xmm.inj (Option.some.inj hleft)
  obtain rfl : Xmm.xmm1 = right := Reg.xmm.inj (Option.some.inj hright)
  rwa [if_pos ⟨hop, rfl, by decide⟩] at h

/-- What becomes of an operation whose operands may change places. Its instructions run through in all
accepted registers. Any two choices of registers leave the same number just if the operation is a sum or a
product, or if its operands are ordered. -/
theorem leaves_alike_iff (w : FloatWidth) {op : FloatBinary} (hop : op.isCommutative = true)
    (a c : BitVec w.bits) :
    (∀ p : Placement w op a c, ∃ v, p.Leaves v) ∧
    ((∀ (p q : Placement w op a c) (u v : BitVec w.bits), p.Leaves u → q.Leaves v → Ieee.Alike u v) ↔
      (op = .arith .max ∨ op = .arith .min → Ieee.Ordered a c)) := by
  cases op with
  | copysign => exact absurd hop (by decide)
  | arith op =>
      have hswap : Ieee.Alike (Ieee.apply op a c) (Ieee.apply op c a) ↔ _ := Ieee.apply_comm_iff hop a c
      simp only [FloatBinary.arith.injEq, ← hswap]
      refine ⟨fun p => ?_, fun h => h _ _ _ _ leaves_into_fresh (leaves_into_right hop), ?_⟩
      · obtain ⟨_, _, _, -, -, -, h⟩ := p.leaves
        exact ⟨_, h⟩
      · -- Each result is that of one order or the other, so the two orders decide.
        intro halike p q u v hu hv
        obtain hp | hp := p.leaves_or <;> obtain hq | hq := q.leaves_or <;>
          rw [hu.unique hp, hv.unique hq]
        · exact .inl rfl
        · exact halike
        · exact halike.symm
        · exact .inl rfl

/-- Zeros of unlike sign have two minima; NaNs and sums of infinities have one. -/
theorem leaves_alike_iff_zeros :
    (¬∀ (p q : Placement .single (.arith .min) 0x80000000 0) u v,
      p.Leaves u → q.Leaves v → Ieee.Alike u v) ∧
    (∀ (p q : Placement .single (.arith .min) 0xffc00001 0x7f800001) u v,
      p.Leaves u → q.Leaves v → Ieee.Alike u v) ∧
    ∀ (p q : Placement .double (.arith .add) 0xfff0000000000000 0x7ff0000000000000) u v,
      p.Leaves u → q.Leaves v → Ieee.Alike u v := by
  refine ⟨fun h => ?_, ?_, ?_⟩
  · exact absurd ((leaves_alike_iff .single rfl _ _).2.mp h (.inr rfl)) (by decide +kernel)
  · exact (leaves_alike_iff .single rfl _ _).2.mpr fun _ => by decide +kernel
  · exact (leaves_alike_iff .double rfl _ _).2.mpr fun h => absurd h (by decide)

/-- The maximum of a NaN and one is the one in a register of its own, and the NaN in the register of the
right operand. -/
theorem exists_maximum_not_alike :
    ∃ p q : Placement .double (.arith .max) 0x7ff8000000000000 0x3ff0000000000000,
      p.Leaves 0x3ff0000000000000 ∧ q.Leaves 0x7ff8000000000000 ∧
      ¬Ieee.Alike (w := .double) 0x3ff0000000000000 0x7ff8000000000000 := by
  refine ⟨into .xmm2 (.inr rfl) .max _ _, into .xmm1 (.inl rfl) .max _ _, ?_, ?_, by decide +kernel⟩
  · have hleft : Ieee.apply (w := .double) .max 0x7ff8000000000000 0x3ff0000000000000
        = 0x3ff0000000000000 := by decide +kernel
    exact hleft ▸ leaves_into_fresh
  · have hright : Ieee.apply (w := .double) .max 0x3ff0000000000000 0x7ff8000000000000
        = 0x7ff8000000000000 := by decide +kernel
    exact hright ▸ leaves_into_right rfl

end Placement

end Isel
