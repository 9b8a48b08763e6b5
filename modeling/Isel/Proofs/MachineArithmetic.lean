import Isel.Instruction.Basic
import Isel.Proofs.Integer

/-! What the machine computes, said with the integer operators: the conditions on the flags after a
comparison are comparisons, and a division of a double-length number is a division if the upper half
only carries on the sign. -/

namespace Isel

section Flags

variable (x y : BitVec 64)

theorem flags_sub_zero : (Arith.sub.flags x y).zero = (x == y) := by
  have hx := x.isLt
  have hy := y.isLt
  refine Bool.eq_iff_iff.mpr ?_
  simp only [Arith.flags, Arith.apply, beq_iff_eq, ← BitVec.toNat_inj, BitVec.toNat_sub,
    BitVec.ofNat_eq_ofNat, BitVec.toNat_ofNat]
  omega

/-- Sign and overflow differ exactly if the left operand is less. -/
theorem flags_sub_sign : ((Arith.sub.flags x y).sign != (Arith.sub.flags x y).overflow) = x.slt y := by
  have hsub : (x - y).toInt = (x.toInt - y.toInt).bmod (2 ^ 64) := BitVec.toInt_sub
  have hx : -2 ^ 63 ≤ x.toInt ∧ x.toInt < 2 ^ 63 := ⟨x.le_toInt, BitVec.toInt_lt⟩
  have hy : -2 ^ 63 ≤ y.toInt ∧ y.toInt < 2 ^ 63 := ⟨y.le_toInt, BitVec.toInt_lt⟩
  simp only [Arith.flags, Arith.apply, BitVec.msb_eq_toInt, BitVec.slt, hsub, Int.bmod_def]
  by_cases hxs : x.toInt < 0 <;> by_cases hys : y.toInt < 0 <;> simp [hxs, hys] <;> omega

theorem sle_eq_slt_or_eq : x.sle y = (x == y || x.slt y) := by
  refine Bool.eq_iff_iff.mpr ?_
  simp only [BitVec.sle, BitVec.slt, Bool.or_eq_true, beq_iff_eq, decide_eq_true_eq,
    ← BitVec.toInt_inj]
  omega

theorem ule_eq_ult_or_eq : x.ule y = (x.ult y || x == y) := by
  refine Bool.eq_iff_iff.mpr ?_
  simp only [BitVec.ule, BitVec.ult, Bool.or_eq_true, beq_iff_eq, decide_eq_true_eq,
    ← BitVec.toNat_inj]
  omega

/-- After a subtraction the flags say how the operands compare. -/
theorem holds_flags_sub (c : Comparison) :
    (Arith.sub.flags x y).holds (.ofComparison c) = c.holds x y := by
  have hzero := flags_sub_zero x y
  have hsign := flags_sub_sign x y
  have hcarry : (Arith.sub.flags x y).carry = x.ult y := rfl
  have hge : ((Arith.sub.flags x y).sign == (Arith.sub.flags x y).overflow) = !x.slt y := by
    rw [← hsign, bne, Bool.not_not]
  cases c <;> simp only [Condition.ofComparison, Flags.holds, Comparison.holds, hzero, hsign, hcarry, hge]
  case ne => rfl
  case leS => exact (sle_eq_slt_or_eq x y).symm
  case gtS => rw [← Bool.not_or, ← sle_eq_slt_or_eq, BitVec.sle_eq_not_slt, Bool.not_not]
  case geS => exact BitVec.sle_eq_not_slt.symm
  case leU => exact (ule_eq_ult_or_eq x y).symm
  case gtU => rw [← Bool.not_or, ← ule_eq_ult_or_eq, BitVec.ule_eq_not_ult, Bool.not_not]
  case geU => exact (BitVec.ule_eq_not_ult y x).symm

end Flags

/-- A test of a register against itself says whether it is zero. -/
theorem holds_flags_and_self {n : Nat} (x : BitVec n) :
    (Arith.and.flags x x).holds .ne = (x != 0) := by
  simp [Flags.holds, Arith.flags, Arith.apply, bne]

theorem holds_inverse (f : Flags) (c : Condition) : f.holds c.inverse = !f.holds c := by
  cases c <;> simp [Condition.inverse, Flags.holds, bne]

variable {n : Nat} {high x d : BitVec n}

theorem Arith.apply_comm {op : Arith} (h : op.isCommutative = true) (x y : BitVec n) :
    op.apply x y = op.apply y x := by
  cases op
  case sub => exact absurd h (by decide)
  case add => exact BitVec.add_comm x y
  case mul => exact BitVec.mul_comm x y
  case and => exact BitVec.and_comm x y
  case or => exact BitVec.or_comm x y
  case xor => exact BitVec.xor_comm x y

theorem divide_unsigned (hd : d ≠ 0) : divide false 0 x d = some (x / d, x % d) := by
  have hlt : x.toNat / d.toNat < 2 ^ n := Nat.lt_of_le_of_lt (Nat.div_le_self _ _) x.isLt
  have hq : BitVec.ofNat n (x.toNat / d.toNat) = x / d := BitVec.eq_of_toNat_eq (by
    rw [BitVec.toNat_ofNat, BitVec.toNat_udiv, Nat.mod_eq_of_lt hlt])
  have hr : BitVec.ofNat n (x.toNat % d.toNat) = x % d := BitVec.eq_of_toNat_eq (by
    rw [BitVec.toNat_ofNat, BitVec.toNat_umod]
    exact Nat.mod_eq_of_lt (Nat.lt_of_le_of_lt (Nat.mod_le _ _) x.isLt))
  rw [divide, if_neg hd, if_neg Bool.false_ne_true]
  simp only [BitVec.ofNat_eq_ofNat, BitVec.toNat_zero, Nat.zero_mul, Nat.zero_add, if_pos hlt, hq, hr]

/-- A shift to the right by all bits but one leaves the sign. -/
theorem toInt_sshiftRight_sign (x : BitVec n) :
    (x.sshiftRight (n - 1)).toInt = if x.msb then -1 else 0 := by
  have hlo := x.le_toInt
  have hhi : x.toInt < 2 ^ (n - 1) := BitVec.toInt_lt
  rw [BitVec.toInt_sshiftRight, Int.shiftRight_eq_div_pow, BitVec.msb_eq_toInt]
  push_cast
  by_cases hneg : x.toInt < 0
  · rw [decide_eq_true hneg, if_pos rfl]
    exact Int.ediv_eq_neg_one_of_neg_of_le hneg (by omega)
  · rw [decide_eq_false hneg, if_neg Bool.false_ne_true]
    exact Int.ediv_eq_zero_of_lt (by omega) hhi

/-- The upper half of a dividend that only carries on the sign of the lower half. -/
theorem dividend_eq (hhigh : high.toInt = if x.msb then -1 else 0) :
    high.toInt * 2 ^ n + x.toNat = x.toInt := by
  rw [hhigh, BitVec.toInt_eq_msb_cond]
  split
  · push_cast
    omega
  · rw [Int.zero_mul, Int.zero_add]

/-- A signed quotient fits unless it is that of the least number and minus one. -/
theorem tdiv_fits_iff (hn : 0 < n) : (-2 ^ (n - 1) ≤ x.toInt.tdiv d.toInt ∧
      x.toInt.tdiv d.toInt < 2 ^ (n - 1)) ↔ ¬(x = BitVec.intMin n ∧ d = BitVec.allOnes n) := by
  constructor
  · rintro ⟨-, hlt⟩ ⟨rfl, rfl⟩
    rw [BitVec.toInt_intMin, BitVec.toInt_allOnes, if_pos hn, Int.tdiv_neg, Int.tdiv_one,
      Int.neg_neg, Nat.mod_eq_of_lt (Nat.pow_lt_pow_right (by decide) (by omega))] at hlt
    push_cast at hlt
    exact Int.lt_irrefl _ hlt
  · intro hne
    have hq : (x.sdiv d).toInt = x.toInt.tdiv d.toInt := by
      refine BitVec.toInt_sdiv_of_ne_or_ne x d ?_
      rw [BitVec.neg_one_eq_allOnes]
      exact Decidable.not_and_iff_not_or_not.mp hne
    rw [← hq]
    exact ⟨BitVec.le_toInt _, BitVec.toInt_lt⟩

theorem divide_signed (hn : 0 < n) (hhigh : high.toInt = if x.msb then -1 else 0) (hd : d ≠ 0) :
    divide true high x d
      = if x = BitVec.intMin n ∧ d = BitVec.allOnes n then none else some (x.sdiv d, x.srem d) := by
  have hq : BitVec.ofInt n (x.toInt.tdiv d.toInt) = x.sdiv d := BitVec.eq_of_toInt_eq (by
    rw [BitVec.toInt_ofInt, BitVec.toInt_sdiv])
  have hr : BitVec.ofInt n (x.toInt.tmod d.toInt) = x.srem d := BitVec.eq_of_toInt_eq (by
    rw [BitVec.toInt_ofInt, ← BitVec.toInt_srem, BitVec.toInt_bmod_cancel])
  rw [divide, if_neg hd, if_pos rfl]
  simp only [dividend_eq hhigh, hq, hr, tdiv_fits_iff hn, ite_not]

/-- The part of quotient and remainder that a division keeps. -/
def Division.keep (op : Division) (p : BitVec n × BitVec n) : BitVec n :=
  if op.isRemainder then p.2 else p.1

/-- A division of a number that is extended to double length as its sign says. -/
theorem divide_eq_apply? (op : Division) (hn : 0 < n)
    (hhigh : if op.isSigned then high.toInt = if x.msb then -1 else 0 else high = 0) :
    (divide op.isSigned high x d).map op.keep = op.apply? x d := by
  unfold Division.apply?
  by_cases hd : d = 0
  · rw [divide, if_pos hd, if_pos (.inl hd)]
    rfl
  · cases hsigned : op.isSigned with
    | false =>
        rw [hsigned] at hhigh
        obtain rfl : high = 0 := hhigh
        have hfits : ¬(d = 0 ∨ (false = true ∧ x = BitVec.intMin n ∧ d = BitVec.allOnes n)) :=
          fun h => h.elim hd fun h => Bool.false_ne_true h.1
        rw [divide_unsigned hd, if_neg hfits]
        cases op <;> first | rfl | exact absurd hsigned (by decide)
    | true =>
        rw [hsigned] at hhigh
        rw [divide_signed hn hhigh hd]
        by_cases hover : x = BitVec.intMin n ∧ d = BitVec.allOnes n
        · rw [if_pos hover, if_pos (.inr ⟨rfl, hover⟩)]
          rfl
        · rw [if_neg hover, if_neg fun h => h.elim hd fun h => hover h.2]
          cases op <;> first | rfl | exact absurd hsigned (by decide)

end Isel
