import Isel.Machine.Step

/-! What the integer operators compute, at any width. Sums, products and bit operations are those of
the machine; a shift takes its count modulo the width; a division rounds toward zero and has no
result where the divisor is zero or the signed quotient does not fit. -/

namespace Isel

variable {n : Nat}

/-- The part of a division that is asked for. There is none for a divisor of zero, nor for the least
signed number divided by minus one. -/
def Division.apply? (op : Division) (x y : BitVec n) : Option (BitVec n) :=
  if y = 0 ∨ (op.isSigned = true ∧ x = BitVec.intMin n ∧ y = BitVec.allOnes n) then none
  else
    match op with
    | .quotientSigned => some (x.sdiv y)
    | .quotientUnsigned => some (x / y)
    | .remainderSigned => some (x.srem y)
    | .remainderUnsigned => some (x % y)

def IntBinary.apply? (op : IntBinary) (x y : BitVec n) : Option (BitVec n) :=
  match op with
  | .arith op => some (op.apply x y)
  | .shift op => some (op.apply x (y.toNat % n))
  | .division op => op.apply? x y

/-- Whether the left operand compares so to the right one. -/
def Comparison.holds (c : Comparison) (x y : BitVec n) : Bool :=
  match c with
  | .eq => x == y
  | .ne => x != y
  | .ltS => x.slt y
  | .ltU => x.ult y
  | .leS => x.sle y
  | .leU => x.ule y
  | .gtS => y.slt x
  | .gtU => y.ult x
  | .geS => y.sle x
  | .geU => y.ule x

/-- The extension of 32 bits to a word. -/
def extend32 (signed : Bool) (x : BitVec 32) : BitVec 64 :=
  if signed then x.signExtend 64 else x.setWidth 64

theorem toInt_extend32_true (x : BitVec 32) : (extend32 true x).toInt = x.toInt :=
  BitVec.toInt_signExtend_of_le (by decide)

theorem toNat_extend32_false (x : BitVec 32) : (extend32 false x).toNat = x.toNat := by
  have hlt := x.isLt
  simp only [extend32, Bool.false_eq_true, if_false, BitVec.toNat_setWidth]
  omega

@[simp] theorem extend32_inj {signed : Bool} {x y : BitVec 32} :
    extend32 signed x = extend32 signed y ↔ x = y := by
  refine ⟨fun h => ?_, fun h => h ▸ rfl⟩
  cases signed with
  | true => exact BitVec.toInt_inj.mp (by simpa only [toInt_extend32_true] using congrArg BitVec.toInt h)
  | false =>
      exact BitVec.eq_of_toNat_eq (by simpa only [toNat_extend32_false] using congrArg BitVec.toNat h)

@[simp] theorem setWidth_extend32 (signed : Bool) (x : BitVec 32) :
    (extend32 signed x).setWidth 32 = x := by
  ext i hi
  have hi64 : i < 64 := by omega
  cases signed <;>
    simp [extend32, BitVec.getElem_signExtend, hi, hi64]

/-- Comparing 32-bit numbers is comparing their extensions, by the sign that the comparison reads
them with. -/
theorem Comparison.holds_extend32 (c : Comparison) (x y : BitVec 32) :
    c.holds (extend32 c.isSigned x) (extend32 c.isSigned y) = c.holds x y := by
  cases c <;>
    simp only [holds, isSigned, BitVec.slt, BitVec.sle, BitVec.ult, BitVec.ule, toInt_extend32_true,
      toNat_extend32_false]
  case eq => exact Bool.eq_iff_iff.mpr (by simp)
  case ne => exact Bool.eq_iff_iff.mpr (by simp)

end Isel
