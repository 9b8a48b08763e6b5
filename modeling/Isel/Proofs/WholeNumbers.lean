import Isel.Proofs.MachineArithmetic
import Mathlib.Data.Nat.Digits.Defs
import Mathlib.Data.Nat.Size
import Mathlib.NumberTheory.Padics.PadicVal.Basic

/-! The integer operators said with whole numbers, without bits of a fixed width: sums, differences
and products modulo a power of two, shifts as products and quotients, counts of bits by size,
divisibility and digits, and divisions by quotient and remainder of unbounded integers. What the
machine computes on words is the same. -/

namespace Isel

/-- The number of `w` bits to which an integer wraps. -/
def residue (w : Nat) (z : Int) : Nat := (z % 2 ^ w).toNat

/-- The low `w` bits of a number, read with a sign. -/
def signedPart (w a : Nat) : Int := (a : Int).bmod (2 ^ w)

def Arith.onNumbers (op : Arith) (w a b : Nat) : Nat :=
  match op with
  | .add => (a + b) % 2 ^ w
  | .sub => residue w (a - b)
  | .mul => a * b % 2 ^ w
  | .and => (a &&& b) % 2 ^ w
  | .or => (a ||| b) % 2 ^ w
  | .xor => (a ^^^ b) % 2 ^ w

/-- A shift by the count modulo the width. To the right it rounds down. -/
def Shift.onNumbers (op : Shift) (w a count : Nat) : Nat :=
  match op with
  | .left => a * 2 ^ (count % w) % 2 ^ w
  | .rightSigned => residue w (signedPart w a / 2 ^ (count % w))
  | .rightUnsigned => a % 2 ^ w / 2 ^ (count % w)

/-- The counts of a number of at most `w` bits. Of zero all bits are leading and trailing zeros. -/
def BitCount.onNumbers (op : BitCount) (w a : Nat) : Nat :=
  match op with
  | .leading => w - a.size
  | .trailing => if a = 0 then w else padicValNat 2 a
  | .ones => (Nat.digits 2 a).sum

def IntBinary.onNumbers? (op : IntBinary) (w a b : Nat) : Option Nat :=
  match op with
  | .arith op => some (op.onNumbers w a b)
  | .shift op => some (op.onNumbers w a b)
  | .division _ => none

namespace Operator

/-- The value of an integer operator that is neither a division nor a comparison. -/
def onNumbers? : Operator → List Nat → Option Nat
  | target (.int op), a :: b :: _ => op.toBinary.onNumbers? 64 a b
  | intBinary w op, a :: b :: _ => op.onNumbers? w.bits a b
  | bitCount w op, a :: _ => some (op.onNumbers w.bits (a % 2 ^ w.bits))
  | target (.extend32 true), a :: _ => some (residue 64 (signedPart 32 a))
  | target (.extend32 false), a :: _ => some (a % 2 ^ 32)
  | bool (.int w), a :: _ => some (if a % 2 ^ w.bits = 0 then 0 else 1)
  | _, _ => none

/-- Operators whose value is an integer made of integers, without divisions and comparisons. -/
def isIntegral : Operator → Bool
  | target (.int _) | target (.extend32 _) | bitCount _ _ | bool (.int _) => true
  | intBinary _ (.arith _) | intBinary _ (.shift _) => true
  | _ => false

end Operator

variable {n k : Nat}

theorem residue_toInt (x : BitVec n) : residue n x.toInt = x.toNat := by
  have hmod : x.toInt % 2 ^ n = x.toNat := by
    rw [BitVec.toInt_eq_toNat_bmod]
    exact_mod_cast Int.bmod_emod.trans (by exact_mod_cast Nat.mod_eq_of_lt x.isLt)
  rw [residue, hmod, Int.toNat_natCast]

theorem residue_bmod (z : Int) : residue n (z.bmod (2 ^ n)) = residue n z := by
  have hmod : z.bmod (2 ^ n) % 2 ^ n = z % 2 ^ n := by exact_mod_cast Int.bmod_emod
  rw [residue, hmod, residue]

theorem Arith.toNat_apply (op : Arith) (x y : BitVec n) (k : Nat) :
    (op.apply (x.setWidth k) (y.setWidth k)).toNat = op.onNumbers k x.toNat y.toNat := by
  cases op with
  | add => simp [apply, onNumbers]
  | mul => simp [apply, onNumbers, Nat.mul_mod]
  | and => simp [apply, onNumbers, Nat.and_mod_two_pow]
  | or => simp [apply, onNumbers, Nat.or_mod_two_pow]
  | xor => simp [apply, onNumbers, Nat.xor_mod_two_pow]
  | sub =>
      rw [apply, onNumbers, ← residue_toInt, BitVec.toInt_sub, residue_bmod, BitVec.toInt_setWidth,
        BitVec.toInt_setWidth, ← residue_bmod, Int.bmod_sub_bmod, Int.sub_bmod_bmod, residue_bmod]

theorem Shift.toNat_apply (op : Shift) (x : BitVec n) (k count : Nat) :
    (op.apply (x.setWidth k) (count % k)).toNat = op.onNumbers k x.toNat count := by
  cases op with
  | left => simp [apply, onNumbers, Nat.shiftLeft_eq]
  | rightUnsigned => simp [apply, onNumbers, Nat.shiftRight_eq_div_pow]
  | rightSigned =>
      rw [apply, onNumbers, ← residue_toInt, BitVec.toInt_sshiftRight, Int.shiftRight_eq_div_pow,
        BitVec.toInt_setWidth]
      push_cast
      rfl

section Counts

variable {p : Nat → Bool} (x : BitVec n)

/-- A stretch from the start of a range ends where the first element fails. -/
theorem length_takeWhile_range (hk : k ≤ n) (hall : ∀ i < k, p i = true)
    (hstop : k < n → p k = false) : ((List.range n).takeWhile p).length = k := by
  obtain ⟨rest, rfl⟩ := Nat.exists_eq_add_of_le hk
  rw [List.range_add, List.takeWhile_append_of_pos fun i hi => hall i (List.mem_range.mp hi)]
  cases rest with
  | zero => simp
  | succ rest => simp [List.range_succ_eq_map, hstop (by omega)]

/-- A stretch from the end of a range goes down to the last element that fails. -/
theorem length_takeWhile_range_reverse (hk : k ≤ n) (hall : ∀ i, k ≤ i → p i = true)
    (hstop : ∀ j, k = j + 1 → p j = false) :
    ((List.range n).reverse.takeWhile p).length = n - k := by
  obtain ⟨rest, rfl⟩ := Nat.exists_eq_add_of_le hk
  have hrest : ∀ i ∈ ((List.range rest).map (k + ·)).reverse, p i = true := by
    intro i hi
    obtain ⟨j, -, rfl⟩ := List.mem_map.mp (List.mem_reverse.mp hi)
    exact hall _ (Nat.le_add_right k j)
  rw [List.range_add, List.reverse_append, List.takeWhile_append_of_pos hrest]
  cases k with
  | zero => simp
  | succ j => simp [List.range_succ, hstop j rfl]

/-- The highest one of a number stands just below its size. -/
theorem leadingZeros_eq : leadingZeros x = n - x.toNat.size := by
  refine length_takeWhile_range_reverse (Nat.size_le.mpr x.isLt) (fun i hi => ?_) fun j hj => ?_
  · rw [← BitVec.testBit_toNat, Nat.testBit_lt_two_pow (Nat.size_le.mp hi), Bool.not_false]
  · have hlow : 2 ^ j ≤ x.toNat := Nat.lt_size.mp (by omega)
    have hhigh : x.toNat < 2 ^ (j + 1) := hj ▸ Nat.lt_size_self _
    rw [← BitVec.testBit_toNat, Nat.testBit_of_two_pow_le_and_two_pow_add_one_gt hlow hhigh,
      Bool.not_true]

theorem trailingZeros_eq :
    trailingZeros x = if x.toNat = 0 then n else padicValNat 2 x.toNat := by
  split
  · next hzero =>
      refine length_takeWhile_range (Nat.le_refl n) (fun i _ => ?_) fun h => absurd h (by omega)
      rw [← BitVec.testBit_toNat, hzero, Nat.zero_testBit, Bool.not_false]
  · next hne =>
      obtain ⟨c, hc⟩ : 2 ^ padicValNat 2 x.toNat ∣ x.toNat := pow_padicValNat_dvd
      have hodd : c % 2 = 1 := by
        refine Nat.mod_two_ne_zero.mp fun heven => pow_succ_padicValNat_not_dvd hne (p := 2) ?_
        rw [pow_succ]
        exact (Nat.mul_dvd_mul_left _ (Nat.dvd_of_mod_eq_zero heven)).trans (dvd_of_eq hc.symm)
      generalize padicValNat 2 x.toNat = k at hc ⊢
      have hbit (i : Nat) : x.getLsbD i = (decide (k ≤ i) && c.testBit (i - k)) := by
        rw [← BitVec.testBit_toNat, hc, Nat.testBit_two_pow_mul]
      refine length_takeWhile_range ?_ (fun i hi => ?_) fun _ => ?_
      · have hlt : 2 ^ k < 2 ^ n := (Nat.le_of_dvd (by omega) ⟨c, hc⟩).trans_lt x.isLt
        exact ((Nat.pow_lt_pow_iff_right (by decide)).mp hlt).le
      · rw [hbit, decide_eq_false (by omega), Bool.false_and, Bool.not_false]
      · rw [hbit, Nat.sub_self, Nat.testBit_zero, hodd]
        simp

/-- Every digit to base two counts for itself. -/
theorem countP_testBit (a : Nat) (ha : a < 2 ^ n) :
    (List.range n).countP (fun i => a.testBit i) = (Nat.digits 2 a).sum := by
  induction n generalizing a with
  | zero =>
      obtain rfl : a = 0 := by omega
      rfl
  | succ n ih =>
      have hhalf := ih (a / 2) (by omega)
      have hdigits : (Nat.digits 2 a).sum = a % 2 + (Nat.digits 2 (a / 2)).sum := by
        rcases Nat.eq_zero_or_pos a with rfl | hpos
        · rfl
        · rw [Nat.digits_def' (by decide) hpos, List.sum_cons]
      rw [hdigits, ← hhalf, List.range_succ_eq_map, List.countP_cons, List.countP_map]
      have hshift : (fun i => a.testBit i) ∘ Nat.succ = fun i => (a / 2).testBit i := by
        funext i
        exact Nat.testBit_succ a i
      rw [hshift, Nat.testBit_zero, Nat.add_comm]
      rcases Nat.mod_two_eq_zero_or_one a with h | h <;> simp [h]

theorem onesCount_eq : onesCount x = (Nat.digits 2 x.toNat).sum := by
  rw [← countP_testBit x.toNat x.isLt]
  simp only [onesCount, BitVec.testBit_toNat]

theorem BitCount.apply_eq (op : BitCount) : op.apply x = op.onNumbers n x.toNat := by
  cases op with
  | leading => exact leadingZeros_eq x
  | trailing => exact trailingZeros_eq x
  | ones => exact onesCount_eq x

theorem BitCount.apply_le (op : BitCount) : op.apply x ≤ n := by
  cases op with
  | leading => exact (List.takeWhile_sublist _).length_le.trans (by simp)
  | trailing => exact (List.takeWhile_sublist _).length_le.trans (by simp)
  | ones => exact List.countP_le_length.trans (by simp)

end Counts

/-- Quotient and remainder of a division that rounds toward zero. -/
structure Truncates (a b q r : Int) : Prop where
  sum : a = q * b + r
  small : |r| < |b|
  sign : r = 0 ∨ r.sign = a.sign

theorem truncates_tdiv_tmod (a : Int) {b : Int} (hb : b ≠ 0) :
    Truncates a b (a.tdiv b) (a.tmod b) := by
  refine ⟨(Int.tdiv_mul_add_tmod a b).symm, ?_, ?_⟩
  · have hlt : (a.tmod b).natAbs < b.natAbs := by
      rw [Int.natAbs_tmod]
      exact Nat.mod_lt _ (Int.natAbs_pos.mpr hb)
    rw [Int.abs_eq_natAbs, Int.abs_eq_natAbs]
    exact_mod_cast hlt
  · by_cases hdvd : b ∣ a
    · exact .inl (Int.tmod_eq_zero_of_dvd hdvd)
    · exact .inr (by rw [Int.sign_tmod, if_neg hdvd])

namespace Division

variable (op : Division)

/-- The low `w` bits of a number, as a division reads them. -/
def operand (w a : Nat) : Int := if op.isSigned then signedPart w a else (a % 2 ^ w : Nat)

/-- There is no quotient of `w` bits: the divisor is zero, or the quotient is just too large. -/
def Undefined (w : Nat) (a b : Int) : Prop :=
  b = 0 ∨ (op.isSigned = true ∧ a = -2 ^ (w - 1) ∧ b = -1)

variable {op}

theorem operand_signed (h : op.isSigned = true) (x : BitVec n) : op.operand n x.toNat = x.toInt := by
  rw [operand, if_pos h, signedPart, BitVec.toInt_eq_toNat_bmod]

theorem operand_unsigned (h : op.isSigned = false) (x : BitVec n) :
    op.operand n x.toNat = x.toNat := by
  rw [operand, if_neg (by simp [h]), Nat.mod_eq_of_lt x.isLt]

theorem operand_setWidth (op : Division) (x : BitVec n) (k : Nat) :
    op.operand k (x.setWidth k).toNat = op.operand k x.toNat := by
  cases h : op.isSigned with
  | true => rw [operand_signed h, operand, if_pos h, BitVec.toInt_setWidth, signedPart]
  | false => rw [operand_unsigned h, operand, if_neg (by simp [h]), BitVec.toNat_setWidth]

variable {high x d : BitVec n}

theorem operand_eq_zero_iff (op : Division) : op.operand n d.toNat = 0 ↔ d = 0 := by
  cases h : op.isSigned with
  | true =>
      rw [operand_signed h, ← BitVec.toInt_inj, BitVec.ofNat_eq_ofNat, BitVec.toInt_zero]
  | false =>
      rw [operand_unsigned h, ← BitVec.toNat_inj, BitVec.ofNat_eq_ofNat, BitVec.toNat_zero]
      exact Int.natCast_eq_zero

theorem toInt_eq_least_iff (hn : 0 < n) : x.toInt = -2 ^ (n - 1) ↔ x = BitVec.intMin n := by
  have hlt : 2 ^ (n - 1) < 2 ^ n := Nat.pow_lt_pow_right (by decide) (by omega)
  rw [← BitVec.toInt_inj, BitVec.toInt_intMin, Nat.mod_eq_of_lt hlt]
  push_cast
  rfl

theorem toInt_eq_neg_one_iff (hn : 0 < n) : d.toInt = -1 ↔ d = BitVec.allOnes n := by
  rw [← BitVec.toInt_inj, BitVec.toInt_allOnes, if_pos hn]

variable (op) (hn : 0 < n)
  (hhigh : if op.isSigned then high.toInt = if x.msb then -1 else 0 else high = 0)

include hn hhigh

/-- The machine finds no quotient where there is none, if the upper half of the dividend only carries
on the sign. -/
theorem divide_eq_none (hundefined : op.Undefined n (op.operand n x.toNat) (op.operand n d.toNat)) :
    divide op.isSigned high x d = none := by
  by_cases hd : d = 0
  · rw [divide, if_pos hd]
  · obtain hzero | ⟨hsigned, hx, hone⟩ := hundefined
    · exact absurd (op.operand_eq_zero_iff.mp hzero) hd
    · rw [operand_signed hsigned] at hx hone
      rw [hsigned] at hhigh ⊢
      rw [divide_signed hn hhigh hd,
        if_pos ⟨(toInt_eq_least_iff hn).mp hx, (toInt_eq_neg_one_iff hn).mp hone⟩]

theorem divide_eq_some (hdefined : ¬op.Undefined n (op.operand n x.toNat) (op.operand n d.toNat)) :
    divide op.isSigned high x d
      = some (BitVec.ofInt n ((op.operand n x.toNat).tdiv (op.operand n d.toNat)),
          BitVec.ofInt n ((op.operand n x.toNat).tmod (op.operand n d.toNat))) := by
  have hd : d ≠ 0 := fun hd => hdefined (.inl (op.operand_eq_zero_iff.mpr hd))
  cases hsigned : op.isSigned with
  | true =>
      rw [operand_signed hsigned, operand_signed hsigned] at hdefined ⊢
      have hfits : ¬(x = BitVec.intMin n ∧ d = BitVec.allOnes n) := by
        rintro ⟨hx, hone⟩
        exact hdefined (.inr ⟨hsigned, (toInt_eq_least_iff hn).mpr hx,
          (toInt_eq_neg_one_iff hn).mpr hone⟩)
      rw [hsigned] at hhigh
      rw [divide, if_neg hd, if_pos rfl]
      simp only [dividend_eq hhigh, if_pos ((tdiv_fits_iff hn).mpr hfits)]
  | false =>
      have hlt : x.toNat / d.toNat < 2 ^ n := (Nat.div_le_self _ _).trans_lt x.isLt
      rw [hsigned] at hhigh
      obtain rfl : high = 0 := hhigh
      rw [operand_unsigned hsigned, operand_unsigned hsigned, divide, if_neg hd,
        if_neg Bool.false_ne_true, ← Int.ofNat_tdiv, ← Int.ofNat_tmod, BitVec.ofInt_natCast,
        BitVec.ofInt_natCast]
      simp only [BitVec.ofNat_eq_ofNat, BitVec.toNat_zero, Nat.zero_mul, Nat.zero_add, if_pos hlt]

end Division

end Isel
