import Isel.Machine.State

/-! Numbers and the bytes that they are kept in. -/

namespace Isel

theorem littleEndian_lt (bs : List Byte) : littleEndian bs < 2 ^ (8 * bs.length) := by
  induction bs with
  | nil => exact Nat.one_pos
  | cons b bs ih =>
      have hb : b.toNat < 256 := b.isLt
      rw [littleEndian, List.length_cons, Nat.mul_succ, Nat.pow_add]
      omega

@[simp] theorem length_bytesOf (n v : Nat) : (bytesOf n v).length = n := by
  induction n generalizing v with
  | zero => rfl
  | succ n ih => rw [bytesOf, List.length_cons, ih]

/-- The low bytes of a number depend on its low bits only. -/
theorem bytesOf_mod (n k v : Nat) (h : 8 * n ≤ k) : bytesOf n (v % 2 ^ k) = bytesOf n v := by
  induction n generalizing k v with
  | zero => rfl
  | succ n ih =>
      have hpow : 2 ^ k = 256 * 2 ^ (k - 8) := by
        rw [show (256 : Nat) = 2 ^ 8 from rfl, ← Nat.pow_add]
        congr 1
        omega
      have hlow : BitVec.ofNat 8 (v % 2 ^ k) = BitVec.ofNat 8 v := by
        refine BitVec.eq_of_toNat_eq ?_
        rw [BitVec.toNat_ofNat, BitVec.toNat_ofNat]
        exact Nat.mod_mod_of_dvd v (Nat.pow_dvd_pow 2 (by omega))
      rw [bytesOf, bytesOf, hlow, hpow, Nat.mod_mul_right_div_self, ih (k - 8) (v / 256) (by omega)]

theorem littleEndian_bytesOf (n v : Nat) : littleEndian (bytesOf n v) = v % 2 ^ (8 * n) := by
  induction n generalizing v with
  | zero => exact (Nat.mod_one v).symm
  | succ n ih =>
      have hpow : 2 ^ (8 * (n + 1)) = 256 * 2 ^ (8 * n) := by
        rw [Nat.mul_succ, Nat.pow_add, Nat.mul_comm]
      rw [bytesOf, littleEndian, ih, BitVec.toNat_ofNat, hpow, Nat.mod_mul]

end Isel
