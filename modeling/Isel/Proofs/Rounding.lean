import Isel.Literal
import Mathlib.Order.Nat

/-! Rounding to the nearest floating-point number. A number that has a pattern rounds to it, and the whole
numbers up to one more than the fraction can count round to themselves. -/

namespace Isel

namespace FloatWidth

theorem fractionBits_lt_scale (w : FloatWidth) : w.fractionBits < w.scale := by
  cases w <;> decide

/-- Whole numbers that the fraction can count are far from infinite. -/
theorem scale_mul_le_infinity (w : FloatWidth) : (w.scale + 1) * 2 ^ w.fractionBits ≤ w.infinity := by
  cases w <;> decide

end FloatWidth

namespace Ieee

variable {w : FloatWidth} {x y : BitVec w.bits}

/-! ### Patterns -/

/-- The same number: the same bits, or NaNs both. -/
def Alike (x y : BitVec w.bits) : Prop := x = y ∨ (isNaN x = true ∧ isNaN y = true)

instance (x y : BitVec w.bits) : Decidable (Alike x y) := inferInstanceAs (Decidable (_ ∨ _))

theorem Alike.symm (h : Alike x y) : Alike y x := h.imp Eq.symm And.symm

/-- A pattern is its sign and its magnitude. -/
theorem eq_of_magnitude (hsign : isNegative x = isNegative y) (hmagnitude : magnitude x = magnitude y) :
    x = y := by
  apply BitVec.eq_of_toNat_eq
  have hx := x.isLt
  have hy := y.isLt
  simp only [isNegative, magnitude, BitVec.msb_eq_decide, decide_eq_decide] at hsign hmagnitude
  generalize x.toNat = a, y.toNat = c at *
  cases w <;> simp only [FloatWidth.bits] at hx hy hsign hmagnitude <;> omega

theorem magnitude_lt (x : BitVec w.bits) : magnitude x < 2 ^ (w.bits - 1) :=
  Nat.mod_lt _ (Nat.two_pow_pos _)

theorem toNat_ofMagnitude (negative : Bool) {k : Nat} (hk : k < 2 ^ (w.bits - 1)) :
    (ofMagnitude w negative k).toNat = if negative then 2 ^ (w.bits - 1) + k else k := by
  have hbits : 2 ^ w.bits = 2 * 2 ^ (w.bits - 1) := by cases w <;> rfl
  rw [ofMagnitude, BitVec.toNat_ofNat, Nat.mod_eq_of_lt]
  split <;> omega

theorem magnitude_ofMagnitude (negative : Bool) {k : Nat} (hk : k < 2 ^ (w.bits - 1)) :
    magnitude (ofMagnitude w negative k) = k := by
  rw [magnitude, toNat_ofMagnitude negative hk]
  split
  · rw [Nat.add_mod_left, Nat.mod_eq_of_lt hk]
  · exact Nat.mod_eq_of_lt hk

theorem isNegative_ofMagnitude (negative : Bool) {k : Nat} (hk : k < 2 ^ (w.bits - 1)) :
    isNegative (ofMagnitude w negative k) = negative := by
  rw [isNegative, BitVec.msb_eq_decide, toNat_ofMagnitude negative hk]
  cases negative with
  | false => exact decide_eq_false (Nat.not_le.mpr hk)
  | true => exact decide_eq_true (Nat.le_add_right _ _)

theorem ofMagnitude_magnitude (x : BitVec w.bits) : ofMagnitude w (isNegative x) (magnitude x) = x :=
  eq_of_magnitude (isNegative_ofMagnitude _ (magnitude_lt x)) (magnitude_ofMagnitude _ (magnitude_lt x))

/-! ### Rounding -/

theorem roundHalfEven_mul {k : Nat} (hk : 0 < k) (num den : Nat) :
    roundHalfEven (num * k) (den * k) = roundHalfEven num den := by
  have hbelow : 2 * (num % den * k) < den * k ↔ 2 * (num % den) < den := by
    rw [← Nat.mul_assoc, Nat.mul_lt_mul_right hk]
  have habove : den * k < 2 * (num % den * k) ↔ den < 2 * (num % den) := by
    rw [← Nat.mul_assoc, Nat.mul_lt_mul_right hk]
  unfold roundHalfEven
  simp only [Nat.mul_div_mul_right _ _ hk, Nat.mul_mod_mul_right, hbelow, habove]

theorem roundHalfEven_of_whole (q : Nat) {den : Nat} (hden : 0 < den) :
    roundHalfEven (q * den) den = q := by
  unfold roundHalfEven
  simp only [Nat.mul_div_cancel q hden, Nat.mul_mod_left, Nat.mul_zero, if_pos hden]

/-- Rounding goes down or up by less than one. -/
theorem roundHalfEven_bounds (num den : Nat) :
    num / den ≤ roundHalfEven num den ∧ roundHalfEven num den ≤ num / den + 1 := by
  unfold roundHalfEven
  dsimp only
  split
  · omega
  · split
    · omega
    · split <;> omega

/-- Only the ratio counts. -/
theorem nearest_mul {k : Nat} (hk : 0 < k) (num den : Nat) :
    nearest w (num * k) (den * k) = nearest w num den := by
  have hscaled : num * k * 2 ^ w.scale = num * 2 ^ w.scale * k := Nat.mul_right_comm ..
  unfold nearest
  dsimp only
  rw [hscaled, Nat.mul_div_mul_right _ _ hk, Nat.mul_right_comm den k, roundHalfEven_mul hk]

/-- A number with `fractionBits + 1` digits in the binary system has a pattern. -/
theorem nearest_of_digits {mantissa field : Nat} (hfield : 0 < field)
    (hmantissa : mantissa < 2 ^ (w.fractionBits + 1))
    (hnormal : field = 1 ∨ 2 ^ w.fractionBits ≤ mantissa) :
    nearest w (mantissa * 2 ^ field) (2 ^ w.scale)
      = min ((field - 1) * 2 ^ w.fractionBits + mantissa) w.infinity := by
  have hpos : 0 < 2 ^ w.scale := Nat.two_pow_pos _
  have hlog : max 1 ((mantissa * 2 ^ field).log2 - w.fractionBits) = field := by
    rcases hnormal with rfl | hnormal
    · have hlt : mantissa * 2 ^ 1 < 2 ^ (w.fractionBits + 2) := by
        rw [Nat.pow_succ 2 (w.fractionBits + 1)]
        omega
      rcases Nat.eq_zero_or_pos mantissa with rfl | hne
      · simp
      · have := (Nat.log2_lt (by omega)).mpr hlt
        omega
    · have hne : mantissa * 2 ^ field ≠ 0 :=
        Nat.mul_ne_zero (Nat.ne_of_gt ((Nat.two_pow_pos _).trans_le hnormal)) (Nat.two_pow_pos _).ne'
      have heq : (mantissa * 2 ^ field).log2 = w.fractionBits + field := by
        rw [Nat.log2_eq_iff hne, Nat.pow_add, Nat.add_right_comm, Nat.pow_add 2 (w.fractionBits + 1)]
        exact ⟨Nat.mul_le_mul_right _ hnormal, Nat.mul_lt_mul_of_pos_right hmantissa (Nat.two_pow_pos _)⟩
      omega
  unfold nearest
  dsimp only
  rw [Nat.mul_div_cancel _ hpos, hlog, Nat.mul_comm (2 ^ w.scale), Nat.mul_assoc,
    roundHalfEven_of_whole _ (Nat.mul_pos (Nat.two_pow_pos _) hpos)]

/-- The absolute value of a finite number rounds to its pattern. -/
theorem nearest_numerator (h : isFinite x = true) :
    nearest w (numerator x) (2 ^ w.scale) = magnitude x := by
  have hlt : magnitude x < w.infinity := of_decide_eq_true h
  have hpos : 0 < 2 ^ w.fractionBits := Nat.two_pow_pos _
  have hsplit := Nat.div_add_mod (magnitude x) (2 ^ w.fractionBits)
  have hfraction := Nat.mod_lt (magnitude x) hpos
  unfold numerator
  dsimp only
  generalize magnitude x / 2 ^ w.fractionBits = field at *
  generalize magnitude x % 2 ^ w.fractionBits = fraction at *
  by_cases hfield : field = 0
  · rw [if_pos hfield, ← Nat.pow_one 2, nearest_of_digits (by omega) ?_ (.inl rfl)]
    · subst hfield
      omega
    · rw [Nat.pow_succ]
      omega
  · rw [if_neg hfield, nearest_of_digits (by omega) ?_ (.inr (by omega))]
    · obtain ⟨k, rfl⟩ := Nat.exists_eq_succ_of_ne_zero hfield
      rw [Nat.mul_comm, Nat.succ_mul] at hsplit
      rw [Nat.succ_sub_one]
      omega
    · rw [Nat.pow_succ]
      omega

theorem numerator_pos (h : magnitude x ≠ 0) : 0 < numerator x := by
  have hsplit := Nat.div_add_mod (magnitude x) (2 ^ w.fractionBits)
  unfold numerator
  dsimp only
  split
  · next hfield =>
      rw [hfield, Nat.mul_zero] at hsplit
      omega
  · exact Nat.mul_pos (Nat.add_pos_left (Nat.two_pow_pos _) _) (Nat.two_pow_pos _)

theorem numerator_lt (h : isFinite x = true) : numerator x < 2 ^ (2 * w.scale) := by
  have hrange : 2 ^ w.exponentBits + w.fractionBits ≤ 2 * w.scale + 1 := by cases w <;> decide
  have hfield : magnitude x / 2 ^ w.fractionBits < 2 ^ w.exponentBits - 1 :=
    Nat.div_lt_of_lt_mul (Nat.mul_comm .. ▸ of_decide_eq_true h)
  have hfraction := Nat.mod_lt (magnitude x) (Nat.two_pow_pos w.fractionBits)
  have hdouble : 2 ^ (w.fractionBits + 1) = 2 * 2 ^ w.fractionBits := Nat.pow_succ'
  unfold numerator
  dsimp only
  generalize magnitude x / 2 ^ w.fractionBits = field at *
  split
  · calc magnitude x % 2 ^ w.fractionBits * 2 < 2 ^ (w.fractionBits + 1) := by omega
      _ ≤ 2 ^ (2 * w.scale) := Nat.pow_le_pow_right (by decide) (by omega)
  · calc (2 ^ w.fractionBits + magnitude x % 2 ^ w.fractionBits) * 2 ^ field
        < 2 ^ (w.fractionBits + 1) * 2 ^ field :=
          Nat.mul_lt_mul_of_pos_right (by omega) (Nat.two_pow_pos _)
      _ = 2 ^ (w.fractionBits + 1 + field) := (Nat.pow_add ..).symm
      _ ≤ 2 ^ (2 * w.scale) := Nat.pow_le_pow_right (by decide) (by omega)

/-! ### Whole numbers -/

theorem numerator_of_digits {mantissa field : Nat} (hfield : 0 < field)
    (hmantissa : mantissa < 2 ^ (w.fractionBits + 1)) (hnormal : 2 ^ w.fractionBits ≤ mantissa)
    (h : magnitude x = (field - 1) * 2 ^ w.fractionBits + mantissa) :
    numerator x = mantissa * 2 ^ field := by
  obtain ⟨k, rfl⟩ := Nat.exists_eq_succ_of_ne_zero (Nat.ne_of_gt hfield)
  obtain ⟨fraction, rfl⟩ := Nat.exists_eq_add_of_le hnormal
  have hfraction : fraction < 2 ^ w.fractionBits := by
    rw [Nat.pow_succ] at hmantissa
    omega
  have hsum : magnitude x = fraction + 2 ^ w.fractionBits * (k + 1) := by
    rw [h, Nat.mul_comm (2 ^ w.fractionBits), Nat.succ_mul, Nat.succ_sub_one]
    omega
  unfold numerator
  dsimp only
  rw [hsum, Nat.add_mul_div_left _ _ (Nat.two_pow_pos _), Nat.div_eq_of_lt hfraction, Nat.zero_add,
    if_neg (Nat.succ_ne_zero k), Nat.add_mul_mod_self_left, Nat.mod_eq_of_lt hfraction]

theorem nearest_zero (w : FloatWidth) : nearest w 0 1 = 0 := by
  rw [← nearest_mul (Nat.two_pow_pos w.scale) 0 1, Nat.one_mul, Nat.zero_mul, ← Nat.zero_mul (2 ^ 1),
    nearest_of_digits Nat.one_pos (Nat.two_pow_pos _) (.inl rfl)]
  simp

/-- A whole number that the fraction can count is its own double. -/
theorem numerator_of_nearest {n : Nat} (hn : n < 2 ^ (w.fractionBits + 1))
    (h : magnitude x = nearest w n 1) : numerator x = n * 2 ^ w.scale := by
  rcases Nat.eq_zero_or_pos n with rfl | hpos
  · rw [nearest_zero] at h
    simp [numerator, h]
  · have hlog : n.log2 ≤ w.fractionBits := Nat.lt_succ_iff.mp ((Nat.log2_lt (by omega)).mpr hn)
    obtain ⟨shift, hshift⟩ := Nat.exists_eq_add_of_le hlog
    have hscale := w.fractionBits_lt_scale
    obtain ⟨field, hfield⟩ := Nat.exists_eq_add_of_le (show shift ≤ w.scale by omega)
    have hnormal : 2 ^ w.fractionBits ≤ n * 2 ^ shift := by
      rw [hshift, Nat.pow_add]
      exact Nat.mul_le_mul_right _ (Nat.log2_self_le (by omega))
    have hmantissa : n * 2 ^ shift < 2 ^ (w.fractionBits + 1) := by
      rw [hshift, Nat.add_right_comm, Nat.pow_add]
      exact Nat.mul_lt_mul_of_pos_right Nat.lt_log2_self (Nat.two_pow_pos _)
    have hvalue : n * 2 ^ w.scale = n * 2 ^ shift * 2 ^ field := by
      rw [hfield, Nat.pow_add, Nat.mul_assoc]
    have hle : (field - 1) * 2 ^ w.fractionBits + n * 2 ^ shift ≤ w.infinity := by
      refine Nat.le_trans ?_ w.scale_mul_le_infinity
      have hfields : (field - 1) * 2 ^ w.fractionBits ≤ (w.scale - 1) * 2 ^ w.fractionBits :=
        Nat.mul_le_mul_right _ (by omega)
      obtain ⟨s, hs⟩ := Nat.exists_eq_add_of_le (show 1 ≤ w.scale by omega)
      rw [Nat.pow_succ] at hmantissa
      rw [hs, Nat.add_sub_cancel_left] at hfields
      rw [hs, Nat.add_mul, Nat.add_mul]
      omega
    rw [← nearest_mul (Nat.two_pow_pos w.scale), Nat.one_mul, hvalue,
      nearest_of_digits (by omega) hmantissa (.inr hnormal), Nat.min_eq_left hle] at h
    rw [numerator_of_digits (by omega) hmantissa hnormal h, hvalue]

/-- The pattern of a power of two that is not below one. -/
def powerOfTwo (w : FloatWidth) (k : Nat) : Nat := (k + w.scale - w.fractionBits) * 2 ^ w.fractionBits

theorem nearest_eq {n : Nat} (hn : n ≠ 0) :
    nearest w n 1 = min ((n.log2 + w.scale - w.fractionBits - 1) * 2 ^ w.fractionBits +
      roundHalfEven (n * 2 ^ w.scale) (2 ^ (n.log2 + w.scale - w.fractionBits))) w.infinity := by
  have hscale := w.fractionBits_lt_scale
  have hlog : (n * 2 ^ w.scale).log2 = n.log2 + w.scale := by
    rw [Nat.log2_eq_iff (Nat.mul_ne_zero hn (Nat.two_pow_pos _).ne'), Nat.pow_add, Nat.add_right_comm,
      Nat.pow_add]
    exact ⟨Nat.mul_le_mul_right _ (Nat.log2_self_le hn),
      Nat.mul_lt_mul_of_pos_right Nat.lt_log2_self (Nat.two_pow_pos _)⟩
  unfold nearest
  dsimp only
  rw [Nat.div_one, hlog, Nat.max_eq_right (by omega), Nat.one_mul]

/-- Between two powers of two numbers round to patterns between theirs. -/
theorem powerOfTwo_le_nearest {n k : Nat} (h : 2 ^ k ≤ n) (hk : powerOfTwo w k ≤ w.infinity) :
    powerOfTwo w k ≤ nearest w n 1 := by
  have hn : n ≠ 0 := Nat.ne_of_gt ((Nat.two_pow_pos k).trans_le h)
  have hlog : k ≤ n.log2 := (Nat.le_log2 hn).mpr h
  have hscale := w.fractionBits_lt_scale
  rw [nearest_eq hn]
  refine Nat.le_min.mpr ⟨?_, hk⟩
  obtain ⟨field, hfield⟩ : ∃ field, n.log2 + w.scale - w.fractionBits = field + 1 :=
    ⟨n.log2 + w.scale - w.fractionBits - 1, by omega⟩
  have hquotient : 2 ^ w.fractionBits ≤ n * 2 ^ w.scale / 2 ^ (field + 1) := by
    rw [Nat.le_div_iff_mul_le (Nat.two_pow_pos _), ← Nat.pow_add,
      show w.fractionBits + (field + 1) = n.log2 + w.scale by omega, Nat.pow_add]
    exact Nat.mul_le_mul_right _ (Nat.log2_self_le hn)
  have hround := (roundHalfEven_bounds (n * 2 ^ w.scale) (2 ^ (field + 1))).1
  have hfields : powerOfTwo w k ≤ (field + 1) * 2 ^ w.fractionBits := Nat.mul_le_mul_right _ (by omega)
  rw [hfield, Nat.add_sub_cancel]
  rw [Nat.add_mul] at hfields
  omega

theorem nearest_le_powerOfTwo {n k : Nat} (h : n < 2 ^ k) : nearest w n 1 ≤ powerOfTwo w k := by
  rcases Nat.eq_zero_or_pos n with rfl | hpos
  · rw [nearest_zero]
    exact Nat.zero_le _
  · have hn : n ≠ 0 := Nat.ne_of_gt hpos
    have hlog : n.log2 < k := (Nat.log2_lt hn).mpr h
    have hscale := w.fractionBits_lt_scale
    rw [nearest_eq hn]
    refine Nat.le_trans (Nat.min_le_left _ _) ?_
    obtain ⟨field, hfield⟩ : ∃ field, n.log2 + w.scale - w.fractionBits = field + 1 :=
      ⟨n.log2 + w.scale - w.fractionBits - 1, by omega⟩
    have hquotient : n * 2 ^ w.scale / 2 ^ (field + 1) < 2 ^ (w.fractionBits + 1) := by
      rw [Nat.div_lt_iff_lt_mul (Nat.two_pow_pos _), ← Nat.pow_add,
        show w.fractionBits + 1 + (field + 1) = n.log2 + 1 + w.scale by omega, Nat.pow_add]
      exact Nat.mul_lt_mul_of_pos_right Nat.lt_log2_self (Nat.two_pow_pos _)
    have hdouble : 2 ^ (w.fractionBits + 1) = 2 * 2 ^ w.fractionBits := Nat.pow_succ'
    have hround := (roundHalfEven_bounds (n * 2 ^ w.scale) (2 ^ (field + 1))).2
    have hfields : (field + 2) * 2 ^ w.fractionBits ≤ powerOfTwo w k := Nat.mul_le_mul_right _ (by omega)
    rw [hfield, Nat.add_sub_cancel]
    rw [Nat.add_mul] at hfields
    omega

/-- Patterns grow with the numbers that they stand for. -/
theorem powerOfTwo_le_iff {k : Nat} :
    powerOfTwo w k ≤ magnitude x ↔ 2 ^ k * 2 ^ w.scale ≤ numerator x := by
  have hscale := w.fractionBits_lt_scale
  have hpos : 0 < 2 ^ w.fractionBits := Nat.two_pow_pos _
  have hfraction := Nat.mod_lt (magnitude x) hpos
  have hdouble : 2 ^ (w.fractionBits + 1) = 2 * 2 ^ w.fractionBits := Nat.pow_succ'
  unfold numerator
  dsimp only
  rw [powerOfTwo, ← Nat.le_div_iff_mul_le hpos, ← Nat.pow_add]
  generalize magnitude x / 2 ^ w.fractionBits = field at *
  generalize magnitude x % 2 ^ w.fractionBits = fraction at *
  constructor
  · intro hle
    rw [if_neg (by omega)]
    calc 2 ^ (k + w.scale) ≤ 2 ^ (w.fractionBits + field) := Nat.pow_le_pow_right (by decide) (by omega)
      _ = 2 ^ w.fractionBits * 2 ^ field := Nat.pow_add ..
      _ ≤ (2 ^ w.fractionBits + fraction) * 2 ^ field := Nat.mul_le_mul_right _ (Nat.le_add_right ..)
  · intro hle
    by_contra hlt
    refine absurd hle (Nat.not_le.mpr ?_)
    split
    · calc fraction * 2 < 2 ^ (w.fractionBits + 1) := by omega
        _ ≤ 2 ^ (k + w.scale) := Nat.pow_le_pow_right (by decide) (by omega)
    · calc (2 ^ w.fractionBits + fraction) * 2 ^ field < 2 ^ (w.fractionBits + 1) * 2 ^ field :=
            Nat.mul_lt_mul_of_pos_right (by omega) (Nat.two_pow_pos _)
        _ = 2 ^ (w.fractionBits + 1 + field) := (Nat.pow_add ..).symm
        _ ≤ 2 ^ (k + w.scale) := Nat.pow_le_pow_right (by decide) (by omega)

end Ieee

end Isel
