import Isel.Proofs.Numerals
import Isel.Proofs.Rounding

/-! The values of numerals. A number is written with the digits of a numeral, and the numeral that is read
from them has the same value, so it rounds to the same double. -/

namespace Isel.Decimal

theorem toDigits_mul_pow {c : Nat} (hc : 0 < c) (j : Nat) :
    Nat.toDigits 10 (c * 10 ^ j) = Nat.toDigits 10 c ++ List.replicate j '0' := by
  induction j with
  | zero => simp
  | succ j ih =>
      have hpos : 0 < c * 10 ^ j := Nat.mul_pos hc (Nat.pow_pos (by decide))
      calc Nat.toDigits 10 (c * 10 ^ (j + 1)) = Nat.toDigits 10 (10 * (c * 10 ^ j) + 0) := by
            rw [Nat.pow_succ, Nat.add_zero, ← Nat.mul_assoc, Nat.mul_comm 10]
        _ = Nat.toDigits 10 (c * 10 ^ j) ++ Nat.toDigits 10 0 :=
            (Nat.toDigits_append_toDigits (by decide) hpos (by decide)).symm
        _ = Nat.toDigits 10 c ++ List.replicate (j + 1) '0' := by
            rw [ih, List.append_assoc, List.replicate_succ']
            rfl

theorem ofDigitChars_zeros (k init : Nat) :
    Nat.ofDigitChars 10 (List.replicate k '0') init = init * 10 ^ k := by
  induction k generalizing init with
  | zero => simp
  | succ k ih =>
      rw [List.replicate_succ, Nat.ofDigitChars_cons, ih, Nat.pow_succ', ← Nat.mul_assoc, Nat.sub_self,
        Nat.add_zero, Nat.mul_comm 10]

namespace Numeral

/-- Zeros at the end of the coefficient can be counted by the exponent. -/
theorem ratio_shift (w : FloatWidth) (c j : Nat) (e : Int) :
    Ieee.nearest w (ratio ⟨c * 10 ^ j, e⟩).1 (ratio ⟨c * 10 ^ j, e⟩).2
      = Ieee.nearest w (ratio ⟨c, e + j⟩).1 (ratio ⟨c, e + j⟩).2 := by
  have hpos (k : Nat) : 0 < 10 ^ k := Nat.pow_pos (by decide)
  unfold ratio
  dsimp only
  by_cases he : 0 ≤ e
  · rw [if_pos he, if_pos (by omega), Nat.mul_assoc, ← Nat.pow_add,
      show (e + j).toNat = j + e.toNat by omega]
  · by_cases hj : 0 ≤ e + j
    · rw [if_neg he, if_pos hj, ← Ieee.nearest_mul (hpos (-e).toNat) (c * _) 1, Nat.mul_assoc c,
        ← Nat.pow_add, show (e + j).toNat + (-e).toNat = j by omega, Nat.one_mul]
    · rw [if_neg he, if_neg hj, ← Ieee.nearest_mul (hpos j) c, ← Nat.pow_add,
        show (-(e + j)).toNat + j = (-e).toNat by omega]

theorem nearest_shift (w : FloatWidth) (c j : Nat) (e : Int) :
    nearest w ⟨c * 10 ^ j, e⟩ = nearest w ⟨c, e + j⟩ := by
  rcases Nat.eq_zero_or_pos c with rfl | hc
  · simp [nearest]
  · have hne : c * 10 ^ j ≠ 0 := Nat.mul_ne_zero hc.ne' (Nat.pow_pos (by decide)).ne'
    have hplaces : ((Nat.toDigits 10 (c * 10 ^ j)).length + e : Int)
        = (Nat.toDigits 10 c).length + (e + j) := by
      rw [toDigits_mul_pow hc, List.length_append, List.length_replicate]
      omega
    unfold nearest
    simp only [hplaces, ratio_shift, hne, hc.ne']

end Numeral

/-! ### Numerals as they are written -/

/-- The numeral that is read from digits with a point. -/
def ofParts (whole fraction : List Char) : Numeral :=
  ⟨Nat.ofDigitChars 10 (whole ++ fraction) 0, -(fraction.length : Int)⟩

/-- A text without a sign that is read as a numeral with the value of `d`: the digits of a whole number, or
digits on both sides of a point. -/
inductive Writes (d : Numeral) : List Char → Prop
  | whole {n : Nat} (h : ∀ w, Numeral.nearest w ⟨n, 0⟩ = d.nearest w) : Writes d (Nat.toDigits 10 n)
  | point {whole fraction : List Char} (hne : whole ≠ []) (hwhole : ∀ c ∈ whole, c.isDigit = true)
      (hfraction : ∀ c ∈ fraction, c.isDigit = true)
      (h : ∀ w, (ofParts whole fraction).nearest w = d.nearest w) : Writes d (whole ++ '.' :: fraction)

/-- Digits that only zeros follow were not filled up in front. -/
theorem eq_toDigits_of_padded {c n k : Nat} {whole : List Char} (hn : 0 < n) (hvalue : n * 10 ^ k = c)
    (hall : whole ++ List.replicate k '0'
      = List.replicate (k + 1 - (Nat.toDigits 10 c).length) '0' ++ Nat.toDigits 10 c) :
    whole = Nat.toDigits 10 n := by
  have hdigits : Nat.toDigits 10 c = Nat.toDigits 10 n ++ List.replicate k '0' := by
    rw [← hvalue, toDigits_mul_pow hn]
  have hlong : k + 1 ≤ (Nat.toDigits 10 c).length := by
    have hfirst := List.length_pos_iff.mpr (Nat.toDigits_ne_nil (n := n) (b := 10))
    rw [hdigits, List.length_append, List.length_replicate]
    omega
  rw [Nat.sub_eq_zero_of_le hlong, List.replicate_zero, List.nil_append, hdigits] at hall
  exact List.append_cancel_right hall

theorem writes_withPoint {c : Nat} (hc : 0 < c) (k : Nat) :
    Writes ⟨c, -k⟩ (withPoint (Nat.toDigits 10 c) k) := by
  obtain ⟨whole, fraction, j, hne, hwhole, hfraction, htext, hall, hlength⟩ :=
    withPoint_eq (fun _ => isDigit_of_mem_toDigits (n := c)) k
  -- the zeros that were left out at the end are those by which the exponent grows
  have hvalue : Nat.ofDigitChars 10 (whole ++ fraction) 0 * 10 ^ j = c := by
    calc Nat.ofDigitChars 10 (whole ++ fraction) 0 * 10 ^ j
        = Nat.ofDigitChars 10 (whole ++ (fraction ++ List.replicate j '0')) 0 := by
          rw [← List.append_assoc, Nat.ofDigitChars_append (l := whole ++ fraction), ofDigitChars_zeros]
      _ = Nat.ofDigitChars 10 (Nat.toDigits 10 c) 0 := by
          rw [hall, Nat.ofDigitChars_append, ofDigitChars_zeros, Nat.zero_mul]
      _ = c := Nat.ofDigitChars_ten_toDigits
  rw [htext]
  by_cases hnil : fraction = []
  · subst hnil
    obtain rfl : j = k := by simpa using hlength
    rw [List.append_nil] at hvalue
    rw [List.nil_append] at hall
    generalize Nat.ofDigitChars 10 whole 0 = n at hvalue
    have hn : 0 < n := Nat.pos_of_mul_pos_right (hvalue.symm ▸ hc)
    rw [if_pos rfl, List.append_nil, eq_toDigits_of_padded hn hvalue hall]
    refine .whole fun w => ?_
    rw [← hvalue, Numeral.nearest_shift, Int.add_left_neg]
  · rw [if_neg hnil]
    refine .point hne hwhole hfraction fun w => ?_
    rw [← hvalue, Numeral.nearest_shift, ofParts, ← hlength]
    congr 2
    omega

theorem Numeral.writes_render {d : Numeral} (hd : 0 < d.coefficient) : Writes d d.render := by
  obtain ⟨c, e⟩ := d
  unfold render
  dsimp only
  by_cases he : 0 ≤ e
  · rw [if_pos he, ← toDigits_mul_pow hd]
    refine .whole fun w => ?_
    rw [Numeral.nearest_shift, Int.zero_add, Int.toNat_of_nonneg he]
  · obtain ⟨k, rfl⟩ := Int.exists_eq_neg_ofNat (Int.le_of_not_le he)
    rw [if_neg he, Int.neg_neg, Int.toNat_natCast]
    exact writes_withPoint hd k

/-! ### Reading -/

variable {d : Numeral} {cs : List Char}

/-- The text of a sign. -/
def signText (negative : Bool) : List Char := (if negative = true then "-" else "").toList

theorem Writes.unsigned (h : Writes d cs) : Unsigned cs := by
  cases h with
  | whole _ => exact unsigned_toDigits _
  | point hne hwhole hfraction _ => exact .finite hne hwhole (.point hfraction)

theorem Writes.readNumeral? (h : Writes d cs) (w : FloatWidth) :
    (readNumeral? cs).map (Numeral.nearest w) = some (d.nearest w) := by
  cases h with
  | @whole n h =>
      have hread := readNumeral?_append Nat.toDigits_ne_nil
        (fun _ => isDigit_of_mem_toDigits (n := n)) .nil
      rw [List.append_nil, List.tail_nil, List.append_nil, Nat.ofDigitChars_ten_toDigits] at hread
      rw [hread, Option.map_some, ← h]
      rfl
  | point hne hwhole hfraction h =>
      rw [readNumeral?_append hne hwhole (.point hfraction), Option.map_some, ← h]
      rfl

theorem toLower_of_isDigit {c : Char} (h : c.isDigit = true) : c.toLower = c := by
  have hle : c.toNat ≤ 57 := (Char.isDigit_iff_toNat.mp h).2
  refine dif_neg fun hupper => ?_
  have hge : 65 ≤ c.toNat := hupper.1
  omega

/-- Texts that start with a digit are not words. -/
theorem map_toLower_ne {c : Char} {cs word : List Char} (hc : c.isDigit = true)
    (hword : word.head?.all (!Char.isDigit ·) = true) : (c :: cs).map Char.toLower ≠ word := by
  rintro rfl
  simp [toLower_of_isDigit hc, hc] at hword

theorem Writes.readMagnitude? (h : Writes d cs) (w : FloatWidth) :
    readMagnitude? w cs = some (d.nearest w) := by
  obtain ⟨c, rest, rfl, hc⟩ : ∃ c rest, cs = c :: rest ∧ c.isDigit = true := by
    cases h with
    | @whole n _ =>
        obtain ⟨c, rest, heq⟩ := List.exists_cons_of_ne_nil (Nat.toDigits_ne_nil (n := n) (b := 10))
        exact ⟨c, rest, heq, isDigit_of_mem_toDigits (heq ▸ List.mem_cons_self)⟩
    | @point whole fraction hne hwhole _ _ =>
        obtain ⟨c, rest, rfl⟩ := List.exists_cons_of_ne_nil hne
        exact ⟨c, _, rfl, hwhole c List.mem_cons_self⟩
  unfold Decimal.readMagnitude?
  dsimp only
  rw [if_neg (not_or.mpr ⟨map_toLower_ne hc rfl, map_toLower_ne hc rfl⟩), if_neg (map_toLower_ne hc rfl)]
  exact h.readNumeral? w

theorem Unsigned.takeSign_signText (h : Unsigned cs) (negative : Bool) :
    Decimal.takeSign (signText negative ++ cs) = (negative, cs) := by
  cases negative with
  | false => exact h.takeSign
  | true => rfl

theorem Unsigned.readFloat?_signText (h : Unsigned cs) (w : FloatWidth) (negative : Bool) :
    readFloat? w (signText negative ++ cs)
      = (Decimal.readMagnitude? w cs).map (Ieee.ofMagnitude w negative) := by
  rw [readFloat?, h.takeSign_signText]

/-- The number that is written with a sign. -/
def signed (negative : Bool) (n : Nat) : Int := if negative = true then -n else n

/-- Digits with a sign are read as an integer if it fits a word. -/
theorem readInt?_eq_some {negative : Bool} {n : Nat} {v : BitVec 64} :
    readInt? (signText negative ++ Nat.toDigits 10 n) = some v ↔ v.toInt = signed negative n := by
  have htake : takeDigits (Nat.toDigits 10 n)
      = ((Nat.toDigits 10 n).map fun c => c.toNat - '0'.toNat, []) := by
    have hall := takeDigits_append (b := []) (fun _ => isDigit_of_mem_toDigits (n := n)) (by simp)
    rwa [List.append_nil] at hall
  have hne : (Nat.toDigits 10 n).isEmpty = false := by simp [Nat.toDigits_ne_nil]
  have hlt := BitVec.toInt_lt (x := v)
  have hle := BitVec.le_toInt v
  unfold readInt?
  rw [(unsigned_toDigits n).takeSign_signText]
  dsimp only
  rw [htake]
  dsimp only
  rw [ofDigits_map, Nat.ofDigitChars_ten_toDigits, List.isEmpty_map, hne, if_neg (by simp)]
  have hofInt {z : Int} (hlow : -2 ^ 63 ≤ z) (hhigh : z < 2 ^ 63) :
      BitVec.ofInt 64 z = v ↔ v.toInt = z := by
    rw [← BitVec.toInt_inj, BitVec.toInt_ofInt_eq_self (by decide) hlow hhigh, eq_comm]
  cases negative with
  | true =>
      rw [if_pos rfl, signed, if_pos rfl]
      split
      · rw [Option.some.injEq, hofInt (by omega) (by omega)]
      · simp only [reduceCtorEq, false_iff]
        omega
  | false =>
      rw [if_neg Bool.false_ne_true, signed, if_neg Bool.false_ne_true]
      split
      · rw [Option.some.injEq, ← BitVec.ofInt_natCast, hofInt (by omega) (by omega)]
      · simp only [reduceCtorEq, false_iff]
        omega

theorem readInt?_point {whole fraction : List Char} (hne : whole ≠ [])
    (hwhole : ∀ c ∈ whole, c.isDigit = true) (hfraction : ∀ c ∈ fraction, c.isDigit = true)
    (negative : Bool) : readInt? (signText negative ++ (whole ++ '.' :: fraction)) = none := by
  have hunsigned : Unsigned (whole ++ '.' :: fraction) := .finite hne hwhole (.point hfraction)
  unfold readInt?
  rw [hunsigned.takeSign_signText]
  dsimp only
  rw [takeDigits_append hwhole (Fraction.point hfraction).head?]
  simp

/-! ### Doubles -/

section

variable {x : BitVec FloatWidth.double.bits} (hne : Ieee.magnitude x ≠ 0)
  (hfinite : Ieee.isFinite x = true)

include hne hfinite

/-- All digits of a double are within reach of a numeral, and round to the double. -/
theorem nearest_exact :
    (exact (Ieee.numerator x) (FloatWidth.scale .double)).nearest .double = Ieee.magnitude x := by
  have hpos := Ieee.numerator_pos hne
  have hlt := Ieee.numerator_lt hfinite
  have hrounds := Ieee.nearest_numerator hfinite
  have hscale : 400 < FloatWidth.scale .double := by decide
  have hlow : 10 ^ (FloatWidth.scale .double - 400) ≤ 5 ^ FloatWidth.scale .double := by decide +kernel
  have hhigh : 2 ^ (2 * FloatWidth.scale .double) * 5 ^ FloatWidth.scale .double
      < 10 ^ (FloatWidth.scale .double + 400) := by decide +kernel
  generalize FloatWidth.scale .double = s at *
  generalize Ieee.numerator x = num at *
  have hfive : 0 < 5 ^ s := Nat.pow_pos (by decide)
  have hcoefficient : num * 5 ^ s ≠ 0 := Nat.mul_ne_zero hpos.ne' hfive.ne'
  have hmany : ¬(Nat.toDigits 10 (num * 5 ^ s)).length ≤ s - 400 := by
    rw [Nat.length_toDigits_le_iff (by decide) (by omega), Nat.not_lt]
    exact hlow.trans (Nat.le_mul_of_pos_left _ hpos)
  have hfew : (Nat.toDigits 10 (num * 5 ^ s)).length ≤ s + 400 := by
    rw [Nat.length_toDigits_le_iff (by decide) (by omega)]
    exact (Nat.mul_lt_mul_of_pos_right hlt hfive).trans hhigh
  have hratio : (exact num s).ratio = (num * 5 ^ s, 2 ^ s * 5 ^ s) := by
    rw [exact, Numeral.ratio, if_neg (by dsimp only; omega), Int.neg_neg, Int.toNat_natCast,
      ← Nat.mul_pow]
  unfold Numeral.nearest
  dsimp only
  rw [hratio, Ieee.nearest_mul hfive, hrounds, if_neg, if_neg]
  · dsimp only [exact, Numeral.farthestPlace]
    omega
  · rw [Bool.or_eq_true, decide_eq_true_eq, decide_eq_true_eq]
    dsimp only [exact, Numeral.farthestPlace]
    omega

/-- What is written for a double is read as the double. -/
theorem nearest_shortest : (shortest x).nearest .double = Ieee.magnitude x := by
  unfold shortest
  dsimp only
  generalize hfound : List.findSome? _ _ = found
  cases found with
  | none => exact nearest_exact hne hfinite
  | some d =>
      obtain ⟨n, -, hd⟩ := List.exists_of_findSome?_eq_some hfound
      have hnearest := List.find?_some hd
      exact beq_iff_eq.mp hnearest

theorem writes_shortest : Writes (shortest x) (shortest x).render := by
  refine Numeral.writes_render (Nat.pos_of_ne_zero fun hzero => hne ?_)
  rw [← nearest_shortest hne hfinite, Numeral.nearest, hzero]
  rfl

end

theorem toList_signed (negative : Bool) (s : String) :
    ((if negative = true then "-" else "") ++ s).toList = signText negative ++ s.toList :=
  String.toList_append

/-- What is written for a double is read as the double, and as an integer only if it is a whole number
without a point. -/
theorem renderFloat_spec (x : BitVec FloatWidth.double.bits) :
    (∃ y, readFloat? .double (renderFloat x).toList = some y ∧ Ieee.Alike y x) ∧
    (readInt? (renderFloat x).toList = none ∨
      ∃ n, (renderFloat x).toList = signText (Ieee.isNegative x) ++ Nat.toDigits 10 n ∧
        Numeral.nearest .double ⟨n, 0⟩ = Ieee.magnitude x) := by
  unfold renderFloat
  dsimp only
  by_cases hnan : Ieee.isNaN x = true
  · rw [if_pos hnan]
    exact ⟨⟨_, rfl, .inr ⟨by decide, hnan⟩⟩, .inl (by decide)⟩
  rw [if_neg hnan]
  have hread {cs : List Char} (hunsigned : Unsigned cs)
      (hcs : readMagnitude? .double cs = some (Ieee.magnitude x)) :
      ∃ y, readFloat? .double (signText (Ieee.isNegative x) ++ cs) = some y ∧ Ieee.Alike y x := by
    refine ⟨x, ?_, .inl rfl⟩
    rw [hunsigned.readFloat?_signText, hcs, Option.map_some, Ieee.ofMagnitude_magnitude]
  by_cases hinfinite : Ieee.isInfinite x = true
  · rw [if_pos hinfinite, toList_signed]
    refine ⟨hread .infinite ?_, .inl ?_⟩
    · rw [beq_iff_eq.mp hinfinite]
      rfl
    · cases Ieee.isNegative x <;> decide
  rw [if_neg hinfinite]
  by_cases hzero : Ieee.magnitude x = 0
  · rw [if_pos hzero, toList_signed]
    refine ⟨hread (unsigned_toDigits 0) ?_, .inr ⟨0, rfl, hzero.symm⟩⟩
    rw [hzero]
    rfl
  rw [if_neg hzero, toList_signed, String.toList_ofList]
  have hfinite : Ieee.isFinite x = true := by
    simp only [Ieee.isNaN, Ieee.isInfinite, Ieee.isFinite, decide_eq_true_eq, beq_iff_eq] at *
    omega
  have hwrites := writes_shortest hzero hfinite
  have hnearest := nearest_shortest hzero hfinite
  generalize (shortest x).render = cs at hwrites
  have hmagnitude := hwrites.readMagnitude? .double
  rw [hnearest] at hmagnitude
  refine ⟨hread hwrites.unsigned hmagnitude, ?_⟩
  cases hwrites with
  | @whole n h => exact .inr ⟨n, rfl, (h .double).trans hnearest⟩
  | point hne hwhole hfraction h => exact .inl (readInt?_point hne hwhole hfraction _)

/-- Up to the largest integers nothing is cut off. -/
theorem nearest_whole {n : Nat} (hn : n ≤ 2 ^ 63) :
    Numeral.nearest .double ⟨n, 0⟩ = Ieee.nearest .double n 1 := by
  have hfew : (Nat.toDigits 10 n).length ≤ 19 := by
    rw [Nat.length_toDigits_le_iff (by decide) (by decide)]
    omega
  unfold Numeral.nearest
  dsimp only
  by_cases hzero : n = 0
  · subst hzero
    exact (Ieee.nearest_zero .double).symm
  · rw [if_neg, if_neg]
    · simp [Numeral.ratio]
    · dsimp only [Numeral.farthestPlace]
      omega
    · rw [Bool.or_eq_true, decide_eq_true_eq, decide_eq_true_eq]
      dsimp only [Numeral.farthestPlace]
      omega

theorem toList_renderInt (v : BitVec 64) :
    (renderInt v).toList = signText v.msb ++ Nat.toDigits 10 v.toInt.natAbs := by
  rw [renderInt, BitVec.msb_eq_toInt]
  split
  · next h =>
      rw [decide_eq_true h]
      exact (toList_signed true _).trans (congrArg _ String.toList_ofList)
  · next h =>
      rw [decide_eq_false h]
      exact String.toList_ofList

/-- Integers are read as they were written. -/
theorem readInt?_renderInt (v : BitVec 64) : readInt? (renderInt v).toList = some v := by
  rw [toList_renderInt, readInt?_eq_some, signed, BitVec.msb_eq_toInt]
  split <;> simp only [decide_eq_true_eq] at * <;> omega

end Isel.Decimal
