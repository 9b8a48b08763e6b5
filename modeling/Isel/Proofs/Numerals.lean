import Isel.Literal
import Isel.Proofs.Pieces

/-! The texts of literals. However a literal is written, it is an optional sign and a word or digits with
an optional point, and every such text is read as a literal. Integers are written like the doubles that
have no fraction, so a literal may be read as one of the other kind. -/

namespace Isel

namespace Decimal

open Text

variable {a b cs : List Char} {c : Char}

theorem digit?_of_isDigit (h : c.isDigit = true) : digit? c = some (c.toNat - '0'.toNat) := by
  rw [Char.isDigit, Bool.and_eq_true, decide_eq_true_iff, decide_eq_true_iff] at h
  exact if_pos h

/-- Digits are taken up to the first other character. -/
theorem takeDigits_append (ha : ∀ c ∈ a, c.isDigit = true) (hb : ∀ c ∈ b.head?, digit? c = none) :
    takeDigits (a ++ b) = (a.map fun c => c.toNat - '0'.toNat, b) := by
  induction a with
  | nil =>
      cases b with
      | nil => rfl
      | cons c b => simp [takeDigits, hb c rfl]
  | cons c a ih =>
      obtain ⟨hc, ha⟩ := List.forall_mem_cons.mp ha
      simp [takeDigits, digit?_of_isDigit hc, ih ha]

/-- Digits are read as the number that they stand for. -/
theorem ofDigits_map (a : List Char) :
    ofDigits (a.map fun c => c.toNat - '0'.toNat) = Nat.ofDigitChars 10 a 0 := by
  rw [ofDigits, List.foldl_map]
  rfl

/-- The part from the point on, if there is one. -/
inductive Fraction : List Char → Prop
  | nil : Fraction []
  | point {ds : List Char} (h : ∀ c ∈ ds, c.isDigit = true) : Fraction ('.' :: ds)

/-- How literals are written, but for the sign. -/
inductive Unsigned : List Char → Prop
  | nan : Unsigned ['N', 'a', 'N']
  | infinite : Unsigned ['i', 'n', 'f']
  | finite {whole fraction : List Char} (hne : whole ≠ []) (hwhole : ∀ c ∈ whole, c.isDigit = true)
      (hfraction : Fraction fraction) : Unsigned (whole ++ fraction)

/-- How literals are written. -/
inductive Spelling : List Char → Prop
  | positive {cs : List Char} (h : Unsigned cs) : Spelling cs
  | negative {cs : List Char} (h : Unsigned cs) : Spelling ('-' :: cs)

/-! ### Writing -/

theorem isDigit_of_mem_toDigits {n : Nat} (h : c ∈ Nat.toDigits 10 n) : c.isDigit = true :=
  Nat.isDigit_of_mem_toDigits (by decide) (by decide) h

theorem unsigned_toDigits (n : Nat) : Unsigned (Nat.toDigits 10 n) := by
  have hdigits := Unsigned.finite Nat.toDigits_ne_nil (fun _ => isDigit_of_mem_toDigits (n := n)) .nil
  rwa [List.append_nil] at hdigits

/-- The digits before the point and after it are all there are, but for zeros at either end. -/
theorem withPoint_eq {digits : List Char} (h : ∀ c ∈ digits, c.isDigit = true) (k : Nat) :
    ∃ whole fraction j, whole ≠ [] ∧ (∀ c ∈ whole, c.isDigit = true) ∧
      (∀ c ∈ fraction, c.isDigit = true) ∧
      withPoint digits k = whole ++ (if fraction = [] then [] else '.' :: fraction) ∧
      whole ++ (fraction ++ List.replicate j '0')
        = List.replicate (k + 1 - digits.length) '0' ++ digits ∧ fraction.length + j = k := by
  let padded := List.replicate (k + 1 - digits.length) '0' ++ digits
  let rest := padded.drop (padded.length - k)
  have hlength : k + 1 ≤ padded.length := by
    simp only [padded, List.length_append, List.length_replicate]
    omega
  have hpadded : ∀ c ∈ padded, c.isDigit = true := by
    intro c hc
    rcases List.mem_append.mp hc with hzero | hc
    · rw [(List.mem_replicate.mp hzero).2]
      decide
    · exact h c hc
  have hrest : rest.length = k := by
    simp only [rest, List.length_drop]
    omega
  have hzeros : rest.reverse.takeWhile (· == '0')
      = List.replicate (rest.reverse.takeWhile (· == '0')).length '0' :=
    List.eq_replicate_of_mem fun c hc => by simpa using List.mem_takeWhile_imp hc
  have hsplit : rest = (rest.reverse.dropWhile (· == '0')).reverse ++
      List.replicate (rest.reverse.takeWhile (· == '0')).length '0' := by
    rw [← List.reverse_replicate, ← hzeros, ← List.reverse_append, List.takeWhile_append_dropWhile,
      List.reverse_reverse]
  refine ⟨padded.take (padded.length - k), (rest.reverse.dropWhile (· == '0')).reverse,
    (rest.reverse.takeWhile (· == '0')).length, ?_, ?_, ?_, ?_, ?_, ?_⟩
  · rw [← List.length_pos_iff, List.length_take]
    omega
  · exact fun c hc => hpadded c (List.mem_of_mem_take hc)
  · intro c hc
    have hmem := (List.dropWhile_suffix _).subset (List.mem_reverse.mp hc)
    exact hpadded c (List.mem_of_mem_drop (List.mem_reverse.mp hmem))
  · by_cases hnil : (rest.reverse.dropWhile (· == '0')).reverse = []
    · rw [if_pos hnil, List.append_nil]
      exact if_pos (List.isEmpty_iff.mpr hnil)
    · rw [if_neg hnil]
      exact if_neg (mt List.isEmpty_iff.mp hnil)
  · rw [← hsplit]
    exact List.take_append_drop ..
  · have hlengths := congrArg List.length hsplit
    rw [hrest, List.length_append, List.length_replicate] at hlengths
    exact hlengths.symm

theorem unsigned_withPoint {digits : List Char} (h : ∀ c ∈ digits, c.isDigit = true) (k : Nat) :
    Unsigned (withPoint digits k) := by
  obtain ⟨whole, fraction, j, hne, hwhole, hfraction, htext, -⟩ := withPoint_eq h k
  rw [htext]
  refine .finite hne hwhole ?_
  split
  · exact .nil
  · exact .point hfraction

theorem Numeral.unsigned_render (d : Numeral) : Unsigned d.render := by
  have hdigits : ∀ c ∈ Nat.toDigits 10 d.coefficient, c.isDigit = true :=
    fun _ => isDigit_of_mem_toDigits
  unfold Numeral.render
  split
  · have hall : ∀ c ∈ Nat.toDigits 10 d.coefficient ++ List.replicate d.exponent.toNat '0',
        c.isDigit = true := by
      intro c hc
      rcases List.mem_append.mp hc with hc | hzero
      · exact hdigits c hc
      · rw [(List.mem_replicate.mp hzero).2]
        decide
    have hfinite := Unsigned.finite (by simp [Nat.toDigits_ne_nil]) hall .nil
    rwa [List.append_nil] at hfinite
  · exact unsigned_withPoint hdigits _

theorem Unsigned.signed (h : Unsigned cs) (negative : Bool) :
    Spelling ((if negative = true then "-" else "").toList ++ cs) := by
  cases negative with
  | false => exact .positive h
  | true => exact .negative h

theorem spelling_renderInt (v : BitVec 64) : Spelling (renderInt v).toList := by
  unfold renderInt
  dsimp only
  split
  · rw [String.toList_append, String.toList_ofList, String.toList_ofList]
    exact .negative (unsigned_toDigits _)
  · rw [String.toList_ofList]
    exact .positive (unsigned_toDigits _)

theorem spelling_renderFloat (x : BitVec 64) : Spelling (renderFloat x).toList := by
  unfold renderFloat
  dsimp only
  split
  · exact .positive .nan
  · split
    · rw [String.toList_append]
      exact Unsigned.infinite.signed _
    · split
      · rw [String.toList_append]
        exact (unsigned_toDigits 0).signed _
      · rw [String.toList_append, String.toList_ofList]
        exact (shortest x).unsigned_render.signed _

/-! ### Reading -/

theorem Fraction.head? (h : Fraction cs) : ∀ c ∈ cs.head?, digit? c = none := by
  cases h with
  | nil => simp
  | point _ => simp [digit?]

/-- All digits make up the coefficient, and those after the point lower the exponent. -/
theorem readNumeral?_append {whole fraction : List Char} (hne : whole ≠ [])
    (hwhole : ∀ c ∈ whole, c.isDigit = true) (hfraction : Fraction fraction) :
    readNumeral? (whole ++ fraction)
      = some ⟨Nat.ofDigitChars 10 (whole ++ fraction.tail) 0, -(fraction.tail.length : Int)⟩ := by
  unfold readNumeral?
  rw [takeDigits_append hwhole hfraction.head?, ← ofDigits_map, List.map_append]
  cases hfraction with
  | nil => simp [hne, readExponent?]
  | @point fs hfs =>
      have htake := takeDigits_append (b := []) hfs (by simp)
      rw [List.append_nil] at htake
      simp [hne, htake, readExponent?]

theorem Unsigned.readMagnitude? (h : Unsigned cs) (w : FloatWidth) :
    (readMagnitude? w cs).isSome = true := by
  cases h with
  | nan => rfl
  | infinite => rfl
  | finite hne hwhole hfraction =>
      unfold Decimal.readMagnitude?
      dsimp only
      split
      · rfl
      · split
        · rfl
        · rw [Option.isSome_map, readNumeral?_append hne hwhole hfraction]
          rfl

/-- A text without a sign starts with a letter or a digit. -/
theorem Unsigned.takeSign (h : Unsigned cs) : takeSign cs = (false, cs) := by
  cases h with
  | nan => rfl
  | infinite => rfl
  | @finite whole fraction hne hwhole _ =>
      obtain ⟨c, rest, rfl⟩ := List.exists_cons_of_ne_nil hne
      have hc := hwhole c List.mem_cons_self
      rw [List.cons_append]
      unfold Decimal.takeSign
      split
      · rename_i heq
        rw [(List.cons.inj heq).1] at hc
        exact absurd hc (by decide)
      · rename_i heq
        rw [(List.cons.inj heq).1] at hc
        exact absurd hc (by decide)
      · rfl

theorem Spelling.readFloat? (h : Spelling cs) (w : FloatWidth) : (readFloat? w cs).isSome = true := by
  unfold Decimal.readFloat?
  cases h with
  | positive h =>
      rw [h.takeSign, Option.isSome_map]
      exact h.readMagnitude? w
  | negative h =>
      rw [Decimal.takeSign, Option.isSome_map]
      exact h.readMagnitude? w

/-! ### Characters -/

/-- Characters that literals are written with. -/
def isPlain (c : Char) : Bool := c.isDigit || ['-', '.', 'N', 'a', 'i', 'n', 'f'].contains c

theorem Unsigned.isPlain (h : Unsigned cs) : ∀ c ∈ cs, isPlain c = true := by
  have hdigits {ds : List Char} (hds : ∀ c ∈ ds, c.isDigit = true) :
      ∀ c ∈ ds, Decimal.isPlain c = true :=
    fun c hc => by simp [Decimal.isPlain, hds c hc]
  cases h with
  | nan => exact List.all_eq_true.mp (by decide)
  | infinite => exact List.all_eq_true.mp (by decide)
  | finite _ hwhole hfraction =>
      intro c hc
      rcases List.mem_append.mp hc with hc | hc
      · exact hdigits hwhole c hc
      · cases hfraction with
        | nil => exact absurd hc List.not_mem_nil
        | point hds =>
            rcases List.mem_cons.mp hc with rfl | hc
            · decide
            · exact hdigits hds c hc

theorem Spelling.isPlain (h : Spelling cs) : ∀ c ∈ cs, isPlain c = true := by
  cases h with
  | positive h => exact h.isPlain
  | negative h => exact List.forall_mem_cons.mpr ⟨by decide, h.isPlain⟩

theorem not_isBlank_of_isDigit {c : Char} (h : c.isDigit = true) : isBlank c = false := by
  simp only [Char.isDigit, Bool.and_eq_true, decide_eq_true_eq, ge_iff_le] at h
  obtain ⟨hlow, hhigh⟩ := h
  have hlow : 48 ≤ c.toNat := hlow
  have hhigh : c.toNat ≤ 57 := hhigh
  rw [Bool.eq_false_iff]
  intro hblank
  simp only [isBlank, blankRanges, List.any_cons, List.any_nil, Bool.or_eq_true, Bool.and_eq_true,
    decide_eq_true_eq, Bool.false_eq_true, or_false] at hblank
  omega

/-- The characters of literals are neither blanks nor marks. -/
theorem isPlain_spec {c : Char} (h : isPlain c = true) :
    isBlank c = false ∧ c ≠ '\n' ∧ c ≠ ',' ∧ c ≠ '^' := by
  rcases (Bool.or_eq_true _ _).mp h with hdigit | hmem
  · refine ⟨not_isBlank_of_isDigit hdigit, ?_, ?_, ?_⟩ <;>
      · rintro rfl
        exact absurd hdigit (by decide)
  · simp only [List.contains_eq_mem, decide_eq_true_eq, List.mem_cons, List.not_mem_nil,
      or_false] at hmem
    rcases hmem with rfl | rfl | rfl | rfl | rfl | rfl | rfl <;> decide

theorem isToken_of_isPlain {cs : List Char} (hne : cs ≠ []) (h : ∀ c ∈ cs, isPlain c = true) :
    IsToken cs where
  ne_nil := hne
  trimmed := .of_word fun c hc => (isPlain_spec (h c hc)).1
  within hmem := (isPlain_spec (h _ hmem)).2.1 rfl
  no_comma hmem := (isPlain_spec (h _ hmem)).2.2.1 rfl

theorem Spelling.ne_nil {cs : List Char} (h : Spelling cs) : cs ≠ [] := by
  cases h with
  | negative h => exact List.cons_ne_nil _ _
  | positive h =>
      cases h with
      | nan => exact List.cons_ne_nil _ _
      | infinite => exact List.cons_ne_nil _ _
      | finite hne _ _ => simp [hne]

end Decimal

namespace Literal

open Decimal

theorem spelling_render (l : Literal) : Spelling l.render.toList := by
  cases l with
  | int v => exact spelling_renderInt v
  | float x => exact spelling_renderFloat x

theorem isToken_render (l : Literal) : Text.IsToken l.render.toList :=
  isToken_of_isPlain l.spelling_render.ne_nil l.spelling_render.isPlain

/-- What is read from the text of a literal. -/
def reread (l : Literal) : Literal := (read? l.render.toList).getD l

/-- Every literal can be read from its text. -/
theorem read?_render (l : Literal) : read? l.render.toList = some l.reread := by
  obtain ⟨x, hx⟩ := Option.isSome_iff_exists.mp (l.spelling_render.readFloat? .double)
  have hread : (read? l.render.toList).isSome = true := by
    unfold read?
    cases readInt? l.render.toList with
    | some v => rfl
    | none => exact congrArg Option.isSome (congrArg (Option.map float) hx)
  obtain ⟨l', hl'⟩ := Option.isSome_iff_exists.mp hread
  rw [reread, hl', Option.getD_some]

end Literal

end Isel
