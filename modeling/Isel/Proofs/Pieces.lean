import Isel.Text.Piece
import Mathlib.Data.List.Infix
import Mathlib.Data.List.TakeWhile

/-! The characters of pieces. What cutting, splitting and trimming leave of a text depends on its
characters alone and not on the byte at which a piece starts. A text that is written line by line, each
line behind some blanks, is read as these lines. -/

namespace Isel.Text

variable {a b cs : List Char} {c : Char}

/-! ### Blanks at the ends -/

/-- Without blanks at either end. -/
def strip (cs : List Char) : List Char := ((cs.reverse.dropWhile isBlank).reverse).dropWhile isBlank

theorem Piece.chars_trim (p : Piece) : p.trim.chars = strip p.chars := rfl

/-- No blank stands first or last. -/
structure Trimmed (cs : List Char) : Prop where
  first : ∀ c ∈ cs.head?, isBlank c = false
  last : ∀ c ∈ cs.getLast?, isBlank c = false

theorem dropWhile_eq_self_of_head? {p : Char → Bool} (h : ∀ c ∈ cs.head?, p c = false) :
    cs.dropWhile p = cs := by
  cases cs with
  | nil => rfl
  | cons c cs => exact List.dropWhile_cons_of_neg (by simp [h c rfl])

theorem head?_dropWhile_not {p : Char → Bool} : ∀ c ∈ (cs.dropWhile p).head?, p c = false := by
  intro c hc
  have hnot := List.head?_dropWhile_not p cs
  rw [Option.mem_def.mp hc] at hnot
  simpa using hnot

theorem trimmed_strip (cs : List Char) : Trimmed (strip cs) where
  first := head?_dropWhile_not
  last c hc := by
    have hsuffix : strip cs <:+ (cs.reverse.dropWhile isBlank).reverse := List.dropWhile_suffix _
    obtain ⟨front, hfront⟩ := hsuffix
    have hlast : ((cs.reverse.dropWhile isBlank).reverse).getLast? = some c := by
      rw [← hfront, List.getLast?_append, Option.mem_def.mp hc]
      rfl
    rw [List.getLast?_reverse] at hlast
    exact head?_dropWhile_not c hlast

/-- Blanks around a text are dropped, and no more. -/
theorem Trimmed.strip_surrounded (h : Trimmed cs) (ha : a.all isBlank = true)
    (hb : b.all isBlank = true) :
    strip (a ++ (cs ++ b)) = cs := by
  rw [List.all_eq_true] at ha hb
  have hdrop : (a ++ (cs ++ b)).reverse.dropWhile isBlank = (a ++ cs).reverse.dropWhile isBlank := by
    rw [← List.append_assoc, List.reverse_append]
    exact List.dropWhile_append_of_pos fun c hc => hb c (List.mem_reverse.mp hc)
  unfold strip
  rw [hdrop]
  rcases List.eq_nil_or_concat cs with rfl | ⟨front, z, rfl⟩
  · have hall : (a ++ []).reverse.dropWhile isBlank = [] :=
      List.dropWhile_eq_nil_iff.mpr fun c hc => ha c (by simpa using hc)
    rw [hall]
    rfl
  · have hz : isBlank z = false := h.last z (by simp)
    have hkeep : (a ++ (front ++ [z])).reverse.dropWhile isBlank = (a ++ (front ++ [z])).reverse :=
      dropWhile_eq_self_of_head? (by simpa using hz)
    rw [List.concat_eq_append, hkeep, List.reverse_reverse, List.dropWhile_append_of_pos ha]
    exact dropWhile_eq_self_of_head? (by simpa using h.first)

theorem Trimmed.strip_eq (h : Trimmed cs) : strip cs = cs := by
  simpa using h.strip_surrounded (a := []) (b := []) rfl rfl

theorem Trimmed.around (ha : Trimmed a) (hb : Trimmed b) (ha' : a ≠ []) (hb' : b ≠ []) (m : List Char) :
    Trimmed (a ++ (m ++ b)) where
  first c hc := by
    rw [List.head?_append_of_ne_nil _ ha'] at hc
    exact ha.first c hc
  last c hc := by
    rw [List.getLast?_append_of_ne_nil _ (by simp [hb']), List.getLast?_append_of_ne_nil _ hb'] at hc
    exact hb.last c hc

theorem Trimmed.of_word (h : ∀ c ∈ cs, isBlank c = false) : Trimmed cs :=
  ⟨fun c hc => h c (List.mem_of_mem_head? hc), fun c hc => h c (List.mem_of_getLast? hc)⟩

theorem Trimmed.of_all (h : cs.all (!isBlank ·) = true) : Trimmed cs :=
  .of_word fun c hc => by simpa using List.all_eq_true.mp h c hc

theorem strip_within (cs : List Char) : strip cs <:+: cs := by
  have hfront : (cs.reverse.dropWhile isBlank).reverse <+: cs := by
    rw [← List.reverse_suffix, List.reverse_reverse]
    exact List.dropWhile_suffix _
  exact (List.dropWhile_suffix _).isInfix.trans hfront.isInfix

/-! ### Separators -/

theorem Piece.chars_splitChars (separator : Char) (start : Nat) (cs : List Char) :
    (splitChars separator start cs).1.chars :: (splitChars separator start cs).2.map Piece.chars
      = cs.splitOn separator := by
  induction cs generalizing start with
  | nil => rfl
  | cons c cs ih =>
      rw [List.splitOn_cons_eq_if_modifyHead, ← ih (start + c.utf8Size), splitChars]
      by_cases hc : c = separator
      · simp [hc]
      · simp [hc]

theorem Piece.chars_split (separator : Char) (p : Piece) :
    (p.split separator).map Piece.chars = p.chars.splitOn separator :=
  chars_splitChars separator p.start p.chars

theorem not_mem_of_mem_splitOn {l : List Char} (h : l ∈ cs.splitOn c) : c ∉ l := by
  induction cs generalizing l with
  | nil => simp_all
  | cons d cs ih =>
      rw [List.splitOn_cons_eq_if_modifyHead] at h
      by_cases hd : d = c
      · rw [if_pos (by simpa using hd)] at h
        rcases List.mem_cons.mp h with rfl | h
        · exact List.not_mem_nil
        · exact ih h
      · rw [if_neg (by simpa using hd)] at h
        obtain ⟨first, rest, hsplit⟩ := List.exists_cons_of_ne_nil (List.splitOn_ne_nil c cs)
        rw [hsplit] at h ih
        rcases List.mem_cons.mp h with rfl | h
        · intro hmem
          rcases List.mem_cons.mp hmem with rfl | hmem
          · exact hd rfl
          · exact ih List.mem_cons_self hmem
        · exact ih (List.mem_cons_of_mem _ h)

theorem Piece.not_mem_of_mem_split {p q : Piece} (h : q ∈ p.split c) : c ∉ q.chars := by
  have hmem : q.chars ∈ p.chars.splitOn c := by
    rw [← chars_split]
    exact List.mem_map_of_mem h
  exact not_mem_of_mem_splitOn hmem

theorem Piece.not_mem_of_mem_parts {p t : Piece} (h : t ∈ (p.split c).map Piece.trim) : c ∉ t.chars := by
  obtain ⟨q, hq, rfl⟩ := List.mem_map.mp h
  exact fun hmem => not_mem_of_mem_split hq ((strip_within _).subset hmem)

/-! ### Lists -/

/-- What can stand between commas. -/
structure IsToken (cs : List Char) : Prop where
  ne_nil : cs ≠ []
  trimmed : Trimmed cs
  within : '\n' ∉ cs
  no_comma : ',' ∉ cs

/-- Tokens with commas between them. -/
def listed (ts : List (List Char)) : List Char := [',', ' '].intercalate ts

theorem listed_cons (t : List Char) {ts : List (List Char)} (h : ts ≠ []) :
    listed (t :: ts) = t ++ ([',', ' '] ++ listed ts) := by
  rw [listed, List.intercalate_cons_of_ne_nil h, List.append_assoc, listed]

/-- A list of tokens is a text within a line, with no blanks around it. -/
theorem listed_spec {ts : List (List Char)} (h : ∀ t ∈ ts, IsToken t) (hne : ts ≠ []) :
    listed ts ≠ [] ∧ Trimmed (listed ts) ∧ '\n' ∉ listed ts := by
  induction ts with
  | nil => exact absurd rfl hne
  | cons t ts ih =>
      obtain ⟨ht, hts⟩ := List.forall_mem_cons.mp h
      by_cases hnil : ts = []
      · rw [hnil, listed, List.intercalate_singleton]
        exact ⟨ht.ne_nil, ht.trimmed, ht.within⟩
      · obtain ⟨hne', htrimmed, hwithin⟩ := ih hts hnil
        rw [listed_cons t hnil]
        refine ⟨by simp [ht.ne_nil], ht.trimmed.around htrimmed ht.ne_nil hne' _, ?_⟩
        simp [ht.within, hwithin]

/-- Tokens are read from a list of them. -/
theorem strip_splitOn_listed {ts : List (List Char)} (h : ∀ t ∈ ts, IsToken t) (hne : ts ≠ [])
    (ha : a.all isBlank = true) (ha' : ',' ∉ a) : ((a ++ listed ts).splitOn ',').map strip = ts := by
  induction ts generalizing a with
  | nil => exact absurd rfl hne
  | cons t ts ih =>
      obtain ⟨ht, hts⟩ := List.forall_mem_cons.mp h
      have hstrip : strip (a ++ t) = t := by
        simpa using ht.trimmed.strip_surrounded (b := []) ha rfl
      have hcomma : ',' ∉ a ++ t := by
        rw [List.mem_append, not_or]
        exact ⟨ha', ht.no_comma⟩
      by_cases hnil : ts = []
      · rw [hnil, listed, List.intercalate_singleton, List.splitOn_eq_singleton hcomma,
          List.map_singleton,
          hstrip]
      · have hrest := ih hts hnil (a := [' ']) (by decide) (by decide)
        rw [listed_cons t hnil, ← List.append_assoc]
        change ((a ++ t ++ ',' :: ([' '] ++ listed ts)).splitOn ',').map strip = t :: ts
        rw [List.splitOn_append_cons_self_of_not_mem hcomma, List.map_cons, hstrip, hrest]

theorem Piece.parts_listed {ts : List (List Char)} (h : ∀ t ∈ ts, IsToken t) (hne : ts ≠ []) {p : Piece}
    (hp : p.chars = a ++ listed ts) (ha : a.all isBlank = true) (ha' : ',' ∉ a) :
    ((p.split ',').map Piece.trim).map Piece.chars = ts := by
  have hchars : Piece.chars ∘ Piece.trim = strip ∘ Piece.chars := rfl
  rw [List.map_map, hchars, ← List.map_map, chars_split, hp]
  exact strip_splitOn_listed h hne ha ha'

/-! ### First occurrences -/

theorem cutChars_append (h : c ∉ a) : Piece.cutChars [c] (a ++ c :: b) = some (a, b) := by
  induction a with
  | nil => simp [Piece.cutChars]
  | cons d a ih =>
      obtain ⟨hd, ha⟩ := not_or.mp (mt List.mem_cons.mpr h)
      simp [Piece.cutChars, hd, ih ha]

/-- A text is put together again from the parts it was cut into. -/
theorem eq_append_of_cutChars {separator : List Char} (h : Piece.cutChars separator cs = some (a, b)) :
    cs = a ++ (separator ++ b) := by
  induction cs generalizing a with
  | nil => exact absurd h (by simp [Piece.cutChars])
  | cons c cs ih =>
      rw [Piece.cutChars] at h
      split at h
      · rename_i hfront
        obtain ⟨rfl, rfl⟩ := Prod.mk.inj (Option.some.inj h)
        obtain ⟨rest, hrest⟩ := List.isPrefixOf_iff_prefix.mp hfront
        rw [List.nil_append, ← hrest, List.drop_left]
      · obtain ⟨⟨before, after⟩, hcut, heq⟩ := Option.map_eq_some_iff.mp h
        obtain ⟨rfl, rfl⟩ := Prod.mk.inj heq
        rw [ih hcut, List.cons_append]

theorem cutChars_tail {separator : List Char} (h : Piece.cutChars separator (c :: cs) = none) :
    Piece.cutChars separator cs = none := by
  rw [Piece.cutChars] at h
  split at h
  · exact absurd h (by simp)
  · exact Option.map_eq_none_iff.mp h

theorem cutChars_front {separator : List Char} (h : Piece.cutChars separator (a ++ b) = none) :
    Piece.cutChars separator a = none := by
  induction a with
  | nil => rfl
  | cons c a ih =>
      have hrest := ih (cutChars_tail h)
      rw [List.cons_append, Piece.cutChars] at h
      rw [Piece.cutChars, hrest]
      split at h
      · exact absurd h (by simp)
      · rename_i hnot
        rw [if_neg, Option.map_none]
        intro hfront
        refine hnot (List.isPrefixOf_iff_prefix.mpr ?_)
        exact (List.isPrefixOf_iff_prefix.mp hfront).trans (List.prefix_append (c :: a) b)

/-- A separator that a text does not hold is in no stretch of it. -/
theorem cutChars_within {separator : List Char} (hwithin : a <:+: b)
    (h : Piece.cutChars separator b = none) : Piece.cutChars separator a = none := by
  obtain ⟨front, back, rfl⟩ := hwithin
  rw [List.append_assoc] at h
  induction front with
  | nil => exact cutChars_front h
  | cons c front ih => exact ih (cutChars_tail h)

/-- A separator of two characters does not reach over another character. -/
theorem cutChars_across {x y z : Char} (h : Piece.cutChars [x, y] a = none) (hx : z ≠ x) (hy : z ≠ y) :
    Piece.cutChars [x, y] (a ++ z :: b)
      = (Piece.cutChars [x, y] b).map fun (before, after) => (a ++ z :: before, after) := by
  induction a with
  | nil => simp [Piece.cutChars, Ne.symm hx]
  | cons c a ih =>
      have hnot : [x, y].isPrefixOf (c :: (a ++ z :: b)) = false := by
        rw [Piece.cutChars] at h
        cases a with
        | nil => simp [List.isPrefixOf, Ne.symm hy]
        | cons d a => simpa [List.isPrefixOf] using fun hc hd => by simp [hc, hd] at h
      rw [List.cons_append, Piece.cutChars, if_neg (by simp [hnot]), ih (cutChars_tail h),
        Option.map_map]
      rfl

theorem Piece.cut?_eq_some {separator : List Char} {p : Piece}
    (h : cutChars separator p.chars = some (a, b)) :
    ∃ q r, p.cut? separator = some (q, r) ∧ q.chars = a ∧ r.chars = b :=
  ⟨_, _, congrArg (Option.map _) h, rfl, rfl⟩

/-- A text is cut at the blank that its first word ends with. -/
theorem Piece.cutBlank?_append {p : Piece} (hp : p.chars = a ++ c :: b)
    (ha : ∀ c ∈ a, isBlank c = false) (hc : isBlank c = true) :
    ∃ q r, p.cutBlank? = some (q, r) ∧ q.chars = a ∧ r.chars = b := by
  have hdrop : p.chars.dropWhile (!isBlank ·) = c :: b := by
    rw [hp, List.dropWhile_append_of_pos (by simpa using ha)]
    exact List.dropWhile_cons_of_neg (by simpa using hc)
  have htake : p.chars.takeWhile (!isBlank ·) = a := by
    rw [hp, List.takeWhile_append_of_pos (by simpa using ha),
      List.takeWhile_cons_of_neg (by simpa using hc),
      List.append_nil]
  unfold cutBlank?
  rw [hdrop]
  exact ⟨_, _, rfl, htake, rfl⟩

theorem Piece.cutBlank?_eq_none {p : Piece} : p.cutBlank? = none ↔ ∀ c ∈ p.chars, isBlank c = false := by
  unfold cutBlank?
  cases hdrop : p.chars.dropWhile (!isBlank ·) with
  | nil => simpa using List.dropWhile_eq_nil_iff.mp hdrop
  | cons c after =>
      have hc := List.head?_dropWhile_not (!isBlank ·) p.chars
      rw [hdrop] at hc
      have hmem : c ∈ p.chars := (List.dropWhile_suffix _).subset (hdrop ▸ List.mem_cons_self)
      simp only [reduceCtorEq, false_iff, not_forall]
      exact ⟨c, hmem, by simpa using hc⟩

theorem Piece.not_isBlank_of_cutBlank? {p q r : Piece} (h : p.cutBlank? = some (q, r)) :
    ∀ c ∈ q.chars, isBlank c = false := by
  unfold cutBlank? at h
  split at h
  · exact absurd h (by simp)
  · obtain ⟨rfl, -⟩ := Prod.mk.injEq .. ▸ Option.some.inj h
    intro c hc
    simpa using List.mem_takeWhile_imp hc

/-! ### Lines -/

theorem Piece.chars_lines (p : Piece) :
    p.lines.map Piece.chars = ((p.chars.splitOn '\n').map strip).filter (!·.isEmpty) := by
  rw [← chars_split, List.map_map, lines, List.filter_map, List.filter_map, List.map_map]
  rfl

theorem Piece.not_mem_of_mem_lines {p q : Piece} (h : q ∈ p.lines) : '\n' ∉ q.chars :=
  not_mem_of_mem_parts (List.mem_filter.mp h).1

/-- A text is written in lines, if blanks around them do not count. -/
inductive Lined : List Char → List (List Char) → Prop
  | nil : Lined [] []
  | cons {raw rest : List Char} {lines : List (List Char)} (h : '\n' ∉ raw) (hrest : Lined rest lines) :
      Lined (raw ++ '\n' :: rest) (strip raw :: lines)

namespace Lined

variable {lines lines' : List (List Char)}

theorem append (h : Lined a lines) (h' : Lined b lines') : Lined (a ++ b) (lines ++ lines') := by
  induction h with
  | nil => exact h'
  | cons hraw _ ih =>
      rw [List.append_assoc, List.cons_append, List.cons_append]
      exact .cons hraw ih

/-- A line behind blanks. -/
theorem line (ha : a.all isBlank = true) (ha' : '\n' ∉ a) (h : Trimmed cs) (hcs : '\n' ∉ cs) :
    Lined (a ++ cs ++ ['\n']) [cs] := by
  have hstrip : strip (a ++ cs) = cs := by
    simpa using h.strip_surrounded (b := []) ha rfl
  have hraw : '\n' ∉ a ++ cs := by
    rw [List.mem_append, not_or]
    exact ⟨ha', hcs⟩
  have hline := Lined.cons hraw .nil
  rwa [hstrip] at hline

/-- What was written in lines is read as these lines. -/
theorem lines_eq (h : Lined cs lines) (hne : ∀ l ∈ lines, l ≠ []) {p : Piece} (hp : p.chars = cs) :
    p.lines.map Piece.chars = lines := by
  rw [Piece.chars_lines, hp]
  clear hp
  induction h with
  | nil => rfl
  | cons hraw _ ih =>
      obtain ⟨hfirst, hrest⟩ := List.forall_mem_cons.mp hne
      rw [List.splitOn_append_cons_self_of_not_mem hraw, List.map_cons,
        List.filter_cons_of_pos (by simpa using hfirst), ih hrest]

end Lined

end Isel.Text
