import Isel.Proofs.Decimals
import Isel.Proofs.RoundTrip

/-! What becomes of a literal that is written and read again. A double that is written without a point is
read as an integer. It stands for the same double then, unless it was minus zero, since no integer has a
sign without a magnitude; and it is the same integer, unless the shortest digits of the double are not its
own. -/

namespace Isel

namespace Ieee

open Decimal

/-- The integer part of a double that has no other part. -/
theorem toInt_of_numerator {x : BitVec FloatWidth.double.bits} {n : Nat} (hfinite : isFinite x = true)
    (hn : numerator x = n * 2 ^ FloatWidth.scale .double) (hlt : n < 2 ^ 63) :
    (Ieee.toInt x).toInt = signed (isNegative x) n := by
  have hnan : ¬isNaN x = true := by
    simp only [isNaN, isFinite, decide_eq_true_eq] at *
    omega
  unfold Ieee.toInt
  dsimp only
  rw [if_neg hnan, if_pos hfinite, hn, Nat.mul_div_cancel _ (Nat.two_pow_pos _), signed]
  split
  · rw [show Nat.min n (2 ^ 63) = n from Nat.min_eq_left (by omega),
      BitVec.toInt_ofInt_eq_self (by decide) (by omega) (by omega)]
  · rw [show Nat.min n (2 ^ 63 - 1) = n from Nat.min_eq_left (by omega), ← BitVec.ofInt_natCast,
      BitVec.toInt_ofInt_eq_self (by decide) (by omega) (by omega)]

theorem Alike.toInt_eq {x y : BitVec FloatWidth.double.bits} (h : Alike y x) :
    Ieee.toInt y = Ieee.toInt x := by
  rcases h with rfl | ⟨hy, hx⟩
  · rfl
  · exact (if_pos hy).trans (if_pos hx).symm

end Ieee

namespace Literal

open Decimal

/-- What is read from the text of a literal. -/
inductive Reread : Literal → Literal → Prop
  | int (v : BitVec 64) : Reread (int v) (int v)
  | double {x y : BitVec FloatWidth.double.bits} (alike : Ieee.Alike y x) : Reread (float x) (float y)
  | whole {x : BitVec FloatWidth.double.bits} {v : BitVec 64}
      (text : (renderFloat x).toList = signText (Ieee.isNegative x) ++ Nat.toDigits 10 v.toInt.natAbs)
      (value : v.toInt = signed (Ieee.isNegative x) v.toInt.natAbs)
      (nearest : Ieee.nearest .double v.toInt.natAbs 1 = Ieee.magnitude x) : Reread (float x) (int v)

theorem natAbs_signed (negative : Bool) (n : Nat) : (signed negative n).natAbs = n := by
  cases negative with
  | false => exact Int.natAbs_natCast n
  | true => exact (Int.natAbs_neg _).trans (Int.natAbs_natCast n)

theorem natAbs_toInt_le (v : BitVec 64) : v.toInt.natAbs ≤ 2 ^ 63 := by
  have hlt := BitVec.toInt_lt (x := v)
  have hle := BitVec.le_toInt v
  omega

theorem reread_int (v : BitVec 64) : (int v).reread = int v := by
  rw [reread, read?, render, readInt?_renderInt]
  rfl

theorem reread_spec (l : Literal) : Reread l l.reread := by
  cases l with
  | int v =>
      rw [reread_int]
      exact .int v
  | float x =>
      have hreread : (float x).reread = (read? (renderFloat x).toList).getD (float x) := rfl
      rw [hreread, read?]
      obtain ⟨⟨y, hy, halike⟩, hcases⟩ := renderFloat_spec x
      cases hread : readInt? (renderFloat x).toList with
      | none =>
          rw [hy]
          exact .double halike
      | some v =>
          obtain hnone | ⟨n, htext, hnearest⟩ := hcases
          · exact absurd (hnone.symm.trans hread) (by simp)
          · have hvalue := readInt?_eq_some.mp (htext ▸ hread)
            have habs : v.toInt.natAbs = n := by rw [hvalue, natAbs_signed]
            refine .whole (habs.symm ▸ htext) (habs.symm ▸ hvalue) ?_
            rw [← nearest_whole (natAbs_toInt_le v), habs, hnearest]

/-- The double zero with a sign. -/
def negativeZero : Literal := float (Ieee.ofMagnitude .double true 0)

/-- A literal that is written as another integer than it stands for. -/
def Misspelt (l : Literal) : Prop := ∃ v, l.render = renderInt v ∧ v ≠ l.toInt

/-- A double from `2 ^ 53` up to `2 ^ 63`. There are more integers of this size than doubles, and its
shortest digits may be those of another one. -/
def Coarse : Literal → Prop
  | int _ => False
  | float x =>
    let x : BitVec FloatWidth.double.bits := x
    2 ^ 53 * 2 ^ FloatWidth.scale .double ≤ Ieee.numerator x ∧
      Ieee.numerator x < 2 ^ 63 * 2 ^ FloatWidth.scale .double

namespace Reread

variable {l l' : Literal} {x : BitVec FloatWidth.double.bits} {v : BitVec 64}

/-- The sign is kept where there is something to be signed. -/
theorem msb_eq (hx : float x ≠ negativeZero)
    (hvalue : v.toInt = signed (Ieee.isNegative x) v.toInt.natAbs)
    (hnearest : Ieee.nearest .double v.toInt.natAbs 1 = Ieee.magnitude x) : v.msb = Ieee.isNegative x := by
  rw [BitVec.msb_eq_toInt]
  cases hsign : Ieee.isNegative x with
  | false =>
      rw [hsign, signed, if_neg Bool.false_ne_true] at hvalue
      exact decide_eq_false (by omega)
  | true =>
      rw [hsign, signed, if_pos rfl] at hvalue
      refine decide_eq_true (Int.lt_of_not_ge fun hge => hx ?_)
      rw [show v.toInt.natAbs = 0 by omega, Ieee.nearest_zero] at hnearest
      rw [negativeZero, ← hsign, hnearest, Ieee.ofMagnitude_magnitude]

/-- The text stays the same. -/
theorem render_eq (h : Reread l l') (hl : l ≠ negativeZero) : l'.render = l.render := by
  cases h with
  | int v => rfl
  | @double x y halike =>
      rcases halike with rfl | ⟨hy, hx⟩
      · rfl
      · exact (if_pos hy).trans (if_pos hx).symm
  | @whole x v htext hvalue hnearest =>
      refine String.toList_inj.mp ?_
      change (renderInt v).toList = (renderFloat x).toList
      rw [toList_renderInt, msb_eq hl hvalue hnearest, htext]

/-- The literal stands for the same double. -/
theorem toFloat_alike (h : Reread l l') (hl : l ≠ negativeZero) :
    Ieee.Alike (w := .double) l'.toFloat l.toFloat := by
  cases h with
  | int v => exact .inl rfl
  | double halike => exact halike
  | @whole x v htext hvalue hnearest =>
      refine .inl ?_
      calc Ieee.ofMagnitude .double v.msb (Ieee.nearest .double v.toInt.natAbs 1)
          = Ieee.ofMagnitude .double (Ieee.isNegative x) (Ieee.magnitude x) := by
            rw [msb_eq hl hvalue hnearest, hnearest]
        _ = x := Ieee.ofMagnitude_magnitude x

/-- The shortest digits of `2 ^ 63` are those of a number that fits no word. -/
theorem renderFloat_two_pow (negative : Bool) :
    (renderFloat (Ieee.ofMagnitude .double negative (Ieee.powerOfTwo .double 63))).toList
      = signText negative ++ Nat.toDigits 10 9223372036854776000 := by
  cases negative <;> decide +kernel

theorem magnitude_ne (htext : (renderFloat x).toList
      = signText (Ieee.isNegative x) ++ Nat.toDigits 10 v.toInt.natAbs) :
    Ieee.magnitude x ≠ Ieee.powerOfTwo .double 63 := by
  intro hmagnitude
  have hpower := renderFloat_two_pow (Ieee.isNegative x)
  rw [← hmagnitude, Ieee.ofMagnitude_magnitude, htext] at hpower
  have hdigits := congrArg (Nat.ofDigitChars 10 · 0) (List.append_cancel_left hpower)
  simp only [Nat.ofDigitChars_ten_toDigits] at hdigits
  have hle := natAbs_toInt_le v
  omega

/-- The literal stands for the same integer. -/
theorem toInt_eq (h : Reread l l') (hl : ¬l.Coarse) : l'.toInt = l.toInt := by
  cases h with
  | int v => rfl
  | double halike => exact halike.toInt_eq
  | @whole x v htext hvalue hnearest =>
      have hle := natAbs_toInt_le v
      have hne := magnitude_ne htext
      -- no integer rounds to more than `2 ^ 63`, and that double is not written as one
      have hbound : Ieee.magnitude x ≤ Ieee.powerOfTwo .double 63 := by
        rw [← hnearest]
        rcases Nat.lt_or_eq_of_le hle with hlt | heq
        · exact Ieee.nearest_le_powerOfTwo hlt
        · rw [heq]
          decide +kernel
      have hfinite : Ieee.isFinite x = true := by
        refine decide_eq_true (hbound.trans_lt ?_)
        decide
      have hlarge : ¬2 ^ 63 * 2 ^ FloatWidth.scale .double ≤ Ieee.numerator x := by
        rw [← Ieee.powerOfTwo_le_iff]
        omega
      -- below that a double that is not coarse is small, and the integer is exact
      have hsmall : v.toInt.natAbs < 2 ^ 53 := by
        by_contra hge
        have hpower : Ieee.powerOfTwo .double 53 ≤ Ieee.magnitude x := by
          rw [← hnearest]
          exact Ieee.powerOfTwo_le_nearest (Nat.le_of_not_lt hge) (by decide)
        exact hl ⟨Ieee.powerOfTwo_le_iff.mp hpower, Nat.lt_of_not_le hlarge⟩
      refine BitVec.eq_of_toInt_eq ?_
      have hnumerator := Ieee.numerator_of_nearest hsmall hnearest.symm
      rw [toInt, hvalue]
      exact (Ieee.toInt_of_numerator hfinite hnumerator (by omega)).symm

end Reread

/-- No integer stands for minus zero. -/
theorem reread_negativeZero : negativeZero.reread = int 0 := by decide +kernel

/-- A literal that is read from its text stands for the same double if and only if it is not minus zero. -/
theorem alike_iff (l : Literal) :
    Ieee.Alike (w := .double) l.reread.toFloat l.toFloat ↔ l ≠ negativeZero := by
  constructor
  · rintro h rfl
    rw [reread_negativeZero] at h
    rcases h with h | ⟨h, -⟩
    · have hsame : (int 0).toFloat = negativeZero.toFloat := h
      exact absurd hsame (by decide +kernel)
    · exact absurd h (by decide +kernel)
  · exact l.reread_spec.toFloat_alike

/-- What is written as an integer is read as that integer. -/
theorem reread_of_render {l : Literal} {v : BitVec 64} (h : l.render = renderInt v) : l.reread = int v := by
  rw [reread, h, read?, readInt?_renderInt]
  rfl

/-- Only a coarse double is written as another integer. -/
theorem Misspelt.coarse {l : Literal} (h : l.Misspelt) : l.Coarse := by
  obtain ⟨v, htext, hne⟩ := h
  by_contra hfine
  have hsame := l.reread_spec.toInt_eq hfine
  rw [reread_of_render htext] at hsame
  exact hne hsame

/-- A literal that is read from its text stands for the same integer if and only if it is not written as
another one. -/
theorem toInt_reread_iff (l : Literal) : l.reread.toInt = l.toInt ↔ ¬l.Misspelt := by
  constructor
  · rintro hsame ⟨v, htext, hne⟩
    rw [reread_of_render htext] at hsame
    exact hne hsame
  · intro hspelt
    by_cases hcoarse : l.Coarse
    · have hzero : l ≠ negativeZero := by
        rintro rfl
        exact absurd hcoarse.1 (by decide +kernel)
      have hrender := l.reread_spec.render_eq hzero
      have hreread := l.reread_spec
      generalize l.reread = l' at hrender hreread
      cases hreread with
      | int v => rfl
      | double halike => exact halike.toInt_eq
      | @whole x v htext hvalue hnearest =>
          by_contra hne
          exact hspelt ⟨v, hrender.symm, hne⟩
    · exact l.reread_spec.toInt_eq hcoarse

/-- The text of a literal changes if and only if it is minus zero. -/
theorem render_reread_iff (l : Literal) : l.reread.render = l.render ↔ l ≠ negativeZero := by
  constructor
  · rintro h rfl
    rw [reread_negativeZero] at h
    exact absurd h (by decide +kernel)
  · exact l.reread_spec.render_eq

end Literal

namespace Graph

open Literal Text

variable {g g' : Graph} {id b : Nat} {p : Placed}

/-- One graph is what is read from the text of the other. -/
structure Again (g g' : Graph) : Prop where
  before : g.Legible
  after : g'.Legible
  blocks : g'.blocks = g.blocks
  nodes : g'.nodes = g.nodes.map g.readAgain

theorem again_of_parse {text : String} (hparse : parse text = .ok g) :
    ∃ (s : String) (g' : Graph), g.render? = some s ∧ parse s = .ok g' ∧ g.Again g' := by
  have h := legible_of_parse hparse
  obtain ⟨s, hs, -⟩ := h.render?_eq
  obtain ⟨d, hread, hd⟩ := h.read_render hs
  obtain ⟨g', hgraph, hblocks, hnodes⟩ := h.toGraph_again hd
  have hparse' : parse s = .ok g' := by
    have hboth : Draft.read (Piece.ofString s) >>= Draft.toGraph = .ok g' := by
      rw [hread]
      exact hgraph
    rw [parse, hboth]
  exact ⟨s, g', hs, hparse', h, legible_of_parse hparse', hblocks, hnodes⟩

namespace Again

variable (h : g.Again g')

include h

theorem getElem? (hp : g.nodes[id]? = some p) : g'.nodes[id]? = some (g.readAgain p) := by
  rw [h.nodes, Array.getElem?_map, hp, Option.map_some]

theorem size_eq : g'.nodes.size = g.nodes.size := by rw [h.nodes, Array.size_map]

/-- A node is written for what a block was if both have the same name. -/
theorem controlText_eq (c : Control) : g'.controlText (g.recontrol c) = g.controlText c := by
  cases c with
  | node id => rfl
  | block b =>
      rw [recontrol]
      cases hnamed : g.nodeNamed? (g.nameOf b) with
      | some id => exact congrArg _ (lt_of_nodeNamed? hnamed).2
      | none =>
          rw [controlText, controlText, nameOf, nameOf, blockAt, blockAt, h.blocks]

/-- The operands of a node are written alike if and only if minus zero is not among them. -/
theorem tokens_eq_iff (p : Placed) :
    g'.tokens (g.readAgain p).node = g.tokens p.node ↔ negativeZero ∉ p.node.literals := by
  have hcontrols : (p.node.control.map g.recontrol).map g'.controlText
      = p.node.control.map g.controlText := by
    rw [List.map_map]
    exact List.map_congr_left fun c _ => h.controlText_eq c
  have hliterals : (p.node.literals.map Literal.reread).map (·.render.toList)
      = p.node.literals.map (·.render.toList) ↔ negativeZero ∉ p.node.literals := by
    rw [List.map_map, List.map_inj_left]
    constructor
    · intro hsame hmem
      exact (render_reread_iff _).mp (String.toList_inj.mp (hsame negativeZero hmem)) rfl
    · intro hnot l hl
      have hrender := (render_reread_iff l).mpr fun heq => hnot (heq ▸ hl)
      exact congrArg String.toList hrender
  rw [← hliterals, tokens, tokens]
  change (p.node.control.map g.recontrol).map g'.controlText ++
    (p.node.literals.map Literal.reread).map _ ++ p.node.inputs.map nodeName = _ ↔ _
  rw [hcontrols, List.append_left_inj, List.append_right_inj]

theorem members_eq (b : Nat) : g'.members b = g.members b := by
  have hblock (id : Nat) : g'.blockOf? id = g.blockOf? id := by
    rw [blockOf?, blockOf?, h.nodes, Array.getElem?_map, Option.map_map]
    rfl
  simp only [members, h.size_eq, hblock]

theorem nodeName?_eq (id : Nat) : g'.nodeName? id = g.nodeName? id := by
  have hmembers : g'.members = g.members := funext h.members_eq
  simp only [nodeName?, number?, layout, h.blocks, hmembers]

theorem renderNode?_eq (hzero : ∀ p ∈ g.nodes, negativeZero ∉ p.node.literals) (id : Nat) :
    g'.renderNode? id = g.renderNode? id := by
  cases hp : g.nodes[id]? with
  | none =>
      have hnone : g'.nodes[id]? = none := by rw [h.nodes, Array.getElem?_map, hp, Option.map_none]
      simp only [renderNode?, node?, hp, hnone]
      rfl
  | some p =>
      have hp' := h.getElem? hp
      have hmem := Array.mem_of_getElem? hp
      obtain ⟨ss, hss, htokens⟩ := h.before.operands?_eq hmem
      obtain ⟨ss', hss', htokens'⟩ := h.after.operands?_eq (Array.mem_of_getElem? hp')
      have hsame : ss' = ss := by
        refine List.map_injective_iff.mpr (fun _ _ => String.toList_inj.mp) ?_
        rw [htokens, htokens', (h.tokens_eq_iff p).mpr (hzero p hmem)]
      simp only [renderNode?, node?, hp, hp', Option.map_some, Option.bind_eq_bind, Option.bind_some,
        h.nodeName?_eq, hss, hss', hsame]
      rfl

theorem render?_eq (hzero : ∀ p ∈ g.nodes, negativeZero ∉ p.node.literals) : g'.render? = g.render? := by
  have hnode : g'.renderNode? = g.renderNode? := funext (h.renderNode?_eq hzero)
  have hname : g'.blockName? = g.blockName? := by
    funext b
    simp only [blockName?, block?, h.blocks]
  have hblock : g'.renderBlock? = g.renderBlock? := by
    funext b
    simp only [renderBlock?, block?, h.blocks, h.members_eq, hnode, hname]
  simp only [render?, h.blocks, hblock]

/-- From the text of a graph its operands can be seen. -/
theorem tokens_eq {s : String} (hs : g.render? = some s) (hs' : g'.render? = some s)
    (hp : g.nodes[id]? = some p) : g'.tokens (g.readAgain p).node = g.tokens p.node := by
  obtain ⟨d, hread, hd⟩ := h.before.read_render hs
  obtain ⟨d', hread', hd'⟩ := h.after.read_render hs'
  obtain rfl : d' = d := Except.ok.inj (hread'.symm.trans hread)
  have hentries := congrArg Draft.Outline.entries (hd'.symm.trans hd)
  have hlayout : (List.range g.blocks.size).flatMap g.members = List.range g.nodes.size :=
    h.before.layout_eq
  have hlayout' : (List.range g'.blocks.size).flatMap g'.members = List.range g'.nodes.size :=
    h.after.layout_eq
  rw [outlineTo, outlineTo, hlayout, hlayout', h.size_eq, List.map_inj_left] at hentries
  have hentry := hentries id (List.mem_range.mpr (Array.getElem?_eq_some_iff.mp hp).1)
  have htokens := congrArg Draft.Entry.tokens hentry
  rwa [entry, entry, placedAt_eq hp, placedAt_eq (h.getElem? hp)] at htokens

end Again

/-- Literals survive in the text of a graph, but for two kinds of doubles. What is read from the text of a
literal, whatever it was read from, stands for the same double, all NaNs taken for one, if and only if the
literal is not minus zero; and it stands for the same integer if and only if the literal is not written as
another one, as only a double from `2 ^ 53` up to `2 ^ 63` can be. So a parsed graph that is written, parsed
and written again has the same text if and only if none of its literals is minus zero. -/
theorem literals_survive_text (l : Literal) :
    (∃ l', Literal.read? l.render.toList = some l' ∧
      (Ieee.Alike (w := .double) l'.toFloat l.toFloat ↔ l ≠ negativeZero) ∧
      (l'.toInt = l.toInt ↔ ¬l.Misspelt) ∧ (l.Misspelt → l.Coarse)) ∧
    ∀ (text : String) (g : Graph), parse text = .ok g →
      ∃ (s : String) (g' : Graph) (s' : String), g.render? = some s ∧ parse s = .ok g' ∧
        g'.render? = some s' ∧ (s' = s ↔ ∀ p ∈ g.nodes, negativeZero ∉ p.node.literals) := by
  refine ⟨⟨l.reread, l.read?_render, l.alike_iff, l.toInt_reread_iff, Misspelt.coarse⟩, ?_⟩
  intro text g hparse
  obtain ⟨s, g', hs, hparse', hagain⟩ := again_of_parse hparse
  obtain ⟨s', hs', -⟩ := hagain.after.render?_eq
  refine ⟨s, g', s', hs, hparse', hs', ?_⟩
  constructor
  · rintro rfl p hp
    obtain ⟨id, hid⟩ := Array.mem_iff_getElem?.mp hp
    exact (hagain.tokens_eq_iff p).mp (hagain.tokens_eq hs hs' hid)
  · intro hzero
    exact Option.some.inj (hs'.symm.trans ((hagain.render?_eq hzero).trans hs))

/-- A text with doubles that are written without a point, and with a block that is named like a node. -/
def wholeDoubles : String :=
  "pipeline \x7b\n i0 \x7b\n v = f64.const 3.0, -2e20, nan\n w = i64.const 7, ^i0, v\n \x7d\n\x7d\n"

theorem literals_survive_text_wholeDoubles :
    (∃ l l', Literal.read? "-3.0".toList = some l ∧ l ≠ negativeZero ∧ ¬l.Coarse ∧
      Literal.read? l.render.toList = some l' ∧ Ieee.Alike (w := .double) l'.toFloat l.toFloat ∧
      l'.toInt = l.toInt ∧ l' ≠ l) ∧
    ∃ (g g' : Graph) (s : String), parse wholeDoubles = .ok g ∧
      (∀ p ∈ g.nodes, negativeZero ∉ p.node.literals) ∧ g.render? = some s ∧ parse s = .ok g' ∧
      g'.render? = some s := by
  have hread : Literal.read? "-3.0".toList = some (.float (Ieee.ofInt (-3))) := by decide +kernel
  obtain ⟨⟨l', hl', halike, hint, hrange⟩, hgraphs⟩ := literals_survive_text (.float (Ieee.ofInt (-3)))
  constructor
  · have hzero : Literal.float (Ieee.ofInt (-3)) ≠ negativeZero := by decide +kernel
    have hcoarse : ¬(Literal.float (Ieee.ofInt (-3))).Coarse := by
      rintro ⟨hlow, -⟩
      exact absurd hlow (by decide +kernel)
    refine ⟨_, l', hread, hzero, hcoarse, hl', halike.mpr hzero, hint.mpr (hcoarse ∘ hrange), ?_⟩
    rintro rfl
    exact absurd hl' (by decide +kernel)
  · have hclear : (parse wholeDoubles).toOption.map (fun g =>
        g.nodes.toList.all fun p => !p.node.literals.contains negativeZero) = some true := by
      decide +kernel
    cases hparse : parse wholeDoubles with
    | error e =>
        rw [hparse] at hclear
        exact absurd hclear (by simp [Except.toOption])
    | ok g =>
        rw [hparse] at hclear
        have hzero : ∀ p ∈ g.nodes, negativeZero ∉ p.node.literals := by
          intro p hp
          have hall := List.all_eq_true.mp (Option.some.inj hclear) p (Array.mem_toList_iff.mpr hp)
          simpa using hall
        obtain ⟨s, g', s', hs, hparse', hs', hsame⟩ := hgraphs _ g hparse
        rw [hsame.mpr hzero] at hs'
        exact ⟨g, g', s, rfl, hzero, hs, hparse', hs'⟩

/-- Minus zero loses its sign: it is written without a point and read as the integer zero, so that the text
changes from one reading to the next. A double like `2 ^ 62` is read as another integer, since fewer digits
are enough to tell it from other doubles. -/
theorem literals_change_in_text :
    Literal.read? "-0.0".toList = some negativeZero ∧ negativeZero.render = "-0" ∧
    Literal.read? "-0".toList = some (.int 0) ∧ (Literal.int 0).toFloat ≠ negativeZero.toFloat ∧
    (parse "pipeline \x7b\n  b0 \x7b\n    i0 = f64.const -0.0\n  \x7d\n\x7d\n").toOption.bind render?
      = some "pipeline \x7b\n  b0 \x7b\n    i0 = f64.const -0\n  \x7d\n\x7d\n" ∧
    (parse "pipeline \x7b\n  b0 \x7b\n    i0 = f64.const -0\n  \x7d\n\x7d\n").toOption.bind render?
      = some "pipeline \x7b\n  b0 \x7b\n    i0 = f64.const 0\n  \x7d\n\x7d\n" ∧
    ∃ l l', Literal.read? "4611686018427387904.0".toList = some l ∧
      Literal.read? l.render.toList = some l' ∧ l.toInt = 4611686018427387904 ∧
      l'.toInt = 4611686018427388000 := by
  refine ⟨?_, ?_, ?_, ?_, ?_, ?_, .float (Ieee.ofInt 4611686018427387904), .int 4611686018427388000,
    ?_, ?_, ?_, ?_⟩
  all_goals decide +kernel

end Graph

end Isel
