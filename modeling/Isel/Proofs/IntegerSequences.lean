import Isel.Proofs.Accepted
import Isel.Proofs.WholeNumbers

/-! What the instructions of integer nodes leave in the output, in whole numbers, wherever accepted
registers put the operands: the output may be any of the inputs. The operators without a division
always have a value; a division traps exactly where there is no quotient; and a bounds check jumps
exactly if the end of the access, as an unbounded sum, is past the size. -/

namespace Isel

open Machine Emission

theorem toNat_word {w : IntWidth} (v : BitVec w.bits) : (v.setWidth 64).toNat = v.toNat := by
  have hlt : v.toNat < 2 ^ 64 := v.isLt.trans_le (Nat.pow_le_pow_right (by decide) (by cases w <;> decide))
  rw [BitVec.toNat_setWidth, Nat.mod_eq_of_lt hlt]

theorem toNat_word_ofInt (w : IntWidth) (z : Int) :
    ((BitVec.ofInt w.bits z).setWidth 64).toNat = residue w.bits z := by
  rw [toNat_word, BitVec.toNat_ofInt, residue]
  push_cast
  rfl

/-! ### Operators that always have a value -/

namespace Words

theorem binary_total {w : IntWidth} {op : IntBinary} (hop : (Operator.intBinary w op).isIntegral = true)
    (x y : Word) (memory : Array Byte) : ∃ v, binary w op x y memory = .ok v ∧
      op.onNumbers? w.bits x.toNat y.toNat = some v.toNat := by
  cases op with
  | arith op =>
      refine ⟨_, rfl, congrArg some ?_⟩
      rw [toNat_word]
      exact (op.toNat_apply x y w.bits).symm
  | shift op =>
      refine ⟨_, rfl, congrArg some ?_⟩
      rw [toNat_word, Emit.toNat_low_mod]
      exact (op.toNat_apply x w.bits y.toNat).symm
  | division op => exact absurd hop Bool.false_ne_true

theorem toNat_bitCount (w : IntWidth) (op : BitCount) (x : Word) :
    ((BitVec.ofNat w.bits (op.apply (low w x))).setWidth 64).toNat
      = op.onNumbers w.bits (x.toNat % 2 ^ w.bits) := by
  have hlt : op.apply (low w x) < 2 ^ w.bits := (op.apply_le (low w x)).trans_lt Nat.lt_two_pow_self
  rw [toNat_word, BitVec.toNat_ofNat, Nat.mod_eq_of_lt hlt, op.apply_eq, BitVec.toNat_setWidth]

theorem onNumbers?_extend32 (signed : Bool) (x : Word) (rest : List Nat) :
    (Operator.target (.extend32 signed)).onNumbers? (x.toNat :: rest)
      = some (extend32 signed (x.setWidth 32)).toNat := by
  cases signed with
  | true =>
      rw [← residue_toInt (extend32 true _), toInt_extend32_true, BitVec.toInt_setWidth]
      rfl
  | false =>
      rw [toNat_extend32_false, BitVec.toNat_setWidth]
      rfl

theorem toNat_ofBool (w : IntWidth) (x : Word) :
    (ofBool (low w x != 0)).toNat = if x.toNat % 2 ^ w.bits = 0 then 0 else 1 := by
  have hzero : low w x = 0 ↔ x.toNat % 2 ^ w.bits = 0 := by
    rw [← BitVec.toNat_inj, BitVec.toNat_setWidth, BitVec.ofNat_eq_ofNat, BitVec.toNat_zero]
  by_cases h : low w x = 0
  · rw [if_pos (hzero.mp h), h, bne_self_eq_false]
    rfl
  · rw [if_neg fun hmod => h (hzero.mpr hmod), bne_iff_ne.mpr h]
    rfl

/-- The value of an integer operator is the number that the operator gives for its operands. -/
theorem value_integral {L : MemoryLayout} {n : Node} {xs : List Word} {memory : Array Byte}
    (hop : n.op.isIntegral = true) : value L n xs memory = .error .stuck ∨
      ∃ v, value L n xs memory = .ok v ∧ n.op.onNumbers? (xs.map BitVec.toNat) = some v.toNat := by
  obtain ⟨op, control, literals, inputs⟩ := n
  cases op with
  | target op =>
      cases op with
      | int op =>
          rcases xs with _ | ⟨x, _ | ⟨y, xs⟩⟩
          case cons.cons =>
            have htotal : (Operator.intBinary .w64 op.toBinary).isIntegral = true := by cases op <;> rfl
            exact .inr (binary_total htotal x y memory)
          all_goals exact .inl rfl
      | extend32 signed =>
          cases xs with
          | nil => exact .inl rfl
          | cons x xs => exact .inr ⟨_, rfl, onNumbers?_extend32 signed x (xs.map BitVec.toNat)⟩
      | _ => exact absurd hop Bool.false_ne_true
  | intBinary w op =>
      rcases xs with _ | ⟨x, _ | ⟨y, xs⟩⟩
      case cons.cons => exact .inr (binary_total hop x y memory)
      all_goals exact .inl rfl
  | bitCount w op =>
      cases xs with
      | nil => exact .inl rfl
      | cons x xs => exact .inr ⟨_, rfl, congrArg some (toNat_bitCount w op x).symm⟩
  | bool ty =>
      cases ty with
      | float w => exact absurd hop Bool.false_ne_true
      | int w =>
          cases xs with
          | nil => exact .inl rfl
          | cons x xs => exact .inr ⟨_, rfl, congrArg some (toNat_ofBool w x).symm⟩
  | _ => exact absurd hop Bool.false_ne_true

end Words

namespace Operator

variable {op : Operator}

theorem isIntegral_cases (h : op.isIntegral = true) :
    (∃ o, op = .target (.int o)) ∨ (∃ signed, op = .target (.extend32 signed)) ∨
    (∃ w o, op = .intBinary w (.arith o)) ∨ (∃ w o, op = .intBinary w (.shift o)) ∨
    (∃ w o, op = .bitCount w o) ∨ ∃ w, op = .bool (.int w) := by
  unfold isIntegral at h
  split at h <;> simp at h ⊢

theorem onWords_of_isIntegral (h : op.isIntegral = true) : op.onWords = true := by
  rcases isIntegral_cases h with
    ⟨_, rfl⟩ | ⟨_, rfl⟩ | ⟨_, _, rfl⟩ | ⟨_, _, rfl⟩ | ⟨_, _, rfl⟩ | ⟨_, rfl⟩ <;> rfl

theorem isTerminator_of_isIntegral (h : op.isIntegral = true) : op.isTerminator = false := by
  rcases isIntegral_cases h with
    ⟨_, rfl⟩ | ⟨_, rfl⟩ | ⟨_, _, rfl⟩ | ⟨_, _, rfl⟩ | ⟨_, _, rfl⟩ | ⟨_, rfl⟩ <;> rfl

theorem ne_of_isIntegral {op' : Operator} (h : op.isIntegral = true) (h' : op'.isIntegral = false) :
    op ≠ op' := by
  rintro rfl
  exact Bool.false_ne_true (h'.symm.trans h)

end Operator

theorem Site.ready_of_isIntegral {s : Site} (h : s.op.isIntegral = true) : s.Ready := by
  rw [Ready]
  rcases Operator.isIntegral_cases h with
    ⟨_, hop⟩ | ⟨_, hop⟩ | ⟨_, _, hop⟩ | ⟨_, _, hop⟩ | ⟨_, _, hop⟩ | ⟨_, hop⟩ <;> rw [hop] <;> trivial

theorem Site.Computes.of_value {s : Site} {v : Word} {heap : Array Byte}
    {e : Except Trap Flow × Machine} (h : s.Computes (.ok (some v, heap)) e) {out : Gpr}
    (hout : s.output = some (.gpr out)) : e.1 = .ok .next ∧ e.2.gpr out = v ∧ e.2.heap = heap := by
  cases h with
  | value hr =>
      obtain rfl := Option.some.inj (hout.symm.trans hr)
      exact ⟨rfl, rfl, rfl⟩

theorem Site.Computes.not_stuck {s : Site} {e : Except Trap Flow × Machine} :
    ¬s.Computes (.error .stuck) e := by
  intro h
  cases h

/-- The instructions of an integer operator without a division never trap. They leave in the output
the number that the operator gives for the contents of its inputs, in all 64 bits. -/
theorem integral_sequence {n : Node} {d : Descriptor} {x : Assignment} (h : Accepted n d x)
    (hop : n.op.isIntegral = true) (g : Graph) (b : Nat) (block : Block) :
    ∃ out is, x.output = some (.gpr out) ∧ d.family.emit (siteOf g b block n x) = .ok is ∧
      ∀ m, ∃ m', exec is m = (.ok .next, m') ∧
        n.op.onNumbers? (x.inputs.map fun p => (m.word p.2).toNat) = some (m'.gpr out).toNat := by
  have hwords := Operator.onWords_of_isIntegral hop
  have hterm := Operator.isTerminator_of_isIntegral hop
  have hstore (a : TargetStore) : n.op ≠ .target (.store a) := Operator.ne_of_isIntegral hop rfl
  obtain ⟨is, hemit⟩ := h.emits g b block (Site.ready_of_isIntegral hop)
  obtain ⟨out, hout⟩ := h.output_gpr hwords hterm hstore
  refine ⟨out, is, hout, hemit, fun m => ?_⟩
  have hcomputes := h.computes g b block hwords hterm (Operator.ne_of_isIntegral hop rfl) hemit m
  rw [Words.compute_of_value _ (fun a => Operator.ne_of_isIntegral hop rfl) hstore] at hcomputes
  have hinputs : ((siteOf g b block n x).inputs.map m.word).map BitVec.toNat
      = x.inputs.map fun p => (m.word p.2).toNat := by
    simp [siteOf, Function.comp_def]
  rcases Words.value_integral hop with hstuck | ⟨v, hv, hnumber⟩
  · rw [hstuck] at hcomputes
    exact absurd hcomputes Site.Computes.not_stuck
  · rw [hv] at hcomputes
    obtain ⟨hnext, hvalue, -⟩ := hcomputes.of_value hout
    refine ⟨(exec is m).2, Prod.ext hnext rfl, ?_⟩
    rw [hvalue, ← hnumber, hinputs]

/-- A shift whose result goes where its count is, so that it takes a detour. -/
def detouredShift : Node := { op := .intBinary .w32 (.shift .rightSigned), inputs := [0, 1] }

def detouredRegisters : Assignment where
  output := some (.gpr .rcx)
  inputs := [(0, .gpr .rsi), (1, .gpr .rcx)]
  scratches := [.gpr Gpr.scratch]

/-- The count is one more than the width, and the high half of the value is not zero. -/
def detouredMachine : Machine :=
  (Machine.initial.setGpr .rsi 0x7fffffff80000005).setGpr .rcx 33

theorem integral_sequence_detour : ∃ is m',
    Accepted detouredShift ⟨detouredShift.op, .shift, .empty⟩ detouredRegisters ∧
    Family.shift.emit (siteOf .empty 0 ⟨"entry", []⟩ detouredShift detouredRegisters) = .ok is ∧
    is.length = 3 ∧ exec is detouredMachine = (.ok .next, m') ∧
    (m'.gpr .rcx).toNat = 2 ^ 32 - 2 ^ 30 + 2 := by
  have haccepted : Accepted detouredShift ⟨detouredShift.op, .shift, .empty⟩ detouredRegisters :=
    ⟨Registry.x64_get? _, by decide, fun _ => rfl⟩
  obtain ⟨out, is, hout, hemit, hruns⟩ := integral_sequence haccepted rfl .empty 0 ⟨"entry", []⟩
  obtain rfl := Reg.gpr.inj (Option.some.inj hout)
  obtain ⟨m', hexec, hvalue⟩ := hruns detouredMachine
  refine ⟨is, m', haccepted, hemit, ?_, hexec, ?_⟩
  · rw [← Except.ok.inj hemit]
    rfl
  · have hnumber : detouredShift.op.onNumbers? (detouredRegisters.inputs.map fun p =>
        (detouredMachine.word p.2).toNat) = some (2 ^ 32 - 2 ^ 30 + 2) := by decide +kernel
    exact Option.some.inj (hvalue.symm.trans hnumber)

/-! ### Divisions -/

section Division

variable {op : Division} {w : IntWidth} {divisor : Gpr} (m : Machine)

theorem exec_divideBy_undefined (hne : divisor ≠ .rdx)
    (hundefined : op.Undefined w.bits (op.operand w.bits (m.gpr .rax).toNat)
      (op.operand w.bits (m.gpr divisor).toNat)) :
    ∃ m', exec (Emit.divideBy w op.isSigned divisor) m
      = (.error .divideError, m') ∧ m'.gpr .rax = m.gpr .rax := by
  obtain ⟨m', high, hframe, hhigh, hexec⟩ := Emit.exec_divideBy m w op hne
  rw [← op.operand_setWidth (m.gpr .rax), ← op.operand_setWidth (m.gpr divisor)] at hundefined
  rw [op.divide_eq_none (by cases w <;> decide) hhigh hundefined] at hexec
  exact ⟨m', hexec, hframe .rax (by decide)⟩

theorem exec_divideBy_defined (hne : divisor ≠ .rdx) {a b : Int}
    (ha : op.operand w.bits (m.gpr .rax).toNat = a) (hb : op.operand w.bits (m.gpr divisor).toNat = b)
    (hdefined : ¬op.Undefined w.bits a b) :
    ∃ m', exec (Emit.divideBy w op.isSigned divisor) m
      = (.ok .next, m') ∧ (m'.gpr .rax).toNat = residue w.bits (a.tdiv b) ∧
      (m'.gpr .rdx).toNat = residue w.bits (a.tmod b) := by
  obtain ⟨m', high, -, hhigh, hexec⟩ := Emit.exec_divideBy m w op hne
  rw [← op.operand_setWidth] at ha hb
  subst ha hb
  rw [op.divide_eq_some (by cases w <;> decide) hhigh hdefined] at hexec
  refine ⟨_, hexec, ?_, ?_⟩
  · rw [gpr_setGpr_of_ne _ (by decide), gpr_setGpr_self, toNat_word_ofInt]
  · rw [gpr_setGpr_self, toNat_word_ofInt]

/-- Where a division has its operands. -/
theorem Accepted.division {n : Node} {d : Descriptor} {x : Assignment} (h : Accepted n d x)
    (hop : n.op = .intBinary w (.division op)) : ∃ divisor,
      x.output = some (Reg.gpr (if op.isRemainder then .rdx else .rax)) ∧
      (x.inputs.map Prod.snd)[0]? = some (Reg.gpr .rax) ∧
      (x.inputs.map Prod.snd)[1]? = some (Reg.gpr divisor) ∧ divisor ≠ .rdx ∧
      ∀ g b block, d.family.emit (siteOf g b block n x)
        = .ok (Emit.divideBy w op.isSigned divisor) := by
  have hfamily : d.family = .division := by
    have hfamily := h.family
    rw [hop] at hfamily
    cases w <;> exact (Option.some.inj hfamily).symm
  have hconstraint : d.family.constraint n
      = Constraint.division (if op.isRemainder then .rdx else .rax) := by
    simp only [hfamily, Family.constraint, hop, Operator.divisionOutput]
  have hmet := h.met
  have houtput := h.output
  rw [hconstraint] at hmet houtput
  obtain ⟨r, hr⟩ := Option.isSome_iff_exists.mp (houtput rfl)
  have hleft := hmet.fixed_input (d := ⟨.input, 0, .fixed (.gpr .rax)⟩) List.mem_cons_self rfl
  obtain ⟨v, right, hright, hgpr⟩ := hmet.input ⟨.input, 1, .gpr⟩
    (List.mem_cons_of_mem _ (List.mem_singleton_self _))
  obtain ⟨divisor, rfl⟩ := Reg.exists_gpr (Requirement.cls_of_isMetBy hgpr (by decide))
  have hdivisor : (x.inputs.map Prod.snd)[1]? = some (.gpr divisor) := by
    rw [List.getElem?_map, hright]
    rfl
  refine ⟨divisor, hmet.fixed_output rfl hr, hleft, hdivisor, ?_, fun g b block => ?_⟩
  · rintro rfl
    exact hmet.divisor_ne hdivisor
  · have hof : Emit.divisionOf (siteOf g b block n x) = .ok (w, op.isSigned) := by
      rw [Emit.divisionOf, show (siteOf g b block n x).op = _ from hop]
    rw [hfamily]
    exact Emit.whole_eq_ok.mpr (bind_eq_ok.mpr ⟨_, hof,
      bind_eq_ok.mpr ⟨_, Site.inGpr_eq_ok.mpr hdivisor, rfl⟩⟩)

end Division

/-- A division traps exactly where there is no quotient, and the dividend is still in its register
then. Otherwise quotient or remainder of a division toward zero is left in the output, whatever the
upper half of the dividend was. -/
theorem division_sequence {n : Node} {d : Descriptor} {x : Assignment} {w : IntWidth} {op : Division}
    (h : Accepted n d x) (hop : n.op = .intBinary w (.division op)) (g : Graph) (k : Nat)
    (block : Block) :
    ∃ out divisor is, x.output = some (.gpr out) ∧ (x.inputs.map Prod.snd)[0]? = some (.gpr .rax) ∧
      (x.inputs.map Prod.snd)[1]? = some (.gpr divisor) ∧
      d.family.emit (siteOf g k block n x) = .ok is ∧
      ∀ (m : Machine) (a b : Int), a = op.operand w.bits (m.gpr .rax).toNat →
        b = op.operand w.bits (m.gpr divisor).toNat →
        ((exec is m).1 = .error .divideError ↔ op.Undefined w.bits a b) ∧
        (op.Undefined w.bits a b → (exec is m).2.gpr .rax = m.gpr .rax) ∧
        (¬op.Undefined w.bits a b → ∃ m' q r, exec is m = (.ok .next, m') ∧ Truncates a b q r ∧
          (m'.gpr out).toNat = residue w.bits (if op.isRemainder then r else q)) := by
  obtain ⟨divisor, hout, hleft, hright, hne, hemit⟩ := h.division hop
  refine ⟨_, divisor, _, hout, hleft, hright, hemit g k block, ?_⟩
  intro m a b ha hb
  have htraps (hundefined : op.Undefined w.bits a b) := by
    rw [ha, hb] at hundefined
    exact exec_divideBy_undefined m hne hundefined
  have hdivides := exec_divideBy_defined m hne ha.symm hb.symm
  refine ⟨⟨fun htrap => ?_, fun hundefined => ?_⟩, fun hundefined => ?_, fun hdefined => ?_⟩
  · by_contra hdefined
    obtain ⟨m', hexec, -⟩ := hdivides hdefined
    rw [hexec] at htrap
    exact absurd htrap (by simp)
  · obtain ⟨m', hexec, -⟩ := htraps hundefined
    rw [hexec]
  · obtain ⟨m', hexec, hrax⟩ := htraps hundefined
    rw [hexec, hrax]
  · obtain ⟨m', hexec, hq, hr⟩ := hdivides hdefined
    refine ⟨m', a.tdiv b, a.tmod b, hexec, truncates_tdiv_tmod a fun hzero => hdefined (.inl hzero), ?_⟩
    cases hrem : op.isRemainder
    · exact hq
    · exact hr

def signedRemainder : Node := { op := .intBinary .w32 (.division .remainderSigned), inputs := [0, 1] }

def remainderRegisters : Assignment where
  output := some (.gpr .rdx)
  inputs := [(0, .gpr .rax), (1, .gpr .rsi)]
  scratches := []

/-- A dividend with a high half that is not zero, over whatever was in `rdx`. -/
def remainderMachine (a b : Word) : Machine :=
  ((Machine.initial.setGpr .rax (a + 2 ^ 40)).setGpr .rsi b).setGpr .rdx 77

/-- The least number has no remainder by minus one; that of minus seven by two is minus one. -/
theorem division_sequence_remainder : ∃ is m',
    Accepted signedRemainder ⟨signedRemainder.op, .division, .empty⟩ remainderRegisters ∧
    Family.division.emit (siteOf .empty 0 ⟨"entry", []⟩ signedRemainder remainderRegisters) = .ok is ∧
    (exec is (remainderMachine (2 ^ 31) (2 ^ 32 - 1))).1 = .error .divideError ∧
    (exec is (remainderMachine (2 ^ 31) (2 ^ 32 - 1))).2.gpr .rax = 2 ^ 31 + 2 ^ 40 ∧
    exec is (remainderMachine (2 ^ 32 - 7) 2) = (.ok .next, m') ∧ (m'.gpr .rdx).toNat = 2 ^ 32 - 1 := by
  have haccepted : Accepted signedRemainder ⟨signedRemainder.op, .division, .empty⟩ remainderRegisters :=
    ⟨Registry.x64_get? _, by decide, fun _ => rfl⟩
  obtain ⟨out, divisor, is, hout, -, hdivisor, hemit, hruns⟩ :=
    division_sequence haccepted rfl .empty 0 ⟨"entry", []⟩
  obtain rfl := Reg.gpr.inj (Option.some.inj hout)
  obtain rfl := Reg.gpr.inj (Option.some.inj hdivisor)
  obtain ⟨htraps, hkeeps, -⟩ := hruns (remainderMachine (2 ^ 31) (2 ^ 32 - 1)) (-2 ^ 31) (-1)
    (by decide +kernel) (by decide +kernel)
  obtain ⟨-, -, hdivides⟩ := hruns (remainderMachine (2 ^ 32 - 7) 2) (-7) 2
    (by decide +kernel) (by decide +kernel)
  have hundefined : Division.remainderSigned.Undefined 32 (-2 ^ 31) (-1) := .inr ⟨rfl, rfl, rfl⟩
  have hdefined : ¬Division.remainderSigned.Undefined 32 (-7) 2 := by
    rintro (hzero | ⟨-, -, hone⟩)
    · exact absurd hzero (by decide)
    · exact absurd hone (by decide)
  obtain ⟨m', q, r, hexec, ⟨hsum, hsmall, hsign⟩, hvalue⟩ := hdivides hdefined
  obtain rfl : r = -1 := by
    have hlow : -2 < r := (abs_lt.mp hsmall).1
    rcases hsign with rfl | hneg
    · omega
    · have hneg := Int.sign_eq_neg_one_iff_neg.mp hneg
      omega
  exact ⟨is, m', haccepted, hemit, htraps.mpr hundefined, hkeeps hundefined, hexec, hvalue⟩

/-! ### Bounds checks -/

/-- The end of an access wraps or passes the size exactly if the unbounded sum passes the size. -/
theorem end_past_iff (addr size : Word) {width : Word} (hwidth : 0 ≤ width.toInt) :
    ((addr + width).ult addr || size.ult (addr + width)) = true ↔
      (size.toNat : Int) < addr.toNat + width.toInt := by
  have haddr := addr.isLt
  have hbound := width.isLt
  have hsize := size.isLt
  rw [BitVec.toInt_eq_toNat_cond] at hwidth ⊢
  simp only [BitVec.ult, BitVec.toNat_add, Bool.or_eq_true, decide_eq_true_eq]
  split at hwidth
  all_goals omega

/-- A width below `2 ^ 31` fits in a displacement. -/
theorem signExtend_setWidth_of_lt {width : Word} (hpos : 0 ≤ width.toInt) (hlt : width.toInt < 2 ^ 31) :
    (width.setWidth 32).signExtend 64 = width := by
  rw [signExtend_setWidth_eq_iff]
  omega

theorem exec_checkEnd_changes (disp : BitVec 32) (out addr size stop : Gpr) (trap : Nat) (m : Machine) :
    Changes [.gpr out, .gpr stop] false m (exec (Emit.checkEnd disp out addr size stop trap) m).2 := by
  have hwithin : ∀ i ∈ Emit.checkEnd disp out addr size stop trap,
      i.Within [.gpr out, .gpr stop] false false := Emit.checkEnd_within (by simp) (by simp)
  exact exec_writes (fun i hi => (hwithin i hi).writes) (fun i hi => (hwithin i hi).stores) m

/-- Where a bounds check has its operands. -/
theorem Accepted.boundsCheck {n : Node} {d : Descriptor} {x : Assignment} {l : Literal}
    (h : Accepted n d x) (hop : n.op = .target .boundsCheck) (hl : n.literals.head? = some l)
    (hfits : (l.toInt.setWidth 32).signExtend 64 = l.toInt) (g : Graph) (b : Nat) (block : Block) :
    ∃ disp out addr size stop, disp.signExtend 64 = l.toInt ∧ x.output = some (Reg.gpr out) ∧
      (x.inputs.map Prod.snd)[1]? = some (Reg.gpr addr) ∧
      (x.inputs.map Prod.snd)[2]? = some (Reg.gpr size) ∧
      x.scratches[0]? = some (Reg.gpr stop) ∧ addr ≠ stop ∧ size ≠ stop ∧
      d.family.emit (siteOf g b block n x)
        = .ok (Emit.checkEnd disp out addr size stop (siteOf g b block n x).trap) := by
  have hfamily : d.family = .boundsCheck := h.family_eq (by rw [hop]; rfl)
  have hready : (siteOf g b block n x).Ready := by
    rw [Site.Ready, show (siteOf g b block n x).op = _ from hop]
    exact ⟨l, Site.literal_eq_ok.mpr hl, hfits⟩
  obtain ⟨is, hemit⟩ := h.emits g b block hready
  have hmet := h.met
  rw [hfamily] at hemit hmet
  obtain ⟨disp, l', out, addr, size, stop, hl', hdisp, hout, haddr, hsize, hstop, rfl⟩ :=
    Emit.boundsCheck_ok (Emit.whole_eq_ok.mp hemit)
  obtain rfl := Option.some.inj (hl'.symm.trans hl)
  have hne {r : Gpr} {k : Nat} (hr : (x.inputs.map Prod.snd)[k]? = some (.gpr r)) : r ≠ stop := by
    rintro rfl
    exact hmet.scratch_notMem (d := ⟨.scratch, 0, .gpr⟩) (List.mem_singleton_self _) hstop
      (List.mem_of_getElem? hr)
  rw [hfamily]
  exact ⟨disp, out, addr, size, stop, hdisp, hout, haddr, hsize, hstop, hne haddr, hne hsize, hemit⟩

/-- A bounds check of a positive width jumps to the trap exactly if the end of the access, as an
unbounded sum, is past the size. Otherwise it goes on with the address in the output. No register
but the output and the temporary is changed. -/
theorem boundsCheck_sequence {n : Node} {d : Descriptor} {x : Assignment} {l : Literal}
    (h : Accepted n d x) (hop : n.op = .target .boundsCheck) (hl : n.literals.head? = some l)
    (hpos : 1 ≤ l.toInt.toInt) (hlt : l.toInt.toInt < 2 ^ 31) (g : Graph) (b : Nat) (block : Block) :
    ∃ out addr size stop is, x.output = some (.gpr out) ∧
      (x.inputs.map Prod.snd)[1]? = some (.gpr addr) ∧ (x.inputs.map Prod.snd)[2]? = some (.gpr size) ∧
      x.scratches[0]? = some (.gpr stop) ∧ d.family.emit (siteOf g b block n x) = .ok is ∧
      ∀ m, ((exec is m).1 = .ok (.jump (siteOf g b block n x).trap) ↔
          ((m.gpr size).toNat : Int) < (m.gpr addr).toNat + l.toInt.toInt) ∧
        ((m.gpr addr).toNat + l.toInt.toInt ≤ (m.gpr size).toNat →
          ∃ m', exec is m = (.ok .next, m') ∧ m'.gpr out = m.gpr addr) ∧
        Changes [.gpr out, .gpr stop] false m (exec is m).2 := by
  obtain ⟨disp, out, addr, size, stop, hdisp, hout, haddr, hsize, hstop, hneAddr, hneSize, hemit⟩ :=
    h.boundsCheck hop hl (signExtend_setWidth_of_lt (by omega) hlt) g b block
  refine ⟨out, addr, size, stop, _, hout, haddr, hsize, hstop, hemit, fun m => ?_⟩
  have hsum : m.gpr addr + disp.signExtend 64 = m.gpr addr + l.toInt := by rw [hdisp]
  obtain ⟨m', hexec, hcopied⟩ := Emit.exec_checkEnd m hneAddr hneSize out disp
    (siteOf g b block n x).trap hsum
  have hwidth : 0 ≤ l.toInt.toInt := by omega
  have hpasses := end_past_iff (m.gpr addr) (m.gpr size) hwidth
  refine ⟨?_, fun hle => ?_, exec_checkEnd_changes _ _ _ _ _ _ m⟩
  · rw [hexec, ← hpasses]
    split <;> simp_all
  · have hfalse : ((m.gpr addr + l.toInt).ult (m.gpr addr) || (m.gpr size).ult (m.gpr addr + l.toInt))
        = false := by
      rw [Bool.eq_false_iff, Ne, hpasses]
      omega
    rw [hfalse] at hexec
    exact ⟨m', hexec, hcopied hfalse⟩

def wideCheck : Node :=
  { op := .target .boundsCheck, literals := [.int 8], inputs := [0, 1, 2] }

/-- The address goes where the size was. -/
def wideRegisters : Assignment where
  output := some (.gpr .rsi)
  inputs := [(0, .gpr .rdi), (1, .gpr .rcx), (2, .gpr .rsi)]
  scratches := [.gpr .rdx]

def wideMachine (addr size : Word) : Machine := (Machine.initial.setGpr .rcx addr).setGpr .rsi size

/-- Four bytes in front of `2 ^ 64` the end wraps; the last eight bytes of a memory are in it. -/
theorem boundsCheck_sequence_wide : ∃ is m',
    Accepted wideCheck ⟨.target .boundsCheck, .boundsCheck, .empty⟩ wideRegisters ∧
    Family.boundsCheck.emit (siteOf .empty 0 ⟨"entry", []⟩ wideCheck wideRegisters) = .ok is ∧
    (exec is (wideMachine (-4) 100)).1 = .ok (.jump 0) ∧
    exec is (wideMachine 92 100) = (.ok .next, m') ∧ m'.gpr .rsi = 92 ∧ m'.gpr .rcx = 92 := by
  have haccepted : Accepted wideCheck ⟨.target .boundsCheck, .boundsCheck, .empty⟩ wideRegisters :=
    ⟨Registry.x64_get? _, by decide, fun _ => rfl⟩
  obtain ⟨out, addr, size, stop, is, hout, haddr, hsize, hstop, hemit, hruns⟩ :=
    boundsCheck_sequence haccepted rfl rfl (by decide) (by decide) .empty 0 ⟨"entry", []⟩
  obtain rfl := Reg.gpr.inj (Option.some.inj hout)
  obtain rfl := Reg.gpr.inj (Option.some.inj haddr)
  obtain rfl := Reg.gpr.inj (Option.some.inj hsize)
  obtain rfl := Reg.gpr.inj (Option.some.inj hstop)
  obtain ⟨hjumps, -, -⟩ := hruns (wideMachine (-4) 100)
  obtain ⟨-, hpasses, hchanges⟩ := hruns (wideMachine 92 100)
  obtain ⟨m', hexec, hcopied⟩ := hpasses (by decide +kernel)
  rw [hexec] at hchanges
  exact ⟨is, m', haccepted, hemit, hjumps.mpr (by decide +kernel), hexec, hcopied,
    hchanges.gprs .rcx (by decide)⟩

end Isel
