import Isel.Proofs.AccessGuards
import Isel.Proofs.LaneRun

/-! The sign of floating-point numbers, bit by bit. Magnitude, negation and the copy of a sign change no
bit of a number but the highest, wherever the operands lie; and a test finds out whether any of the other
bits is set. Selection puts a magnitude in front of every copy of a sign, which only flips. -/

namespace Isel

open Machine Emission

/-- A bit of the low half of a floating-point register. -/
def Machine.bit (m : Machine) (r : Xmm) (i : Nat) : Bool := (m.xmm r).low.getLsbD i

/-- The sign of a number of a width. -/
def signBit (w : FloatWidth) : BitVec w.bits := BitVec.twoPow w.bits (w.bits - 1)

theorem getLsbD_signBit (w : FloatWidth) {i : Nat} (hi : i < w.bits) :
    (signBit w).getLsbD i = decide (i = w.bits - 1) := by
  have htop : w.bits - 1 < w.bits := by cases w <;> decide
  rw [signBit, BitVec.getLsbD_twoPow, decide_eq_true htop, Bool.true_and]
  exact Bool.eq_iff_iff.mpr (by simp [eq_comm])

/-! ### Masks -/

namespace Machine

variable (m : Machine) (w : FloatWidth) (d s : Xmm)

theorem equalHalves_self (x : BitVec 64) : equalHalves x x = BitVec.allOnes 64 := by
  simp only [equalHalves, if_true]
  decide

theorem step_allOnes : step Emit.allOnes m
    = (.ok .next, m.setXmm Xmm.maskScratch ⟨BitVec.allOnes 64, BitVec.allOnes 64⟩) := by
  have hstep : step Emit.allOnes m = (.ok .next, m.setXmm Xmm.maskScratch
      ((m.xmm Xmm.maskScratch).zipWith equalHalves (m.xmm Xmm.maskScratch))) := rfl
  rw [hstep, Lanes.zipWith, equalHalves_self, equalHalves_self]

theorem step_andpd : ∃ x : Lanes, step (.xmms .andpd d s) m = (.ok .next, m.setXmm d x) ∧
    x.low.setWidth w.bits = m.lane w d &&& m.lane w s :=
  ⟨_, rfl, BitVec.setWidth_and⟩

theorem step_xorpd : ∃ x : Lanes, step (.xmms .xorpd d s) m = (.ok .next, m.setXmm d x) ∧
    x.low.setWidth w.bits = m.lane w d ^^^ m.lane w s :=
  ⟨_, rfl, BitVec.setWidth_xor⟩

theorem setXmm_setXmm (x y : Lanes) : (m.setXmm d x).setXmm d y = m.setXmm d y := by
  simp [setXmm]

/-- A mask is made of ones by a shift. -/
theorem exec_shiftedOnes {shift : Mnemonic} {op : Shift}
    (hshift : ∀ m v, step (.xmmImm shift Xmm.maskScratch v) m
      = (.ok .next, m.setXmm Xmm.maskScratch ((m.xmm Xmm.maskScratch).map (shiftLane op v))))
    (v : BitVec 64) (is : List Inst) : exec (Emit.allOnes :: .xmmImm shift Xmm.maskScratch v :: is) m
      = exec is (m.setXmm Xmm.maskScratch
          ⟨shiftLane op v (BitVec.allOnes 64), shiftLane op v (BitVec.allOnes 64)⟩) := by
  rw [exec_cons_next (step_allOnes m), exec_cons_next (hshift _ v), setXmm_setXmm, xmm_setXmm_self]
  rfl

/-- Ones shifted to the left make a mask of the sign. -/
theorem exec_signMask : ∃ x : Lanes, x.low.setWidth w.bits = signBit w ∧
    ∀ is, exec (Emit.allOnes :: .xmmImm .psllq Xmm.maskScratch (BitVec.ofNat 64 (w.bits - 1)) :: is) m
      = exec is (m.setXmm Xmm.maskScratch x) := by
  refine ⟨_, ?_, exec_shiftedOnes m (fun m v => rfl) _⟩
  cases w <;> decide

/-- Ones shifted to the right make a mask of all but the sign. -/
theorem exec_magnitudeMask : ∃ x : Lanes, x.low.setWidth w.bits = ~~~signBit w ∧
    ∀ is, exec (Emit.allOnes ::
        .xmmImm .psrlq Xmm.maskScratch (BitVec.ofNat 64 (64 - w.bits + 1)) :: is) m
      = exec is (m.setXmm Xmm.maskScratch x) := by
  refine ⟨_, ?_, exec_shiftedOnes m (fun m v => rfl) _⟩
  cases w <;> decide

end Machine

/-! ### Sequences -/

namespace Emit

variable (m : Machine) (w : FloatWidth) {out input d sign : Xmm}

/-- A copy is left out if the operand is in the output. -/
theorem exec_copy (out input : Xmm) (is : List Inst) : ∃ m',
    exec ((if out = input then [] else [Inst.xmms (.movs w) out input]) ++ is) m = exec is m' ∧
      m'.lane w out = m.lane w input ∧ ∀ r, r ≠ out → m'.lane w r = m.lane w r := by
  by_cases heq : out = input
  · subst heq
    exact ⟨m, by rw [if_pos rfl, List.nil_append], rfl, fun _ _ => rfl⟩
  · refine ⟨m.setLane w out (m.lane w input), ?_, lane_setLane_self m w _, fun r hr => ?_⟩
    · rw [if_neg heq]
      exact exec_cons_next (step_movs m w out input)
    · exact lane_setLane_of_ne m w hr _

/-- A mask, the operand in the output, and an operation on both. -/
theorem exec_masked {front : List Inst} {logic : Inst} {x : Lanes}
    {F : BitVec w.bits → BitVec w.bits → BitVec w.bits}
    (hmask : ∀ is, exec (front ++ is) m = exec is (m.setXmm Xmm.maskScratch x))
    (hlogic : ∀ m, ∃ y : Lanes, step logic m = (.ok .next, m.setXmm out y) ∧
      y.low.setWidth w.bits = F (m.lane w out) (m.lane w Xmm.maskScratch))
    (hout : out ≠ Xmm.maskScratch) (hinput : input ≠ Xmm.maskScratch) : ∃ m',
    exec (front ++ (if out = input then [] else [Inst.xmms (.movs w) out input]) ++ [logic]) m
        = (.ok .next, m') ∧
      m'.lane w out = F (m.lane w input) (x.low.setWidth w.bits) := by
  obtain ⟨m₁, hcopy, hlane, hother⟩ := exec_copy (m.setXmm Xmm.maskScratch x) w out input [logic]
  obtain ⟨y, hstep, hy⟩ := hlogic m₁
  refine ⟨m₁.setXmm out y, ?_, ?_⟩
  · rw [List.append_assoc, hmask, hcopy]
    exact exec_cons_next hstep
  · rw [lane_setXmm_self, hy, hlane, hother _ hout.symm, lane_setXmm_self, lane_setXmm_of_ne m w hinput]

theorem exec_abs (hout : out ≠ Xmm.maskScratch) (hinput : input ≠ Xmm.maskScratch) : ∃ m',
    exec ([allOnes, Inst.xmmImm .psrlq Xmm.maskScratch (BitVec.ofNat 64 (64 - w.bits + 1))]
        ++ (if out = input then [] else [Inst.xmms (.movs w) out input])
        ++ [Inst.xmms .andpd out Xmm.maskScratch]) m = (.ok .next, m') ∧
      m'.lane w out = m.lane w input &&& ~~~signBit w := by
  obtain ⟨x, hx, hmask⟩ := exec_magnitudeMask m w
  rw [← hx]
  exact exec_masked m w hmask (fun m => step_andpd m w out Xmm.maskScratch) hout hinput

theorem exec_neg (hout : out ≠ Xmm.maskScratch) (hinput : input ≠ Xmm.maskScratch) : ∃ m',
    exec ([allOnes, Inst.xmmImm .psllq Xmm.maskScratch (BitVec.ofNat 64 (w.bits - 1))]
        ++ (if out = input then [] else [Inst.xmms (.movs w) out input])
        ++ [Inst.xmms .xorpd out Xmm.maskScratch]) m = (.ok .next, m') ∧
      m'.lane w out = m.lane w input ^^^ signBit w := by
  obtain ⟨x, hx, hmask⟩ := exec_signMask m w
  rw [← hx]
  exact exec_masked m w hmask (fun m => step_xorpd m w out Xmm.maskScratch) hout hinput

theorem exec_copySign (hd : d ≠ Xmm.maskScratch) (hsign : sign ≠ Xmm.maskScratch) : ∃ m',
    exec (copySign w d sign) m = (.ok .next, m') ∧
      m'.lane w d = m.lane w d ^^^ (signBit w &&& m.lane w sign) := by
  obtain ⟨x, hx, hmask⟩ := exec_signMask m w
  obtain ⟨y, hand, hy⟩ := step_andpd (m.setXmm Xmm.maskScratch x) w Xmm.maskScratch sign
  obtain ⟨z, hxor, hz⟩ :=
    step_xorpd ((m.setXmm Xmm.maskScratch x).setXmm Xmm.maskScratch y) w d Xmm.maskScratch
  refine ⟨_, (hmask _).trans ((exec_cons_next hand).trans (exec_cons_next hxor)), ?_⟩
  rw [lane_setXmm_self, hz, lane_setXmm_self, hy, lane_setXmm_self, hx, lane_setXmm_of_ne _ w hsign,
    lane_setXmm_of_ne _ w hd, lane_setXmm_of_ne _ w hd]

/-- Adding a number to itself shifts its highest bit out. -/
theorem add_self_ne_zero {n : Nat} (x : BitVec n) :
    x + x ≠ 0 ↔ ∃ i < n - 1, x.getLsbD i = true := by
  have hshift : x + x = x <<< 1 := by
    refine BitVec.eq_of_toNat_eq ?_
    rw [BitVec.toNat_add, BitVec.toNat_shiftLeft, Nat.shiftLeft_eq, Nat.pow_one, Nat.mul_two]
  rw [hshift]
  constructor
  · intro hne
    by_contra hall
    refine hne (BitVec.eq_of_getLsbD_eq fun i hi => ?_)
    rw [BitVec.getLsbD_shiftLeft]
    cases i with
    | zero => simp
    | succ i =>
        have hfalse : x.getLsbD i = false := by
          by_contra htrue
          exact hall ⟨i, by omega, by simpa using htrue⟩
        simp [hfalse]
  · rintro ⟨i, hi, hbit⟩ hzero
    have hbit' := congrArg (fun y => BitVec.getLsbD y (i + 1)) hzero
    simp only [BitVec.getLsbD_shiftLeft] at hbit'
    simp [hbit] at hbit'
    omega

theorem holds_flags_add_self {n : Nat} (x : BitVec n) :
    (Arith.add.flags x x).holds .ne = decide (∃ i < n - 1, x.getLsbD i = true) := by
  have hne : (Arith.add.flags x x).holds .ne = (x + x != 0) := by
    simp [Flags.holds, Arith.flags, Arith.apply, bne]
  rw [hne, Bool.eq_iff_iff, bne_iff_ne, add_self_ne_zero, decide_eq_true_iff]

theorem exec_floatBool (out : Gpr) (input : Xmm) : ∃ m',
    exec ([Inst.movqToGpr out input,
        Inst.gprs (.arith .add) (match w with | .single => .s32 | .double => .s64) out out]
      ++ materialize .ne out) m = (.ok .next, m') ∧
      m'.gpr out = if ∃ i < w.bits - 1, m.bit input i = true then 1 else 0 := by
  have hmov : step (.movqToGpr out input) m = (.ok .next, m.setGpr out (m.xmm input).low) := rfl
  obtain ⟨iw, hbits, hadd⟩ : ∃ iw : IntWidth, iw.bits = w.bits ∧
      (match w with | .single => Size.s32 | .double => .s64) = .ofWidth iw := by
    cases w
    · exact ⟨.w32, rfl, rfl⟩
    · exact ⟨.w64, rfl, rfl⟩
  rw [hadd, List.cons_append, exec_cons_next hmov, List.cons_append,
    exec_cons_next (step_arith _ iw out out .add), List.nil_append]
  obtain ⟨m', hexec, hm'⟩ := exec_materialize
    (((m.setGpr out (m.xmm input).low).setFlags _).setGpr out _) out .ne
  refine ⟨m', hexec, ?_⟩
  have hiff : (∃ i < iw.bits - 1, (low iw (m.xmm input).low).getLsbD i = true) ↔
      ∃ i < w.bits - 1, m.bit input i = true := by
    refine exists_congr fun i => ?_
    rw [low, BitVec.getLsbD_setWidth, hbits]
    refine and_congr_right fun hi => ?_
    rw [decide_eq_true (by omega), Bool.true_and, bit]
  rw [hm', flags_setGpr, flags_setFlags, holds_flags_add_self, gpr_setGpr_self, decide_eq_decide.mpr hiff]
  by_cases hset : ∃ i < w.bits - 1, m.bit input i = true
  · rw [if_pos hset, decide_eq_true hset]
    rfl
  · rw [if_neg hset, decide_eq_false hset]
    rfl

end Emit

/-! ### What is done to signs -/

section Predicates

variable (w : FloatWidth)

/-- Instructions that leave a number without its sign. -/
def ClearsSign (out input : Xmm) (is : List Inst) : Prop :=
  ∀ m, ∃ m', exec is m = (.ok .next, m') ∧
    ∀ i < w.bits, m'.bit out i = if i = w.bits - 1 then false else m.bit input i

/-- Instructions that leave a number with the other sign. -/
def FlipsSign (out input : Xmm) (is : List Inst) : Prop :=
  ∀ m, ∃ m', exec is m = (.ok .next, m') ∧
    ∀ i < w.bits, m'.bit out i = if i = w.bits - 1 then !m.bit input i else m.bit input i

/-- Instructions that leave a number, if it has no sign, with the sign of another. -/
def CopiesSign (out left right : Xmm) (is : List Inst) : Prop :=
  ∀ m, m.bit left (w.bits - 1) = false → ∃ m', exec is m = (.ok .next, m') ∧
    ∀ i < w.bits, m'.bit out i = if i = w.bits - 1 then m.bit right i else m.bit left i

/-- Instructions that say whether any bit of a number is set but that of its sign. -/
def TestsMagnitude (out : Gpr) (input : Xmm) (is : List Inst) : Prop :=
  ∀ m, ∃ m', exec is m = (.ok .next, m') ∧
    m'.gpr out = if ∃ i < w.bits - 1, m.bit input i = true then 1 else 0

/-- What `js` makes of the output of `is`, as its left operand: the magnitude of the input, with the sign of
its right operand. -/
def SignsMagnitude (out input out' left right : Xmm) (is js : List Inst) : Prop :=
  ∀ m m₁ : Machine, (∀ i < w.bits, m₁.bit left i = (exec is m).2.bit out i) →
    ∃ m', exec js m₁ = (.ok .next, m') ∧
      ∀ i < w.bits, m'.bit out' i = if i = w.bits - 1 then m₁.bit right i else m.bit input i

end Predicates

/-- The code of a node with an operand in a lane register, which does `P` between the registers. -/
def EmitsUnary {ρ : Type} (reg : ρ → Reg) (P : ρ → Xmm → List Inst → Prop) (f : Family) (s : Site) : Prop :=
  ∃ out input is, s.output = some (reg out) ∧ s.inputs[0]? = some (.xmm input) ∧ f.emit s = .ok is ∧
    P out input is

/-- The code of a node between three lane registers. -/
def EmitsBinary (P : Xmm → Xmm → Xmm → List Inst → Prop) (f : Family) (s : Site) : Prop :=
  ∃ out left right is, s.output = some (.xmm out) ∧ s.inputs[0]? = some (.xmm left) ∧
    s.inputs[1]? = some (.xmm right) ∧ f.emit s = .ok is ∧ P out left right is

/-- A copy of a sign onto a magnitude: code that clears a sign and then code that copies one. -/
theorem ClearsSign.then_copies {w : FloatWidth} {out input out' left right : Xmm} {is js : List Inst}
    (h : ClearsSign w out input is) (h' : CopiesSign w out' left right js) :
    SignsMagnitude w out input out' left right is js := by
  intro m m₁ hsame
  obtain ⟨m₀, hexec₀, hcleared⟩ := h m
  rw [hexec₀] at hsame
  have htop : w.bits - 1 < w.bits := by cases w <;> decide
  obtain ⟨m', hexec, hcopied⟩ := h' m₁ (by rw [hsame _ htop, hcleared _ htop, if_pos rfl])
  refine ⟨m', hexec, fun i hi => ?_⟩
  rw [hcopied i hi]
  by_cases hlast : i = w.bits - 1
  · rw [if_pos hlast, if_pos hlast]
  · rw [if_neg hlast, if_neg hlast, hsame i hi, hcleared i hi, if_neg hlast]

/-! ### Nodes -/

namespace Accepted

variable {n : Node} {d : Descriptor} {x : Assignment} {w : FloatWidth}

/-- No operand is where the mask goes. -/
theorem ne_maskScratch (h : Accepted n d x) {k : Nat}
    (hmask : ⟨.scratch, k, .fixed (.xmm Xmm.maskScratch)⟩ ∈ (d.family.constraint n).ofRole .scratch) :
    (∀ r, x.output = some (.xmm r) → r ≠ Xmm.maskScratch) ∧
      ∀ (i : Nat) (r : Xmm), (x.inputs.map Prod.snd)[i]? = some (Reg.xmm r) → r ≠ Xmm.maskScratch := by
  refine ⟨fun r hr heq => ?_, fun i r hr heq => ?_⟩
  · exact h.met.fixed_scratch_output hmask rfl hr (congrArg Reg.xmm heq)
  · exact h.met.fixed_scratch hmask rfl _ (List.mem_of_getElem? hr) (congrArg Reg.xmm heq)

/-- The registers of a magnitude or a negation, and what its instructions leave. -/
theorem floatSign (h : Accepted n d x) {op : FloatUnary} (hop : n.op = .floatUnary w op)
    (hsign : op = .abs ∨ op = .neg) (g : Graph) (b : Nat) (block : Block) :
    ∃ out input is, x.output = some (.xmm out) ∧ (x.inputs.map Prod.snd)[0]? = some (Reg.xmm input) ∧
      d.family.emit (siteOf g b block n x) = .ok is ∧
      ∀ m, ∃ m', exec is m = (.ok .next, m') ∧
        m'.lane w out = if op = .abs then m.lane w input &&& ~~~signBit w
          else m.lane w input ^^^ signBit w := by
  have hsite : (siteOf g b block n x).op = .floatUnary w op := hop
  obtain ⟨hfamily, is, hemit⟩ := h.emits_as (f := .floatUnary) g b block
    (congrArg Operator.family? hop) (by rw [Site.Ready, hsite]; trivial)
  have hmask : ⟨.scratch, 0, .fixed (.xmm Xmm.maskScratch)⟩ ∈ (d.family.constraint n).ofRole .scratch := by
    simp only [hfamily, Family.constraint, hop]
    rcases hsign with rfl | rfl <;> exact List.mem_cons_self
  rw [hfamily]
  obtain ⟨w', op', out, input, hop', hout, hinput, rfl⟩ := Emit.floatUnary_ok (Emit.whole_eq_ok.mp hemit)
  obtain ⟨rfl, rfl⟩ : w = w' ∧ op = op' := by simpa using hsite.symm.trans hop'
  obtain ⟨hfree, hfree'⟩ := h.ne_maskScratch hmask
  refine ⟨out, input, _, hout, hinput, hemit, fun m => ?_⟩
  rcases hsign with rfl | rfl
  · exact Emit.exec_abs m w (hfree _ hout) (hfree' _ _ hinput)
  · exact Emit.exec_neg m w (hfree _ hout) (hfree' _ _ hinput)

/-- The registers of a copy of a sign, and what its instructions leave. -/
theorem copysign (h : Accepted n d x) (hop : n.op = .floatBinary w .copysign) (g : Graph) (b : Nat)
    (block : Block) : ∃ out left right is, x.output = some (.xmm out) ∧
      (x.inputs.map Prod.snd)[0]? = some (Reg.xmm left) ∧
      (x.inputs.map Prod.snd)[1]? = some (Reg.xmm right) ∧
      d.family.emit (siteOf g b block n x) = .ok is ∧
      ∀ m, ∃ m', exec is m = (.ok .next, m') ∧
        m'.lane w out = m.lane w left ^^^ (signBit w &&& m.lane w right) := by
  obtain ⟨out, left, right, hout, hleft, hright, hdetour, hemit⟩ := h.floatBinary hop g b block
  have hfamily : Family.floatBinary = d.family :=
    Option.some.inj ((congrArg Operator.family? hop).symm.trans h.family)
  have hmask : ⟨.scratch, 1, .fixed (.xmm Xmm.maskScratch)⟩ ∈ (d.family.constraint n).ofRole .scratch := by
    simp only [← hfamily, Family.constraint, hop]
    exact List.mem_cons_of_mem _ List.mem_cons_self
  obtain ⟨hfree, hfree'⟩ := h.ne_maskScratch hmask
  refine ⟨out, left, right, _, hout, hleft, hright, hemit, fun m => ?_⟩
  -- The mask is made between the copy and the operation, so neither operand may be where it goes.
  refine Emit.exec_twoOperand_lane m w (F := fun a s => a ^^^ (signBit w &&& s)) (fun d r hd hr m => ?_)
    hdetour
  refine Emit.exec_copySign m w ?_ ?_
  · rcases hd with rfl | rfl
    · exact hfree _ hout
    · decide
  · rcases hr with rfl | rfl
    · exact hfree' _ _ hleft
    · exact hfree' _ _ hright

/-- The registers of a test of a number, and what its instructions leave. -/
theorem floatBool (h : Accepted n d x) (hop : n.op = .bool (.float w)) (g : Graph) (b : Nat)
    (block : Block) : EmitsUnary .gpr (TestsMagnitude w) d.family (siteOf g b block n x) := by
  have hsite : (siteOf g b block n x).op = .bool (.float w) := hop
  obtain ⟨hfamily, is, hemit⟩ := h.emits_as (f := .floatBool) g b block
    (congrArg Operator.family? hop) (by rw [Site.Ready, hsite]; trivial)
  rw [hfamily]
  obtain ⟨w', out, input, hop', hout, hinput, rfl⟩ := Emit.floatBool_ok (Emit.whole_eq_ok.mp hemit)
  obtain rfl : w = w' := by simpa using hsite.symm.trans hop'
  exact ⟨out, input, _, hout, hinput, hemit, fun m => Emit.exec_floatBool m w out input⟩

end Accepted

/-! ### Bits -/

section Bits

variable {m m' : Machine} {w : FloatWidth} {out input left right : Xmm} {i : Nat}

theorem bit_eq_getLsbD {v : BitVec w.bits} (h : m'.lane w out = v) (hi : i < w.bits) :
    m'.bit out i = v.getLsbD i := by
  rw [Machine.bit, ← getLsbD_lane m' w hi, h]

/-- A magnitude has all bits of the number but the highest. -/
theorem bit_abs (h : m'.lane w out = m.lane w input &&& ~~~signBit w) (hi : i < w.bits) :
    m'.bit out i = if i = w.bits - 1 then false else m.bit input i := by
  rw [bit_eq_getLsbD h hi, BitVec.getLsbD_and, BitVec.getLsbD_not, getLsbD_lane m w hi,
    getLsbD_signBit w hi]
  by_cases htop : i = w.bits - 1 <;> simp [htop, hi, Machine.bit]

theorem bit_neg (h : m'.lane w out = m.lane w input ^^^ signBit w) (hi : i < w.bits) :
    m'.bit out i = if i = w.bits - 1 then !m.bit input i else m.bit input i := by
  rw [bit_eq_getLsbD h hi, BitVec.getLsbD_xor, getLsbD_lane m w hi, getLsbD_signBit w hi]
  by_cases htop : i = w.bits - 1 <;> simp [htop, Machine.bit]

/-- Flipping a clear bit where another is set copies that one. -/
theorem bit_copysign (h : m'.lane w out = m.lane w left ^^^ (signBit w &&& m.lane w right))
    (hclear : m.bit left (w.bits - 1) = false) (hi : i < w.bits) :
    m'.bit out i = if i = w.bits - 1 then m.bit right i else m.bit left i := by
  rw [bit_eq_getLsbD h hi, BitVec.getLsbD_xor, BitVec.getLsbD_and, getLsbD_lane m w hi,
    getLsbD_lane m w hi, getLsbD_signBit w hi]
  by_cases htop : i = w.bits - 1
  · subst htop
    rw [Machine.bit] at hclear
    simp [hclear, Machine.bit]
  · simp [htop, Machine.bit]

end Bits

/-! ### Selection -/

namespace Lowering

variable {g : Graph} {config : Config} {l : Lowering} {b id y y' : Nat} {n m : Node} {w : FloatWidth}

theorem Form.of_copysign (h : Form g config l b id n m) (hop : n.op = .floatBinary w .copysign) :
    ∃ v s v' s' u, n.inputs[0]? = some v ∧ n.inputs[1]? = some s ∧ l.lowered.get? v = some v' ∧
      l.lowered.get? s = some s' ∧ l.nodes[u]? = some ⟨b, magnitude w v'⟩ ∧
      m = ⟨.floatBinary w .copysign, [], [], [u, s']⟩ := by
  cases h with
  | signed hop' hv hs hv' hs' hu =>
      obtain ⟨rfl, -⟩ := Operator.floatBinary.inj (hop'.symm.trans hop)
      exact ⟨_, _, _, _, _, hv, hs, hv', hs', hu, by rw [hop]⟩
  | copied hcopied =>
      rw [hop] at hcopied
      exact absurd hcopied (by simp [Operator.copied?])
  | loaded hop' | stored hop' | compared hop' | fused hop' | branched hop' | branched32 hop' =>
      exact absurd (hop.symm.trans hop') (by simp)

/-- A copy of a sign is lowered to one on a magnitude. -/
theorem Successor.copysign (h : Successor g config l y y') (hn : g.nodes[y]? = some ⟨b, n⟩)
    (hop : n.op = .floatBinary w .copysign) : ∃ v s v' s' u, n.inputs[0]? = some v ∧
      n.inputs[1]? = some s ∧ l.lowered.get? v = some v' ∧ l.lowered.get? s = some s' ∧
      l.nodes[u]? = some ⟨b, magnitude w v'⟩ ∧
      l.nodes[y']? = some ⟨b, .floatBinary w .copysign, [], [], [u, s']⟩ := by
  have hkept : ¬Elided g config y n := by
    rintro (hop' | hop' | ⟨hop', -⟩) <;> exact absurd (hop.symm.trans hop') (by simp)
  obtain ⟨l₁, m, hkeeps, hform, hnew⟩ := h.form_of_kept hn hkept
  obtain ⟨v, s, v', s', u, hv, hs, hv', hs', hu, rfl⟩ := hform.of_copysign hop
  exact ⟨v, s, v', s', u, hv, hs, hkeeps.lowered hv', hkeeps.lowered hs', hkeeps.nodes hu, hnew⟩

end Lowering

/-- A copy of a sign is selected as one on a magnitude of its left operand, in front of it. -/
def SelectsMagnitude (w : FloatWidth) (g : Graph) (config : Config) (g' : Graph) (id b : Nat) (n : Node) :
    Prop :=
  ∃ v s v' s' u i, n.inputs[0]? = some v ∧ n.inputs[1]? = some s ∧
    selectedNode? g config id = some i ∧ selectedNode? g config v = some v' ∧
    selectedNode? g config s = some s' ∧
    g'.nodes[u]? = some ⟨b, .floatUnary w .abs, [], [], [v']⟩ ∧
    g'.nodes[i]? = some ⟨b, .floatBinary w .copysign, [], [], [u, s']⟩ ∧ u < i

theorem select_copysign {g g' : Graph} {config : Config} {stats : Stats} {id b : Nat} {n : Node}
    {w : FloatWidth} (hacyclic : g.Acyclic) (hselect : select g config = .ok (g', stats))
    (hn : g.nodes[id]? = some ⟨b, n⟩) (hop : n.op = .floatBinary w .copysign) :
    SelectsMagnitude w g config g' id b n := by
  have hfree : Select.absorbs g config id = false := by
    refine Lowering.absorbs_eq_false (Graph.node?_eq_some.mpr ⟨b, hn⟩) fun w' c hcompare => ?_
    exact absurd (hop.symm.trans hcompare) (by simp)
  obtain ⟨l, i, rfl, hsteps, hi, hselected⟩ := select_lowered hacyclic hselect hn hfree
  obtain ⟨v, s, v', s', u, hv, hs, hv', hs', hu, hnode⟩ := (hsteps.successor hi).copysign hn hop
  exact ⟨v, s, _, _, _, _, hv, hs, hselected hi, hselected hv', hselected hs',
    Schedule.schedule_node hsteps.grounded hsteps.housed hu,
    Schedule.schedule_node hsteps.grounded hsteps.housed hnode,
    hsteps.place_lt hu hnode (.inl (by simp [Node.references]))⟩

/-- What is done to the sign of a number, wherever accepted registers put the operands. A magnitude clears
the highest bit and a negation flips it; a copy of a sign takes it from the right operand if the left one
has it clear; a test says whether any other bit is set. So a copy onto a magnitude, which is what every
copy is selected as, has the magnitude of the one and the sign of the other. -/
theorem sign_sequences (w : FloatWidth) (g : Graph) (b : Nat) (block : Block) :
    (∀ n d x, Accepted n d x → n.op = .floatUnary w .abs →
      EmitsUnary .xmm (ClearsSign w) d.family (siteOf g b block n x)) ∧
    (∀ n d x, Accepted n d x → n.op = .floatUnary w .neg →
      EmitsUnary .xmm (FlipsSign w) d.family (siteOf g b block n x)) ∧
    (∀ n d x, Accepted n d x → n.op = .floatBinary w .copysign →
      EmitsBinary (CopiesSign w) d.family (siteOf g b block n x)) ∧
    (∀ n d x, Accepted n d x → n.op = .bool (.float w) →
      EmitsUnary .gpr (TestsMagnitude w) d.family (siteOf g b block n x)) ∧
    (∀ out input out' left right is js, ClearsSign w out input is → CopiesSign w out' left right js →
      SignsMagnitude w out input out' left right is js) ∧
    ∀ g config g' stats, g.Acyclic → select g config = .ok (g', stats) → ∀ id b n,
      g.nodes[id]? = some ⟨b, n⟩ → n.op = .floatBinary w .copysign →
      SelectsMagnitude w g config g' id b n := by
  refine ⟨fun n d x h hop => ?_, fun n d x h hop => ?_, fun n d x h hop => ?_,
    fun n d x h hop => h.floatBool hop g b block, fun _ _ _ _ _ _ _ h h' => h.then_copies h',
    fun g config g' stats hacyclic hselect id b n hn hop => select_copysign hacyclic hselect hn hop⟩
  · obtain ⟨out, input, is, hout, hinput, hemit, hruns⟩ := h.floatSign hop (.inl rfl) g b block
    refine ⟨out, input, is, hout, hinput, hemit, fun m => ?_⟩
    obtain ⟨m', hexec, hlane⟩ := hruns m
    exact ⟨m', hexec, fun i => bit_abs hlane⟩
  · obtain ⟨out, input, is, hout, hinput, hemit, hruns⟩ := h.floatSign hop (.inr rfl) g b block
    refine ⟨out, input, is, hout, hinput, hemit, fun m => ?_⟩
    obtain ⟨m', hexec, hlane⟩ := hruns m
    exact ⟨m', hexec, fun i => bit_neg hlane⟩
  · obtain ⟨out, left, right, is, hout, hleft, hright, hemit, hruns⟩ := h.copysign hop g b block
    refine ⟨out, left, right, is, hout, hleft, hright, hemit, fun m hclear => ?_⟩
    obtain ⟨m', hexec, hlane⟩ := hruns m
    exact ⟨m', hexec, fun i => bit_copysign hlane hclear⟩

def singleAbs : Node := { op := .floatUnary .single .abs, inputs := [0] }

/-- In place. -/
def singleAbsRegisters : Assignment where
  output := some (.xmm .xmm0)
  inputs := [(0, .xmm .xmm0)]
  scratches := [.xmm Xmm.maskScratch]

def singleCopysign : Node := { op := .floatBinary .single .copysign, inputs := [1, 2] }

/-- The result goes where the sign comes from, so that it takes a detour. -/
def singleCopysignRegisters : Assignment where
  output := some (.xmm .xmm1)
  inputs := [(1, .xmm .xmm0), (2, .xmm .xmm1)]
  scratches := [.xmm Xmm.scratch, .xmm Xmm.maskScratch]

/-- A NaN with a sign, one with no sign, and other bits above them. -/
def signedMachine (a : BitVec 64) : Machine :=
  (Machine.initial.setXmm .xmm0 ⟨a, 7⟩).setXmm .xmm1 ⟨0x800000003f800000, 9⟩

/-- The NaN loses its sign and keeps its payload. -/
theorem sign_sequences_nan : ∃ is js m',
    Accepted singleAbs ⟨singleAbs.op, .floatUnary, .empty⟩ singleAbsRegisters ∧
    Accepted singleCopysign ⟨singleCopysign.op, .floatBinary, .empty⟩ singleCopysignRegisters ∧
    Family.floatUnary.emit (siteOf .empty 0 ⟨"entry", []⟩ singleAbs singleAbsRegisters) = .ok is ∧
    Family.floatBinary.emit (siteOf .empty 0 ⟨"entry", []⟩ singleCopysign singleCopysignRegisters)
      = .ok js ∧
    (∀ i < 32, (exec is (signedMachine 0xffffffffffc12345)).2.bit .xmm0 i
      = (signedMachine 0x7fc12345).bit .xmm0 i) ∧
    exec js (signedMachine 0x7fc12345) = (.ok .next, m') ∧
    ∀ i < 32, m'.bit .xmm1 i = (0x7fc12345 : BitVec 32).getLsbD i := by
  have haccepted : Accepted singleAbs ⟨singleAbs.op, .floatUnary, .empty⟩ singleAbsRegisters :=
    ⟨Registry.x64_get? _, by decide, fun _ => rfl⟩
  have haccepted' :
      Accepted singleCopysign ⟨singleCopysign.op, .floatBinary, .empty⟩ singleCopysignRegisters :=
    ⟨Registry.x64_get? _, by decide, fun _ => rfl⟩
  obtain ⟨habs, -, hcopysign, -, hboth, -⟩ := sign_sequences .single .empty 0 ⟨"entry", []⟩
  obtain ⟨out, input, is, hout, hinput, hemit, hruns⟩ := habs _ _ _ haccepted rfl
  obtain ⟨out', left, right, js, hout', hleft, hright, hemit', hcopies⟩ := hcopysign _ _ _ haccepted' rfl
  obtain rfl : Xmm.xmm0 = out := Reg.xmm.inj (Option.some.inj hout)
  obtain rfl : Xmm.xmm0 = input := Reg.xmm.inj (Option.some.inj hinput)
  obtain rfl : Xmm.xmm1 = out' := Reg.xmm.inj (Option.some.inj hout')
  obtain rfl : Xmm.xmm0 = left := Reg.xmm.inj (Option.some.inj hleft)
  obtain rfl : Xmm.xmm1 = right := Reg.xmm.inj (Option.some.inj hright)
  obtain ⟨m₀, hexec₀, hbits⟩ := hruns (signedMachine 0xffffffffffc12345)
  have hsame : ∀ i < 32, (signedMachine 0x7fc12345).bit .xmm0 i
      = (exec is (signedMachine 0xffffffffffc12345)).2.bit .xmm0 i := by
    rw [hexec₀]
    intro i hi
    rw [hbits i hi]
    revert i
    decide +kernel
  obtain ⟨m', hexec, hcopied⟩ := hboth _ _ _ _ _ _ _ hruns hcopies _ _ hsame
  refine ⟨is, js, m', haccepted, haccepted', hemit, hemit', fun i hi => (hsame i hi).symm, hexec, ?_⟩
  intro i hi
  rw [hcopied i hi]
  revert i
  decide +kernel

end Isel
