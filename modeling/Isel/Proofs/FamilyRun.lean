import Isel.Proofs.Families
import Isel.Proofs.InstructionRun

/-! What the instructions of a node do with the words in its registers: they leave the value of the
node in its output, or trap as the node does; those of a terminator go where it leads. -/

namespace Isel

section Operands

variable {α : Type} {xs : List α} {x y z : α}

theorem eq_cons_of_getElem? (hx : xs[0]? = some x) : ∃ rest, xs = x :: rest := by
  cases xs with
  | nil => exact absurd hx (by simp)
  | cons x' rest => exact ⟨rest, by rw [Option.some.inj hx]⟩

theorem eq_cons_cons_of_getElem? (hx : xs[0]? = some x) (hy : xs[1]? = some y) :
    ∃ rest, xs = x :: y :: rest := by
  obtain ⟨rest, rfl⟩ := eq_cons_of_getElem? hx
  obtain ⟨rest, rfl⟩ : ∃ rest', rest = y :: rest' := eq_cons_of_getElem? hy
  exact ⟨rest, rfl⟩

theorem eq_cons_cons_cons_of_getElem? (hy : xs[1]? = some y) (hz : xs[2]? = some z) :
    ∃ x rest, xs = x :: y :: z :: rest := by
  cases xs with
  | nil => exact absurd hy (by simp)
  | cons x rest =>
      obtain ⟨rest, rfl⟩ : ∃ rest', rest = y :: z :: rest' := eq_cons_cons_of_getElem? hy hz
      exact ⟨x, rest, rfl⟩

end Operands

/-- The instructions of a node that computes a value leave it in the output, or trap as the node
does. A failed bounds check jumps to the trap. -/
inductive Site.Yields (s : Site) (heap : Array Byte) :
    Except Halt Word → Except Trap Flow × Machine → Prop
  | value {r : Reg} {m : Machine} (output : s.output = some r) :
      Yields s heap (.ok (m.word r)) (.ok .next, m)
  | trapped {t : Trap} {m : Machine} : Yields s heap (.error (.trapped t heap)) (.error t, m)
  | check {m : Machine} :
      Yields s heap (.error (.trapped .unreachable heap)) (.ok (.jump s.trap), m)

/-- A value in a general purpose register. -/
theorem Site.Yields.of_gpr {s : Site} {heap : Array Byte} {out : Gpr} {m : Machine} {v : Word}
    (hout : s.output = some (.gpr out)) (hv : m.gpr out = v) : s.Yields heap (.ok v) (.ok .next, m) := by
  rw [← hv]
  exact .value hout

/-- The instructions of a node do what the node does to its output and to memory. -/
inductive Site.Computes (s : Site) :
    Except Halt (Option Word × Array Byte) → Except Trap Flow × Machine → Prop
  | value {r : Reg} {m : Machine} (output : s.output = some r) :
      Computes s (.ok (some (m.word r), m.heap)) (.ok .next, m)
  | stored {m : Machine} : Computes s (.ok (none, m.heap)) (.ok .next, m)
  | trapped {t : Trap} {m : Machine} : Computes s (.error (.trapped t m.heap)) (.error t, m)
  | check {m : Machine} :
      Computes s (.error (.trapped .unreachable m.heap)) (.ok (.jump s.trap), m)

theorem Site.Yields.computes {s : Site} {heap : Array Byte} {v : Except Halt Word}
    {e : Except Trap Flow × Machine} (h : s.Yields heap v e) (hheap : e.2.heap = heap) :
    s.Computes (v.map fun w => (some w, heap)) e := by
  subst hheap
  cases h with
  | value hout => exact .value hout
  | trapped => exact .trapped
  | check => exact .check

/-- The instructions of a terminator go where the terminator leads: to a successor, by a jump or by
running into it, or back to the caller with the value in place. -/
inductive Site.Leaves (s : Site) : Except Halt (Exit Word) → Except Trap Flow × Machine → Prop
  | jump {k c : Nat} {m : Machine} (successor : s.successors[k]? = some c) :
      Leaves s (.ok (.goto k)) (.ok (.jump c), m)
  | fall {k c : Nat} {m : Machine} (successor : s.successors[k]? = some c)
      (next : s.fallthrough = some c) : Leaves s (.ok (.goto k)) (.ok .next, m)
  | leave {v : Option Word} {m : Machine} (value : ∀ w, v = some w → m.gpr .rax = w) :
      Leaves s (.ok (.leave v)) (.ok .halt, m)

namespace Emit

open Machine

variable {s : Site} {is : List Inst} (m : Machine)

/-- A two-operand sequence computes what its operation does. -/
theorem exec_twoOperand {isCommutative : Bool} {w : IntWidth} {detour out left right : Gpr}
    {op : Gpr → Gpr → List Inst} {F : Word → Word → Word}
    (hop : ∀ d r, r = right ∨ isCommutative = true → ∀ m,
      ∃ m', exec (op d r) m = (.ok .next, m') ∧ m'.gpr d = F (m.gpr d) (m.gpr r))
    (hcomm : isCommutative = true → ∀ x y, F x y = F y x)
    (hlow : ∀ x y, F ((low w x).setWidth 64) y = F x y)
    (hword : ∀ x y, (low w (F x y)).setWidth 64 = F x y) (hdetour : detour ≠ right) :
    ∃ m', exec (twoOperand isCommutative detour (Inst.mov (.ofWidth w)) op out left right) m
        = (.ok .next, m') ∧ m'.gpr out = F (m.gpr left) (m.gpr right) := by
  unfold twoOperand
  split
  · next heq =>
      subst heq
      exact hop out right (.inl rfl) m
  · split
    · next heq =>
        subst heq
        split
        · next hc =>
            obtain ⟨m', hexec, hm'⟩ := hop out left (.inr hc) m
            exact ⟨m', hexec, hm'.trans (hcomm hc _ _)⟩
        · obtain ⟨m', hexec, hm'⟩ := hop detour out (.inl rfl)
            (m.setGpr detour ((low w (m.gpr left)).setWidth 64))
          refine ⟨_, (exec_cons_next (step_mov m w detour left)).trans
            ((exec_append hexec).trans (exec_cons_next (step_mov m' w out detour))), ?_⟩
          rw [gpr_setGpr_self, hm', hword, gpr_setGpr_self, hlow, gpr_setGpr_of_ne _ hdetour.symm]
    · next hne =>
        obtain ⟨m', hexec, hm'⟩ := hop out right (.inl rfl)
          (m.setGpr out ((low w (m.gpr left)).setWidth 64))
        refine ⟨m', (exec_cons_next (step_mov m w out left)).trans hexec, ?_⟩
        rw [hm', gpr_setGpr_self, hlow, gpr_setGpr_of_ne _ (Ne.symm hne)]

theorem arithOf_ok {op : Arith} {size : Size} (h : arithOf s = .ok (op, size)) :
    ∃ w, size = .ofWidth w ∧ ∀ L x y rest memory, Words.value L s.node (x :: y :: rest) memory
      = .ok ((op.apply (low w x) (low w y)).setWidth 64) := by
  unfold arithOf at h
  split at h
  · next op' hop =>
      obtain ⟨rfl, rfl⟩ := Prod.mk.inj (Except.ok.inj h)
      refine ⟨.w64, rfl, fun L x y rest memory => ?_⟩
      simp only [Words.value, show s.node.op = _ from hop]
      rfl
  · next w op' hop =>
      obtain ⟨rfl, rfl⟩ := Prod.mk.inj (Except.ok.inj h)
      refine ⟨w, rfl, fun L x y rest memory => ?_⟩
      simp only [Words.value, show s.node.op = _ from hop]
      rfl
  · exact absurd h (by simp)

theorem arith_yields (h : arith s = .ok is) (hdetour : ∀ r ∈ s.inputs, r ≠ .gpr Gpr.scratch) :
    s.Yields m.heap (Words.value .heap s.node (s.inputs.map m.word) m.heap) (exec is m) := by
  obtain ⟨op, size, out, left, right, hop, hout, hleft, hright, rfl⟩ := arith_ok h
  obtain ⟨w, rfl, hvalue⟩ := arithOf_ok hop
  obtain ⟨rest, hinputs⟩ := eq_cons_cons_of_getElem? hleft hright
  have hne : Gpr.scratch ≠ right := by
    rintro rfl
    exact hdetour _ (List.mem_of_getElem? hright) rfl
  obtain ⟨m', hexec, hm'⟩ : ∃ m', exec (twoOperand op.isCommutative Gpr.scratch (Inst.mov (.ofWidth w))
      (fun d r => [.gprs (.arith op) (.ofWidth w) d r]) out left right) m = (.ok .next, m') ∧
      m'.gpr out = (op.apply (low w (m.gpr left)) (low w (m.gpr right))).setWidth 64 := by
    refine exec_twoOperand m (F := fun x y => (op.apply (low w x) (low w y)).setWidth 64)
      (fun d r _ m => ?_) (fun hcomm x y => ?_) (fun x y => ?_) (fun x y => ?_) hne
    · exact ⟨_, exec_cons_next (step_arith m w d r op), gpr_setGpr_self _ _ _⟩
    · rw [Arith.apply_comm hcomm]
    · rw [low_setWidth]
    · rw [low_setWidth]
  rw [hexec, hinputs, List.map_cons, List.map_cons, hvalue]
  exact .of_gpr hout hm'

theorem shiftOf_ok {op : Shift} {size : Size} (h : shiftOf s = .ok (op, size)) :
    ∃ w, size = .ofWidth w ∧ ∀ L x y rest memory, Words.value L s.node (x :: y :: rest) memory
      = .ok ((op.apply (low w x) ((low w y).toNat % w.bits)).setWidth 64) := by
  unfold shiftOf at h
  split at h
  · next hop =>
      obtain ⟨rfl, rfl⟩ := Prod.mk.inj (Except.ok.inj h)
      refine ⟨.w64, rfl, fun L x y rest memory => ?_⟩
      simp only [Words.value, show s.node.op = _ from hop]
      rfl
  · next w op' hop =>
      obtain ⟨rfl, rfl⟩ := Prod.mk.inj (Except.ok.inj h)
      refine ⟨w, rfl, fun L x y rest memory => ?_⟩
      simp only [Words.value, show s.node.op = _ from hop]
      rfl
  · exact absurd h (by simp)

/-- A count is taken modulo the width, whichever of its bits are looked at. -/
theorem toNat_low_mod (w : IntWidth) (y : Word) : (low w y).toNat % w.bits = y.toNat % w.bits := by
  rw [low, BitVec.toNat_setWidth]
  refine Nat.mod_mod_of_dvd _ ?_
  cases w <;> decide

theorem shift_yields (h : shift s = .ok is) (hcount : s.inputs[1]? = some (.gpr .rcx)) :
    s.Yields m.heap (Words.value .heap s.node (s.inputs.map m.word) m.heap) (exec is m) := by
  obtain ⟨op, size, out, value, count, hop, hout, hinput, hright, rfl⟩ := shift_ok h
  obtain ⟨w, rfl, hvalue⟩ := shiftOf_ok hop
  obtain ⟨rest, hinputs⟩ := eq_cons_cons_of_getElem? hinput hright
  obtain rfl : count = .rcx := by
    rw [hright] at hcount
    exact Reg.gpr.inj (Option.some.inj hcount)
  obtain ⟨m', hexec, hm'⟩ : ∃ m', exec (twoOperand false Gpr.scratch (Inst.mov (.ofWidth w))
      (fun d _ => [.shift (.shift op) (.ofWidth w) d]) out value .rcx) m = (.ok .next, m') ∧
      m'.gpr out
        = (op.apply (low w (m.gpr value)) ((m.gpr .rcx).toNat % w.bits)).setWidth 64 := by
    refine exec_twoOperand m (F := fun x y => (op.apply (low w x) (y.toNat % w.bits)).setWidth 64)
      (fun d r hr m => ?_) (fun hcomm => absurd hcomm (by decide)) (fun x y => ?_) (fun x y => ?_)
      (by decide)
    · obtain rfl : r = .rcx := hr.resolve_right (by decide)
      exact ⟨_, exec_cons_next (step_shift m w d op), gpr_setGpr_self _ _ _⟩
    · rw [low_setWidth]
    · rw [low_setWidth]
  rw [hexec, hinputs, List.map_cons, List.map_cons, hvalue, toNat_low_mod]
  exact .of_gpr hout hm'

/-- The upper half of the dividend carries on the sign, or is cleared. -/
theorem step_extendDividend (w : IntWidth) (signed : Bool) : ∃ m',
    step (extendDividend w signed) m = (.ok .next, m') ∧ (∀ r, r ≠ .rdx → m'.gpr r = m.gpr r) ∧
    if signed then (low w (m'.gpr .rdx)).toInt = if (low w (m.gpr .rax)).msb then -1 else 0
    else low w (m'.gpr .rdx) = 0 := by
  cases signed with
  | false =>
      refine ⟨_, step_arith m .w32 .rdx .rdx .xor, fun r hr => ?_, ?_⟩
      · rw [gpr_setGpr_of_ne _ hr, gpr_setFlags]
      · rw [gpr_setGpr_self, Arith.apply, BitVec.xor_self]
        cases w <;> rfl
  | true =>
      cases w with
      | w64 =>
          refine ⟨_, step_cqo m, fun r hr => gpr_setGpr_of_ne _ hr _, ?_⟩
          rw [gpr_setGpr_self, low_w64, low_w64]
          exact toInt_sshiftRight_sign (m.gpr .rax)
      | w32 =>
          refine ⟨_, step_cdq m, fun r hr => gpr_setGpr_of_ne _ hr _, ?_⟩
          rw [gpr_setGpr_self]
          have hlow := low_setWidth (w := .w32) (((m.gpr .rax).setWidth 32).sshiftRight 31)
          exact (congrArg BitVec.toInt hlow).trans (toInt_sshiftRight_sign _)

/-- The instructions of a division divide a number that is extended to double length as its sign
says. They get to the division with only the upper half changed. -/
theorem exec_divideBy (w : IntWidth) (op : Division) {divisor : Gpr} (hne : divisor ≠ .rdx) :
    ∃ m' high, (∀ r, r ≠ .rdx → m'.gpr r = m.gpr r) ∧
      (if op.isSigned then high.toInt = if (low w (m.gpr .rax)).msb then -1 else 0 else high = 0) ∧
      exec (divideBy w op.isSigned divisor) m
        = (divide op.isSigned high (low w (m.gpr .rax)) (low w (m.gpr divisor))).elim
            (.error .divideError, m') fun p =>
              (.ok .next, (m'.setGpr .rax (p.1.setWidth 64)).setGpr .rdx (p.2.setWidth 64)) := by
  obtain ⟨m', hstep, hframe, hhigh⟩ := step_extendDividend m w op.isSigned
  refine ⟨m', low w (m'.gpr .rdx), hframe, hhigh, ?_⟩
  have hdivide := step_divide m' w divisor op.isSigned
  rw [hframe divisor hne, hframe .rax (by decide)] at hdivide
  rw [divideBy, exec_cons_next hstep]
  cases hq : divide op.isSigned (low w (m'.gpr .rdx)) (low w (m.gpr .rax)) (low w (m.gpr divisor)) with
  | none =>
      rw [hq] at hdivide
      exact exec_cons_error hdivide
  | some p =>
      rw [hq] at hdivide
      exact exec_cons_next hdivide

theorem division_yields {w : IntWidth} {op : Division} (h : division s = .ok is)
    (hop : s.node.op = .intBinary w (.division op)) (hleft : s.inputs[0]? = some (.gpr .rax))
    (hright : s.inputs[1]? ≠ some (.gpr .rdx))
    (hout : s.output = some (.gpr (if op.isRemainder then .rdx else .rax))) :
    s.Yields m.heap (Words.value .heap s.node (s.inputs.map m.word) m.heap) (exec is m) := by
  obtain ⟨w', signed, divisor, hof, hdivisor, rfl⟩ := division_ok h
  obtain ⟨rfl, rfl⟩ : w = w' ∧ op.isSigned = signed := by
    rw [divisionOf, show s.op = _ from hop] at hof
    exact Prod.mk.inj (Except.ok.inj hof)
  obtain ⟨rest, hinputs⟩ := eq_cons_cons_of_getElem? hleft hdivisor
  have hne : divisor ≠ .rdx := by
    rintro rfl
    exact hright hdivisor
  obtain ⟨m', high, -, hhigh, hexec⟩ := exec_divideBy m w op hne
  have happly := divide_eq_apply? (d := low w (m.gpr divisor)) op (by cases w <;> decide) hhigh
  have hvalue : Words.value .heap s.node (s.inputs.map m.word) m.heap
      = Words.binary w (.division op) (m.gpr .rax) (m.gpr divisor) m.heap := by
    rw [hinputs, List.map_cons, List.map_cons]
    simp only [Words.value, hop]
    rfl
  rw [hexec, hvalue, Words.binary, IntBinary.apply?, ← happly]
  cases divide op.isSigned high (low w (m.gpr .rax)) (low w (m.gpr divisor)) with
  | none => exact .trapped
  | some p =>
      refine .of_gpr hout ?_
      cases hrem : op.isRemainder
      · rw [Division.keep, hrem, if_neg Bool.false_ne_true, if_neg Bool.false_ne_true,
          gpr_setGpr_of_ne _ (by decide), gpr_setGpr_self]
      · rw [Division.keep, hrem, if_pos rfl, if_pos rfl, gpr_setGpr_self]

theorem bitCount_yields (h : bitCount s = .ok is) :
    s.Yields m.heap (Words.value .heap s.node (s.inputs.map m.word) m.heap) (exec is m) := by
  obtain ⟨w, op, out, input, hop, hout, hinput, rfl⟩ := bitCount_ok h
  obtain ⟨rest, hinputs⟩ := eq_cons_of_getElem? hinput
  rw [exec_cons_next (step_count m w out input op), hinputs, List.map_cons]
  simp only [Words.value, Words.pure?, show s.node.op = _ from hop]
  exact .of_gpr hout (gpr_setGpr_self _ _ _)

theorem extend32_yields (h : extend32 s = .ok is) :
    s.Yields m.heap (Words.value .heap s.node (s.inputs.map m.word) m.heap) (exec is m) := by
  obtain ⟨signed, out, input, hop, hout, hinput, rfl⟩ := extend32_ok h
  obtain ⟨rest, hinputs⟩ := eq_cons_of_getElem? hinput
  rw [hinputs, List.map_cons]
  simp only [Words.value, Words.pure?, show s.node.op = _ from hop]
  cases signed with
  | true =>
      rw [if_pos rfl, exec_cons_next (step_signed32 m out input)]
      exact .of_gpr hout (gpr_setGpr_self _ _ _)
  | false =>
      have hstep : step (.mov .s32 out input) m = _ := step_mov m .w32 out input
      rw [if_neg Bool.false_ne_true, exec_cons_next hstep]
      exact .of_gpr hout (gpr_setGpr_self _ _ _)

theorem intConst_yields {w : IntWidth} (h : intConst s = .ok is) (hop : s.node.op = .const (.int w)) :
    s.Yields m.heap (Words.value .heap s.node (s.inputs.map m.word) m.heap) (exec is m) := by
  obtain ⟨l, out, hl, hout, rfl⟩ := intConst_ok h
  simp only [Words.value, Words.pure?, hop, hl, Site.op]
  cases w with
  | w32 =>
      have hstep (v : Word) : step (.movImm .s32 out v) m = _ := step_movImm m .w32 out v
      rw [if_pos rfl, exec_cons_next (hstep _)]
      refine .of_gpr hout ((gpr_setGpr_self _ _ _).trans (congrArg (BitVec.setWidth 64) ?_))
      exact setWidth_extend32 true _
  | w64 =>
      have hstep (v : Word) : step (.movImm .s64 out v) m = _ := step_movImm m .w64 out v
      rw [if_neg (by simp), exec_cons_next (hstep _)]
      exact .of_gpr hout (gpr_setGpr_self _ _ _)

theorem intBool_yields (h : intBool s = .ok is) :
    s.Yields m.heap (Words.value .heap s.node (s.inputs.map m.word) m.heap) (exec is m) := by
  obtain ⟨w, out, input, hop, hout, hinput, rfl⟩ := intBool_ok h
  obtain ⟨rest, hinputs⟩ := eq_cons_of_getElem? hinput
  have htest := step_test m w input input
  obtain ⟨m', hexec, hm'⟩ := exec_materialize
    (m.setFlags (Arith.and.flags (low w (m.gpr input)) (low w (m.gpr input)))) out .ne
  rw [exec_cons_next htest, hexec, hinputs, List.map_cons]
  simp only [Words.value, Words.pure?, show s.node.op = _ from hop]
  refine .of_gpr hout (hm'.trans ?_)
  rw [flags_setFlags, holds_flags_and_self]
  rfl

theorem compare_yields (h : compare s = .ok is) :
    s.Yields m.heap (Words.value .heap s.node (s.inputs.map m.word) m.heap) (exec is m) := by
  obtain ⟨c, out, left, right, hop, hout, hleft, hright, rfl⟩ := compare_ok h
  obtain ⟨rest, hinputs⟩ := eq_cons_cons_of_getElem? hleft hright
  obtain ⟨m', hexec, hm'⟩ := exec_materialize
    (m.setFlags (Arith.sub.flags (m.gpr left) (m.gpr right))) out (.ofComparison c)
  rw [exec_cons_next (step_cmp m left right), hexec, hinputs, List.map_cons, List.map_cons]
  simp only [Words.value, Words.pure?, show s.node.op = _ from hop]
  refine .of_gpr hout (hm'.trans ?_)
  rw [flags_setFlags, holds_flags_sub]
  rfl

theorem updateState_yields (h : updateState s = .ok is) (hop : s.node.op = .updateState) :
    s.Yields m.heap (Words.value .heap s.node (s.inputs.map m.word) m.heap) (exec is m) := by
  obtain ⟨out, state, hout, hstate, rfl⟩ := updateState_ok h
  obtain ⟨rest, hinputs⟩ := eq_cons_of_getElem? hstate
  rw [hinputs, List.map_cons]
  simp only [Words.value, Words.pure?, hop]
  split
  · next heq =>
      subst heq
      exact .of_gpr hout rfl
  · rw [exec_cons_next (step_mov64 m out state)]
    exact .of_gpr hout (gpr_setGpr_self _ _ _)

theorem step_intLoad (access : TargetLoad) (hint : access.cls = .int) (out : Gpr) (a : Address)
    (hp : (m.address a).toNat + access.bytes ≤ m.heap.size) : step (intLoad access out a) m
      = (.ok .next, m.setGpr out (access.extend (number m.heap access.bytes (m.address a)))) := by
  have hnumber := setWidth_ofNat_number m hp
  cases access with
  | float w => exact absurd hint (by simp [TargetLoad.cls])
  | word w =>
      cases w with
      | w32 =>
          exact (step_load m .s32 out a hp).trans (congrArg (fun v => (_, m.setGpr out v)) hnumber)
      | w64 =>
          exact (step_load m .s64 out a hp).trans (congrArg (fun v => (_, m.setGpr out v)) hnumber)
  | extended p signed =>
      cases p <;> cases signed
      case p8.false =>
        exact (step_widen m .unsigned8 out a hp).trans (congrArg (fun v => (_, m.setGpr out v)) hnumber)
      case p8.true => exact step_widen m .signed8 out a hp
      case p16.false =>
        exact (step_widen m .unsigned16 out a hp).trans (congrArg (fun v => (_, m.setGpr out v)) hnumber)
      case p16.true => exact step_widen m .signed16 out a hp
      case p32.false =>
        exact (step_load m .s32 out a hp).trans (congrArg (fun v => (_, m.setGpr out v)) hnumber)
      case p32.true => exact step_widen m .signed32 out a hp

theorem step_intLoad_fault (access : TargetLoad) (hint : access.cls = .int) (out : Gpr) (a : Address)
    (hp : ¬(m.address a).toNat + access.bytes ≤ m.heap.size) :
    step (intLoad access out a) m = (.error (.fault (m.address a)), m) := by
  cases access with
  | float w => exact absurd hint (by simp [TargetLoad.cls])
  | word w => cases w <;> exact step_load_fault m _ out a hp
  | extended p signed =>
      cases p <;> cases signed
      all_goals first | exact step_load_fault m _ out a hp | exact step_widen_fault m _ out a hp

theorem context_yields (h : context s = .ok is) :
    s.Yields m.heap (Words.value .heap s.node (s.inputs.map m.word) m.heap) (exec is m) := by
  obtain ⟨disp, out, base, hdisp, hout, hbase, rfl⟩ := context_ok h
  obtain ⟨rest, hinputs⟩ := eq_cons_of_getElem? hbase
  have hvalue : Words.value .heap s.node (s.inputs.map m.word) m.heap
      = MemoryLayout.heapWord m.heap (m.address { base, disp }) := by
    rw [hinputs, List.map_cons, address_disp]
    unfold contextOffset at hdisp
    split at hdisp
    · next hop =>
        rw [← Except.ok.inj hdisp]
        simp only [Words.value, show s.node.op = _ from hop]
        rfl
    · next hop =>
        rw [← Except.ok.inj hdisp]
        simp only [Words.value, show s.node.op = _ from hop]
        rfl
    · exact absurd hdisp (by simp)
  rw [hvalue]
  by_cases hp : (m.address { base, disp }).toNat + 8 ≤ m.heap.size
  · have hstep : step (.load .s64 out { base, disp }) m = _ :=
      step_intLoad m (.word .w64) rfl out _ hp
    rw [exec_cons_next hstep, heapWord_of_le hp]
    exact .of_gpr hout (gpr_setGpr_self _ _ _)
  · rw [exec_cons_error (step_load_fault m .s64 out _ hp), heapWord_of_not_le hp]
    exact .trapped

theorem load_yields {access : TargetLoad} (h : load s = .ok is) (hop : s.node.op = .target (.load access))
    (hint : access.cls = .int) :
    s.Yields m.heap (Words.load .heap access (s.inputs.map m.word) m.heap) (exec is m) := by
  obtain ⟨access', base, index, hop', hbase, hindex, hload⟩ := load_ok h
  obtain rfl : access = access' := by
    rw [Site.op, hop] at hop'
    exact Target.load.inj (Operator.target.inj hop')
  obtain ⟨state, rest, hinputs⟩ := eq_cons_cons_cons_of_getElem? hbase hindex
  rcases hload with ⟨w, out, rfl, -, -⟩ | ⟨-, out, hout, rfl⟩
  · exact absurd hint (by simp [TargetLoad.cls])
  · have haddr := address_index m base index
    rw [hinputs, List.map_cons, List.map_cons, List.map_cons, word_gpr, word_gpr]
    by_cases hp : (m.gpr base + m.gpr index).toNat + access.bytes ≤ m.heap.size
    · rw [load_of_le hp, exec_cons_next (step_intLoad m access hint out _ (haddr ▸ hp)), haddr]
      exact .of_gpr hout (gpr_setGpr_self _ _ _)
    · rw [load_of_not_le hp, exec_cons_error (step_intLoad_fault m access hint out _ (haddr ▸ hp)), haddr]
      exact .trapped

/-- A bounds check jumps if the end of the access wraps or passes the size, and else copies the
address. -/
theorem exec_checkEnd {addr size stop : Gpr} (haddr : addr ≠ stop) (hsize : size ≠ stop) (out : Gpr)
    (disp : BitVec 32) (trap : Nat) {sum : Word} (hsum : m.gpr addr + disp.signExtend 64 = sum) :
    ∃ m', exec (checkEnd disp out addr size stop trap) m
      = (.ok (if sum.ult (m.gpr addr) || (m.gpr size).ult sum then .jump trap else .next), m') ∧
      ((sum.ult (m.gpr addr) || (m.gpr size).ult sum) = false → m'.gpr out = m.gpr addr) := by
  have hlea : step (.lea stop { base := addr, disp }) m = (.ok .next, m.setGpr stop sum) := by
    rw [step_lea, address_disp, hsum]
  rw [checkEnd, List.cons_append, exec_cons_next hlea, List.cons_append,
    exec_cons_next (step_cmp _ stop addr), gpr_setGpr_self, gpr_setGpr_of_ne _ haddr]
  have hwraps := holds_flags_sub sum (m.gpr addr) .ltU
  cases hwrap : sum.ult (m.gpr addr) with
  | true =>
      rw [List.cons_append, exec_jumpIf_true _ (hwraps.trans hwrap)]
      exact ⟨_, rfl, fun h => absurd h (by simp)⟩
  | false =>
      rw [List.cons_append, exec_jumpIf_false _ (hwraps.trans hwrap), List.cons_append,
        exec_cons_next (step_cmp _ stop size), gpr_setFlags, gpr_setFlags, gpr_setGpr_self,
        gpr_setGpr_of_ne _ hsize]
      have hpasses := holds_flags_sub sum (m.gpr size) .gtU
      cases hpass : (m.gpr size).ult sum with
      | true =>
          rw [List.cons_append, exec_jumpIf_true _ (hpasses.trans hpass)]
          exact ⟨_, rfl, fun h => absurd h (by simp)⟩
      | false =>
          rw [List.cons_append, exec_jumpIf_false _ (hpasses.trans hpass), List.nil_append]
          by_cases heq : out = addr
          · rw [if_pos heq]
            refine ⟨_, rfl, fun _ => ?_⟩
            rw [heq, gpr_setFlags, gpr_setFlags, gpr_setGpr_of_ne _ haddr]
          · rw [if_neg heq, exec_cons_next (step_mov64 _ out addr)]
            refine ⟨_, rfl, fun _ => ?_⟩
            rw [gpr_setGpr_self, gpr_setFlags, gpr_setFlags, gpr_setGpr_of_ne _ haddr]

theorem boundsCheck_yields (h : boundsCheck s = .ok is) (hop : s.node.op = .target .boundsCheck)
    (hfree : ∀ q, s.scratches[0]? = some q → q ∉ s.inputs) :
    s.Yields m.heap (Words.value .heap s.node (s.inputs.map m.word) m.heap) (exec is m) := by
  obtain ⟨disp, l, out, addr, size, stop, hl, hdisp, hout, haddr, hsize, hstop, rfl⟩ := boundsCheck_ok h
  obtain ⟨state, rest, hinputs⟩ := eq_cons_cons_cons_of_getElem? haddr hsize
  have hne {r : Gpr} {k : Nat} (hr : s.inputs[k]? = some (.gpr r)) : r ≠ stop := by
    rintro rfl
    exact hfree _ hstop (List.mem_of_getElem? hr)
  have hvalue : Words.value .heap s.node (s.inputs.map m.word) m.heap
      = Words.checkBounds (disp.signExtend 64) (m.gpr addr) (m.gpr size) m.heap := by
    rw [hinputs, hdisp]
    simp only [List.map_cons, word_gpr, Words.value, hop, hl]
    rfl
  obtain ⟨m', hexec, hcopied⟩ := exec_checkEnd m (hne haddr) (hne hsize) out disp s.trap rfl
  rw [hvalue, Words.checkBounds, hexec]
  split
  · exact .check
  · next hfits => exact .of_gpr hout (hcopied (Bool.eq_false_iff.mpr hfits))

theorem store_computes {access : TargetStore} (h : store s = .ok is)
    (hop : s.node.op = .target (.store access)) (hint : access.cls = .int) :
    s.Computes ((Words.store .heap access (s.inputs.map m.word) m.heap).map fun heap => (none, heap))
      (exec is m) := by
  obtain ⟨access', base, index, hop', hbase, hindex, hstore⟩ := store_ok h
  obtain rfl : access = access' := by
    rw [Site.op, hop] at hop'
    exact Target.store.inj (Operator.target.inj hop')
  obtain ⟨state, rest, hinputs⟩ := eq_cons_cons_cons_of_getElem? hbase hindex
  rcases hstore with ⟨w, src, rfl, -, -⟩ | ⟨size, src, rfl, hsrc, rfl⟩
  · exact absurd hint (by simp [TargetStore.cls])
  · rw [hinputs] at hsrc
    obtain ⟨rest, rfl⟩ : ∃ rest', rest = .gpr src :: rest' := eq_cons_of_getElem? hsrc
    have haddr := address_index m base index
    have hbytes : (TargetStore.int size).bytes = size.bytes := by cases size <;> rfl
    rw [hinputs]
    simp only [List.map_cons, word_gpr]
    by_cases hp : (m.gpr base + m.gpr index).toNat + size.bytes ≤ m.heap.size
    · rw [store_of_le (hbytes ▸ hp), exec_cons_next (step_store m size src _ (haddr ▸ hp)), haddr, hbytes]
      exact .stored (m := { m with heap := _ })
    · rw [store_of_not_le (hbytes ▸ hp), exec_cons_error (step_store_fault m size src _ (haddr ▸ hp)),
        haddr]
      exact .trapped

theorem jumps_leaves {c : Condition} {t o : Nat} (ht : s.successors[0]? = some t)
    (ho : s.successors[1]? = some o) :
    s.Leaves (.ok (.goto (if m.flags.holds c then 0 else 1))) (exec (jumps s c t o) m) := by
  have hinverse := holds_inverse m.flags c
  unfold jumps
  cases hc : m.flags.holds c with
  | true =>
      rw [if_pos rfl]
      rw [hc] at hinverse
      by_cases hft : s.fallthrough = some t
      · rw [if_pos hft]
        split
        · exact .fall ht hft
        · rw [exec_jumpIf_false m hinverse]
          exact .fall ht hft
      · rw [if_neg hft]
        split
        · rw [exec_jumpIf_true m hc]
          exact .jump ht
        · rw [exec_jumpIf_true m hc]
          exact .jump ht
  | false =>
      rw [if_neg Bool.false_ne_true]
      rw [hc] at hinverse
      by_cases hfo : s.fallthrough = some o
      · rw [if_pos hfo, if_pos hfo]
        split
        · exact .fall ho hfo
        · rw [exec_jumpIf_false m hc]
          exact .fall ho hfo
      · rw [if_neg hfo, if_neg hfo]
        split
        · rw [exec_jumpIf_true m hinverse]
          exact .jump ho
        · rw [exec_jumpIf_false m hc]
          exact .jump ho

theorem branch_leaves (h : branch s = .ok is) (hop : s.node.op = .branch) :
    s.Leaves (Words.exit s.node (s.inputs.map m.word)) (exec is m) := by
  obtain ⟨predicate, t, o, hpredicate, ht, ho, rfl⟩ := branch_ok h
  obtain ⟨rest, hinputs⟩ := eq_cons_of_getElem? hpredicate
  have hstep : step (.gprs .test .s64 predicate predicate) m = _ := step_test m .w64 predicate predicate
  have hjumps := jumps_leaves (m.setFlags (Arith.and.flags (low .w64 (m.gpr predicate))
    (low .w64 (m.gpr predicate)))) (c := .ne) ht ho
  rw [flags_setFlags, holds_flags_and_self, low_w64] at hjumps
  rw [exec_cons_next hstep, hinputs]
  simp only [List.map_cons, word_gpr, Words.exit, hop, ← bne_iff_ne]
  exact hjumps

theorem branchOn_leaves (h : branchOn s = .ok is) :
    s.Leaves (Words.exit s.node (s.inputs.map m.word)) (exec is m) := by
  obtain ⟨c, left, right, t, o, hop, hleft, hright, ht, ho, rfl⟩ := branchOn_ok h
  obtain ⟨rest, hinputs⟩ := eq_cons_cons_of_getElem? hleft hright
  have hjumps := jumps_leaves (m.setFlags (Arith.sub.flags (m.gpr left) (m.gpr right)))
    (c := .ofComparison c) ht ho
  rw [flags_setFlags, holds_flags_sub] at hjumps
  rw [exec_cons_next (step_cmp m left right), hinputs]
  simp only [List.map_cons, word_gpr, Words.exit, show s.node.op = _ from hop]
  exact hjumps

theorem jump_leaves (h : jump s = .ok is) (hop : s.node.op = .jump) :
    s.Leaves (Words.exit s.node (s.inputs.map m.word)) (exec is m) := by
  obtain ⟨t, ht, rfl⟩ := jump_ok h
  simp only [Words.exit, hop]
  split
  · next hft => exact .fall ht hft
  · exact .jump ht

theorem ret_leaves (hop : s.node.op = .ret) (hgpr : ∀ r, s.inputs.head? = some r → ∃ q, r = .gpr q) :
    s.Leaves (Words.exit s.node (s.inputs.map m.word)) (exec (ret s) m) := by
  simp only [Words.exit, hop, List.head?_map]
  unfold ret
  cases hr : s.inputs.head? with
  | none =>
      rw [List.nil_append, exec_ret]
      exact .leave fun w hw => absurd hw (by simp)
  | some r =>
      obtain ⟨q, rfl⟩ := hgpr r hr
      dsimp only
      split
      · next heq =>
          rw [List.nil_append, exec_ret]
          subst heq
          exact .leave fun w hw => Option.some.inj hw
      · rw [List.cons_append, exec_cons_next (step_mov64 m .rax q), List.nil_append, exec_ret]
        refine .leave fun w hw => ?_
        rw [gpr_setGpr_self]
        exact Option.some.inj hw

theorem intRet_leaves (hop : s.node.op = .target .intRet) (hrax : s.inputs[0]? = some (Reg.gpr .rax)) :
    s.Leaves (Words.exit s.node (s.inputs.map m.word)) (exec [Inst.ret] m) := by
  obtain ⟨rest, hinputs⟩ := eq_cons_of_getElem? hrax
  rw [hinputs, exec_ret]
  simp only [List.map_cons, word_gpr, Words.exit, hop]
  exact .leave fun w hw => Option.some.inj hw

end Emit

namespace Operator

/-- Operators on integers, memory and control, among those of the target. -/
def onWords : Operator → Bool
  | const ty | bool ty => ty.isInt
  | floatBinary _ _ | floatUnary _ _ | target .floatRet => false
  | target (.load a) => a.cls = .int
  | target (.store a) => a.cls = .int
  | _ => true

end Operator

namespace Constraint.Met

variable {c : Constraint} {x : Assignment} {d : Demand} {r : Reg}

/-- A temporary is not an input. -/
theorem scratch_notMem (h : c.Met x) (hd : d ∈ c.ofRole .scratch)
    (hr : x.scratches[d.index]? = some r) : r ∉ x.inputs.map Prod.snd := by
  obtain ⟨r', hr', -, -, hfree⟩ := h.scratch d hd
  obtain rfl : r' = r := Option.some.inj (hr'.symm.trans hr)
  intro hmem
  obtain ⟨p, hp, heq⟩ := List.mem_map.mp hmem
  exact hfree p hp heq

/-- A fixed temporary is not an input. -/
theorem fixed_scratch (h : c.Met x) (hd : d ∈ c.ofRole .scratch) (hr : d.requirement = .fixed r) :
    ∀ q ∈ x.inputs.map Prod.snd, q ≠ r := by
  obtain ⟨r', hr', hmet, -⟩ := h.scratch d hd
  obtain rfl : r = r' := by simpa [hr, Requirement.isMetBy] using hmet
  rintro q hq rfl
  exact h.scratch_notMem hd hr' hq

theorem fixed_input (h : c.Met x) (hd : d ∈ c.ofRole .input) (hr : d.requirement = .fixed r) :
    (x.inputs.map Prod.snd)[d.index]? = some r := by
  obtain ⟨v, r', hget, hmet⟩ := h.input d hd
  obtain rfl : r = r' := by simpa [hr, Requirement.isMetBy] using hmet
  rw [List.getElem?_map, hget]
  rfl

theorem fixed_output (h : c.Met x) (hc : c.output? = some (.fixed r)) {r' : Reg}
    (hx : x.output = some r') : x.output = some r := by
  have hmet := h.output _ _ hc hx
  obtain rfl : r = r' := by simpa [Requirement.isMetBy] using hmet
  exact hx

/-- The divisor is not where the upper half of the dividend goes. -/
theorem divisor_ne {output : Gpr} (h : (Constraint.division output).Met x) :
    (x.inputs.map Prod.snd)[1]? ≠ some (.gpr .rdx) := by
  intro hrdx
  obtain ⟨⟨v, q⟩, hget, rfl⟩ : ∃ p, x.inputs[1]? = some p ∧ p.2 = .gpr .rdx := by
    simpa using hrdx
  have hpinned : (Constraint.division output).isPinned x v (.gpr .rdx) = true :=
    h.clobber (.gpr .rdx) (List.mem_cons_of_mem _ (List.mem_cons_of_mem _ (List.mem_singleton_self _)))
      ⟨.input, 1, .gpr⟩ (List.mem_cons_of_mem _ (List.mem_singleton_self _)) rfl v hget
  exact Bool.false_ne_true hpinned

end Constraint.Met

namespace Emission

open Machine

variable {g : Graph} {b : Nat} {block : Block} {n : Node} {f : Family} {x : Assignment}
  {is : List Inst}

/-- The instructions of a node keep the heap unless they store. -/
theorem heap_of_emit (hemit : f.emit (siteOf g b block n x) = .ok is) (hf : f ≠ .store) (m : Machine) :
    (exec is m).2.heap = m.heap := by
  refine (Family.exec_changes hemit m).heap ?_
  simpa using hf

/-- Outside of memory accesses a node only makes a value. -/
theorem computes_of_yields (hfamily : n.op.family? = some f)
    (hemit : f.emit (siteOf g b block n x) = .ok is) {m : Machine} (hload : f ≠ .load)
    (hstore : f ≠ .store)
    (hyields : (siteOf g b block n x).Yields m.heap
      (Words.value .heap n ((siteOf g b block n x).inputs.map m.word) m.heap) (exec is m)) :
    (siteOf g b block n x).Computes
      (Words.compute .heap n ((siteOf g b block n x).inputs.map m.word) m.heap) (exec is m) := by
  rw [Words.compute_of_value]
  · exact hyields.computes (heap_of_emit hemit hstore m)
  · rintro access heq
    rw [heq] at hfamily
    exact hload (Option.some.inj hfamily).symm
  · rintro access heq
    rw [heq] at hfamily
    exact hstore (Option.some.inj hfamily).symm

/-- The instructions of a node on words compute what the node does. -/
theorem emit_computes (hfamily : n.op.family? = some f) (hmet : (f.constraint n).Met x)
    (houtput : (f.constraint n).output?.isSome = true → x.output.isSome = true)
    (hemit : f.emit (siteOf g b block n x) = .ok is) (hwords : n.op.onWords = true)
    (hterm : n.op.isTerminator = false) {m : Machine}
    (hstate : n.op = .state → m.gpr Gpr.state = 0) :
    (siteOf g b block n x).Computes
      (Words.compute .heap n ((siteOf g b block n x).inputs.map m.word) m.heap) (exec is m) := by
  obtain ⟨hterminator, hop⟩ := Operator.of_family? hfamily
  have hvalue := computes_of_yields hfamily hemit (m := m)
  have hno {P : Prop} (ht : f.isTerminator = true) : P :=
    absurd (hterminator.symm.trans hterm) (by simp [ht])
  cases f
  case arith =>
    refine hvalue (by decide) (by decide) (Emit.arith_yields m (Emit.whole_eq_ok.mp hemit) ?_)
    refine hmet.fixed_scratch (d := ⟨.scratch, 0, .fixed (.gpr Gpr.scratch)⟩) ?_ rfl
    cases hc : n.op.isCommutativeInt <;> simp only [Family.constraint, hc]
    all_goals exact List.mem_singleton_self _
  case shift =>
    refine hvalue (by decide) (by decide) (Emit.shift_yields m (Emit.whole_eq_ok.mp hemit) ?_)
    exact hmet.fixed_input (d := ⟨.input, 1, .fixed (.gpr .rcx)⟩)
      (List.mem_cons_of_mem _ (List.mem_singleton_self _)) rfl
  case division =>
    obtain ⟨w, op, hop⟩ := hop
    have hc : Family.constraint .division n
        = Constraint.division (if op.isRemainder then .rdx else .rax) := by
      simp only [Family.constraint, hop, Operator.divisionOutput]
    rw [hc] at houtput hmet
    obtain ⟨r, hr⟩ := Option.isSome_iff_exists.mp (houtput rfl)
    refine hvalue (by decide) (by decide)
      (Emit.division_yields m (Emit.whole_eq_ok.mp hemit) hop ?_ ?_ (hmet.fixed_output rfl hr))
    · exact hmet.fixed_input (d := ⟨.input, 0, .fixed (.gpr .rax)⟩) List.mem_cons_self rfl
    · exact hmet.divisor_ne
  case bitCount =>
    exact hvalue (by decide) (by decide) (Emit.bitCount_yields m (Emit.whole_eq_ok.mp hemit))
  case extend32 =>
    exact hvalue (by decide) (by decide) (Emit.extend32_yields m (Emit.whole_eq_ok.mp hemit))
  case intConst =>
    obtain ⟨w, hop⟩ := hop
    exact hvalue (by decide) (by decide) (Emit.intConst_yields m (Emit.whole_eq_ok.mp hemit) hop)
  case intBool =>
    exact hvalue (by decide) (by decide) (Emit.intBool_yields m (Emit.whole_eq_ok.mp hemit))
  case compare =>
    exact hvalue (by decide) (by decide) (Emit.compare_yields m (Emit.whole_eq_ok.mp hemit))
  case context =>
    exact hvalue (by decide) (by decide) (Emit.context_yields m (Emit.whole_eq_ok.mp hemit))
  case boundsCheck =>
    refine hvalue (by decide) (by decide) (Emit.boundsCheck_yields m (Emit.whole_eq_ok.mp hemit) hop ?_)
    exact fun q hq => hmet.scratch_notMem (d := ⟨.scratch, 0, .gpr⟩) (List.mem_singleton_self _) hq
  case load =>
    obtain ⟨access, hop⟩ := hop
    have hint : access.cls = .int := by simpa [hop, Operator.onWords] using hwords
    have hyields := Emit.load_yields m (Emit.whole_eq_ok.mp hemit) hop hint
    have hheap := heap_of_emit hemit (by decide) m
    obtain ⟨op, control, literals, inputs⟩ := n
    obtain rfl : op = _ := hop
    rw [Words.compute_load]
    exact hyields.computes hheap
  case store =>
    obtain ⟨access, hop⟩ := hop
    have hint : access.cls = .int := by simpa [hop, Operator.onWords] using hwords
    have hcomputes := Emit.store_computes m (Emit.whole_eq_ok.mp hemit) hop hint
    obtain ⟨op, control, literals, inputs⟩ := n
    obtain rfl : op = _ := hop
    rw [Words.compute_store]
    exact hcomputes
  case state =>
    obtain ⟨r, hr⟩ := Option.isSome_iff_exists.mp (houtput rfl)
    have hout : x.output = some (.gpr Gpr.state) := hmet.fixed_output rfl hr
    refine hvalue (by decide) (by decide) ?_
    rw [← Except.ok.inj hemit]
    simp only [Words.value, Words.pure?, hop]
    exact .of_gpr hout (hstate hop)
  case updateState =>
    exact hvalue (by decide) (by decide) (Emit.updateState_yields m (Emit.whole_eq_ok.mp hemit) hop)
  case floatBinary =>
    obtain ⟨w, op, hop⟩ := hop
    exact absurd hwords (by simp [hop, Operator.onWords])
  case floatUnary =>
    obtain ⟨w, op, hop⟩ := hop
    exact absurd hwords (by simp [hop, Operator.onWords])
  case floatConst =>
    obtain ⟨w, hop⟩ := hop
    exact absurd hwords (by simp [hop, Operator.onWords, ValueType.isInt])
  case floatBool =>
    obtain ⟨w, hop⟩ := hop
    exact absurd hwords (by simp [hop, Operator.onWords, ValueType.isInt])
  all_goals exact hno rfl

/-- The instructions of a terminator on words go where the terminator leads. -/
theorem emit_leaves (hfamily : n.op.family? = some f) (hmet : (f.constraint n).Met x)
    (hemit : f.emit (siteOf g b block n x) = .ok is) (hwords : n.op.onWords = true)
    (hterm : n.op.isTerminator = true) (hgpr : n.op = .ret → ∀ p ∈ x.inputs, ∃ r, p.2 = .gpr r)
    (m : Machine) :
    (siteOf g b block n x).Leaves (Words.exit n ((siteOf g b block n x).inputs.map m.word))
      (exec is m) := by
  obtain ⟨hterminator, hop⟩ := Operator.of_family? hfamily
  have hno {P : Prop} (ht : f.isTerminator = false) : P :=
    absurd (hterminator.symm.trans hterm) (by simp [ht])
  cases f
  case ret =>
    rw [← Except.ok.inj hemit]
    refine Emit.ret_leaves m hop fun r hr => ?_
    obtain ⟨p, hp, rfl⟩ := List.mem_map.mp (List.mem_of_mem_head? hr)
    exact hgpr hop p hp
  case intRet =>
    rw [← Except.ok.inj hemit]
    exact Emit.intRet_leaves m hop
      (hmet.fixed_input (d := ⟨.input, 0, .fixed (.gpr .rax)⟩) (List.mem_singleton_self _) rfl)
  case floatRet => exact absurd hwords (by simp [hop, Operator.onWords])
  case branch => exact Emit.branch_leaves m hemit hop
  case branchOn => exact Emit.branchOn_leaves m hemit
  case jump => exact Emit.jump_leaves m (Emit.whole_eq_ok.mp hemit) hop
  all_goals exact hno rfl

end Emission

end Isel
