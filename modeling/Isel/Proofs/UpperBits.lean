import Isel.Proofs.AccessBytes
import Isel.Proofs.SignBits

/-! Values of 32 bits lie in the low halves of registers, under bits that mean nothing. No instruction
that is emitted for such a value lets those bits reach a low half, the heap or a trap, so two runs that
differ in them only do the same and have the same results. -/

namespace Isel

open Machine Emission

/-! ### Machines with the same low halves -/

namespace Machine

/-- Two machines have the same heap, and the same in the low 32 bits of every register. -/
structure Alike (m m' : Machine) : Prop where
  heap : m'.heap = m.heap
  gpr : ∀ r, low .w32 (m'.gpr r) = low .w32 (m.gpr r)
  lane : ∀ r, m'.lane .single r = m.lane .single r

/-- Two machines have the same heap and the same registers, apart from bits 32 and above of some
registers. Their flags may be any. -/
structure SameExcept (hidden : Reg → Prop) (m m' : Machine) : Prop where
  heap : m'.heap = m.heap
  gpr : ∀ r, ¬hidden (.gpr r) → m'.gpr r = m.gpr r
  xmm : ∀ r, ¬hidden (.xmm r) → m'.xmm r = m.xmm r
  low : ∀ r, hidden r → (m'.word r).setWidth 32 = (m.word r).setWidth 32

theorem SameExcept.alike {hidden : Reg → Prop} {m m' : Machine} (h : SameExcept hidden m m') :
    Alike m m' where
  heap := h.heap
  gpr r := by
    by_cases hr : hidden (.gpr r)
    · exact h.low _ hr
    · rw [h.gpr r hr]
  lane r := by
    by_cases hr : hidden (.xmm r)
    · exact h.low _ hr
    · rw [Machine.lane, h.xmm r hr, Machine.lane]

namespace Alike

variable {m m' : Machine}

theorem word (h : Alike m m') (r : Reg) : (m'.word r).setWidth 32 = (m.word r).setWidth 32 := by
  cases r with
  | gpr r => exact h.gpr r
  | xmm r => exact h.lane r

theorem setFlags (h : Alike m m') (f f' : Flags) : Alike (m.setFlags f) (m'.setFlags f') :=
  ⟨h.heap, h.gpr, h.lane⟩

theorem setGpr (h : Alike m m') (d : Gpr) {v v' : Word} (hv : low .w32 v' = low .w32 v) :
    Alike (m.setGpr d v) (m'.setGpr d v') where
  heap := h.heap
  gpr r := by
    by_cases hr : r = d
    · rw [hr, gpr_setGpr_self, gpr_setGpr_self, hv]
    · rw [gpr_setGpr_of_ne _ hr, gpr_setGpr_of_ne _ hr, h.gpr r]
  lane := h.lane

theorem setXmm (h : Alike m m') (d : Xmm) {x x' : Lanes}
    (hx : x'.low.setWidth 32 = x.low.setWidth 32) : Alike (m.setXmm d x) (m'.setXmm d x') where
  heap := h.heap
  gpr := h.gpr
  lane r := by
    by_cases hr : r = d
    · rw [hr, lane_setXmm_self, lane_setXmm_self]
      exact hx
    · rw [lane_setXmm_of_ne _ _ hr, lane_setXmm_of_ne _ _ hr, h.lane r]

theorem setLane (h : Alike m m') (d : Xmm) {v v' : BitVec FloatWidth.single.bits} (hv : v' = v) :
    Alike (m.setLane .single d v) (m'.setLane .single d v') := by
  subst hv
  exact h.setXmm d ((replaceLow_setWidth (by decide) _ v').trans (replaceLow_setWidth (by decide) _ v').symm)

/-- A count is taken modulo 32, so it is in the low half. -/
theorem count (h : Alike m m') (r : Gpr) : (m'.gpr r).toNat % 32 = (m.gpr r).toNat % 32 := by
  have hmod (v : Word) : v.toNat % 32 = (low .w32 v).toNat % 32 := by
    rw [BitVec.toNat_setWidth, show 2 ^ IntWidth.w32.bits = 32 * 2 ^ 27 by decide,
      Nat.mod_mul_right_mod]
  rw [hmod, hmod, h.gpr r]

end Alike

/-- Two executions ended in the same way, in machines with the same low halves. -/
structure EndAlike (x x' : Except Trap Flow × Machine) : Prop where
  outcome : x'.1 = x.1
  alike : Alike x.2 x'.2

theorem EndAlike.of_eq {x x' : Except Trap Flow × Machine} {result : Except Trap Flow}
    {m m' : Machine} (hx : x = (result, m)) (hx' : x' = (result, m')) (h : Alike m m') :
    EndAlike x x' := by
  subst hx hx'
  exact ⟨rfl, h⟩

end Machine

/-! ### Instructions -/

/-- An instruction lets nothing of an upper half reach a low half, the heap or its outcome. -/
def Inst.Confines (i : Inst) : Prop := ∀ m m', Alike m m' → EndAlike (step i m) (step i m')

namespace Inst.Confines

/-- It suffices to say where the machine goes. -/
theorem of_step {i : Inst} {F : Machine → Machine} (hstep : ∀ m, step i m = (.ok .next, F m))
    (hF : ∀ m m', Alike m m' → Alike (F m) (F m')) : i.Confines :=
  fun m m' h => .of_eq (hstep m) (hstep m') (hF m m' h)

section Gprs

variable (d r : Gpr)

theorem mov : (Inst.mov .s32 d r).Confines :=
  .of_step (fun m => step_mov m .w32 d r) fun m m' h => h.setGpr d (by rw [h.gpr r])

theorem arith (op : Arith) : (Inst.gprs (.arith op) .s32 d r).Confines := by
  refine .of_step (fun m => step_arith m .w32 d r op) fun m m' h => ?_
  refine (h.setFlags _ _).setGpr d ?_
  rw [h.gpr d, h.gpr r]

theorem shift (op : Shift) : (Inst.shift (.shift op) .s32 d).Confines := by
  refine .of_step (fun m => step_shift m .w32 d op) fun m m' h => h.setGpr d ?_
  have hcount : (m'.gpr .rcx).toNat % IntWidth.w32.bits = (m.gpr .rcx).toNat % IntWidth.w32.bits :=
    h.count .rcx
  rw [h.gpr d, hcount]

theorem count (op : BitCount) : (Inst.gprs (.count op) .s32 d r).Confines :=
  .of_step (fun m => step_count m .w32 d r op) fun m m' h => h.setGpr d (by rw [h.gpr r])

theorem cdq : Inst.cdq.Confines := by
  refine .of_step step_cdq fun m m' h => h.setGpr .rdx ?_
  have hlow : (m'.gpr .rax).setWidth 32 = (m.gpr .rax).setWidth 32 := h.gpr .rax
  rw [hlow]

/-- Whether a division traps is decided by the low halves too. -/
theorem divide (signed : Bool) : (Inst.divide (.divide signed) .s32 r).Confines := by
  intro m m' h
  have hstep := step_divide m .w32 r signed
  have hstep' := step_divide m' .w32 r signed
  rw [h.gpr .rdx, h.gpr .rax, h.gpr r] at hstep'
  cases hdivide : Isel.divide signed (low .w32 (m.gpr .rdx)) (low .w32 (m.gpr .rax))
      (low .w32 (m.gpr r)) with
  | none =>
      rw [hdivide] at hstep hstep'
      exact .of_eq hstep hstep' h
  | some p =>
      rw [hdivide] at hstep hstep'
      exact .of_eq hstep hstep' ((h.setGpr .rax rfl).setGpr .rdx rfl)

end Gprs

section Xmms

variable (d s : Xmm)

theorem movs : (Inst.xmms (.movs .single) d s).Confines :=
  .of_step (fun m => step_movs m .single d s) fun _ _ h => h.setLane d (h.lane s)

theorem scalar (op : FloatArith) : (Inst.xmms (.scalar op .single) d s).Confines :=
  .of_step (fun m => step_scalar m .single op d s) fun m m' h =>
    h.setLane d (by rw [h.lane d, h.lane s])

theorem sqrt : (Inst.xmms (.sqrt .single) d s).Confines := by
  have hstep (m : Machine) : step (.xmms (.sqrt .single) d s) m
      = (.ok .next, m.setLane .single d (Ieee.sqrt (m.lane .single s))) := rfl
  exact .of_step hstep fun m m' h => h.setLane d (by rw [h.lane s])

theorem round (mode : Rounding) : (Inst.round (.round .single) mode d s).Confines := by
  have hstep (m : Machine) : step (.round (.round .single) mode d s) m = (.ok .next,
      m.setLane .single d (Ieee.roundToIntegral (.ofImmediate mode.immediate) (m.lane .single s))) := rfl
  exact .of_step hstep fun m m' h => h.setLane d (by rw [h.lane s])

theorem allOnes : Emit.allOnes.Confines := .of_step step_allOnes fun _ _ h => h.setXmm _ rfl

/-- An operation on whole registers may be one on their low halves. -/
theorem of_lanes {i : Inst} {F : BitVec 32 → BitVec 32 → BitVec 32}
    (hstep : ∀ m, ∃ x : Lanes, step i m = (.ok .next, m.setXmm d x) ∧
      x.low.setWidth 32 = F (m.lane .single d) (m.lane .single s)) : i.Confines := by
  intro m m' h
  obtain ⟨x, hstep₁, hx⟩ := hstep m
  obtain ⟨x', hstep₂, hx'⟩ := hstep m'
  rw [h.lane d, h.lane s] at hx'
  exact .of_eq hstep₁ hstep₂ (h.setXmm d (hx'.trans hx.symm))

theorem andpd : (Inst.xmms .andpd d s).Confines :=
  of_lanes d s (F := (· &&& ·)) fun m => step_andpd m .single d s

theorem xorpd : (Inst.xmms .xorpd d s).Confines :=
  of_lanes d s (F := (· ^^^ ·)) fun m => step_xorpd m .single d s

/-- Bits move up only. The same is not true of a shift to the right. -/
theorem psllq (v : BitVec 64) : (Inst.xmmImm .psllq d v).Confines := by
  have hstep (m : Machine) : step (.xmmImm .psllq d v) m
      = (.ok .next, m.setXmm d ((m.xmm d).map (shiftLane .left v))) := rfl
  have hlow (x : BitVec 64) : (shiftLane .left v x).setWidth 32
      = if v.toNat < 64 then x.setWidth 32 <<< v.toNat else 0 := by
    unfold shiftLane
    split
    · exact BitVec.setWidth_shiftLeft_of_le (by decide)
    · rfl
  refine .of_step hstep fun m m' h => h.setXmm d ?_
  have hlane : (m'.xmm d).low.setWidth 32 = (m.xmm d).low.setWidth 32 := h.lane d
  calc (shiftLane .left v (m'.xmm d).low).setWidth 32
      = if v.toNat < 64 then (m'.xmm d).low.setWidth 32 <<< v.toNat else 0 := hlow _
    _ = if v.toNat < 64 then (m.xmm d).low.setWidth 32 <<< v.toNat else 0 := by rw [hlane]
    _ = (shiftLane .left v (m.xmm d).low).setWidth 32 := (hlow _).symm

end Xmms

end Inst.Confines

/-! ### Sequences -/

/-- Instructions, one after the other, let nothing of an upper half reach a low half, the heap or their
outcome. -/
def Confines (is : List Inst) : Prop := ∀ m m', Alike m m' → EndAlike (exec is m) (exec is m')

namespace Confines

variable {is front : List Inst}

theorem of_forall (h : ∀ i ∈ is, i.Confines) : Confines is := by
  induction is with
  | nil => exact fun m m' halike => ⟨rfl, halike⟩
  | cons i is ih =>
      obtain ⟨hi, his⟩ := List.forall_mem_cons.mp h
      intro m m' halike
      obtain ⟨houtcome, hend⟩ := hi m m' halike
      cases hstep : step i m with
      | mk result m₁ =>
          have hstep' : step i m' = (result, (step i m').2) := by
            rw [hstep] at houtcome
            exact Prod.ext houtcome rfl
          rw [hstep] at hend
          -- Either both runs end with this instruction, or both go on.
          rcases result with trap | flow
          · exact .of_eq (exec_cons_error hstep) (exec_cons_error hstep') hend
          · cases flow with
            | next =>
                rw [exec_cons_next hstep, exec_cons_next hstep']
                exact ih his _ _ hend
            | jump l => exact .of_eq (exec_cons_jump hstep) (exec_cons_jump hstep') hend
            | halt => exact .of_eq (exec_cons_halt hstep) (exec_cons_halt hstep') hend

/-- A start of the sequence may be taken as a whole. -/
theorem after {F : Machine → Machine} (hfront : ∀ m, exec (front ++ is) m = exec is (F m))
    (hF : ∀ m m', Alike m m' → Alike (F m) (F m')) (h : Confines is) : Confines (front ++ is) := by
  intro m m' halike
  rw [hfront m, hfront m']
  exact h _ _ (hF m m' halike)

end Confines

/-- Instructions that confine upper halves and leave the same whole word in a register. -/
def Fixes (out : Gpr) (is : List Inst) : Prop :=
  ∀ m m', Alike m m' → EndAlike (exec is m) (exec is m') ∧
    (exec is m').2.gpr out = (exec is m).2.gpr out

/-- It suffices to say what the last instruction writes, and where the others went. -/
theorem Fixes.of_exec {out : Gpr} {is : List Inst} {F : Machine → Machine} {v : Machine → Word}
    (hexec : ∀ m, exec is m = (.ok .next, (F m).setGpr out (v m)))
    (hF : ∀ m m', Alike m m' → Alike (F m) (F m')) (hv : ∀ m m', Alike m m' → v m' = v m) :
    Fixes out is := by
  intro m m' h
  refine ⟨.of_eq (hexec m) (hexec m') ((hF m m' h).setGpr out (by rw [hv m m' h])), ?_⟩
  rw [hexec m, hexec m', gpr_setGpr_self, gpr_setGpr_self, hv m m' h]

namespace Emit

variable {s : Site} {is : List Inst}

theorem arith_confines {op : Arith} (h : arith s = .ok is) (hop : s.op = .intBinary .w32 (.arith op)) :
    Confines is := by
  obtain ⟨op', size, out, left, right, hof, -, -, -, rfl⟩ := arith_ok h
  obtain ⟨rfl, rfl⟩ : op' = op ∧ size = .s32 := by simpa [arithOf, hop, Size.ofWidth, eq_comm] using hof
  refine .of_forall (forall_mem_twoOperand (fun d r _ => .mov d r) fun d r _ => ?_)
  exact List.forall_mem_singleton.mpr (.arith d r op')

theorem shift_confines {op : Shift} (h : shift s = .ok is) (hop : s.op = .intBinary .w32 (.shift op)) :
    Confines is := by
  obtain ⟨op', size, out, value, count, hof, -, -, -, rfl⟩ := shift_ok h
  obtain ⟨rfl, rfl⟩ : op' = op ∧ size = .s32 := by simpa [shiftOf, hop, Size.ofWidth, eq_comm] using hof
  refine .of_forall (forall_mem_twoOperand (fun d r _ => .mov d r) fun d r _ => ?_)
  exact List.forall_mem_singleton.mpr (.shift d op')

theorem division_confines {op : Division} (h : division s = .ok is)
    (hop : s.op = .intBinary .w32 (.division op)) : Confines is := by
  obtain ⟨w, signed, divisor, hof, -, rfl⟩ := division_ok h
  obtain ⟨rfl, -⟩ : w = .w32 ∧ signed = op.isSigned := by simpa [divisionOf, hop, eq_comm] using hof
  have hextend : (extendDividend .w32 signed).Confines := by
    cases signed with
    | false => exact .arith .rdx .rdx .xor
    | true => exact .cdq
  exact .of_forall (List.forall_mem_cons.mpr ⟨hextend, List.forall_mem_singleton.mpr (.divide _ signed)⟩)

theorem bitCount_confines {op : BitCount} (h : bitCount s = .ok is) (hop : s.op = .bitCount .w32 op) :
    Confines is := by
  obtain ⟨w, op', out, input, hop', -, -, rfl⟩ := bitCount_ok h
  obtain ⟨rfl, rfl⟩ : IntWidth.w32 = w ∧ op = op' := by simpa using hop.symm.trans hop'
  exact .of_forall (List.forall_mem_singleton.mpr (.count out input op))

theorem copySign_confines (d sign : Xmm) : ∀ i ∈ copySign .single d sign, i.Confines := by
  simp only [copySign, List.forall_mem_cons]
  exact ⟨.allOnes, .psllq _ _, .andpd _ _, .xorpd _ _, by simp⟩

theorem floatBinary_confines {op : FloatBinary} (h : floatBinary s = .ok is)
    (hop : s.op = .floatBinary .single op) : Confines is := by
  obtain ⟨w, op', out, left, right, hop', -, -, -, rfl⟩ := floatBinary_ok h
  obtain ⟨rfl, rfl⟩ : FloatWidth.single = w ∧ op = op' := by simpa using hop.symm.trans hop'
  refine .of_forall (forall_mem_twoOperand (fun d r _ => .movs d r) fun d r _ => ?_)
  cases op with
  | copysign => exact copySign_confines d r
  | arith op => exact List.forall_mem_singleton.mpr (.scalar d r op)

theorem copy_confines (out input : Xmm) :
    ∀ i ∈ (if out = input then [] else [Inst.xmms (.movs .single) out input]), i.Confines := by
  split
  · simp
  · exact List.forall_mem_singleton.mpr (.movs out input)

theorem floatUnary_confines {op : FloatUnary} (h : floatUnary s = .ok is)
    (hop : s.op = .floatUnary .single op) : Confines is := by
  obtain ⟨w, op', out, input, hop', -, -, rfl⟩ := floatUnary_ok h
  obtain ⟨rfl, rfl⟩ : FloatWidth.single = w ∧ op = op' := by simpa using hop.symm.trans hop'
  cases op with
  | sqrt => exact .of_forall (List.forall_mem_singleton.mpr (.sqrt out input))
  | round mode => exact .of_forall (List.forall_mem_singleton.mpr (.round out input mode))
  | abs =>
      -- A shift to the right would let upper bits down, but all bits of the mask are set before it.
      dsimp only
      rw [List.append_assoc]
      refine .after (fun m => exec_shiftedOnes m (fun _ _ => rfl) _ _) (fun m m' h => h.setXmm _ rfl)
        (.of_forall (List.forall_mem_append.mpr ⟨copy_confines out input, ?_⟩))
      exact List.forall_mem_singleton.mpr (.andpd out Xmm.maskScratch)
  | neg =>
      refine .of_forall (List.forall_mem_append.mpr ⟨List.forall_mem_append.mpr ⟨?_,
        copy_confines out input⟩, List.forall_mem_singleton.mpr (.xorpd out Xmm.maskScratch)⟩)
      exact List.forall_mem_cons.mpr ⟨.allOnes, List.forall_mem_singleton.mpr (.psllq _ _)⟩

theorem extend32_fixes (h : extend32 s = .ok is) :
    ∃ out, s.output = some (.gpr out) ∧ Fixes out is := by
  obtain ⟨signed, out, input, -, hout, -, rfl⟩ := extend32_ok h
  refine ⟨out, hout, ?_⟩
  cases signed with
  | false =>
      refine .of_exec (fun m => exec_cons_next (step_mov m .w32 out input)) (fun _ _ h => h) ?_
      intro m m' h
      rw [h.gpr input]
  | true =>
      refine .of_exec (fun m => exec_cons_next (step_signed32 m out input)) (fun _ _ h => h) ?_
      intro m m' h
      exact congrArg (BitVec.signExtend 64) (h.gpr input)

theorem intBool_fixes (h : intBool s = .ok is) (hop : s.op = .bool .i32) :
    ∃ out, s.output = some (.gpr out) ∧ Fixes out is := by
  obtain ⟨w, out, input, hop', hout, -, rfl⟩ := intBool_ok h
  obtain rfl : IntWidth.w32 = w := by simpa using hop.symm.trans hop'
  refine ⟨out, hout, .of_exec (fun m => (exec_cons_next (step_test m .w32 input input)).trans
    (exec_materialize_eq _ out .ne)) (fun m m' h => h.setFlags _ _) ?_⟩
  intro m m' h
  rw [flags_setFlags, flags_setFlags, h.gpr input]

/-- The whole low half of the number goes to the output, and the sum reads its lower part only. -/
theorem floatBool_fixes (h : floatBool s = .ok is) (hop : s.op = .bool .f32) :
    ∃ out, s.output = some (.gpr out) ∧ Fixes out is := by
  obtain ⟨w, out, input, hop', hout, -, rfl⟩ := floatBool_ok h
  obtain rfl : FloatWidth.single = w := by simpa using hop.symm.trans hop'
  have hmov (m : Machine) :
      step (.movqToGpr out input) m = (.ok .next, m.setGpr out (m.xmm input).low) := rfl
  have hmoved {m m' : Machine} (h : Alike m m') :
      Alike (m.setGpr out (m.xmm input).low) (m'.setGpr out (m'.xmm input).low) :=
    h.setGpr out (h.lane input)
  refine ⟨out, hout, .of_exec (fun m => (exec_cons_next (hmov m)).trans ((exec_cons_next
    (step_arith _ .w32 out out .add)).trans (exec_materialize_eq _ out .ne))) ?_ ?_⟩
  · intro m m' h
    exact ((hmoved h).setFlags _ _).setGpr out (by rw [(hmoved h).gpr out])
  · intro m m' h
    rw [flags_setGpr, flags_setGpr, flags_setFlags, flags_setFlags, (hmoved h).gpr out]

end Emit

/-! ### Stores -/

/-- Numbers with the same low bytes leave the same heap. -/
theorem Replaced.heap_eq {heap heap₁ heap₂ : Array Byte} {p n v v' : Nat}
    (h : Replaced heap heap₁ p n v) (h' : Replaced heap heap₂ p n v') (hv : bytesOf n v' = bytesOf n v) :
    heap₂ = heap₁ := by
  refine Array.ext_getElem? fun i => ?_
  rw [h.bytes, h'.bytes]
  by_cases hi : p ≤ i ∧ i < p + n
  · have hbyte (v : Nat) := getElem?_bytesOf (n := n) (k := i - p) v (by omega)
    rw [if_pos hi, if_pos hi, ← hbyte v', ← hbyte v, hv]
  · rw [if_neg hi, if_neg hi]

/-- A store of four bytes or fewer takes them from the low half of its value. -/
theorem StoresBytes.endAlike {access : TargetStore} {base index : Gpr} {src : Reg} {is : List Inst}
    (h : StoresBytes access base index src is) (hbytes : 8 * access.bytes ≤ 32) {m m' : Machine}
    (halike : Alike m m') (hbase : m'.gpr base = m.gpr base) (hindex : m'.gpr index = m.gpr index) :
    EndAlike (exec is m) (exec is m') := by
  have haddress : m'.gpr base + m'.gpr index = m.gpr base + m.gpr index := by rw [hbase, hindex]
  have hvalue : bytesOf access.bytes (m'.word src).toNat = bytesOf access.bytes (m.word src).toNat := by
    have hword := congrArg BitVec.toNat (halike.word src)
    rw [BitVec.toNat_setWidth, BitVec.toNat_setWidth] at hword
    rw [← bytesOf_mod _ 32 _ hbytes, hword, bytesOf_mod _ 32 _ hbytes]
  by_cases hp : (m.gpr base + m.gpr index).toNat + access.bytes ≤ m.heap.size
  · obtain ⟨heap₁, hexec, hreplaced⟩ := h.stores m hp
    obtain ⟨heap₂, hexec', hreplaced'⟩ := h.stores m' (by rw [haddress, halike.heap]; exact hp)
    rw [haddress, halike.heap] at hreplaced'
    exact .of_eq hexec hexec' ⟨hreplaced.heap_eq hreplaced' hvalue, halike.gpr, halike.lane⟩
  · have hfault' := h.faults m' (by rw [haddress, halike.heap]; omega)
    rw [haddress] at hfault'
    exact .of_eq (h.faults m (by omega)) hfault' halike

/-! ### Nodes -/

/-- The type of the value that a store takes. All but a whole word are in its low half. -/
def TargetStore.valueType : TargetStore → ValueType
  | int .s64 => .i64
  | int _ => .i32
  | float w => .float w

namespace Operator

/-- The types of the operands of an operator that computes or stores. The operands of a store begin with
the memory state and the two parts of the address. -/
def operandTypes : Operator → List ValueType
  | intBinary w _ | compare w _ => [.int w, .int w]
  | bitCount w _ => [.int w]
  | floatBinary w _ => [.float w, .float w]
  | floatUnary w _ => [.float w]
  | bool ty => [ty]
  | target (.extend32 _) => [.i32]
  | target (.int _) => [.i64, .i64]
  | target (.store access) => [.i64, .i64, .i64, access.valueType]
  | _ => []

/-- An operator that takes a 32-bit value. -/
def IsNarrow (op : Operator) : Prop := ∃ ty ∈ op.operandTypes, ty.bits = 32

instance (op : Operator) : Decidable op.IsNarrow := inferInstanceAs (Decidable (∃ ty ∈ _, _))

/-- Of the registers that hold the operands, one that holds a 32-bit operand and no 64-bit operand. -/
def HoldsNarrow (op : Operator) (rs : List Reg) (r : Reg) : Prop :=
  (∃ p ∈ op.operandTypes.zip rs, p.2 = r ∧ p.1.bits = 32) ∧
    ∀ p ∈ op.operandTypes.zip rs, p.2 = r → p.1.bits ≠ 64

instance (op : Operator) (rs : List Reg) (r : Reg) : Decidable (op.HoldsNarrow rs r) :=
  inferInstanceAs (Decidable (_ ∧ _))

end Operator

/-- Two executions ended in the same way, with the same heap and, in as many bits as its type has, with
the same result. -/
structure SameResult (type? : Option ValueType) (output : Option Reg)
    (x x' : Except Trap Flow × Machine) : Prop where
  outcome : x'.1 = x.1
  heap : x'.2.heap = x.2.heap
  result : ∀ ty, type? = some ty → ∃ out, output = some out ∧
    (x'.2.word out).setWidth ty.bits = (x.2.word out).setWidth ty.bits

namespace SameResult

variable {type? : Option ValueType} {output : Option Reg} {x x' : Except Trap Flow × Machine}

theorem of_endAlike {ty : ValueType} (h : EndAlike x x') (hty : type? = some ty) (hbits : ty.bits = 32)
    (hout : ∃ out, output = some out) : SameResult type? output x x' where
  outcome := h.outcome
  heap := h.alike.heap
  result ty' hty' := by
    obtain rfl : ty = ty' := Option.some.inj (hty.symm.trans hty')
    obtain ⟨out, hout⟩ := hout
    rw [hbits]
    exact ⟨out, hout, h.alike.word out⟩

theorem of_fixes {is : List Inst} {m m' : Machine} (h : ∃ out, output = some (.gpr out) ∧ Fixes out is)
    (halike : Alike m m') : SameResult type? output (exec is m) (exec is m') := by
  obtain ⟨out, hout, hfixes⟩ := h
  obtain ⟨hend, hgpr⟩ := hfixes m m' halike
  exact ⟨hend.outcome, hend.alike.heap, fun ty _ => ⟨_, hout, congrArg (BitVec.setWidth ty.bits) hgpr⟩⟩

end SameResult

/-- The parts of the address of a store are whole words. -/
theorem Operator.not_holdsNarrow {access : TargetStore} {rs : List Reg} {r : Reg} {i : Nat}
    (hr : rs[i]? = some r) (hi : i < 3) :
    ¬(Operator.target (.store access)).HoldsNarrow rs r := by
  have htype : (Operator.target (.store access)).operandTypes[i]? = some .i64 := by
    obtain rfl | rfl | rfl : i = 0 ∨ i = 1 ∨ i = 2 := by omega
    all_goals rfl
  have hmem : (ValueType.i64, r) ∈ (Operator.target (.store access)).operandTypes.zip rs :=
    List.mem_of_getElem? (List.getElem?_zip_eq_some.mpr ⟨htype, hr⟩)
  intro hnarrow
  exact hnarrow.2 _ hmem rfl rfl

theorem IntWidth.eq_w32 {w : IntWidth} (h : w.bits = 32) : w = .w32 := by
  cases w with
  | w32 => rfl
  | w64 => cases h

theorem FloatWidth.eq_single {w : FloatWidth} (h : w.bits = 32) : w = .single := by
  cases w with
  | single => rfl
  | double => cases h

theorem TargetStore.bytes_of_valueType {access : TargetStore} (h : access.valueType.bits = 32) :
    8 * access.bytes ≤ 32 := by
  rcases access with (_ | _ | _ | _) | (_ | _)
  all_goals first | decide | cases h

/-- The operators of the target that take 32-bit values. -/
inductive Operator.Narrow : Operator → Prop
  | intBinary (o : IntBinary) : Narrow (.intBinary .w32 o)
  | bitCount (o : BitCount) : Narrow (.bitCount .w32 o)
  | floatBinary (o : FloatBinary) : Narrow (.floatBinary .single o)
  | floatUnary (o : FloatUnary) : Narrow (.floatUnary .single o)
  | intBool : Narrow (.bool .i32)
  | floatBool : Narrow (.bool .f32)
  | extend32 (signed : Bool) : Narrow (.target (.extend32 signed))
  | store (access : TargetStore) (h : 8 * access.bytes ≤ 32) : Narrow (.target (.store access))

theorem Operator.IsNarrow.narrow {op : Operator} {f : Family} (h : op.IsNarrow)
    (hf : op.family? = some f) : op.Narrow := by
  obtain ⟨ty, hty, hbits⟩ := h
  cases op with
  | intBinary w o | bitCount w o =>
      obtain rfl : ty = .int w := by simpa [operandTypes] using hty
      obtain rfl := IntWidth.eq_w32 hbits
      constructor
  | floatBinary w o | floatUnary w o =>
      obtain rfl : ty = .float w := by simpa [operandTypes] using hty
      obtain rfl := FloatWidth.eq_single hbits
      constructor
  | compare w o =>
      obtain rfl : ty = .int w := by simpa [operandTypes] using hty
      obtain rfl := IntWidth.eq_w32 hbits
      cases hf
  | bool ty' =>
      obtain rfl : ty = ty' := by simpa [operandTypes] using hty
      cases ty with
      | int w =>
          obtain rfl := IntWidth.eq_w32 hbits
          exact .intBool
      | float w =>
          obtain rfl := FloatWidth.eq_single hbits
          exact .floatBool
  | target op =>
      cases op with
      | extend32 signed => exact .extend32 signed
      | int o =>
          obtain rfl : ty = .i64 := by simpa [operandTypes] using hty
          cases hbits
      | store access =>
          obtain rfl | rfl : ty = .i64 ∨ ty = access.valueType := by simpa [operandTypes] using hty
          · cases hbits
          · exact .store access (TargetStore.bytes_of_valueType hbits)
      | _ => exact absurd hty List.not_mem_nil
  | _ => exact absurd hty List.not_mem_nil

namespace Operator.Narrow

variable {s : Site} {f : Family} {is : List Inst} {m m' : Machine}

theorem ready (h : s.op.Narrow) : s.Ready := by
  unfold Site.Ready
  generalize s.op = op at h
  cases h <;> trivial

theorem not_terminator {op : Operator} (h : op.Narrow) : op.isTerminator = false := by
  cases h <;> rfl

/-- All but stores have a result, and read no more than the low half of any register. -/
theorem sameResult (h : s.op.Narrow) (hf : s.op.family? = some f)
    (hstore : ∀ access, s.op ≠ .target (.store access)) (hout : ∃ out, s.output = some out)
    (hemit : f.emit s = .ok is) (halike : Alike m m') :
    SameResult s.op.resultType s.output (exec is m) (exec is m') := by
  generalize hop : s.op = op at h hf hstore ⊢
  cases h with
  | intBinary o =>
      have hconfines : Confines is := by
        cases o with
        | arith o =>
            obtain rfl : Family.arith = f := Option.some.inj hf
            exact Emit.arith_confines (Emit.whole_eq_ok.mp hemit) hop
        | shift o =>
            obtain rfl : Family.shift = f := Option.some.inj hf
            exact Emit.shift_confines (Emit.whole_eq_ok.mp hemit) hop
        | division o =>
            obtain rfl : Family.division = f := Option.some.inj hf
            exact Emit.division_confines (Emit.whole_eq_ok.mp hemit) hop
      exact .of_endAlike (hconfines m m' halike) rfl rfl hout
  | bitCount o =>
      obtain rfl : Family.bitCount = f := Option.some.inj hf
      have hconfines := Emit.bitCount_confines (Emit.whole_eq_ok.mp hemit) hop
      exact .of_endAlike (hconfines m m' halike) rfl rfl hout
  | floatBinary o =>
      obtain rfl : Family.floatBinary = f := Option.some.inj hf
      have hconfines := Emit.floatBinary_confines (Emit.whole_eq_ok.mp hemit) hop
      exact .of_endAlike (hconfines m m' halike) rfl rfl hout
  | floatUnary o =>
      obtain rfl : Family.floatUnary = f := Option.some.inj hf
      have hconfines := Emit.floatUnary_confines (Emit.whole_eq_ok.mp hemit) hop
      exact .of_endAlike (hconfines m m' halike) rfl rfl hout
  | intBool =>
      obtain rfl : Family.intBool = f := Option.some.inj hf
      exact .of_fixes (Emit.intBool_fixes (Emit.whole_eq_ok.mp hemit) hop) halike
  | floatBool =>
      obtain rfl : Family.floatBool = f := Option.some.inj hf
      exact .of_fixes (Emit.floatBool_fixes (Emit.whole_eq_ok.mp hemit) hop) halike
  | extend32 signed =>
      obtain rfl : Family.extend32 = f := Option.some.inj hf
      exact .of_fixes (Emit.extend32_fixes (Emit.whole_eq_ok.mp hemit)) halike
  | store access => exact absurd rfl (hstore access)

end Operator.Narrow

namespace Accepted

variable {n : Node} {d : Descriptor} {x : Assignment}

theorem exists_output (h : Accepted n d x) (hterm : n.op.isTerminator = false)
    (hstore : ∀ access, n.op ≠ .target (.store access)) : ∃ out, x.output = some out := by
  have hfamily := (Operator.of_family? h.family).1.symm.trans hterm
  exact Option.isSome_iff_exists.mp (h.output (Family.output?_isSome hfamily (h.family_ne_store hstore) n))

/-- Of a store, the two parts of the address count in full, and of the value the low half. -/
theorem store_endAlike {access : TargetStore} (h : Accepted n d x) (hop : n.op = .target (.store access))
    (hbytes : 8 * access.bytes ≤ 32) {g : Graph} {b : Nat} {block : Block} {is : List Inst}
    (hemit : d.family.emit (siteOf g b block n x) = .ok is) {m m' : Machine}
    (hsame : SameExcept (n.op.HoldsNarrow (x.inputs.map Prod.snd)) m m') :
    EndAlike (exec is m) (exec is m') := by
  obtain ⟨base, index, src, is', hbase, hindex, -, hemit', hstores⟩ := h.stores hop g b block
  obtain rfl : is = is' := Except.ok.inj (hemit.symm.trans hemit')
  rw [hop] at hsame
  refine hstores.endAlike hbytes hsame.alike ?_ ?_
  · exact hsame.gpr base (Operator.not_holdsNarrow hbase (by decide))
  · exact hsame.gpr index (Operator.not_holdsNarrow hindex (by decide))

end Accepted

/-- Bits above those of 32-bit operands go nowhere. Wherever accepted registers put the operands of an
operator that takes 32-bit values, two runs that differ in bits 32 and above of the registers with such
operands trap alike, leave the same heap, and have the same result in all bits of its type. -/
theorem upper_bits_confined {n : Node} {d : Descriptor} {x : Assignment} (h : Accepted n d x)
    (hnarrow : n.op.IsNarrow) (g : Graph) (b : Nat) (block : Block) :
    ∃ is, d.family.emit (siteOf g b block n x) = .ok is ∧
      ∀ m m', SameExcept (n.op.HoldsNarrow (x.inputs.map Prod.snd)) m m' →
        SameResult n.op.resultType x.output (exec is m) (exec is m') := by
  have hop : (siteOf g b block n x).op.Narrow := hnarrow.narrow h.family
  obtain ⟨is, hemit⟩ := h.emits g b block hop.ready
  refine ⟨is, hemit, fun m m' hsame => ?_⟩
  by_cases hstore : ∃ access, n.op = .target (.store access)
  · obtain ⟨access, hstore⟩ := hstore
    have hbytes : 8 * access.bytes ≤ 32 := by
      have hstored := hnarrow.narrow h.family
      rw [hstore] at hstored
      cases hstored with
      | store _ hbytes => exact hbytes
    have hend := h.store_endAlike hstore hbytes hemit hsame
    exact ⟨hend.outcome, hend.alike.heap, fun ty hty => by rw [hstore] at hty; cases hty⟩
  · have hne : ∀ access, n.op ≠ .target (.store access) := fun access heq => hstore ⟨access, heq⟩
    exact hop.sameResult h.family hne (h.exists_output hop.not_terminator hne) hemit hsame.alike

/-- A quotient of the least number by minus one, which is too large. -/
def narrowQuotient : Node := { op := .intBinary .w32 (.division .quotientSigned), inputs := [0, 1] }

def narrowQuotientRegisters : Assignment where
  output := some (.gpr .rax)
  inputs := [(0, .gpr .rax), (1, .gpr .rsi)]
  scratches := []

def quotientMachine (a b : Word) : Machine := (Machine.initial.setGpr .rax a).setGpr .rsi b

/-- As whole words, the second pair of operands has a quotient. -/
theorem upper_bits_confined_quotient : ∃ is,
    Accepted narrowQuotient ⟨narrowQuotient.op, .division, .empty⟩ narrowQuotientRegisters ∧
    narrowQuotient.op.IsNarrow ∧
    Family.division.emit (siteOf .empty 0 ⟨"entry", []⟩ narrowQuotient narrowQuotientRegisters) = .ok is ∧
    (exec is (quotientMachine 0xffffffff80000000 (-1))).1 = .error .divideError ∧
    SameExcept (narrowQuotient.op.HoldsNarrow [.gpr .rax, .gpr .rsi])
      (quotientMachine 0xffffffff80000000 (-1)) (quotientMachine 0x80000000 0x5ffffffff) ∧
    (exec is (quotientMachine 0x80000000 0x5ffffffff)).1 = .error .divideError := by
  have haccepted :
      Accepted narrowQuotient ⟨narrowQuotient.op, .division, .empty⟩ narrowQuotientRegisters :=
    ⟨Registry.x64_get? _, by decide, fun _ => rfl⟩
  have hsame : SameExcept (narrowQuotient.op.HoldsNarrow [.gpr .rax, .gpr .rsi])
      (quotientMachine 0xffffffff80000000 (-1)) (quotientMachine 0x80000000 0x5ffffffff) := by
    refine ⟨rfl, fun r hr => ?_, fun r _ => rfl, fun r _ => ?_⟩
    · cases r <;> first | rfl | exact absurd (by decide) hr
    · cases r with
      | gpr r => cases r <;> rfl
      | xmm r => rfl
  obtain ⟨is, hemit, hruns⟩ := upper_bits_confined haccepted (by decide) .empty 0 ⟨"entry", []⟩
  have hcode : is = Emit.divideBy .w32 true .rsi := (Except.ok.inj hemit).symm
  have htrap : (exec is (quotientMachine 0xffffffff80000000 (-1))).1 = .error .divideError := by
    rw [hcode]
    decide +kernel
  exact ⟨is, haccepted, by decide, hemit, htrap, hsame, (hruns _ _ hsame).outcome.trans htrap⟩

end Isel
