import Isel.Proofs.Bytes
import Isel.Proofs.CodeLayout
import Isel.Proofs.MachineArithmetic
import Isel.Proofs.Words

/-! What single instructions do to the words in their registers, and what loads and stores find in
the heap. -/

namespace Isel

namespace Machine

variable (m : Machine)

def setFlags (flags : Flags) : Machine := { m with flags }

@[simp] theorem gpr_setFlags (f : Flags) (r : Gpr) : (m.setFlags f).gpr r = m.gpr r := rfl

@[simp] theorem flags_setFlags (f : Flags) : (m.setFlags f).flags = f := rfl

@[simp] theorem flags_setGpr (r : Gpr) (v : Word) : (m.setGpr r v).flags = m.flags := rfl

variable (w : IntWidth) (d r : Gpr)

/-- The low part of a word, as an operation at a width sees it. -/
abbrev low (w : IntWidth) (v : Word) : BitVec w.bits := v.setWidth w.bits

theorem low_w64 (v : Word) : low .w64 v = v := BitVec.setWidth_eq v

theorem low_setWidth {w : IntWidth} (v : BitVec w.bits) : low w (v.setWidth 64) = v := by
  cases w <;> exact BitVec.setWidth_setWidth_of_le _ (by decide) |>.trans (BitVec.setWidth_eq _)

theorem step_mov : step (.mov (.ofWidth w) d r) m
    = (.ok .next, m.setGpr d ((low w (m.gpr r)).setWidth 64)) := by
  cases w <;> rfl

theorem step_mov64 : step (.mov .s64 d r) m = (.ok .next, m.setGpr d (m.gpr r)) := by
  have hstep : step (.mov .s64 d r) m = _ := step_mov m .w64 d r
  rw [hstep, low_w64]
  exact congrArg (fun v => (_, m.setGpr d v)) (BitVec.setWidth_eq _)

theorem step_movImm (v : Word) : step (.movImm (.ofWidth w) d v) m
    = (.ok .next, m.setGpr d ((low w v).setWidth 64)) := by
  cases w <;> rfl

theorem step_arith (op : Arith) : step (.gprs (.arith op) (.ofWidth w) d r) m
    = (.ok .next, (m.setFlags (op.flags (low w (m.gpr d)) (low w (m.gpr r)))).setGpr d
        ((op.apply (low w (m.gpr d)) (low w (m.gpr r))).setWidth 64)) := by
  cases w <;> rfl

theorem step_cmp : step (.gprs .cmp .s64 d r) m
    = (.ok .next, m.setFlags (Arith.sub.flags (m.gpr d) (m.gpr r))) := by
  have hstep : step (.gprs .cmp .s64 d r) m
    = (.ok .next, m.setFlags (Arith.sub.flags (low .w64 (m.gpr d)) (low .w64 (m.gpr r)))) := rfl
  rw [hstep, low_w64, low_w64]
  rfl

theorem step_test : step (.gprs .test (.ofWidth w) d r) m
    = (.ok .next, m.setFlags (Arith.and.flags (low w (m.gpr d)) (low w (m.gpr r)))) := by
  cases w <;> rfl

theorem step_shift (op : Shift) : step (.shift (.shift op) (.ofWidth w) d) m
    = (.ok .next, m.setGpr d
        ((op.apply (low w (m.gpr d)) ((m.gpr .rcx).toNat % w.bits)).setWidth 64)) := by
  cases w <;> rfl

theorem step_count (op : BitCount) : step (.gprs (.count op) (.ofWidth w) d r) m
    = (.ok .next, m.setGpr d
        ((BitVec.ofNat w.bits (op.apply (low w (m.gpr r)))).setWidth 64)) := by
  cases w <;> rfl

theorem exec_jumpIf_true {is : List Inst} {c : Condition} (h : m.flags.holds c = true) (l : Nat) :
    exec (.jumpIf c l :: is) m = (.ok (.jump l), m) :=
  exec_cons_jump (congrArg (fun b : Bool => (Except.ok (if b then Flow.jump l else .next), m)) h)

theorem exec_jumpIf_false {is : List Inst} {c : Condition} (h : m.flags.holds c = false) (l : Nat) :
    exec (.jumpIf c l :: is) m = exec is m :=
  exec_cons_next (congrArg (fun b : Bool => (Except.ok (if b then Flow.jump l else .next), m)) h)

theorem step_signed32 : step (.extend (.widen .signed32) d (.gpr r)) m
    = (.ok .next, m.setGpr d (((m.gpr r).setWidth 32).signExtend 64)) := rfl

theorem step_cqo : step .cqo m = (.ok .next, m.setGpr .rdx ((m.gpr .rax).sshiftRight 63)) := rfl

theorem step_cdq : step .cdq m = (.ok .next,
    m.setGpr .rdx ((((m.gpr .rax).setWidth 32).sshiftRight 31).setWidth 64)) := rfl

theorem step_divide_some (signed : Bool) (s : Size) {p : BitVec s.bits × BitVec s.bits}
    (h : divide signed ((m.gpr .rdx).setWidth s.bits) ((m.gpr .rax).setWidth s.bits)
      ((m.gpr r).setWidth s.bits) = some p) :
    step (.divide (.divide signed) s r) m
      = (.ok .next, (m.writeGpr s .rax p.1).writeGpr s .rdx p.2) := by
  refine (Exec.bind_ok rfl).trans ((Exec.bind_ok ?_).trans rfl)
  exact congrArg (fun x : Option _ => (x.elim (Except.error Trap.divideError) Except.ok, m)) h

theorem step_divide_none (signed : Bool) (s : Size)
    (h : divide signed ((m.gpr .rdx).setWidth s.bits) ((m.gpr .rax).setWidth s.bits)
      ((m.gpr r).setWidth s.bits) = none) :
    step (.divide (.divide signed) s r) m = (.error .divideError, m) := by
  refine (Exec.bind_ok rfl).trans (Exec.bind_error ?_)
  exact congrArg (fun x : Option _ => (x.elim (Except.error Trap.divideError) Except.ok, m)) h

theorem step_divide (signed : Bool) : step (.divide (.divide signed) (.ofWidth w) r) m
    = (divide signed (low w (m.gpr .rdx)) (low w (m.gpr .rax)) (low w (m.gpr r))).elim
        (.error .divideError, m) fun p =>
          (.ok .next, (m.setGpr .rax (p.1.setWidth 64)).setGpr .rdx (p.2.setWidth 64)) := by
  cases w
  all_goals
    cases hdivide : divide signed (low _ (m.gpr .rdx)) (low _ (m.gpr .rax)) (low _ (m.gpr r)) with
    | none => exact step_divide_none m r signed _ hdivide
    | some p => exact step_divide_some m r signed _ hdivide

theorem replaceLow_setWidth {n : Nat} (hn : n ≤ 64) (old : Word) (v : BitVec n) :
    (replaceLow old v).setWidth n = v := by
  ext i hi
  have hi64 : i < 64 := by omega
  simp [replaceLow, hi64, hi]

theorem setGpr_setGpr (v v' : Word) : (m.setGpr d v).setGpr d v' = m.setGpr d v' := by
  simp [setGpr]

/-- The flags become a word. -/
theorem exec_materialize_eq (c : Condition) :
    exec (materialize c d) m = (.ok .next, m.setGpr d (Words.ofBool (m.flags.holds c))) := by
  have hset : step (.set c d) m
      = (.ok .next, m.setGpr d (replaceLow (m.gpr d) (if m.flags.holds c then (1 : BitVec 8) else 0))) := rfl
  have hwiden (m : Machine) : step (.extend (.widen .unsigned8) d (.gpr d)) m
      = (.ok .next, m.setGpr d (((m.gpr d).setWidth 8).setWidth 64)) := rfl
  refine (exec_cons_next hset).trans ((exec_cons_next (hwiden _)).trans ?_)
  rw [setGpr_setGpr, gpr_setGpr_self, replaceLow_setWidth (by decide)]
  cases m.flags.holds c <;> rfl

theorem exec_materialize (c : Condition) : ∃ m', exec (materialize c d) m = (.ok .next, m') ∧
    m'.gpr d = Words.ofBool (m.flags.holds c) :=
  ⟨_, exec_materialize_eq m d c, gpr_setGpr_self ..⟩

theorem exec_ret : exec [.ret] m = (.ok .halt, m) := exec_cons_halt rfl

theorem step_lea (a : Address) : step (.lea d a) m = (.ok .next, m.setGpr d (m.address a)) := rfl

theorem address_disp (base : Gpr) (disp : BitVec 32) :
    m.address { base, disp } = m.gpr base + disp.signExtend 64 := by
  simp [address]

theorem address_index (base index : Gpr) :
    m.address { base, index := some index } = m.gpr base + m.gpr index := by
  simp [address]

/-- The number in `n` bytes of memory. -/
def number (heap : Array Byte) (n : Nat) (p : Word) : Nat :=
  littleEndian (heap.extract p.toNat (p.toNat + n)).toList

theorem number_lt {heap : Array Byte} {n : Nat} {p : Word} (h : p.toNat + n ≤ heap.size) :
    number heap n p < 2 ^ (8 * n) := by
  have hlt := littleEndian_lt (heap.extract p.toNat (p.toNat + n)).toList
  have hlen : (heap.extract p.toNat (p.toNat + n)).toList.length = n := by
    rw [Array.length_toList, Array.size_extract]
    omega
  rwa [hlen] at hlt

theorem setWidth_ofNat_number {n : Nat} {p : Word} (h : p.toNat + n ≤ m.heap.size) :
    (BitVec.ofNat (8 * n) (number m.heap n p)).setWidth 64 = BitVec.ofNat 64 (number m.heap n p) := by
  refine BitVec.eq_of_toNat_eq ?_
  rw [BitVec.toNat_setWidth, BitVec.toNat_ofNat, BitVec.toNat_ofNat, Nat.mod_eq_of_lt (number_lt h)]

section Loads

variable (size : Size) (kind : Widening) (out : Gpr) (a : Address)

theorem step_load (hp : (m.address a).toNat + size.bytes ≤ m.heap.size) : step (.load size out a) m
    = (.ok .next, m.writeGpr size out (BitVec.ofNat _ (number m.heap size.bytes (m.address a)))) :=
  Exec.bind_ok (congrArg (·, m) (if_pos hp))

theorem step_load_fault (hp : ¬(m.address a).toNat + size.bytes ≤ m.heap.size) :
    step (.load size out a) m = (.error (.fault (m.address a)), m) :=
  Exec.bind_error (congrArg (·, m) (if_neg hp))

theorem step_widen (hp : (m.address a).toNat + kind.source.bytes ≤ m.heap.size) :
    step (.extend (.widen kind) out (.mem a)) m = (.ok .next, m.setGpr out
      (if kind.isSigned then
        (BitVec.ofNat kind.source.bits (number m.heap kind.source.bytes (m.address a))).signExtend 64
      else
        (BitVec.ofNat kind.source.bits (number m.heap kind.source.bytes (m.address a))).setWidth 64)) :=
  (Exec.bind_ok (congrArg (·, m) (if_pos hp))).trans
    (congrArg (fun v => (_, m.setGpr out v)) (BitVec.setWidth_eq _))

theorem step_widen_fault (hp : ¬(m.address a).toNat + kind.source.bytes ≤ m.heap.size) :
    step (.extend (.widen kind) out (.mem a)) m = (.error (.fault (m.address a)), m) :=
  Exec.bind_error (congrArg (·, m) (if_neg hp))

theorem step_loadXmm (w : FloatWidth) (out : Xmm)
    (hp : (m.address a).toNat + (TargetLoad.float w).bytes ≤ m.heap.size) :
    step (.loadXmm (.movs w) out a) m = (.ok .next, m.setXmmLow out
      (BitVec.ofNat 64 (number m.heap (TargetLoad.float w).bytes (m.address a)))) := by
  rw [← setWidth_ofNat_number m hp]
  cases w <;> exact Exec.bind_ok (Exec.bind_ok (congrArg (·, m) (if_pos hp)))

theorem step_loadXmm_fault (w : FloatWidth) (out : Xmm)
    (hp : ¬(m.address a).toNat + (TargetLoad.float w).bytes ≤ m.heap.size) :
    step (.loadXmm (.movs w) out a) m = (.error (.fault (m.address a)), m) := by
  cases w <;> exact Exec.bind_error (Exec.bind_error (congrArg (·, m) (if_neg hp)))

end Loads

section Stores

variable (size : Size) (src : Gpr) (a : Address)

theorem step_store (hp : (m.address a).toNat + size.bytes ≤ m.heap.size) : step (.store size a src) m
    = (.ok .next, { m with
        heap := writeBytes m.heap (m.address a).toNat (bytesOf size.bytes (m.gpr src).toNat) }) := by
  have hstore : storeAt size.bytes (m.address a) (((m.gpr src).setWidth size.bits).setWidth 64) m
      = (.ok (), { m with
          heap := writeBytes m.heap (m.address a).toNat (bytesOf size.bytes
            (((m.gpr src).setWidth size.bits).setWidth 64).toNat) }) := if_pos hp
  have hbytes : bytesOf size.bytes (((m.gpr src).setWidth size.bits).setWidth 64).toNat
      = bytesOf size.bytes (m.gpr src).toNat := by
    rw [BitVec.toNat_setWidth, bytesOf_mod _ _ _ (by cases size <;> decide), BitVec.toNat_setWidth]
    exact bytesOf_mod _ _ _ (Nat.le_refl _)
  rw [← hbytes]
  exact (Exec.bind_look _ m).trans (Exec.bind_ok ((Exec.bind_look _ m).trans hstore))

theorem step_store_fault (hp : ¬(m.address a).toNat + size.bytes ≤ m.heap.size) :
    step (.store size a src) m = (.error (.fault (m.address a)), m) := by
  have hstore : storeAt size.bytes (m.address a) (((m.gpr src).setWidth size.bits).setWidth 64) m
      = (.error (.fault (m.address a)), m) := if_neg hp
  exact (Exec.bind_look _ m).trans (Exec.bind_error ((Exec.bind_look _ m).trans hstore))

theorem step_storeXmm (w : FloatWidth) (src : Xmm)
    (hp : (m.address a).toNat + (TargetStore.float w).bytes ≤ m.heap.size) :
    step (.storeXmm (.movs w) a src) m = (.ok .next, { m with
      heap := writeBytes m.heap (m.address a).toNat
        (bytesOf (TargetStore.float w).bytes (m.xmm src).low.toNat) }) := by
  have hstore : storeAt (w.bits / 8) (m.address a) ((m.lane w src).setWidth 64) m
      = (.ok (), { m with
          heap := writeBytes m.heap (m.address a).toNat
            (bytesOf (w.bits / 8) ((m.lane w src).setWidth 64).toNat) }) := if_pos hp
  have hbytes : bytesOf (w.bits / 8) ((m.lane w src).setWidth 64).toNat
      = bytesOf (w.bits / 8) (m.xmm src).low.toNat := by
    rw [BitVec.toNat_setWidth, bytesOf_mod _ _ _ (by cases w <;> decide), lane, BitVec.toNat_setWidth]
    exact bytesOf_mod _ _ _ (by cases w <;> decide)
  rw [hbytes] at hstore
  exact Exec.bind_ok ((Exec.bind_look _ m).trans ((Exec.bind_look _ m).trans hstore))

theorem step_storeXmm_fault (w : FloatWidth) (src : Xmm)
    (hp : ¬(m.address a).toNat + (TargetStore.float w).bytes ≤ m.heap.size) :
    step (.storeXmm (.movs w) a src) m = (.error (.fault (m.address a)), m) := by
  have hstore : storeAt (w.bits / 8) (m.address a) ((m.lane w src).setWidth 64) m
      = (.error (.fault (m.address a)), m) := if_neg hp
  exact Exec.bind_error ((Exec.bind_look _ m).trans ((Exec.bind_look _ m).trans hstore))

end Stores

end Machine

open Machine

section Heap

variable {heap : Array Byte} {n : Nat} {p : Word}

theorem heapPlace_of_le (h : p.toNat + n ≤ heap.size) :
    MemoryLayout.heapPlace heap n p = .ok p.toNat := if_pos h

theorem heapPlace_of_not_le (h : ¬p.toNat + n ≤ heap.size) :
    MemoryLayout.heapPlace heap n p = .error (.trapped (.fault p) heap) := if_neg h

theorem readBytes?_of_le (h : p.toNat + n ≤ heap.size) :
    readBytes? heap p.toNat n = some (number heap n p) := if_pos h

theorem heapWord_of_le (h : p.toNat + 8 ≤ heap.size) :
    MemoryLayout.heapWord heap p = .ok (BitVec.ofNat 64 (number heap 8 p)) := by
  refine bind_eq_ok.mpr ⟨_, heapPlace_of_le h, bind_eq_ok.mpr ⟨_, ?_, rfl⟩⟩
  rw [readBytes?_of_le h, orStuck_eq_ok]

theorem heapWord_of_not_le (h : ¬p.toNat + 8 ≤ heap.size) :
    MemoryLayout.heapWord heap p = .error (.trapped (.fault p) heap) := by
  rw [MemoryLayout.heapWord, heapPlace_of_not_le h]
  rfl

variable {state space checked : Word} {rest : List Word}

theorem load_of_le {a : TargetLoad} (h : (space + checked).toNat + a.bytes ≤ heap.size) :
    Words.load .heap a (state :: space :: checked :: rest) heap
      = .ok (a.extend (number heap a.bytes (space + checked))) := by
  refine bind_eq_ok.mpr ⟨_, heapPlace_of_le h, bind_eq_ok.mpr ⟨_, ?_, rfl⟩⟩
  rw [readBytes?_of_le h, orStuck_eq_ok]

theorem load_of_not_le {a : TargetLoad} (h : ¬(space + checked).toNat + a.bytes ≤ heap.size) :
    Words.load .heap a (state :: space :: checked :: rest) heap
      = .error (.trapped (.fault (space + checked)) heap) := by
  change (MemoryLayout.heapPlace heap a.bytes (space + checked) >>= _) = _
  rw [heapPlace_of_not_le h]
  rfl

theorem store_of_le {a : TargetStore} {v : Word} (h : (space + checked).toNat + a.bytes ≤ heap.size) :
    Words.store .heap a (state :: space :: checked :: v :: rest) heap
      = .ok (writeBytes heap (space + checked).toNat (bytesOf a.bytes v.toNat)) := by
  refine bind_eq_ok.mpr ⟨_, heapPlace_of_le h, ?_⟩
  rw [orStuck_eq_ok]
  exact if_pos h

theorem store_of_not_le {a : TargetStore} {v : Word} (h : ¬(space + checked).toNat + a.bytes ≤ heap.size) :
    Words.store .heap a (state :: space :: checked :: v :: rest) heap
      = .error (.trapped (.fault (space + checked)) heap) := by
  change (MemoryLayout.heapPlace heap a.bytes (space + checked) >>= _) = _
  rw [heapPlace_of_not_le h]
  rfl

end Heap

end Isel
