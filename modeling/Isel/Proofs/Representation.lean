import Isel.Proofs.Bytes
import Isel.Proofs.Typing
import Isel.Proofs.Values
import Isel.Proofs.Words

/-! Words that stand for values. A number of 32 bits is in the low half of its word, with anything
above it. Operators that are selected one for one compute on words what they compute on values, and
so do accesses to memory once their address is known to lie in it. -/

namespace Isel

namespace Value

def kind : Value → Kind
  | i32 _ => .number .i32
  | i64 _ => .number .i64
  | state => .state

/-- A word stands for a value. -/
def Represents : Value → Word → Prop
  | i32 v, w => w.setWidth 32 = v
  | i64 v, w => w = v
  | state, _ => True

variable {x : Value} {w : IntWidth}

@[simp] theorem kind_int (v : BitVec w.bits) : (int w v).kind = .number (.int w) := by
  cases w <;> rfl

@[simp] theorem int?_int (v : BitVec w.bits) : (int w v).int? w = some v := by
  cases w <;> rfl

theorem kind_eq_number : x.kind = .number (.int w) ↔ ∃ v, x = int w v := by
  constructor
  · intro h
    cases w <;> cases x <;> simp [kind] at h
    · exact ⟨_, rfl⟩
    · exact ⟨_, rfl⟩
  · rintro ⟨v, rfl⟩
    exact kind_int v

theorem kind_eq_state : x.kind = .state ↔ x = state := by
  cases x <;> simp [kind]

/-- A word stands for the number that its low bits are. -/
theorem represents_int {v : BitVec w.bits} {u : Word} :
    (int w v).Represents u ↔ u.setWidth w.bits = v := by
  cases w with
  | w32 => exact Iff.rfl
  | w64 =>
      simp only [int, Represents, IntWidth.bits]
      rw [BitVec.setWidth_eq]

theorem represents_setWidth (v : BitVec w.bits) : (int w v).Represents (v.setWidth 64) := by
  have hle : w.bits ≤ 64 := by cases w <;> decide
  rw [represents_int, BitVec.setWidth_setWidth_of_le v hle, BitVec.setWidth_eq]

end Value

/-- A computation on words follows one on values: it has a word for the value, or both trap. -/
inductive Follows (k : Kind) : Except Halt Value → Except Halt Word → Prop
  | ok {x : Value} {w : Word} (kind : x.kind = k) (represents : x.Represents w) :
      Follows k (.ok x) (.ok w)
  | trapped {t u : Trap} {memory₁ memory₂ : Array Byte} :
      Follows k (.error (.trapped t memory₁)) (.error (.trapped u memory₂))

namespace Operator

/-- The operator that does the same on words, for those that are selected one for one. -/
def selected : Operator → Operator
  | extend signed => target (.extend32 signed)
  | address .w32 => target (.extend32 false)
  | intBinary .w64 op =>
    match op.fused? with
    | some op => target (.int op)
    | none => intBinary .w64 op
  | op => op

/-- Operators on integers that are selected one for one. -/
def isDirect : Operator → Bool
  | state | updateState | const (.int _) | intBinary _ _ | bitCount _ _ | compare .w64 _
  | bool (.int _) | extend _ | address .w32 => true
  | _ => false

end Operator

variable {n : Node} {xs : List Value} {ws : List Word} {memory : Array Byte}

/-- The values have the kinds, and the words stand for the values. -/
def Operands (ks : List Kind) (xs : List Value) (ws : List Word) : Prop :=
  List.Forall₂ (fun (x : Value) k => x.kind = k) xs ks ∧ List.Forall₂ Value.Represents xs ws

theorem Operands.of_nil (h : Operands [] xs ws) : xs = [] ∧ ws = [] := by
  obtain ⟨hkinds, hwords⟩ := h
  obtain rfl := List.forall₂_nil_right_iff.mp hkinds
  exact ⟨rfl, List.forall₂_nil_left_iff.mp hwords⟩

theorem Operands.of_cons {k : Kind} {ks : List Kind} (h : Operands (k :: ks) xs ws) :
    ∃ x xs' w ws', xs = x :: xs' ∧ ws = w :: ws' ∧ x.kind = k ∧ x.Represents w ∧
      Operands ks xs' ws' := by
  obtain ⟨hkinds, hwords⟩ := h
  obtain ⟨x, xs', hx, hxs', rfl⟩ := List.forall₂_cons_right_iff.mp hkinds
  obtain ⟨w, ws', hw, hws', rfl⟩ := List.forall₂_cons_left_iff.mp hwords
  exact ⟨x, xs', w, ws', rfl, rfl, hx, hw, hxs', hws'⟩

/-- A number is the low part of the word that stands for it. -/
theorem Operands.of_number {w : IntWidth} {ks : List Kind}
    (h : Operands (.number (.int w) :: ks) xs ws) :
    ∃ (u : Word) (xs' : List Value) (ws' : List Word),
      xs = .int w (u.setWidth w.bits) :: xs' ∧ ws = u :: ws' ∧ Operands ks xs' ws' := by
  obtain ⟨x, xs', u, ws', rfl, rfl, hkind, hrep, hrest⟩ := h.of_cons
  obtain ⟨v, rfl⟩ := Value.kind_eq_number.mp hkind
  obtain rfl := Value.represents_int.mp hrep
  exact ⟨u, xs', ws', rfl, rfl, hrest⟩

theorem Operands.of_state {ks : List Kind} (h : Operands (.state :: ks) xs ws) :
    ∃ (u : Word) (xs' : List Value) (ws' : List Word),
      xs = .state :: xs' ∧ ws = u :: ws' ∧ Operands ks xs' ws' := by
  obtain ⟨x, xs', u, ws', rfl, rfl, hkind, -, hrest⟩ := h.of_cons
  obtain rfl := Value.kind_eq_state.mp hkind
  exact ⟨u, xs', ws', rfl, rfl, hrest⟩

theorem Operands.of_one {w : IntWidth} (h : Operands [.number (.int w)] xs ws) :
    ∃ u : Word, xs = [.int w (u.setWidth w.bits)] ∧ ws = [u] := by
  obtain ⟨u, xs', ws', rfl, rfl, hnil⟩ := h.of_number
  obtain ⟨rfl, rfl⟩ := hnil.of_nil
  exact ⟨u, rfl, rfl⟩

theorem Operands.of_two {w : IntWidth}
    (h : Operands [.number (.int w), .number (.int w)] xs ws) :
    ∃ u v : Word, xs = [.int w (u.setWidth w.bits), .int w (v.setWidth w.bits)] ∧ ws = [u, v] := by
  obtain ⟨u, xs', ws', rfl, rfl, hone⟩ := h.of_number
  obtain ⟨v, rfl, rfl⟩ := hone.of_one
  exact ⟨u, v, rfl, rfl⟩

/-! ### Operators that are selected one for one -/

theorem Follows.int {w : IntWidth} {v : BitVec w.bits} {u : Word} (h : u.setWidth w.bits = v) :
    Follows (.number (.int w)) (.ok (.int w v)) (.ok u) :=
  .ok (Value.kind_int v) (Value.represents_int.mpr h)

theorem Follows.setWidth {w : IntWidth} (v : BitVec w.bits) :
    Follows (.number (.int w)) (.ok (.int w v)) (.ok (v.setWidth 64)) :=
  .ok (Value.kind_int v) (Value.represents_setWidth v)

theorem Follows.ofBool (w : IntWidth) (b : Bool) :
    Follows (.number (.int w)) (.ok (Values.ofBool w b)) (.ok (Words.ofBool b)) := by
  refine Follows.int ?_
  cases w <;> cases b <;> rfl

theorem Follows.binary (w : IntWidth) (op : IntBinary) (x y : Word) :
    Follows (.number (.int w))
      (match op.apply? (x.setWidth w.bits) (y.setWidth w.bits) with
        | some r => .ok (.int w r)
        | none => .error (.trapped .divideError memory))
      (Words.binary w op x y memory) := by
  unfold Words.binary
  cases op.apply? (x.setWidth w.bits) (y.setWidth w.bits) with
  | some r => exact .setWidth r
  | none => exact .trapped

theorem IntBinary.toBinary_of_fused? {op : IntBinary} {op' : Fused} (h : op.fused? = some op') :
    op'.toBinary = op := by
  unfold IntBinary.fused? at h
  split at h <;> simp only [Option.some.injEq, reduceCtorEq] at h <;> subst h <;> rfl

theorem value_follows {ks : List Kind} {k : Kind} {control : List Control} {inputs : List Nat}
    (hdirect : n.op.isDirect = true) (hkind : n.op.kind? = some k) (haccepts : n.op.accepts ks)
    (hliteral : ∀ ty, n.op = .const ty → n.literals ≠ []) (h : Operands ks xs ws) :
    Follows k (Values.value n xs memory)
      (Words.value .linear ⟨n.op.selected, control, n.literals, inputs⟩ ws memory) := by
  obtain ⟨op, c, literals, i⟩ := n
  cases op with
  | state =>
      obtain rfl : ks = [] := haccepts
      obtain ⟨rfl, rfl⟩ := h.of_nil
      obtain rfl : Kind.state = k := Option.some.inj hkind
      exact .ok rfl trivial
  | updateState =>
      obtain rfl : ks = [.state] := haccepts
      obtain ⟨u, _, _, rfl, rfl, hnil⟩ := h.of_state
      obtain ⟨rfl, rfl⟩ := hnil.of_nil
      obtain rfl : Kind.state = k := Option.some.inj hkind
      exact .ok rfl trivial
  | const ty =>
      obtain rfl : ks = [] := haccepts
      obtain ⟨rfl, rfl⟩ := h.of_nil
      obtain rfl : Kind.number ty = k := Option.some.inj hkind
      cases ty with
      | float w => simp [Operator.isDirect] at hdirect
      | int w =>
          cases literals with
          | nil => exact absurd rfl (hliteral _ rfl)
          | cons l _ => exact .setWidth _
  | intBinary w op =>
      obtain rfl : ks = [.number (.int w), .number (.int w)] := haccepts
      obtain ⟨u, v, rfl, rfl⟩ := h.of_two
      obtain rfl : Kind.number (.int w) = k := Option.some.inj hkind
      have hvalue : Values.value ⟨.intBinary w op, c, literals, i⟩
          [.int w (u.setWidth w.bits), .int w (v.setWidth w.bits)] memory
            = match op.apply? (u.setWidth w.bits) (v.setWidth w.bits) with
              | some r => .ok (.int w r)
              | none => .error (.trapped .divideError memory) := by
        simp only [Values.value, Value.int?_int, orStuck]
        rfl
      rw [hvalue]
      cases w with
      | w32 => exact .binary .w32 op u v
      | w64 =>
          simp only [Operator.selected]
          cases hfused : op.fused? with
          | none => exact .binary .w64 op u v
          | some op' =>
              obtain rfl := IntBinary.toBinary_of_fused? hfused
              exact .binary .w64 op'.toBinary u v
  | bitCount w op =>
      obtain rfl : ks = [.number (.int w)] := haccepts
      obtain ⟨u, rfl, rfl⟩ := h.of_one
      obtain rfl : Kind.number (.int w) = k := Option.some.inj hkind
      simp only [Values.value, Values.pure?, Value.int?_int]
      exact .setWidth _
  | compare w c =>
      cases w with
      | w32 => simp [Operator.isDirect] at hdirect
      | w64 =>
          obtain rfl : ks = [.number .i64, .number .i64] := haccepts
          obtain ⟨u, v, rfl, rfl⟩ := h.of_two
          obtain rfl : Kind.number .i64 = k := Option.some.inj hkind
          simp only [Values.value, Values.pure?, Value.int?_int]
          rw [show u.setWidth IntWidth.w64.bits = u from BitVec.setWidth_eq u,
            show v.setWidth IntWidth.w64.bits = v from BitVec.setWidth_eq v]
          exact .ofBool .w64 (c.holds u v)
  | bool ty =>
      cases ty with
      | float w => simp [Operator.isDirect] at hdirect
      | int w =>
          obtain rfl : ks = [.number (.int w)] := haccepts
          obtain ⟨u, rfl, rfl⟩ := h.of_one
          obtain rfl : Kind.number .i64 = k := Option.some.inj hkind
          simp only [Values.value, Values.pure?, Value.int?_int]
          exact .ofBool .w64 _
  | extend signed =>
      obtain rfl : ks = [.number .i32] := haccepts
      obtain ⟨u, rfl, rfl⟩ := h.of_one
      obtain rfl : Kind.number .i64 = k := Option.some.inj hkind
      exact .ok rfl rfl
  | address w =>
      cases w with
      | w64 => simp [Operator.isDirect] at hdirect
      | w32 =>
          obtain rfl : ks = [.number .i32] := haccepts
          obtain ⟨u, rfl, rfl⟩ := h.of_one
          obtain rfl : Kind.number .i64 = k := Option.some.inj hkind
          exact .ok rfl rfl
  | _ => simp [Operator.isDirect] at hdirect

/-! ### Accesses to memory -/

theorem setWidth_signExtend {k : Nat} (x : BitVec k) :
    (x.signExtend 64).setWidth 32 = x.signExtend 32 := by
  ext i hi
  have hi64 : i < 64 := by omega
  simp [BitVec.getElem_signExtend, hi64]

theorem setWidth_ofNat_of_lt {k v : Nat} (w : Nat) (h : v < 2 ^ k) :
    (BitVec.ofNat k v).setWidth w = BitVec.ofNat w v := by
  refine BitVec.eq_of_toNat_eq ?_
  rw [BitVec.toNat_setWidth, BitVec.toNat_ofNat, BitVec.toNat_ofNat, Nat.mod_eq_of_lt h]

/-- The word that a load by the target makes of the bytes stands for the value that the generic load
makes of them. -/
theorem extend_represents {op : Load} {v : Nat} (hint : op.type.isInt = true)
    (hv : v < 2 ^ (8 * op.access.bytes)) :
    ∃ x, op.read? v = some x ∧ x.kind = .number op.type ∧ x.Represents (op.access.extend v) := by
  cases op with
  | full ty =>
      cases ty with
      | float w => simp [Load.type, ValueType.isInt] at hint
      | int w =>
          refine ⟨_, rfl, Value.kind_int _, Value.represents_int.mpr ?_⟩
          have hle : w.bits ≤ 64 := by cases w <;> decide
          exact BitVec.setWidth_ofNat_of_le hle v
  | narrow n signed =>
      refine ⟨_, rfl, Value.kind_int _, Value.represents_int.mpr ?_⟩
      cases signed with
      | true =>
          cases n
          · exact setWidth_signExtend (BitVec.ofNat 8 v)
          · exact setWidth_signExtend (BitVec.ofNat 16 v)
          · exact BitVec.setWidth_eq _
          · exact BitVec.setWidth_eq _
          · exact BitVec.setWidth_eq _
      | false =>
          have hlt : v < 2 ^ n.part.size.bits := by
            cases n <;> exact hv
          have hle : n.width.bits ≤ 64 := by cases n <;> decide
          change (BitVec.ofNat 64 v).setWidth n.width.bits
            = (BitVec.ofNat n.part.size.bits v).setWidth n.width.bits
          rw [setWidth_ofNat_of_lt _ hlt, BitVec.setWidth_ofNat_of_le hle]

/-- A store writes the same bytes from the value and from the word that stands for it. -/
theorem written_bytes {op : Store} {x : Value} {u : Word} (hint : op.type.isInt = true)
    (hkind : x.kind = .number op.type) (hrep : x.Represents u) :
    ∃ v, op.written? x = some v ∧
      bytesOf op.access.bytes v = bytesOf op.access.bytes u.toNat := by
  obtain ⟨w, hw⟩ : ∃ w, op.type = .int w := by
    cases h : op.type with
    | int w => exact ⟨w, rfl⟩
    | float w => simp [h, ValueType.isInt] at hint
  rw [hw] at hkind
  obtain ⟨v, rfl⟩ := Value.kind_eq_number.mp hkind
  obtain rfl := Value.represents_int.mp hrep
  refine ⟨(u.setWidth w.bits).toNat, ?_, ?_⟩
  · simp only [Store.written?, hw, Value.int?_int]
    rfl
  · have hle : 8 * op.access.bytes ≤ w.bits := by
      cases op with
      | full ty =>
          obtain rfl : ty = .int w := hw
          cases w <;> decide
      | narrow n =>
          obtain rfl : n.width = w := ValueType.int.inj hw
          cases n <;> decide
    rw [BitVec.toNat_setWidth, bytesOf_mod _ _ _ hle]

/-- Linear memory that the machine has addresses for. -/
def Addressable (memory : Array Byte) : Prop := Machine.memoryStart + memory.size ≤ 2 ^ 64

instance (memory : Array Byte) : Decidable (Addressable memory) :=
  inferInstanceAs (Decidable (_ ≤ _))

theorem TargetLoad.bytes_bounds (a : TargetLoad) : 0 < a.bytes ∧ a.bytes ≤ 8 := by
  cases a with
  | word w => cases w <;> decide
  | extended part _ => cases part <;> decide +revert
  | float w => cases w <;> decide

theorem TargetStore.bytes_bounds (a : TargetStore) : 0 < a.bytes ∧ a.bytes ≤ 8 := by
  rcases a with (_ | _ | _ | _) | (_ | _) <;> decide

/-- The check passes exactly if the access ends within the size. -/
theorem checkBounds_eq {size k : Nat} (hsize : size < 2 ^ 64) (hk : k < 2 ^ 64) (addr : Word)
    (memory : Array Byte) :
    Words.checkBounds (BitVec.ofNat 64 k) addr (BitVec.ofNat 64 size) memory
      = if addr.toNat + k ≤ size then .ok addr else .error (.trapped .unreachable memory) := by
  have haddr : addr.toNat < 2 ^ 64 := addr.isLt
  have hstop : (addr + BitVec.ofNat 64 k).toNat = (addr.toNat + k) % 2 ^ 64 := by
    rw [BitVec.toNat_add, BitVec.toNat_ofNat, Nat.mod_eq_of_lt hk]
  have hbytes : (BitVec.ofNat 64 size).toNat = size := by
    rw [BitVec.toNat_ofNat, Nat.mod_eq_of_lt hsize]
  simp only [Words.checkBounds, BitVec.ult, hstop, hbytes, Bool.or_eq_true, decide_eq_true_eq]
  -- the end wraps around exactly if it is below the address
  by_cases hwrap : addr.toNat + k < 2 ^ 64
  · rw [Nat.mod_eq_of_lt hwrap]
    by_cases hin : addr.toNat + k ≤ size
    · rw [if_pos hin, if_neg (by omega)]
    · rw [if_neg hin, if_pos (by omega)]
  · have hmod : (addr.toNat + k) % 2 ^ 64 = addr.toNat + k - 2 ^ 64 := by omega
    rw [hmod, if_pos (by omega), if_neg (by omega)]

theorem Addressable.size_lt (hm : Addressable memory) : memory.size < 2 ^ 64 := by
  unfold Addressable Machine.memoryStart at hm
  omega

/-- The place of a checked address in linear memory. -/
theorem linear_place (hm : Addressable memory) {k : Nat} {p : Word} (hk : 0 < k)
    (hp : p.toNat + k ≤ memory.size) :
    MemoryLayout.linear.place memory k (BitVec.ofNat 64 Machine.memoryStart + p) = .ok p.toNat := by
  unfold Addressable at hm
  have hsum : (BitVec.ofNat 64 Machine.memoryStart + p).toNat = Machine.memoryStart + p.toNat := by
    rw [BitVec.toNat_add, BitVec.toNat_ofNat]
    unfold Machine.memoryStart at *
    omega
  simp only [MemoryLayout.linear, hsum]
  rw [if_pos ⟨by omega, by omega⟩]
  congr 1
  omega

theorem place_outside {k : Nat} {p : Word} (hp : ¬p.toNat + k ≤ memory.size) :
    Values.place memory k (.i64 p) = .error (.trapped (.fault p) memory) := if_neg hp

theorem place_inside {k : Nat} {p : Word} (hp : p.toNat + k ≤ memory.size) :
    Values.place memory k (.i64 p) = .ok p.toNat := if_pos hp

theorem load_outside {op : Load} {c : List Control} {ls : List Literal} {is : List Nat} {p : Word}
    (hp : ¬p.toNat + op.access.bytes ≤ memory.size) :
    Values.compute ⟨.load op, c, ls, is⟩ [.state, .i64 p] memory
      = .error (.trapped (.fault p) memory) := by
  simp only [Values.compute, place_outside hp]
  rfl

theorem store_outside {op : Store} {c : List Control} {ls : List Literal} {is : List Nat}
    {p : Word} {x : Value} (hp : ¬p.toNat + op.access.bytes ≤ memory.size) :
    Values.compute ⟨.store op, c, ls, is⟩ [.state, .i64 p, x] memory
      = .error (.trapped (.fault p) memory) := by
  simp only [Values.compute, place_outside hp]
  rfl

/-- A load at an address in linear memory. -/
theorem load_inside (hm : Addressable memory) {op : Load} (hint : op.type.isInt = true)
    {c : List Control} {ls : List Literal} {is : List Nat} {p : Word} (s : Word)
    (hp : p.toNat + op.access.bytes ≤ memory.size) :
    ∃ x u, Values.compute ⟨.load op, c, ls, is⟩ [.state, .i64 p] memory = .ok (some x, memory) ∧
      Words.load .linear op.access [s, BitVec.ofNat 64 Machine.memoryStart, p] memory = .ok u ∧
      x.kind = .number op.type ∧ x.Represents u := by
  have hread : readBytes? memory p.toNat op.access.bytes = some (littleEndian
      (memory.extract p.toNat (p.toNat + op.access.bytes)).toList) := if_pos hp
  have hlength : (memory.extract p.toNat (p.toNat + op.access.bytes)).toList.length
      = op.access.bytes := by
    rw [Array.length_toList, Array.size_extract]
    omega
  have hlt := littleEndian_lt (memory.extract p.toNat (p.toNat + op.access.bytes)).toList
  rw [hlength] at hlt
  obtain ⟨x, hx, hkind, hrep⟩ := extend_represents hint hlt
  refine ⟨x, _, ?_, ?_, hkind, hrep⟩
  · simp only [Values.compute, place_inside hp, bind, Except.bind, hread, orStuck, hx]
    rfl
  · rw [Words.load, linear_place hm op.access.bytes_bounds.1 hp]
    simp only [bind, Except.bind, hread, orStuck]
    rfl

/-- A store at an address in linear memory. -/
theorem store_inside (hm : Addressable memory) {op : Store} (hint : op.type.isInt = true)
    {c : List Control} {ls : List Literal} {is : List Nat} {p : Word} (s : Word) {x : Value}
    {u : Word} (hkind : x.kind = .number op.type) (hrep : x.Represents u)
    (hp : p.toNat + op.access.bytes ≤ memory.size) :
    ∃ memory', Values.compute ⟨.store op, c, ls, is⟩ [.state, .i64 p, x] memory
        = .ok (none, memory') ∧
      Words.store .linear op.access [s, BitVec.ofNat 64 Machine.memoryStart, p, u] memory
        = .ok memory' := by
  obtain ⟨v, hv, hbytes⟩ := written_bytes hint hkind hrep
  refine ⟨writeBytes memory p.toNat (bytesOf op.access.bytes v), ?_, ?_⟩
  · simp only [Values.compute, place_inside hp, bind, Except.bind, hv, orStuck, replaceBytes?, if_pos hp]
    rfl
  · rw [Words.store, linear_place hm op.access.bytes_bounds.1 hp]
    simp only [bind, Except.bind, orStuck, replaceBytes?, if_pos hp, hbytes]

end Isel
