import Isel.Proofs.Accepted
import Isel.Proofs.Reorder
import Isel.Proofs.WholeNumbers

/-! Loads and stores touch exactly the bytes that they name. An access goes to the sum of two registers,
which may wrap. Past the end of the heap it faults and changes nothing; otherwise a store replaces the
bytes there by those of its value, and a load leaves their number, extended to a word, in its output. -/

namespace Isel

open Machine Emission

/-! ### Bytes of the heap -/

/-- The number that `n` bytes of the heap stand for, the first of which counts ones. -/
def numberAt (heap : Array Byte) (p n : Nat) : Nat :=
  ∑ k ∈ Finset.range n, (heap[p + k]?.getD 0).toNat * 256 ^ k

theorem littleEndian_eq_sum (bs : List Byte) :
    littleEndian bs = ∑ k ∈ Finset.range bs.length, (bs[k]?.getD 0).toNat * 256 ^ k := by
  induction bs with
  | nil => rfl
  | cons b bs ih =>
      rw [littleEndian, List.length_cons, Finset.sum_range_succ', ih, Finset.mul_sum, Nat.add_comm]
      congr 1
      · refine Finset.sum_congr rfl fun k _ => ?_
        rw [List.getElem?_cons_succ, Nat.pow_succ, Nat.mul_left_comm, Nat.mul_comm 256]
      · simp

theorem number_eq_numberAt {heap : Array Byte} {n : Nat} {p : Word} (h : p.toNat + n ≤ heap.size) :
    number heap n p = numberAt heap p.toNat n := by
  have hlength : (heap.extract p.toNat (p.toNat + n)).toList.length = n := by
    rw [Array.length_toList, Array.size_extract]
    omega
  rw [number, littleEndian_eq_sum, hlength, numberAt]
  refine Finset.sum_congr rfl fun k hk => ?_
  have hlt := Finset.mem_range.mp hk
  rw [Array.getElem?_toList, Array.getElem?_extract_of_lt (by omega), Array.getElem?_eq_getElem]

theorem getElem?_writeBytes (heap : Array Byte) (start : Nat) (bs : List Byte) (i : Nat) :
    (writeBytes heap start bs)[i]?
      = if start ≤ i ∧ i < start + bs.length ∧ i < heap.size then bs[i - start]? else heap[i]? := by
  induction bs generalizing heap start with
  | nil =>
      rw [writeBytes, if_neg]
      rintro ⟨hle, hlt, -⟩
      exact absurd hlt (Nat.not_lt.mpr hle)
  | cons b bs ih =>
      rw [writeBytes, ih, Array.size_setIfInBounds, List.length_cons, Array.getElem?_setIfInBounds]
      grind

theorem getElem?_bytesOf {n k : Nat} (v : Nat) (h : k < n) :
    (bytesOf n v)[k]? = some (BitVec.ofNat 8 (v / 256 ^ k)) := by
  induction n generalizing k v with
  | zero => exact absurd h (Nat.not_lt_zero k)
  | succ n ih =>
      cases k with
      | zero => simp [bytesOf]
      | succ k =>
          rw [bytesOf, List.getElem?_cons_succ, ih _ (Nat.lt_of_succ_lt_succ h), Nat.div_div_eq_div_mul,
            Nat.pow_succ, Nat.mul_comm 256]

/-- A heap in which bytes of a number replace those from `p` on. -/
structure Replaced (heap heap' : Array Byte) (p n v : Nat) : Prop where
  size : heap'.size = heap.size
  bytes : ∀ i, heap'[i]?
    = if p ≤ i ∧ i < p + n then some (BitVec.ofNat 8 (v / 256 ^ (i - p))) else heap[i]?

theorem replaced_writeBytes {heap : Array Byte} {p n : Nat} (v : Nat) (h : p + n ≤ heap.size) :
    Replaced heap (writeBytes heap p (bytesOf n v)) p n v where
  size := Words.length_writeBytes heap p _
  bytes i := by
    rw [getElem?_writeBytes, length_bytesOf]
    by_cases hi : p ≤ i ∧ i < p + n
    · rw [if_pos hi, if_pos ⟨hi.1, hi.2, by omega⟩, getElem?_bytesOf v (by omega)]
    · rw [if_neg hi, if_neg fun hin => hi ⟨hin.1, hin.2.1⟩]

/-- The bytes of a number stand for what the number leaves modulo their range. -/
theorem Replaced.numberAt_eq {heap heap' : Array Byte} {p n v : Nat} (h : Replaced heap heap' p n v) :
    numberAt heap' p n = v % 256 ^ n := by
  have hdigit (k : Nat) (hk : k < n) : (heap'[p + k]?.getD 0).toNat = v / 256 ^ k % 256 := by
    rw [h.bytes, if_pos ⟨by omega, by omega⟩, Nat.add_sub_cancel_left]
    rfl
  have hsum (k : Nat) (hk : k ≤ n) : numberAt heap' p k = v % 256 ^ k := by
    induction k with
    | zero => exact (Nat.mod_one v).symm
    | succ k ih =>
        rw [Nat.mod_pow_succ, ← ih (by omega), numberAt, Finset.sum_range_succ, hdigit k hk, Nat.mul_comm]
        rfl
  exact hsum n (Nat.le_refl n)

/-! ### Instructions -/

/-- The word that a load makes of the number at its address: an extension with the sign or with zeros. -/
def TargetLoad.Extends (access : TargetLoad) (number : Nat) (v : Word) : Prop :=
  match access with
  | .extended _ true => v.toInt = signedPart access.bits number
  | _ => v.toNat = number

theorem TargetLoad.extends_extend {access : TargetLoad} {number : Nat} (h : number < 2 ^ access.bits) :
    access.Extends number (access.extend number) := by
  have hplain : (BitVec.ofNat 64 number).toNat = number := by
    rw [BitVec.toNat_ofNat, Nat.mod_eq_of_lt (h.trans_le (Nat.pow_le_pow_right (by decide) ?_))]
    rcases access with (_ | _) | ⟨_ | _ | _, _ | _⟩ | (_ | _) <;> decide
  cases access with
  | word w | float w => exact hplain
  | extended part signed =>
      cases signed with
      | false => exact hplain
      | true =>
          rw [Extends, extend, if_pos rfl, BitVec.toInt_signExtend_of_le (by cases part <;> decide)]
          exact BitVec.toInt_ofNat' ..

/-- Instructions that load from the sum of two registers. -/
structure LoadsBytes (access : TargetLoad) (base index : Gpr) (out : Reg) (is : List Inst) : Prop where
  faults : ∀ m : Machine, m.heap.size < (m.gpr base + m.gpr index).toNat + access.bytes →
    exec is m = (.error (.fault (m.gpr base + m.gpr index)), m)
  loads : ∀ m : Machine, (m.gpr base + m.gpr index).toNat + access.bytes ≤ m.heap.size →
    ∃ m', exec is m = (.ok .next, m') ∧ Changes [out] false m m' ∧
      access.Extends (numberAt m.heap (m.gpr base + m.gpr index).toNat access.bytes) (m'.word out)

/-- Instructions that store at the sum of two registers, and change nothing but the heap. -/
structure StoresBytes (access : TargetStore) (base index : Gpr) (src : Reg) (is : List Inst) : Prop where
  faults : ∀ m : Machine, m.heap.size < (m.gpr base + m.gpr index).toNat + access.bytes →
    exec is m = (.error (.fault (m.gpr base + m.gpr index)), m)
  stores : ∀ m : Machine, (m.gpr base + m.gpr index).toNat + access.bytes ≤ m.heap.size →
    ∃ heap, exec is m = (.ok .next, { m with heap }) ∧
      Replaced m.heap heap (m.gpr base + m.gpr index).toNat access.bytes (m.word src).toNat

theorem TargetLoad.bits_eq (access : TargetLoad) : access.bits = 8 * access.bytes := by
  rcases access with (_ | _) | ⟨_ | _ | _, _ | _⟩ | (_ | _) <;> rfl

/-- The number at an address in the heap fits the load. -/
theorem TargetLoad.extends_number {access : TargetLoad} {heap : Array Byte} {p : Word}
    (h : p.toNat + access.bytes ≤ heap.size) : access.Extends (numberAt heap p.toNat access.bytes)
      (access.extend (number heap access.bytes p)) := by
  rw [← number_eq_numberAt h]
  refine extends_extend ?_
  rw [bits_eq]
  exact number_lt h

/-- A load is one instruction. -/
theorem loadsBytes_of_step {access : TargetLoad} {base index : Gpr} {out : Reg} {i : Inst}
    (hfault : ∀ m : Machine,
      ¬(m.address { base, index := some index }).toNat + access.bytes ≤ m.heap.size →
      step i m = (.error (.fault (m.address { base, index := some index })), m))
    (hload : ∀ m : Machine,
      (m.address { base, index := some index }).toNat + access.bytes ≤ m.heap.size →
      ∃ m', step i m = (.ok .next, m') ∧ Changes [out] false m m' ∧
        m'.word out
          = access.extend (number m.heap access.bytes (m.address { base, index := some index }))) :
    LoadsBytes access base index out [i] := by
  refine ⟨fun m h => ?_, fun m h => ?_⟩
  · rw [← address_index] at h ⊢
    exact exec_cons_error (hfault m (Nat.not_le.mpr h))
  · rw [← address_index] at h ⊢
    obtain ⟨m', hstep, hchanges, hword⟩ := hload m h
    refine ⟨m', exec_cons_next hstep, hchanges, ?_⟩
    rw [hword]
    exact TargetLoad.extends_number h

theorem loadsBytes_int {access : TargetLoad} (hint : access.cls = .int) (base index out : Gpr) :
    LoadsBytes access base index (.gpr out) [Emit.intLoad access out { base, index := some index }] :=
  loadsBytes_of_step (fun m => Emit.step_intLoad_fault m access hint out _) fun m h =>
    ⟨_, Emit.step_intLoad m access hint out _ h, Changes.setGpr m out _ false, gpr_setGpr_self m out _⟩

theorem loadsBytes_float (w : FloatWidth) (base index : Gpr) (out : Xmm) :
    LoadsBytes (.float w) base index (.xmm out)
      [.loadXmm (.movs w) out { base, index := some index }] :=
  loadsBytes_of_step (fun m => step_loadXmm_fault m _ w out) fun m h =>
    ⟨_, step_loadXmm m _ w out h, Changes.setXmm m out _ false,
      congrArg Lanes.low (xmm_setXmm_self m out _)⟩

/-- A store is one instruction. -/
theorem storesBytes_of_step {access : TargetStore} {base index : Gpr} {src : Reg} {i : Inst}
    (hfault : ∀ m : Machine,
      ¬(m.address { base, index := some index }).toNat + access.bytes ≤ m.heap.size →
      step i m = (.error (.fault (m.address { base, index := some index })), m))
    (hstore : ∀ m : Machine,
      (m.address { base, index := some index }).toNat + access.bytes ≤ m.heap.size →
      step i m = (.ok .next, { m with
        heap := writeBytes m.heap (m.address { base, index := some index }).toNat
          (bytesOf access.bytes (m.word src).toNat) })) :
    StoresBytes access base index src [i] := by
  refine ⟨fun m h => ?_, fun m h => ?_⟩
  · rw [← address_index] at h ⊢
    exact exec_cons_error (hfault m (Nat.not_le.mpr h))
  · rw [← address_index] at h ⊢
    exact ⟨_, exec_cons_next (hstore m h), replaced_writeBytes _ h⟩

theorem storesBytes_int (size : Size) (base index src : Gpr) :
    StoresBytes (.int size) base index (.gpr src) [.store size { base, index := some index } src] := by
  have hbytes : (TargetStore.int size).bytes = size.bytes := by cases size <;> rfl
  refine storesBytes_of_step (fun m => ?_) fun m => ?_
  · rw [hbytes]
    exact step_store_fault m size src _
  · rw [hbytes]
    exact step_store m size src _

theorem storesBytes_float (w : FloatWidth) (base index : Gpr) (src : Xmm) :
    StoresBytes (.float w) base index (.xmm src)
      [.storeXmm (.movs w) { base, index := some index } src] :=
  storesBytes_of_step (fun m => step_storeXmm_fault m _ w src) fun m => step_storeXmm m _ w src

/-- Where `js` has stored, `is` finds what was stored, on the same heap and at the same address. -/
def FindsStored (load : TargetLoad) (store : TargetStore) (base index base' index' : Gpr) (out src : Reg)
    (is js : List Inst) : Prop :=
  ∀ m : Machine, (m.gpr base' + m.gpr index').toNat + store.bytes ≤ m.heap.size →
    ∃ m', exec js m = (.ok .next, m') ∧ ∀ m₁ : Machine, m₁.heap = m'.heap →
      m₁.gpr base + m₁.gpr index = m.gpr base' + m.gpr index' →
      ∃ m₂, exec is m₁ = (.ok .next, m₂) ∧
        load.Extends ((m.word src).toNat % 256 ^ store.bytes) (m₂.word out)

/-- A load finds what a store of the same width left at its address. -/
theorem LoadsBytes.after_store {load : TargetLoad} {store : TargetStore} {base index base' index' : Gpr}
    {out src : Reg} {is js : List Inst} (hload : LoadsBytes load base index out is)
    (hstore : StoresBytes store base' index' src js) (hbytes : load.bytes = store.bytes) :
    FindsStored load store base index base' index' out src is js := by
  intro m hp
  obtain ⟨heap, hexec, hreplaced⟩ := hstore.stores m hp
  refine ⟨_, hexec, fun m₁ hheap haddress => ?_⟩
  have hsize : m₁.heap.size = m.heap.size := by
    rw [hheap]
    exact hreplaced.size
  obtain ⟨m₂, hexec₂, -, hextends⟩ := hload.loads m₁ (by rw [haddress, hbytes, hsize]; exact hp)
  refine ⟨m₂, hexec₂, ?_⟩
  rw [haddress, hheap, hbytes, hreplaced.numberAt_eq] at hextends
  exact hextends

/-! ### Nodes -/

/-- The code of a load reads at the sum of two of its operands into its output. -/
def EmitsLoad (access : TargetLoad) (f : Family) (s : Site) : Prop :=
  ∃ base index out is, s.inputs[1]? = some (.gpr base) ∧ s.inputs[2]? = some (.gpr index) ∧
    s.output = some out ∧ f.emit s = .ok is ∧ LoadsBytes access base index out is

/-- The code of a store writes its last operand at the sum of two others. -/
def EmitsStore (access : TargetStore) (f : Family) (s : Site) : Prop :=
  ∃ base index src is, s.inputs[1]? = some (.gpr base) ∧ s.inputs[2]? = some (.gpr index) ∧
    s.inputs[3]? = some src ∧ f.emit s = .ok is ∧ StoresBytes access base index src is

theorem Accepted.loads {n : Node} {d : Descriptor} {x : Assignment} {access : TargetLoad}
    (h : Accepted n d x) (hop : n.op = .target (.load access)) (g : Graph) (b : Nat) (block : Block) :
    EmitsLoad access d.family (siteOf g b block n x) := by
  have hsite : (siteOf g b block n x).op = .target (.load access) := hop
  obtain ⟨hfamily, is, hemit⟩ := h.emits_as (f := .load) g b block (congrArg Operator.family? hop)
    (by rw [Site.Ready, hsite]; trivial)
  rw [hfamily]
  obtain ⟨access', base, index, hop', hbase, hindex, hinst⟩ := Emit.load_ok (Emit.whole_eq_ok.mp hemit)
  obtain rfl : access = access' := Target.load.inj (Operator.target.inj (hsite.symm.trans hop'))
  rcases hinst with ⟨w, out, rfl, hout, rfl⟩ | ⟨hint, out, hout, rfl⟩
  · exact ⟨base, index, _, _, hbase, hindex, hout, hemit, loadsBytes_float w base index out⟩
  · exact ⟨base, index, _, _, hbase, hindex, hout, hemit, loadsBytes_int hint base index out⟩

theorem Accepted.stores {n : Node} {d : Descriptor} {x : Assignment} {access : TargetStore}
    (h : Accepted n d x) (hop : n.op = .target (.store access)) (g : Graph) (b : Nat) (block : Block) :
    EmitsStore access d.family (siteOf g b block n x) := by
  have hsite : (siteOf g b block n x).op = .target (.store access) := hop
  obtain ⟨hfamily, is, hemit⟩ := h.emits_as (f := .store) g b block (congrArg Operator.family? hop)
    (by rw [Site.Ready, hsite]; trivial)
  rw [hfamily]
  obtain ⟨access', base, index, hop', hbase, hindex, hinst⟩ :=
    Emit.store_ok (Emit.whole_eq_ok.mp hemit)
  obtain rfl : access = access' := Target.store.inj (Operator.target.inj (hsite.symm.trans hop'))
  rcases hinst with ⟨w, src, rfl, hsrc, rfl⟩ | ⟨size, src, rfl, hsrc, rfl⟩
  · exact ⟨base, index, _, _, hbase, hindex, hsrc, hemit, storesBytes_float w base index src⟩
  · exact ⟨base, index, _, _, hbase, hindex, hsrc, hemit, storesBytes_int size base index src⟩

/-- The instructions of loads and stores, wherever accepted registers put their operands: the output of
a load may be one of the registers of its address. A load finds what a store of its width has left. -/
theorem access_sequences (g : Graph) (b : Nat) (block : Block) :
    (∀ n d x load, Accepted n d x → n.op = .target (.load load) →
      EmitsLoad load d.family (siteOf g b block n x)) ∧
    (∀ n d x store, Accepted n d x → n.op = .target (.store store) →
      EmitsStore store d.family (siteOf g b block n x)) ∧
    ∀ load store base index base' index' out src is js, LoadsBytes load base index out is →
      StoresBytes store base' index' src js → load.bytes = store.bytes →
      FindsStored load store base index base' index' out src is js := by
  refine ⟨fun n d x load h hop => h.loads hop g b block, fun n d x store h hop => h.stores hop g b block,
    ?_⟩
  intro load store base index base' index' out src is js hload hstore
  exact hload.after_store hstore

/-- A load with a sign of two bytes, over the register of its address. -/
def signedLoad : Node := { op := .target (.load (.extended .p16 true)), inputs := [0, 1, 2] }

def signedLoadRegisters : Assignment where
  output := some (.gpr .rsi)
  inputs := [(0, .gpr .rdi), (1, .gpr .rcx), (2, .gpr .rsi)]
  scratches := []

def shortStore : Node := { op := .target (.store (.int .s16)), inputs := [0, 1, 2, 3] }

def shortStoreRegisters : Assignment where
  output := none
  inputs := [(0, .gpr .rdi), (1, .gpr .rcx), (2, .gpr .rsi), (3, .gpr .rdx)]
  scratches := []

/-- The index lies below zero, so that the sum wraps to the last two bytes of the heap, or to the last
one. -/
def wrappedMachine (base : Word) : Machine :=
  (((Machine.withMemory #[]).setGpr .rcx base).setGpr .rsi (-2)).setGpr .rdx 0x12348001

/-- Two bytes at the end of the heap take the low half of a value; what is loaded from there has its
sign. One byte further an access faults. -/
theorem access_sequences_wrapped : ∃ is js m',
    Accepted signedLoad ⟨signedLoad.op, .load, .empty⟩ signedLoadRegisters ∧
    Accepted shortStore ⟨shortStore.op, .store, .empty⟩ shortStoreRegisters ∧
    Family.load.emit (siteOf .empty 0 ⟨"entry", []⟩ signedLoad signedLoadRegisters) = .ok is ∧
    Family.store.emit (siteOf .empty 0 ⟨"entry", []⟩ shortStore shortStoreRegisters) = .ok js ∧
    exec js (wrappedMachine 17) = (.error (.fault 15), wrappedMachine 17) ∧
    exec js (wrappedMachine 16) = (.ok .next, m') ∧ m'.heap[13]? = (wrappedMachine 16).heap[13]? ∧
    m'.heap[14]? = some 0x01 ∧ m'.heap[15]? = some 0x80 ∧
    ∃ m₂, exec is m' = (.ok .next, m₂) ∧ (m₂.gpr .rsi).toInt = 1 - 2 ^ 15 := by
  have haccepted : Accepted signedLoad ⟨signedLoad.op, .load, .empty⟩ signedLoadRegisters :=
    ⟨Registry.x64_get? _, by decide, fun _ => rfl⟩
  have haccepted' : Accepted shortStore ⟨shortStore.op, .store, .empty⟩ shortStoreRegisters :=
    ⟨Registry.x64_get? _, by decide, fun hout => absurd hout (by decide)⟩
  obtain ⟨hloads, hstores, hfinds⟩ := access_sequences .empty 0 ⟨"entry", []⟩
  obtain ⟨base, index, out, is, hbase, hindex, hout, hemit, hload⟩ := hloads _ _ _ _ haccepted rfl
  obtain ⟨base', index', src, js, hbase', hindex', hsrc, hemit', hstore⟩ := hstores _ _ _ _ haccepted' rfl
  obtain rfl : Gpr.rcx = base := Reg.gpr.inj (Option.some.inj hbase)
  obtain rfl : Gpr.rsi = index := Reg.gpr.inj (Option.some.inj hindex)
  obtain rfl : Reg.gpr .rsi = out := Option.some.inj hout
  obtain rfl : Gpr.rcx = base' := Reg.gpr.inj (Option.some.inj hbase')
  obtain rfl : Gpr.rsi = index' := Reg.gpr.inj (Option.some.inj hindex')
  obtain rfl : Reg.gpr .rdx = src := Option.some.inj hsrc
  have hin : ((wrappedMachine 16).gpr .rcx + (wrappedMachine 16).gpr .rsi).toNat
      + (TargetStore.int .s16).bytes ≤ (wrappedMachine 16).heap.size := by decide
  obtain ⟨m', hexec, hfound⟩ := hfinds _ _ _ _ _ _ _ _ _ _ hload hstore rfl (wrappedMachine 16) hin
  obtain ⟨heap, hexec', hreplaced⟩ := hstore.stores (wrappedMachine 16) hin
  obtain rfl : { wrappedMachine 16 with heap } = m' := congrArg Prod.snd (hexec'.symm.trans hexec)
  obtain ⟨m₂, hexec₂, hextends⟩ := hfound _ rfl rfl
  have hvalue : ((wrappedMachine 16).word (.gpr .rdx)).toNat % 256 ^ (TargetStore.int .s16).bytes
      = 0x8001 := by decide
  rw [hvalue] at hextends
  refine ⟨is, js, _, haccepted, haccepted', hemit, hemit', ?_, hexec, ?_, ?_, ?_, m₂, hexec₂, ?_⟩
  · exact hstore.faults (wrappedMachine 17) (by decide)
  · exact hreplaced.bytes 13
  · exact hreplaced.bytes 14
  · exact hreplaced.bytes 15
  · exact hextends.trans (by decide)

end Isel
