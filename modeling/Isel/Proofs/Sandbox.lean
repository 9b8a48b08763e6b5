import Isel.Proofs.EmissionRun
import Isel.Proofs.MemoryContext
import Mathlib

/-! The sandbox. Compiled code touches linear memory only: along every run the words that accesses are
made from can be trusted, so none of them faults and none of them reaches the memory context. -/

namespace Isel

namespace Emit

open Machine

variable {s : Site} {is : List Inst} (m : Machine)

/-- The address of an access is the sum of two of its operands. -/
theorem address_of_operands {base index : Gpr} {x y : Word} (hbase : s.inputs[1]? = some (.gpr base))
    (hindex : s.inputs[2]? = some (.gpr index)) (hx : (s.inputs.map m.word)[1]? = some x)
    (hy : (s.inputs.map m.word)[2]? = some y) :
    m.address { base, index := some index } = x + y := by
  rw [List.getElem?_map, hbase] at hx
  rw [List.getElem?_map, hindex] at hy
  rw [address_index, ← Option.some.inj hx, ← Option.some.inj hy]
  rfl

/-- A load of any class goes through if what it reads is in the heap. -/
theorem load_next {access : TargetLoad} {x y : Word} (h : load s = .ok is)
    (hop : s.node.op = .target (.load access)) (hx : (s.inputs.map m.word)[1]? = some x)
    (hy : (s.inputs.map m.word)[2]? = some y) (hp : (x + y).toNat + access.bytes ≤ m.heap.size) :
    ∃ m', exec is m = (.ok .next, m') := by
  obtain ⟨access', base, index, hop', hbase, hindex, hload⟩ := load_ok h
  obtain rfl : access = access' := Target.load.inj (Operator.target.inj (hop.symm.trans hop'))
  rw [← address_of_operands m hbase hindex hx hy] at hp
  rcases hload with ⟨w, out, rfl, -, rfl⟩ | ⟨hint, out, -, rfl⟩
  · exact ⟨_, exec_cons_next (step_loadXmm m _ w out hp)⟩
  · exact ⟨_, exec_cons_next (step_intLoad m access hint out _ hp)⟩

/-- A store of any class writes at its address and goes through if that is in the heap. -/
theorem store_next {access : TargetStore} {x y : Word} (h : store s = .ok is)
    (hop : s.node.op = .target (.store access)) (hx : (s.inputs.map m.word)[1]? = some x)
    (hy : (s.inputs.map m.word)[2]? = some y) (hp : (x + y).toNat + access.bytes ≤ m.heap.size) :
    ∃ bs, exec is m = (.ok .next, { m with heap := writeBytes m.heap (x + y).toNat bs }) := by
  obtain ⟨access', base, index, hop', hbase, hindex, hstore⟩ := store_ok h
  obtain rfl : access = access' := Target.store.inj (Operator.target.inj (hop.symm.trans hop'))
  rw [← address_of_operands m hbase hindex hx hy] at hp ⊢
  rcases hstore with ⟨w, src, rfl, -, rfl⟩ | ⟨size, src, rfl, -, rfl⟩
  · exact ⟨_, exec_cons_next (step_storeXmm m _ w src hp)⟩
  · have hbytes : (TargetStore.int size).bytes = size.bytes := by cases size <;> rfl
    exact ⟨_, exec_cons_next (step_store m size src _ (hbytes ▸ hp))⟩

/-- A store is one instruction. -/
theorem length_store (h : store s = .ok is) : is.length = 1 := by
  obtain ⟨_, _, _, -, -, -, ⟨_, _, -, -, rfl⟩ | ⟨_, _, -, -, rfl⟩⟩ := store_ok h <;> rfl

theorem copySign_plain (w : FloatWidth) (d sign : Xmm) : ∀ i ∈ copySign w d sign, i.isPlain = true := by
  simp [copySign, allOnes, Inst.isPlain, Inst.xmms, Inst.xmmImm]

end Emit

/-- Operations on floating-point numbers run to their end. -/
theorem Family.plain_of_float {f : Family} {s : Site} {is : List Inst} (h : f.emit s = .ok is)
    (hf : f ∈ [Family.floatBinary, .floatUnary, .floatConst, .floatBool]) :
    ∀ i ∈ is, i.isPlain = true := by
  simp only [List.mem_cons, List.not_mem_nil, or_false] at hf
  rcases hf with rfl | rfl | rfl | rfl
  · obtain ⟨w, op, out, left, right, -, -, -, -, rfl⟩ := Emit.floatBinary_ok (Emit.whole_eq_ok.mp h)
    refine forall_mem_twoOperand (fun d src _ => rfl) fun d src _ => ?_
    cases op with
    | copysign => exact Emit.copySign_plain w d src
    | arith op => exact List.forall_mem_singleton.mpr rfl
  · obtain ⟨w, op, out, input, -, -, -, rfl⟩ := Emit.floatUnary_ok (Emit.whole_eq_ok.mp h)
    cases op with
    | sqrt | round => exact List.forall_mem_singleton.mpr rfl
    | abs | neg => dsimp only; split <;> simp [Emit.allOnes, Inst.isPlain, Inst.xmms, Inst.xmmImm]
  · obtain ⟨v, out, -, rfl⟩ := Emit.floatConst_ok (Emit.whole_eq_ok.mp h)
    simp [Inst.isPlain, Inst.movImm, Inst.movqToXmm]
  · obtain ⟨w, out, input, -, -, -, rfl⟩ := Emit.floatBool_ok (Emit.whole_eq_ok.mp h)
    simp [Inst.isPlain, materialize, Inst.movqToGpr, Inst.gprs, Inst.set, Inst.extend]

theorem Family.eq_context {f : Family} (h : f.isAccess = true) (hload : f ≠ .load) (hstore : f ≠ .store) :
    f = .context := by
  cases f <;> first | rfl | exact absurd rfl hload | exact absurd rfl hstore | exact absurd h (by decide)

/-- The families of the operators that are not on words. -/
theorem Operator.family_of_float {op : Operator} {f : Family} (h : op.family? = some f)
    (hwords : op.onWords = false) :
    f ∈ [Family.floatBinary, .floatUnary, .floatConst, .floatBool] ∨
      f ∈ [Family.load, .store, .floatRet] := by
  cases op with
  | floatBinary | floatUnary =>
      obtain rfl := Option.some.inj h
      exact .inl (by decide)
  | const ty | bool ty =>
      cases ty with
      | int w => exact absurd hwords (by simp [Operator.onWords, ValueType.isInt])
      | float w =>
          obtain rfl := Option.some.inj h
          exact .inl (by decide)
  | target op =>
      cases op with
      | load | store | floatRet =>
          obtain rfl := Option.some.inj h
          exact .inr (by decide)
      | _ => exact absurd hwords (by simp [Operator.onWords])
  | _ => exact absurd hwords (by simp [Operator.onWords])

/-- What a return does before it returns. -/
theorem Family.exec_return {f : Family} {s : Site} {is : List Inst} (h : f.emit s = .ok is)
    (hf : f ∈ [Family.ret, .intRet, .floatRet]) : Exec.Returns (· = .halt) (Machine.exec is) := by
  have hnone : ∀ i ∈ ([] : List Inst), i.isPlain = true := fun i hi => absurd hi List.not_mem_nil
  have hret : Exec.Returns (· = .halt) (Machine.exec [.ret]) := Machine.exec_plain_ret hnone
  simp only [List.mem_cons, List.not_mem_nil, or_false] at hf
  rcases hf with rfl | rfl | rfl
  · rw [← Except.ok.inj h]
    refine Machine.exec_plain_ret ?_
    split <;> try split
    all_goals simp [Inst.isPlain, Inst.mov, Inst.gprs, Inst.xmms]
  · rw [← Except.ok.inj h]
    exact hret
  · rw [← Except.ok.inj h]
    exact hret

/-- The heap is linear memory of a size behind its memory context. -/
def Encloses (size : Nat) (heap : Array Byte) : Prop :=
  ∃ memory : Array Byte, memory.size = size ∧ heap = Machine.heapOf memory

theorem Encloses.write {size : Nat} {heap : Array Byte} (h : Encloses size heap) (p : Nat)
    (bs : List Byte) : Encloses size (writeBytes heap (Machine.memoryStart + p) bs) := by
  obtain ⟨memory, hsize, rfl⟩ := h
  exact ⟨_, (Words.length_writeBytes memory p bs).trans hsize, Machine.writeBytes_heapOf memory p bs⟩

theorem Encloses.size_eq {size : Nat} {heap : Array Byte} (h : Encloses size heap) :
    heap.size = Machine.memoryStart + size := by
  obtain ⟨memory, rfl, rfl⟩ := h
  exact Machine.size_heapOf memory

theorem Encloses.space {size : Nat} {heap : Array Byte} (h : Encloses size heap) :
    MemoryLayout.heap.space heap 0 = .ok (BitVec.ofNat 64 Machine.memoryStart) := by
  obtain ⟨memory, -, rfl⟩ := h
  exact Machine.space_heapOf memory

theorem Encloses.length {size : Nat} {heap : Array Byte} (h : Encloses size heap) :
    MemoryLayout.heap.size heap 0 = .ok (BitVec.ofNat 64 size) := by
  obtain ⟨memory, rfl, rfl⟩ := h
  exact Machine.size_at_heapOf memory

/-- A run has ended without a fault and left the memory context alone. -/
def Contained (size : Nat) (r : Except Trap Unit × Machine) : Prop :=
  (∀ p, r.1 ≠ .error (.fault p)) ∧ Encloses size r.2.heap

theorem Contained.ok {size : Nat} {m : Machine} (h : Encloses size m.heap) : Contained size (.ok (), m) :=
  ⟨fun _ heq => by injection heq, h⟩

theorem Contained.error {size : Nat} {t : Trap} {m : Machine} (ht : ∀ p, t ≠ .fault p)
    (h : Encloses size m.heap) : Contained size (.error t, m) :=
  ⟨fun p heq => ht p (Except.error.inj heq), h⟩

namespace Emission

open Machine

variable {g : Graph} {forced : List (Nat × Reg)} {a : Allocation} {config : Config} {code : Code}
  {b id size : Nat} {n : Node} {block : Block} {f : Family} {x : Assignment}
  {done rest bs : List Nat} {m : Machine} {limited : Prop}

namespace Coded

theorem op_ne_load (hp : Coded g a config b id n block f x) (hf : f ≠ .load) (access : TargetLoad) :
    n.op ≠ .target (.load access) := by
  intro hop
  have hfamily := hp.family
  rw [hop] at hfamily
  exact hf (Option.some.inj hfamily).symm

theorem op_ne_store (hp : Coded g a config b id n block f x) (hf : f ≠ .store) (access : TargetStore) :
    n.op ≠ .target (.store access) := by
  intro hop
  have hfamily := hp.family
  rw [hop] at hfamily
  exact hf (Option.some.inj hfamily).symm

theorem op_of_context (hp : Coded g a config b id n block f x) (hf : f = .context) :
    n.op = .target .memorySpace ∨ n.op = .target .memorySize := by
  subst hf
  obtain ⟨disp, _, _, hdisp, -⟩ := Emit.context_ok (Emit.whole_eq_ok.mp hp.emitted)
  unfold Emit.contextOffset at hdisp
  split at hdisp
  · next hop => exact .inl hop
  · next hop => exact .inr hop
  · exact absurd hdisp (by simp)

/-- Only the families that read or write memory can fault. -/
theorem faultless (hp : Coded g a config b id n block f x) (hf : f.isAccess = false) :
    Exec.Faultless (exec (chunk g a config id)) := by
  refine exec_faultless fun i hi => ?_
  by_contra haccess
  have hwithin := (Family.emit_within hp.emitted i hi).accesses (by simpa using haccess)
  exact absurd (hf.symm.trans hwithin) Bool.false_ne_true

end Coded

/-- A run stands in front of a node with a memory context and with live values that can be trusted. -/
structure Sandboxed (g : Graph) (a : Allocation) (size b : Nat) (done : List Nat) (m : Machine) :
    Prop where
  heap : Encloses size m.heap
  state : m.gpr Gpr.state = 0
  holds : Holds g a (Trusted g.node? size) b done m
  walk : ∃ bs, g.Walk bs b

namespace Sandboxed

/-- Behind a node it is enough to look at the heap and at the value of the node. -/
theorem next (h : Sandboxed g a size b done m) (hc : Compiled g forced a config code)
    (hp : Coded g a config b id n block f x) (hmembers : g.members b = done ++ id :: rest)
    (hret : f ≠ .ret) (hheap : Encloses size (exec (chunk g a config id) m).2.heap)
    (hown : ∀ r, a.get? id = some r → Trusted g.node? size id ((exec (chunk g a config id) m).2.word r)) :
    Sandboxed g a size b (done ++ [id]) (exec (chunk g a config id) m).2 where
  heap := hheap
  state := (hp.gpr_state hc m).trans h.state
  holds := by
    obtain ⟨bs, hwalk⟩ := h.walk
    exact h.holds.step hp hc hret hwalk hmembers (fun _ _ _ hw => hw) hown
  walk := h.walk

variable (h : Sandboxed g a size b done m) (hc : Compiled g forced a config code)
  (hmembers : g.members b = done ++ id :: rest)

include h hc hmembers

/-- A guarded access is in the heap, behind the memory context. -/
theorem address (hp : Coded g a config b id n block f x) {k space checked : Nat}
    (hguarded : GuardedBy g.node? k n space checked) (hk : 0 < k ∧ k ≤ 8)
    (hsize : memoryStart + size ≤ 2 ^ 64) :
    ∃ p, ((siteOf g b block n x).inputs.map m.word)[1]? = some (BitVec.ofNat 64 memoryStart) ∧
      ((siteOf g b block n x).inputs.map m.word)[2]? = some p ∧
      (BitVec.ofNat 64 memoryStart + p).toNat = memoryStart + p.toNat ∧
      (BitVec.ofNat 64 memoryStart + p).toNat + k ≤ m.heap.size := by
  obtain ⟨p, hstart, hplace, hle, haddress⟩ :=
    hguarded.address hk (h.holds.operands hp hc hmembers) hsize
  refine ⟨p, hstart, hplace, haddress, ?_⟩
  rw [haddress, h.heap.size_eq]
  omega

/-- A load reads linear memory. -/
theorem load (hp : Coded g a config b id n block .load x) (hg : Guarded g.node?)
    (hsize : memoryStart + size ≤ 2 ^ 64) :
    ∃ m', exec (chunk g a config id) m = (.ok .next, m') ∧ Sandboxed g a size b (done ++ [id]) m' := by
  have hnode := Graph.node?_eq_some.mpr ⟨b, hp.node⟩
  obtain ⟨-, access, hop⟩ := Operator.of_family? hp.family
  obtain ⟨space, checked, hguarded⟩ := hg.load id n access hnode hop
  obtain ⟨p, hstart, hplace, -, hin⟩ := h.address hc hmembers hp hguarded access.bytes_bounds hsize
  obtain ⟨m', hexec⟩ := Emit.load_next m (Emit.whole_eq_ok.mp hp.emitted) hop hstart hplace hin
  have hheap := heap_of_emit hp.emitted (by decide) m
  have hnext := h.next hc hp hmembers (by decide) (hheap ▸ h.heap) fun r _ =>
    .of_other hnode (by simp [hop]) (by simp [hop]) (by simp [hop]) (by simp [hop]) (by simp [hop])
  rw [hexec] at hnext
  exact ⟨m', hexec, hnext⟩

/-- A store writes linear memory. -/
theorem store (hp : Coded g a config b id n block .store x) (hg : Guarded g.node?)
    (hsize : memoryStart + size ≤ 2 ^ 64) :
    ∃ m', exec (chunk g a config id) m = (.ok .next, m') ∧ Sandboxed g a size b (done ++ [id]) m' := by
  have hnode := Graph.node?_eq_some.mpr ⟨b, hp.node⟩
  obtain ⟨-, access, hop⟩ := Operator.of_family? hp.family
  obtain ⟨space, checked, hguarded⟩ := hg.store id n access hnode hop
  obtain ⟨p, hstart, hplace, haddress, hin⟩ :=
    h.address hc hmembers hp hguarded access.bytes_bounds hsize
  obtain ⟨bs, hexec⟩ := Emit.store_next m (Emit.whole_eq_ok.mp hp.emitted) hop hstart hplace hin
  rw [haddress] at hexec
  have hheap : Encloses size (exec (chunk g a config id) m).2.heap := by
    rw [hexec]
    exact h.heap.write p.toNat bs
  have hnext := h.next hc hp hmembers (by decide) hheap fun r _ =>
    .of_other hnode (by simp [hop]) (by simp [hop]) (by simp [hop]) (by simp [hop]) (by simp [hop])
  rw [hexec] at hnext
  exact ⟨_, hexec, hnext⟩

/-- A node on words that is no access leaves a value that can be trusted, or stops without a fault. -/
theorem value (hp : Coded g a config b id n block f x) (hg : Guarded g.node?)
    (hsize : memoryStart + size ≤ 2 ^ 64) (hwords : n.op.onWords = true)
    (hterm : n.op.isTerminator = false) (hload : f ≠ .load) (hstore : f ≠ .store) :
    Continues g limited (Sandboxed g a size) (Contained size) b done id (rest = [])
      (exec (chunk g a config id) m) := by
  have hnode := Graph.node?_eq_some.mpr ⟨b, hp.node⟩
  have hws := h.holds.operands hp hc hmembers
  have hcomputes := emit_computes hp.family hp.met hp.assigned.output_isSome hp.emitted hwords hterm
    fun _ => h.state
  have hop := Words.compute_of_value .heap (hp.op_ne_load hload) (hp.op_ne_store hstore)
  have hlt : size < 2 ^ 64 := by
    unfold memoryStart at hsize
    omega
  have hheap : Encloses size (exec (chunk g a config id) m).2.heap := by
    rw [heap_of_emit hp.emitted hstore m]
    exact h.heap
  have hret : f ≠ .ret := by
    rintro rfl
    rw [(Operator.of_family? hp.family).1] at hterm
    exact absurd hterm (by decide)
  have hnext := h.next hc hp hmembers hret hheap
  have hmore := hc.terminated.rest_ne_nil hmembers hp.node hterm
  have hfault := fun haccess => hp.faultless haccess m
  generalize hcompute : Words.compute .heap n _ m.heap = r at hcomputes
  generalize exec (chunk g a config id) m = s at hcomputes hheap hnext hfault ⊢
  rw [hop] at hcompute
  cases hcomputes with
  | @value q m' hout =>
      obtain ⟨w, hw, heq⟩ := map_eq_ok.mp hcompute
      obtain rfl : w = m'.word q := Option.some.inj (congrArg Prod.fst heq)
      refine .next hmore (hnext fun r hr => ?_)
      rw [← Option.some.inj ((hp.output hout).symm.trans hr)]
      exact .of_value hg hnode hws h.heap.space h.heap.length hlt hw
  | stored =>
      obtain ⟨w, -, heq⟩ := map_eq_ok.mp hcompute
      exact absurd (congrArg Prod.fst heq) (by simp)
  | trapped =>
      refine .error (.error (fun p ht => ?_) hheap)
      cases haccess : f.isAccess with
      | false => exact hfault haccess p (congrArg Except.error ht)
      | true =>
          have hcontext := hp.op_of_context (Family.eq_context haccess hload hstore)
          obtain ⟨w, hw⟩ := hg.context_value hnode hcontext hws h.heap.space h.heap.length
          rw [hw] at hcompute
          exact absurd hcompute (by simp [Except.map])
  | check => exact .check (.error (by simp) hheap) fun _ => .error (by simp) hheap

/-- An operation on floating-point numbers goes through, or stops without a fault. -/
theorem float (hp : Coded g a config b id n block f x) (hwords : n.op.onWords = false)
    (hterm : n.op.isTerminator = false)
    (hf : f ∈ [Family.floatBinary, .floatUnary, .floatConst, .floatBool]) :
    Continues g limited (Sandboxed g a size) (Contained size) b done id (rest = [])
      (exec (chunk g a config id) m) := by
  have hnode := Graph.node?_eq_some.mpr ⟨b, hp.node⟩
  have hcases : f ≠ .store ∧ f ≠ .ret ∧ f.isAccess = false := by
    revert hf
    cases f <;> decide
  obtain ⟨hstore, hret, haccess⟩ := hcases
  have hheap : Encloses size (exec (chunk g a config id) m).2.heap := by
    rw [heap_of_emit hp.emitted hstore m]
    exact h.heap
  have hne {op : Operator} (hop : op.onWords = true) : n.op ≠ op := by
    rintro rfl
    exact absurd (hop.symm.trans hwords) (by simp)
  have hnext := h.next hc hp hmembers hret hheap fun r _ =>
    .of_other hnode (hne rfl) (hne rfl) (hne rfl) (hne rfl) (hne rfl)
  have hplain := exec_plain (Family.plain_of_float hp.emitted hf) m
  have hfault := hp.faultless haccess m
  have hmore := hc.terminated.rest_ne_nil hmembers hp.node hterm
  generalize exec (chunk g a config id) m = s at *
  obtain ⟨t | flow, m'⟩ := s
  · exact .error (.error (fun p ht => hfault p (congrArg Except.error ht)) hheap)
  · obtain rfl := hplain m' flow rfl
    exact .next hmore hnext

/-- A block is entered as the one before was left. -/
theorem enter (hp : Coded g a config b id n block f x) (hterm : n.op.isTerminator = true)
    (hret : f ≠ .ret) {k c : Nat} (hsucc : block.successors[k]? = some c)
    (hheap : Encloses size (exec (chunk g a config id) m).2.heap) :
    b < c ∧ c < g.blocks.size ∧ Sandboxed g a size c [] (exec (chunk g a config id) m).2 := by
  have hedge : g.Edge b c := ⟨block, hp.found, List.mem_of_getElem? hsucc⟩
  obtain rfl := Graph.rest_eq_nil hc.flawless hmembers hp.node hterm
  obtain ⟨bs, hwalk⟩ := h.walk
  have hnext := h.next hc hp hmembers hret hheap fun r hr => by
    rw [hp.not_allocated hc hterm] at hr
    exact absurd hr (by simp)
  have hholds := hnext.holds
  rw [← hmembers] at hholds
  exact ⟨hc.forward b c hedge, hedge.lt hc.flawless, hheap, hnext.state,
    hholds.enter hedge hc.forward, c :: bs, hwalk.step hedge⟩

/-- A terminator leads to a later block or back to the caller. -/
theorem leave (hp : Coded g a config b id n block f x) (hterm : n.op.isTerminator = true) :
    Continues g limited (Sandboxed g a size) (Contained size) b done id (rest = [])
      (exec (chunk g a config id) m) := by
  have hisTerm := (Operator.of_family? hp.family).1.symm.trans hterm
  have hcases : f ≠ .store ∧ f.isAccess = false := by
    revert hisTerm
    cases f <;> decide
  have hheap : Encloses size (exec (chunk g a config id) m).2.heap := by
    rw [heap_of_emit hp.emitted hcases.1 m]
    exact h.heap
  by_cases hret : f ∈ [Family.ret, .intRet, .floatRet]
  · have hhalt := Family.exec_return hp.emitted hret m
    have hfault := hp.faultless hcases.2 m
    generalize exec (chunk g a config id) m = s at *
    obtain ⟨t | flow, m'⟩ := s
    · exact .error (.error (fun p ht => hfault p (congrArg Except.error ht)) hheap)
    · obtain rfl := hhalt m' flow rfl
      exact .halt (.ok hheap)
  · simp only [List.mem_cons, List.not_mem_nil, or_false, not_or] at hret
    have hwords : n.op.onWords = true := by
      by_contra hwords
      rcases Operator.family_of_float hp.family (by simpa using hwords) with hf | hf <;>
        revert hf hisTerm hret <;> cases f <;> decide
    have hop : n.op ≠ .ret := by
      intro hop
      have hfamily := hp.family
      rw [hop] at hfamily
      exact hret.1 (Option.some.inj hfamily).symm
    have hleaves := emit_leaves hp.family hp.met hp.emitted hwords hterm (fun heq => absurd heq hop) m
    have henter {k c : Nat} (hsucc : block.successors[k]? = some c) :=
      h.enter hc hmembers hp hterm hret.1 hsucc hheap
    obtain rfl := Graph.rest_eq_nil hc.flawless hmembers hp.node hterm
    generalize exec (chunk g a config id) m = s at *
    generalize Words.exit n _ = r at hleaves
    cases hleaves with
    | jump hsucc =>
        obtain ⟨hlater, hlt, hinv⟩ := henter hsucc
        exact .jump hlater hlt hinv
    | @fall k c m' hsucc hfall =>
        obtain ⟨-, hlt, hinv⟩ := henter hsucc
        obtain rfl := fallthrough_eq hfall
        exact .fall rfl hlt hinv
    | leave => exact .halt (.ok hheap)

/-- A node is computed within the sandbox. -/
theorem compute (hp : Coded g a config b id n block f x) (hg : Guarded g.node?)
    (hsize : memoryStart + size ≤ 2 ^ 64) (hterm : n.op.isTerminator = false) :
    Continues g limited (Sandboxed g a size) (Contained size) b done id (rest = [])
      (exec (chunk g a config id) m) := by
  have hmore := hc.terminated.rest_ne_nil hmembers hp.node hterm
  by_cases hload : f = .load
  · subst hload
    obtain ⟨m', hexec, hnext⟩ := h.load hc hmembers hp hg hsize
    rw [hexec]
    exact .next hmore hnext
  by_cases hstore : f = .store
  · subst hstore
    obtain ⟨m', hexec, hnext⟩ := h.store hc hmembers hp hg hsize
    rw [hexec]
    exact .next hmore hnext
  cases hwords : n.op.onWords with
  | true => exact h.value hc hmembers hp hg hsize hwords hterm hload hstore
  | false =>
      rcases Operator.family_of_float hp.family hwords with hf | hf
      · exact h.float hc hmembers hp hwords hterm hf
      · have hisTerm := (Operator.of_family? hp.family).1.symm.trans hterm
        revert hf hisTerm
        cases f <;> simp_all [Family.isTerminator]

/-- A run that is stopped among the instructions of a node is stopped within the sandbox. -/
theorem stopped (hp : Coded g a config b id n block f x) (hg : Guarded g.node?)
    (hsize : memoryStart + size ≤ 2 ^ 64) {k : Nat} {m' : Machine}
    (hexec : exec ((chunk g a config id).take k) m = (.ok .next, m')) : Encloses size m'.heap := by
  by_cases hf : f = .store
  · subst hf
    have hlength := Emit.length_store (Emit.whole_eq_ok.mp hp.emitted)
    cases k with
    | zero =>
        obtain rfl := congrArg Prod.snd hexec
        exact h.heap
    | succ k =>
        rw [List.take_of_length_le (by omega)] at hexec
        obtain ⟨m₁, hexec₁, hnext⟩ := h.store hc hmembers hp hg hsize
        obtain rfl : m₁ = m' := congrArg Prod.snd (hexec₁.symm.trans hexec)
        exact hnext.heap
  · have hmem {i : Inst} (hi : i ∈ (chunk g a config id).take k) :=
      Family.emit_within hp.emitted i (List.mem_of_mem_take hi)
    have hchanges := exec_writes (fun i hi => (hmem hi).writes) (fun i hi => (hmem hi).stores) m
    rw [hexec] at hchanges
    rw [hchanges.heap (by simpa using hf)]
    exact h.heap

end Sandboxed

/-- Code for a guarded graph stays within linear memory. -/
theorem Compiled.contained (hc : Compiled g forced a config code) (hg : Guarded g.node?)
    (hsize : memoryStart + size ≤ 2 ^ 64) (hheap : Encloses size m.heap) (hstate : m.gpr Gpr.state = 0) :
    Contained size (run code m) := by
  have hpreserves : Preserves g a config (stepLimit < code.insts.size) (Sandboxed g a size)
      (Contained size) := by
    constructor
    · intro b done id rest n m hmembers hn h
      obtain ⟨block, f, x, hp⟩ := hc.coded hn
      cases hterm : n.op.isTerminator with
      | true => exact h.leave hc hmembers hp hterm
      | false => exact h.compute hc hmembers hp hg hsize hterm
    · intro _ b done id rest n k m m' hmembers hn h hexec
      obtain ⟨block, f, x, hp⟩ := hc.coded hn
      exact .error (by simp) (h.stopped hc hmembers hp hg hsize hexec)
  exact run_of_invariant hc.emitted hc.terminated hc.nonempty hpreserves
    ⟨hheap, hstate, .start m, [0], .start⟩

/-- A graph without blocks has no code. -/
theorem run_of_no_blocks (hemit : emit g a config = .ok code) (hblocks : g.blocks.size = 0) :
    run code m = (.ok (), m) := by
  obtain ⟨rfl, -⟩ := emit_ok hemit
  have hnil : blockChunks g a config = [] := by
    rw [← List.length_eq_zero_iff, blockChunks_length, hblocks]
  rw [hnil]
  rfl

end Emission

/-- Compiled code is a sandbox: whatever a program without loops does, its code never faults, and it
leaves the memory context and the size of the heap as they are. -/
theorem run_stays_in_memory {g g' : Graph} {config config' : Config} {stats : Stats} {a : Allocation}
    {code : Code} (hg : g.ForwardProgram) (hselect : select g config = .ok (g', stats))
    (hallocate : Pool.allocate [] g' = .ok a) (hemit : emit g' a config' = .ok code)
    {memory : Array Byte} (hm : Addressable memory) :
    (∀ p, (Machine.run code (Machine.withMemory memory)).1 ≠ .error (.fault p)) ∧
      (Machine.run code (Machine.withMemory memory)).2.heap.extract 0 Machine.memoryStart
        = (Machine.withMemory memory).heap.extract 0 Machine.memoryStart ∧
      (Machine.run code (Machine.withMemory memory)).2.heap.size
        = (Machine.withMemory memory).heap.size := by
  have hcontained : Contained memory.size (Machine.run code (Machine.withMemory memory)) := by
    by_cases hblocks : 0 < g.blocks.size
    · have hc := hg.compiled hblocks hselect (fun p hp => absurd hp List.not_mem_nil) hallocate hemit
      obtain ⟨l, hsteps, rfl, -⟩ := exists_steps hg.arrangeable hselect
      exact hc.contained (hsteps.guarded_schedule hg.generic) hm ⟨memory, rfl, rfl⟩ rfl
    · obtain ⟨l, -, rfl, -⟩ := exists_steps hg.arrangeable hselect
      rw [Emission.run_of_no_blocks hemit (Nat.eq_zero_of_not_pos hblocks)]
      exact .ok ⟨memory, rfl, rfl⟩
  obtain ⟨hfault, memory', hsize, hheap⟩ := hcontained
  refine ⟨hfault, ?_, ?_⟩
  · rw [hheap, Machine.heap_withMemory, Machine.extract_context, Machine.extract_context, hsize]
  · rw [hheap, Machine.heap_withMemory, Machine.size_heapOf, Machine.size_heapOf, hsize]

/-- Doubles a number in memory, and then reads beyond every memory, at an address that is reckoned from a
state: the end of the last access wraps around. -/
def overrun : Graph :=
  .ofParts #[⟨"entry", [1]⟩, ⟨"done", []⟩]
    #[⟨0, .state, [], [], []⟩, ⟨0, .const .i64, [], [.int 0], []⟩,
      ⟨0, .load (.full .f64), [], [], [0, 1]⟩, ⟨0, .floatBinary .double (.arith .add), [], [], [2, 2]⟩,
      ⟨0, .store (.full .f64), [], [], [0, 1, 3]⟩, ⟨0, .jump, [], [], []⟩,
      ⟨1, .updateState, [], [], [0]⟩, ⟨1, .const .i64, [], [.int (-4)], []⟩,
      ⟨1, .intBinary .w64 (.arith .add), [], [], [6, 7]⟩, ⟨1, .load (.full .i32), [], [], [6, 8]⟩,
      ⟨1, .typedRet .i32, [], [], [9]⟩]

theorem overrun_generic : overrun.Generic where
  operators := Graph.forall_node?.mp (by decide)
  inputs := Graph.forall_node?.mp (by decide)
  states id n hn haccess := by
    have hstates : ∀ id n, overrun.node? id = some n → n.op.isAccess = true →
        n.inputs[0]? = some 0 ∨ n.inputs[0]? = some 6 := Graph.forall_node?.mp (by decide)
    have harrives : IsState overrun.node? 0 := .arrives rfl rfl
    rcases hstates id n hn haccess with hs | hs
    · exact ⟨0, hs, harrives⟩
    · exact ⟨6, hs, .updates rfl rfl rfl harrives⟩

theorem overrun_program : overrun.ForwardProgram where
  flawless := by decide
  generic := overrun_generic
  terminated := by decide
  forward := by decide
  inScope := Graph.scoped_of_near (by decide)

theorem run_stays_in_memory_overrun :
    ∃ g' stats a code, select overrun {} = .ok (g', stats) ∧ Pool.allocate [] g' = .ok a ∧
      emit g' a {} = .ok code ∧
      (∀ p, (Machine.run code (Machine.withMemory #[0, 0, 0, 0, 0, 0, 0xf0, 0x3f])).1
        ≠ .error (.fault p)) ∧
      (Machine.run code (Machine.withMemory #[0, 0, 0, 0, 0, 0, 0xf0, 0x3f])).2.heap.extract 0 16
        = #[16, 0, 0, 0, 0, 0, 0, 0, 8, 0, 0, 0, 0, 0, 0, 0] ∧
      (Machine.run code (Machine.withMemory #[0, 0, 0, 0, 0, 0, 0xf0, 0x3f])).2.heap.size = 24 := by
  have hok : ((select overrun {}).toOption.bind fun r => (Pool.allocate [] r.1).toOption.bind fun a =>
      (emit r.1 a {}).toOption.map fun _ => ()) = some () := by
    cbv
  obtain ⟨⟨g', stats⟩, hg', hok⟩ := Option.bind_eq_some_iff.mp hok
  obtain ⟨a, ha, hok⟩ := Option.bind_eq_some_iff.mp hok
  obtain ⟨code, hcode, -⟩ := Option.map_eq_some_iff.mp hok
  have hselect := toOption_eq_some.mp hg'
  have hallocate := toOption_eq_some.mp ha
  have hemit := toOption_eq_some.mp hcode
  obtain ⟨hfault, hcontext, hsize⟩ := run_stays_in_memory overrun_program hselect hallocate hemit
    (show Addressable #[0, 0, 0, 0, 0, 0, 0xf0, 0x3f] by decide)
  exact ⟨g', stats, a, code, hselect, hallocate, hemit, hfault, hcontext, hsize⟩

end Isel
