import Isel.Proofs.FamilyRun
import Isel.Proofs.Guarded

/-! The memory context. In front of linear memory the heap holds where linear memory starts and how
long it is. What a graph reads there it can trust, and so a checked address lies in linear memory. A
graph whose accesses are guarded therefore runs on the heap, which checks nothing but its own end, as it
runs on linear memory alone. -/

namespace Isel

namespace Machine

/-- A heap with a memory context in front of linear memory. -/
def heapOf (memory : Array Byte) : Array Byte := (contextBytes memory.size).toArray ++ memory

variable {memory : Array Byte}

theorem heap_withMemory (memory : Array Byte) : (withMemory memory).heap = heapOf memory := rfl

theorem size_contextBytes (size : Nat) : (contextBytes size).toArray.size = memoryStart := by
  simp [contextBytes, memoryStart]

theorem size_heapOf (memory : Array Byte) : (heapOf memory).size = memoryStart + memory.size := by
  rw [heapOf, Array.size_append, size_contextBytes]

theorem extract_heapOf (memory : Array Byte) (p n : Nat) :
    (heapOf memory).extract (memoryStart + p) (memoryStart + p + n) = memory.extract p (p + n) := by
  rw [heapOf, Array.extract_append, size_contextBytes, Array.extract_eq_empty_of_le, Array.empty_append]
  · congr 1 <;> omega
  · rw [size_contextBytes]
    omega

theorem extract_context (memory : Array Byte) :
    (heapOf memory).extract 0 memoryStart = (contextBytes memory.size).toArray := by
  have hsize := size_contextBytes memory.size
  rw [heapOf, ← hsize, Array.extract_append_left, Array.extract_size]

theorem memory_of_heapOf {m : Machine} (h : m.heap = heapOf memory) : m.memory = memory := by
  rw [Machine.memory, h, size_heapOf]
  have hextract := extract_heapOf memory 0 memory.size
  rw [Nat.add_zero, Nat.zero_add, Array.extract_size] at hextract
  exact hextract

/-- Bytes of linear memory are overwritten in the heap. -/
theorem writeBytes_heapOf (memory : Array Byte) (p : Nat) (bs : List Byte) :
    writeBytes (heapOf memory) (memoryStart + p) bs = heapOf (writeBytes memory p bs) := by
  induction bs generalizing memory p with
  | nil => rfl
  | cons b bs ih =>
      have hset : (heapOf memory).setIfInBounds (memoryStart + p) b
          = heapOf (memory.setIfInBounds p b) := by
        rw [heapOf, heapOf, Array.size_setIfInBounds, Array.setIfInBounds_append_right, size_contextBytes,
          Nat.add_sub_cancel_left]
        rw [size_contextBytes]
        omega
      rw [writeBytes, writeBytes, hset, Nat.add_assoc, ih]

theorem readBytes?_heapOf (memory : Array Byte) (p n : Nat) :
    readBytes? (heapOf memory) (memoryStart + p) n = readBytes? memory p n := by
  unfold readBytes?
  rw [size_heapOf, extract_heapOf]
  split <;> split <;> first | rfl | omega

theorem replaceBytes?_heapOf (memory : Array Byte) (p n v : Nat) :
    replaceBytes? (heapOf memory) (memoryStart + p) n v = (replaceBytes? memory p n v).map heapOf := by
  unfold replaceBytes?
  rw [size_heapOf, writeBytes_heapOf]
  split <;> split <;> first | rfl | omega

/-- A word of the memory context. -/
theorem heapWord_context {p : Word} {front back : List Byte} {v : Nat}
    (hcontext : contextBytes memory.size = front ++ bytesOf 8 v ++ back) (hp : p.toNat = front.length) :
    MemoryLayout.heapWord (heapOf memory) p = .ok (BitVec.ofNat 64 v) := by
  have hlength := congrArg List.length hcontext
  rw [← List.size_toArray, size_contextBytes, List.length_append, List.length_append,
    length_bytesOf] at hlength
  have hle : p.toNat + 8 ≤ (heapOf memory).size := by
    rw [size_heapOf]
    omega
  have hread : ((heapOf memory).extract p.toNat (p.toNat + 8)).toList = bytesOf 8 v := by
    rw [heapOf, hcontext, hp]
    simp
  rw [heapWord_of_le hle, number, hread, littleEndian_bytesOf]
  congr 1
  refine BitVec.eq_of_toNat_eq ?_
  simp

theorem space_heapOf (memory : Array Byte) :
    MemoryLayout.heap.space (heapOf memory) 0 = .ok (BitVec.ofNat 64 memoryStart) := by
  have hcontext : contextBytes memory.size = [] ++ bytesOf 8 memoryStart ++ bytesOf 8 memory.size := rfl
  exact heapWord_context hcontext rfl

theorem size_at_heapOf (memory : Array Byte) :
    MemoryLayout.heap.size (heapOf memory) 0 = .ok (BitVec.ofNat 64 memory.size) := by
  have hcontext : contextBytes memory.size = bytesOf 8 memoryStart ++ bytesOf 8 memory.size ++ [] := by
    rw [List.append_nil]
    rfl
  exact heapWord_context hcontext rfl

end Machine

open Machine

variable {node? : Nat → Option Node} {size i : Nat} {n : Node} {ws : List Word} {w : Word}
  {L : MemoryLayout} {memory : Array Byte}

/-- What can be trusted about the word of a node: a state is the address of the memory context, what is
read from the context is true, and an access at a checked address ends within linear memory. -/
structure Trusted (node? : Nat → Option Node) (size i : Nat) (w : Word) : Prop where
  state : IsState node? i → w = 0
  space : ∀ n, node? i = some n → n.op = .target .memorySpace → w = BitVec.ofNat 64 memoryStart
  length : ∀ n, node? i = some n → n.op = .target .memorySize → w = BitVec.ofNat 64 size
  checked : ∀ n k v p, node? i = some n → n.op = .target .boundsCheck → k < 2 ^ 64 →
    n.literals = [.int (BitVec.ofNat 64 k)] → n.inputs[2]? = some v → node? v = some p →
    p.op = .target .memorySize → w.toNat + k ≤ size

theorem getElem?_of_forall₂ {α β : Type} {R : α → β → Prop} {xs : List α} {ys : List β} {k : Nat} {x : α}
    (h : List.Forall₂ R xs ys) (hx : xs[k]? = some x) : ∃ y, ys[k]? = some y ∧ R x y := by
  obtain ⟨hk, rfl⟩ := List.getElem?_eq_some_iff.mp hx
  have hk' : k < ys.length := h.length_eq ▸ hk
  exact ⟨ys[k], List.getElem?_eq_getElem hk', h.get hk hk'⟩

namespace Trusted

/-- Nothing is said about other operators. -/
theorem of_other (hn : node? i = some n) (hstate : n.op ≠ .state) (hupdate : n.op ≠ .updateState)
    (hspace : n.op ≠ .target .memorySpace) (hsize : n.op ≠ .target .memorySize)
    (hcheck : n.op ≠ .target .boundsCheck) : Trusted node? size i w where
  state h := by
    cases h with
    | arrives hn' hop => exact absurd (Option.some.inj (hn'.symm.trans hn) ▸ hop) hstate
    | updates hn' hop => exact absurd (Option.some.inj (hn'.symm.trans hn) ▸ hop) hupdate
  space n' hn' hop := absurd (Option.some.inj (hn'.symm.trans hn) ▸ hop) hspace
  length n' hn' hop := absurd (Option.some.inj (hn'.symm.trans hn) ▸ hop) hsize
  checked n' _ _ _ hn' hop := absurd (Option.some.inj (hn'.symm.trans hn) ▸ hop) hcheck

/-- The value of a node can be trusted if its operands can, in a layout that tells the truth. -/
theorem of_value (hg : Guarded node?) (hn : node? i = some n)
    (hws : List.Forall₂ (Trusted node? size) n.inputs ws)
    (hspace : L.space memory 0 = .ok (BitVec.ofNat 64 memoryStart))
    (hsize : L.size memory 0 = .ok (BitVec.ofNat 64 size)) (hlt : size < 2 ^ 64)
    (hvalue : Words.value L n ws memory = .ok w) : Trusted node? size i w where
  state h := by
    cases h with
    | arrives hn' hop =>
        obtain rfl := Option.some.inj (hn'.symm.trans hn)
        simp only [Words.value, hop, Words.pure?, orStuck_eq_ok, Option.some.injEq] at hvalue
        exact hvalue.symm
    | @updates _ v _ hn' hop hv hstate =>
        obtain rfl := Option.some.inj (hn'.symm.trans hn)
        obtain ⟨x, hx, htrusted⟩ := getElem?_of_forall₂ hws hv
        obtain ⟨rest, rfl⟩ := eq_cons_of_getElem? hx
        simp only [Words.value, hop, Words.pure?, orStuck_eq_ok, Option.some.injEq] at hvalue
        rw [← hvalue]
        exact htrusted.state hstate
  space n' hn' hop := by
    obtain rfl := Option.some.inj (hn'.symm.trans hn)
    obtain ⟨v, hv, hstate⟩ := hg.context i n' hn (.inl hop)
    obtain ⟨x, hx, htrusted⟩ := getElem?_of_forall₂ hws hv
    obtain ⟨rest, rfl⟩ := eq_cons_of_getElem? hx
    simp only [Words.value, hop, htrusted.state hstate, hspace] at hvalue
    exact (Except.ok.inj hvalue).symm
  length n' hn' hop := by
    obtain rfl := Option.some.inj (hn'.symm.trans hn)
    obtain ⟨v, hv, hstate⟩ := hg.context i n' hn (.inr hop)
    obtain ⟨x, hx, htrusted⟩ := getElem?_of_forall₂ hws hv
    obtain ⟨rest, rfl⟩ := eq_cons_of_getElem? hx
    simp only [Words.value, hop, htrusted.state hstate, hsize] at hvalue
    exact (Except.ok.inj hvalue).symm
  checked n' k v p hn' hop hk hliterals hv hp hpop := by
    obtain rfl := Option.some.inj (hn'.symm.trans hn)
    obtain ⟨x, hx, htrusted⟩ := getElem?_of_forall₂ hws hv
    have hlength := (List.getElem?_eq_some_iff.mp hx).1
    obtain ⟨a, ha⟩ : ∃ a, ws[1]? = some a := ⟨_, List.getElem?_eq_getElem (by omega)⟩
    obtain ⟨s, rest, rfl⟩ := eq_cons_cons_cons_of_getElem? ha hx
    simp only [Words.value, hop, hliterals] at hvalue
    obtain ⟨l, hl, hcheck⟩ := bind_eq_ok.mp hvalue
    obtain rfl : Literal.int _ = l := Option.some.inj (orStuck_eq_ok.mp hl)
    rw [Literal.toInt, htrusted.length p hp hpop, checkBounds_eq hlt hk] at hcheck
    split at hcheck
    · next hle =>
        rw [← Except.ok.inj hcheck]
        exact hle
    · exact absurd hcheck (by simp)

end Trusted

/-- The memory context can be read. -/
theorem Guarded.context_value (hg : Guarded node?) (hn : node? i = some n)
    (hop : n.op = .target .memorySpace ∨ n.op = .target .memorySize)
    (hws : List.Forall₂ (Trusted node? size) n.inputs ws)
    (hspace : L.space memory 0 = .ok (BitVec.ofNat 64 memoryStart))
    (hsize : L.size memory 0 = .ok (BitVec.ofNat 64 size)) :
    ∃ w, Words.value L n ws memory = .ok w := by
  obtain ⟨v, hv, hstate⟩ := hg.context i n hn hop
  obtain ⟨x, hx, htrusted⟩ := getElem?_of_forall₂ hws hv
  obtain ⟨rest, rfl⟩ := eq_cons_of_getElem? hx
  obtain rfl := htrusted.state hstate
  rcases hop with hop | hop
  · simp only [Words.value, hop, hspace]
    exact ⟨_, rfl⟩
  · simp only [Words.value, hop, hsize]
    exact ⟨_, rfl⟩

/-- A guarded access is to the place of its checked address in linear memory. -/
theorem GuardedBy.address {k space checked : Nat} (h : GuardedBy node? k n space checked)
    (hk : 0 < k ∧ k ≤ 8) (hws : List.Forall₂ (Trusted node? size) n.inputs ws)
    (hsize : memoryStart + size ≤ 2 ^ 64) :
    ∃ p, ws[1]? = some (BitVec.ofNat 64 memoryStart) ∧ ws[2]? = some p ∧ p.toNat + k ≤ size ∧
      (BitVec.ofNat 64 memoryStart + p).toNat = memoryStart + p.toNat := by
  obtain ⟨s, hs, hstart⟩ := getElem?_of_forall₂ hws h.space_input
  obtain ⟨p, hp, hplace⟩ := getElem?_of_forall₂ hws h.checked_input
  obtain ⟨m, hm, hmop⟩ := h.space
  obtain ⟨c, q, v, hc, hcop, hliterals, hv, hq, hqop⟩ := h.checked
  have hle := hplace.checked c k v q hc hcop (by omega) hliterals hv hq hqop
  rw [hstart.space m hm hmop] at hs
  refine ⟨p, hs, hp, hle, ?_⟩
  rw [BitVec.toNat_add, BitVec.toNat_ofNat]
  have hlt := p.isLt
  unfold memoryStart at *
  omega

/-- The words with which a guarded access runs. -/
theorem GuardedBy.words {k space checked : Nat} (h : GuardedBy node? k n space checked)
    (hk : 0 < k ∧ k ≤ 8) (hws : List.Forall₂ (Trusted node? size) n.inputs ws)
    (hsize : memoryStart + size ≤ 2 ^ 64) :
    ∃ s p rest, ws = s :: BitVec.ofNat 64 memoryStart :: p :: rest ∧ p.toNat + k ≤ size ∧
      (BitVec.ofNat 64 memoryStart + p).toNat = memoryStart + p.toNat := by
  obtain ⟨p, hspace, hp, hle, haddress⟩ := h.address hk hws hsize
  obtain ⟨s, rest, rfl⟩ := eq_cons_cons_cons_of_getElem? hspace hp
  exact ⟨s, p, rest, rfl, hle, haddress⟩

/-! ### Linear memory in the heap -/

/-- A halt on linear memory, as it is on the heap. -/
def Halt.onHeap : Halt → Halt
  | .trapped t memory => .trapped t (heapOf memory)
  | .stuck => .stuck

/-- A result on linear memory, as it is on the heap. -/
def onHeap {α β : Type} (view : α → β) : Except Halt α → Except Halt β
  | .ok a => .ok (view a)
  | .error h => .error h.onHeap

theorem onHeap_eq_ok {α β : Type} {view : α → β} {x : Except Halt α} {b : β} :
    onHeap view x = .ok b ↔ ∃ a, x = .ok a ∧ view a = b := by
  cases x <;> simp [onHeap]

theorem onHeap_bind {α β α' β' : Type} {view : α → β} {view' : α' → β'} {x : Except Halt α}
    {k : α → Except Halt α'} {k' : β → Except Halt β'}
    (h : ∀ a, x = .ok a → k' (view a) = onHeap view' (k a)) :
    (onHeap view x >>= k') = onHeap view' (x >>= k) := by
  cases x with
  | error halt => rfl
  | ok a => exact h a rfl

theorem onHeap_map {α β α' β' : Type} {view : α → β} {view' : α' → β'} {k : α → α'} {k' : β → β'}
    (h : ∀ a, k' (view a) = view' (k a)) (x : Except Halt α) :
    (onHeap view x).map k' = onHeap view' (x.map k) := by
  cases x with
  | error halt => rfl
  | ok a => exact congrArg Except.ok (h a)

/-- What does not trap does not depend on memory. -/
theorem onHeap_bind_of_plain {α α' β' : Type} {view' : α' → β'} {x : Except Halt α}
    {k : α → Except Halt α'} {k' : α → Except Halt β'}
    (hx : ∀ t memory, x ≠ .error (.trapped t memory))
    (h : ∀ a, x = .ok a → k' a = onHeap view' (k a)) : (x >>= k') = onHeap view' (x >>= k) := by
  rcases x with (⟨t, memory⟩ | _) | a
  · exact absurd rfl (hx t memory)
  · rfl
  · exact h a rfl

theorem onHeap_orStuck {α : Type} (x : Option α) : onHeap id (orStuck x) = orStuck x := by
  cases x <;> rfl

namespace Words

theorem binary_heapOf (width : IntWidth) (op : IntBinary) (x y : Word) (memory : Array Byte) :
    binary width op x y (heapOf memory) = onHeap id (binary width op x y memory) := by
  unfold binary
  split <;> rfl

theorem checkBounds_heapOf (width addr size : Word) (memory : Array Byte) :
    checkBounds width addr size (heapOf memory) = onHeap id (checkBounds width addr size memory) := by
  unfold checkBounds
  dsimp only
  split <;> rfl

/-- Apart from the memory context, what a node computes is the same on the heap. -/
theorem value_heapOf_of_plain (hspace : n.op ≠ .target .memorySpace)
    (hsize : n.op ≠ .target .memorySize) :
    value .heap n ws (heapOf memory) = onHeap id (value .linear n ws memory) := by
  unfold value
  split
  · next hop => exact absurd hop hspace
  · next hop => exact absurd hop hsize
  · cases n.literals.head? with
    | none => rfl
    | some l => exact checkBounds_heapOf ..
  · exact binary_heapOf ..
  · exact binary_heapOf ..
  · exact (onHeap_orStuck _).symm

/-- The place in the heap of bytes of linear memory. -/
theorem heapPlace_heapOf {k : Nat} {p : Word} (hp : p.toNat + k ≤ memory.size)
    (haddress : (BitVec.ofNat 64 memoryStart + p).toNat = memoryStart + p.toNat) :
    MemoryLayout.heap.place (heapOf memory) k (BitVec.ofNat 64 memoryStart + p)
      = .ok (memoryStart + p.toNat) := by
  rw [← haddress]
  refine heapPlace_of_le ?_
  rw [haddress, size_heapOf]
  omega

/-- A guarded load finds the same in the heap as in linear memory. -/
theorem load_heapOf {a : TargetLoad} {s p : Word} {rest : List Word} (hm : Addressable memory)
    (hp : p.toNat + a.bytes ≤ memory.size)
    (haddress : (BitVec.ofNat 64 memoryStart + p).toNat = memoryStart + p.toNat) :
    load .heap a (s :: BitVec.ofNat 64 memoryStart :: p :: rest) (heapOf memory)
      = onHeap id (load .linear a (s :: BitVec.ofNat 64 memoryStart :: p :: rest) memory) := by
  simp only [load, heapPlace_heapOf hp haddress, linear_place hm a.bytes_bounds.1 hp, bind, Except.bind,
    readBytes?_heapOf]
  cases readBytes? memory p.toNat a.bytes <;> rfl

/-- A guarded store does the same to the heap as to linear memory. -/
theorem store_heapOf {a : TargetStore} {s p : Word} {rest : List Word} (hm : Addressable memory)
    (hp : p.toNat + a.bytes ≤ memory.size)
    (haddress : (BitVec.ofNat 64 memoryStart + p).toNat = memoryStart + p.toNat) :
    store .heap a (s :: BitVec.ofNat 64 memoryStart :: p :: rest) (heapOf memory)
      = onHeap heapOf (store .linear a (s :: BitVec.ofNat 64 memoryStart :: p :: rest) memory) := by
  cases rest with
  | nil => rfl
  | cons v rest =>
      simp only [store, heapPlace_heapOf hp haddress, linear_place hm a.bytes_bounds.1 hp, bind,
        Except.bind, replaceBytes?_heapOf]
      cases replaceBytes? memory p.toNat a.bytes v.toNat <;> rfl

theorem bind_ne_trapped {α β : Type} {x : Except Halt α} {k : α → Except Halt β} {t : Trap}
    {memory : Array Byte} (hx : x ≠ .error (.trapped t memory))
    (hk : ∀ a, x = .ok a → k a ≠ .error (.trapped t memory)) :
    (x >>= k) ≠ .error (.trapped t memory) := by
  cases x with
  | ok a => exact hk a rfl
  | error halt => exact fun h => hx (congrArg Except.error (Except.error.inj h))

theorem map_ne_trapped {α β : Type} {x : Except Halt α} {k : α → β} {t : Trap} {memory : Array Byte}
    (hx : x ≠ .error (.trapped t memory)) : x.map k ≠ .error (.trapped t memory) := by
  cases x with
  | ok a => exact fun h => absurd h (by simp [Except.map])
  | error halt => exact fun h => hx (congrArg Except.error (Except.error.inj h))

theorem orStuck_ne_trapped {α : Type} (x : Option α) (t : Trap) (memory : Array Byte) :
    orStuck x ≠ .error (.trapped t memory) := by
  cases x <;> simp [orStuck]

theorem operands_ne_trapped (e : Env Word) (n : Node) (t : Trap) (memory : Array Byte) :
    e.operands n ≠ .error (.trapped t memory) := by
  unfold Env.operands
  induction n.inputs with
  | nil => exact fun h => absurd h (by simp [pure, Except.pure])
  | cons v vs ih =>
      rw [List.mapM_cons]
      exact bind_ne_trapped (orStuck_ne_trapped _ t memory) fun x _ =>
        bind_ne_trapped ih fun xs _ => by simp [pure, Except.pure]

theorem exit_ne_trapped (n : Node) (xs : List Word) (t : Trap) (memory : Array Byte) :
    exit n xs ≠ .error (.trapped t memory) := by
  unfold exit
  split <;> simp

/-- A node loads, stores, or has a value and leaves memory as it is. -/
theorem compute_cases (n : Node) :
    (∃ a, n.op = .target (.load a)) ∨ (∃ a, n.op = .target (.store a)) ∨
      ∀ L ws memory, compute L n ws memory = (value L n ws memory).map fun x => (some x, memory) := by
  by_cases hload : ∃ a, n.op = .target (.load a)
  · exact .inl hload
  by_cases hstore : ∃ a, n.op = .target (.store a)
  · exact .inr (.inl hstore)
  exact .inr (.inr fun L =>
    compute_of_value L (fun a ha => hload ⟨a, ha⟩) fun a ha => hstore ⟨a, ha⟩)

/-- Only an access can fault. -/
theorem value_ne_fault (n : Node) (ws : List Word) (memory : Array Byte) (p : Word)
    (memory' : Array Byte) : value .linear n ws memory ≠ .error (.trapped (.fault p) memory') := by
  unfold value
  split
  · exact fun h => absurd h (by simp [MemoryLayout.linear])
  · exact fun h => absurd h (by simp [MemoryLayout.linear])
  · refine bind_ne_trapped (orStuck_ne_trapped _ _ _) fun l _ => ?_
    unfold checkBounds
    dsimp only
    split <;> simp
  · unfold binary
    split <;> simp
  · unfold binary
    split <;> simp
  · exact orStuck_ne_trapped _ _ _

/-- A load does not fault at an address that has been checked. -/
theorem load_ne_fault {a : TargetLoad} {s p q : Word} {rest : List Word} {memory' : Array Byte}
    (hm : Addressable memory) (hp : p.toNat + a.bytes ≤ memory.size) :
    load .linear a (s :: BitVec.ofNat 64 memoryStart :: p :: rest) memory
      ≠ .error (.trapped (.fault q) memory') := by
  refine bind_ne_trapped ?_ fun start _ => ?_
  · rw [linear_place hm a.bytes_bounds.1 hp]
    simp
  · exact bind_ne_trapped (orStuck_ne_trapped _ _ _) fun v _ => by simp [pure, Except.pure]

theorem store_ne_fault {a : TargetStore} {s p q : Word} {rest : List Word} {memory' : Array Byte}
    (hm : Addressable memory) (hp : p.toNat + a.bytes ≤ memory.size) :
    store .linear a (s :: BitVec.ofNat 64 memoryStart :: p :: rest) memory
      ≠ .error (.trapped (.fault q) memory') := by
  cases rest with
  | nil => simp [store]
  | cons v rest =>
      refine bind_ne_trapped ?_ fun start _ => orStuck_ne_trapped _ _ _
      rw [linear_place hm a.bytes_bounds.1 hp]
      simp

end Words

namespace Guarded

open Words

/-- A node has the same value in a heap with a memory context as in linear memory alone. -/
theorem value_heapOf (hg : Guarded node?) (hn : node? i = some n)
    (hws : List.Forall₂ (Trusted node? memory.size) n.inputs ws) (hlt : memory.size < 2 ^ 64) :
    value .heap n ws (heapOf memory) = onHeap id (value .linear n ws memory) := by
  by_cases hcontext : n.op = .target .memorySpace ∨ n.op = .target .memorySize
  · have hspace := space_heapOf memory
    have hsize := size_at_heapOf memory
    obtain ⟨x, hx⟩ := hg.context_value hn hcontext hws hspace hsize
    obtain ⟨y, hy⟩ := hg.context_value (L := .linear) hn hcontext hws rfl rfl
    have hheap : Trusted node? memory.size i x := .of_value hg hn hws hspace hsize hlt hx
    have hlinear : Trusted node? memory.size i y := .of_value hg hn hws rfl rfl hlt hy
    obtain rfl : x = y := by
      rcases hcontext with hop | hop
      · rw [hheap.space n hn hop, hlinear.space n hn hop]
      · rw [hheap.length n hn hop, hlinear.length n hn hop]
    rw [hx, hy]
    rfl
  · obtain ⟨hspace, hsize⟩ := not_or.mp hcontext
    exact value_heapOf_of_plain hspace hsize

/-- Where the graph is guarded, what a node does to linear memory alone it does to linear memory in the
heap. -/
theorem compute_heapOf (hg : Guarded node?) (hm : Addressable memory) (hn : node? i = some n)
    (hws : List.Forall₂ (Trusted node? memory.size) n.inputs ws) :
    compute .heap n ws (heapOf memory)
      = onHeap (fun r => (r.1, heapOf r.2)) (compute .linear n ws memory) := by
  rcases compute_cases n with ⟨a, hop⟩ | ⟨a, hop⟩ | hvalue
  · obtain ⟨space, checked, hguarded⟩ := hg.load i n a hn hop
    obtain ⟨s, p, rest, rfl, hle, haddress⟩ := hguarded.words a.bytes_bounds hws hm
    obtain ⟨op, control, literals, inputs⟩ := n
    obtain rfl : op = _ := hop
    rw [compute_load, compute_load, load_heapOf hm hle haddress]
    refine onHeap_map ?_ _
    exact fun _ => rfl
  · obtain ⟨space, checked, hguarded⟩ := hg.store i n a hn hop
    obtain ⟨s, p, rest, rfl, hle, haddress⟩ := hguarded.words a.bytes_bounds hws hm
    obtain ⟨op, control, literals, inputs⟩ := n
    obtain rfl : op = _ := hop
    rw [compute_store, compute_store, store_heapOf hm hle haddress]
    refine onHeap_map ?_ _
    exact fun _ => rfl
  · rw [hvalue, hvalue, hg.value_heapOf hn hws hm.size_lt]
    refine onHeap_map ?_ _
    exact fun _ => rfl

/-- What a guarded graph computes can be trusted. -/
theorem trusted_of_compute {memory' : Array Byte} (hg : Guarded node?) (hm : Addressable memory)
    (hn : node? i = some n) (hws : List.Forall₂ (Trusted node? memory.size) n.inputs ws)
    (h : compute .linear n ws memory = .ok (some w, memory')) : Trusted node? memory.size i w := by
  rcases compute_cases n with ⟨a, hop⟩ | ⟨a, hop⟩ | hvalue
  · exact .of_other hn (by simp [hop]) (by simp [hop]) (by simp [hop]) (by simp [hop]) (by simp [hop])
  · exact .of_other hn (by simp [hop]) (by simp [hop]) (by simp [hop]) (by simp [hop]) (by simp [hop])
  · rw [hvalue] at h
    obtain ⟨x, hx, heq⟩ := map_eq_ok.mp h
    obtain ⟨hxw, -⟩ := Prod.mk.inj heq
    obtain rfl := Option.some.inj hxw
    exact .of_value hg hn hws rfl rfl hm.size_lt hx

/-- What a guarded graph computes never faults. -/
theorem compute_ne_fault {p : Word} {memory' : Array Byte} (hg : Guarded node?) (hm : Addressable memory)
    (hn : node? i = some n) (hws : List.Forall₂ (Trusted node? memory.size) n.inputs ws) :
    compute .linear n ws memory ≠ .error (.trapped (.fault p) memory') := by
  rcases compute_cases n with ⟨a, hop⟩ | ⟨a, hop⟩ | hvalue
  · obtain ⟨space, checked, hguarded⟩ := hg.load i n a hn hop
    obtain ⟨s, q, rest, rfl, hle, -⟩ := hguarded.words a.bytes_bounds hws hm
    obtain ⟨op, control, literals, inputs⟩ := n
    obtain rfl : op = _ := hop
    rw [compute_load]
    exact map_ne_trapped (load_ne_fault hm hle)
  · obtain ⟨space, checked, hguarded⟩ := hg.store i n a hn hop
    obtain ⟨s, q, rest, rfl, hle, -⟩ := hguarded.words a.bytes_bounds hws hm
    obtain ⟨op, control, literals, inputs⟩ := n
    obtain rfl : op = _ := hop
    rw [compute_store]
    exact map_ne_trapped (store_ne_fault hm hle)
  · rw [hvalue]
    exact map_ne_trapped (value_ne_fault n ws memory p memory')

end Guarded

/-! ### Runs of guarded graphs -/

namespace Env

/-- The same values over a heap with a memory context. -/
def onHeap (f : Env Word) : Env Word := { f with memory := heapOf f.memory }

/-- The words can be trusted, and linear memory has addresses. -/
structure Reliable (node? : Nat → Option Node) (f : Env Word) : Prop where
  addressable : Addressable f.memory
  values : ∀ i w, f.values i = some w → Trusted node? f.memory.size i w

theorem Reliable.start (hm : Addressable memory) : Reliable node? (.start memory) :=
  ⟨hm, fun _ _ hw => absurd hw (by simp [Env.start])⟩

theorem Reliable.operands {f : Env Word} (hf : f.Reliable node?) (hws : f.operands n = .ok ws) :
    List.Forall₂ (Trusted node? f.memory.size) n.inputs ws :=
  (operands_eq_ok.mp hws).imp hf.values

end Env

/-- Where a run on linear memory has come to, as it is on the heap. -/
def Outcome.onHeap : Outcome Word → Outcome Word
  | .running b f => .running b f.onHeap
  | .returned v memory => .returned v (heapOf memory)
  | .halted h => .halted h.onHeap

theorem Outcome.Agrees.onHeap {α : Type} {R : α → Word → Prop} {a : Outcome α} {b : Outcome Word}
    (h : Agrees R id a b) : Agrees R heapOf a b.onHeap := by
  cases h with
  | running hmemory => exact .running (congrArg heapOf hmemory)
  | returned hvalue => exact .returned hvalue
  | trapped => exact .trapped

namespace Guarded

open Words

variable {f f' : Env Word} {ids : List Nat}

/-- One node on the heap. -/
theorem execNode_onHeap (hg : Guarded node?) (hf : f.Reliable node?) (hn : node? i = some n) :
    (meaning .heap).execNode f.onHeap i n = onHeap Env.onHeap ((meaning .linear).execNode f i n) := by
  refine onHeap_bind_of_plain (operands_ne_trapped f n) fun ws hws => ?_
  change (compute .heap n ws (heapOf f.memory) >>= _) = _
  rw [hg.compute_heapOf hf.addressable hn (hf.operands hws)]
  exact onHeap_bind fun r _ => rfl

/-- One node leaves words that can be trusted. -/
theorem reliable_of_execNode (hg : Guarded node?) (hf : f.Reliable node?) (hn : node? i = some n)
    (h : (meaning .linear).execNode f i n = .ok f') : f'.Reliable node? := by
  obtain ⟨ws, v, memory, hws, hcompute, rfl⟩ := Meaning.execNode_eq_ok.mp h
  have hsize : memory.size = f.memory.size := size_of_compute hcompute
  refine ⟨?_, fun j w hw => ?_⟩
  · rw [Addressable, Env.set_memory, hsize]
    exact hf.addressable
  rw [Env.set_memory, hsize]
  by_cases hj : j = i
  · obtain rfl := hj
    rw [Env.set_values_self] at hw
    rw [hw] at hcompute
    exact hg.trusted_of_compute hf.addressable hn (hf.operands hws) hcompute
  · rw [Env.set_values_of_ne f hj] at hw
    exact hf.values j w hw

theorem execBody_onHeap (hg : Guarded node?) (hf : f.Reliable node?) :
    (meaning .heap).execBody node? ids f.onHeap
      = onHeap Env.onHeap ((meaning .linear).execBody node? ids f) := by
  induction ids generalizing f with
  | nil => rfl
  | cons i ids ih =>
      unfold Meaning.execBody
      cases hn : node? i with
      | none => rfl
      | some n =>
          change ((meaning .heap).execNode f.onHeap i n >>= _)
            = onHeap _ ((meaning .linear).execNode f i n >>= _)
          rw [hg.execNode_onHeap hf hn]
          exact onHeap_bind fun f' hf' => ih (hg.reliable_of_execNode hf hn hf')

theorem reliable_of_execBody (hg : Guarded node?) (hf : f.Reliable node?)
    (h : (meaning .linear).execBody node? ids f = .ok f') : f'.Reliable node? := by
  induction ids generalizing f with
  | nil => exact Except.ok.inj h ▸ hf
  | cons i ids ih =>
      obtain ⟨n, f₁, hn, hfirst, hrest⟩ := Meaning.execBody_cons_eq_ok.mp h
      exact ih (hg.reliable_of_execNode hf hn hfirst) hrest

/-- A block on the heap. -/
theorem execNodes_onHeap (hg : Guarded node?) (hf : f.Reliable node?) :
    (meaning .heap).execNodes node? ids f.onHeap
      = onHeap (fun r => (r.1.onHeap, r.2)) ((meaning .linear).execNodes node? ids f) := by
  induction ids generalizing f with
  | nil => rfl
  | cons i ids ih =>
      unfold Meaning.execNodes
      cases hn : node? i with
      | none => rfl
      | some n =>
          dsimp only
          split
          · refine onHeap_bind_of_plain (operands_ne_trapped f n) fun xs _ => ?_
            exact onHeap_bind_of_plain (exit_ne_trapped n xs) fun out _ => rfl
          · rw [hg.execNode_onHeap hf hn]
            exact onHeap_bind fun f' hf' => ih (hg.reliable_of_execNode hf hn hf')

theorem reliable_of_execNodes {out : Exit Word} (hg : Guarded node?) (hf : f.Reliable node?)
    (h : (meaning .linear).execNodes node? ids f = .ok (f', out)) : f'.Reliable node? := by
  induction ids generalizing f with
  | nil => exact absurd h (by simp [Meaning.execNodes])
  | cons i ids ih =>
      unfold Meaning.execNodes at h
      split at h
      · exact absurd h (by simp)
      next n hn =>
      split at h
      · obtain ⟨xs, -, h⟩ := bind_eq_ok.mp h
        obtain ⟨out, -, h⟩ := bind_eq_ok.mp h
        obtain ⟨rfl, -⟩ := Prod.mk.inj (Except.ok.inj h)
        exact hf
      · obtain ⟨f₁, hfirst, hrest⟩ := bind_eq_ok.mp h
        exact ih (hg.reliable_of_execNode hf hn hfirst) hrest

theorem execNodes_ne_fault {p : Word} (hg : Guarded node?) (hf : f.Reliable node?) :
    (meaning .linear).execNodes node? ids f ≠ .error (.trapped (.fault p) memory) := by
  induction ids generalizing f with
  | nil => simp [Meaning.execNodes]
  | cons i ids ih =>
      unfold Meaning.execNodes
      cases hn : node? i with
      | none => simp
      | some n =>
          dsimp only
          split
          · refine bind_ne_trapped (operands_ne_trapped f n _ _) fun xs _ => ?_
            exact bind_ne_trapped (exit_ne_trapped n xs _ _) fun out _ => by simp [pure, Except.pure]
          · refine bind_ne_trapped ?_ fun f' hf' => ih (hg.reliable_of_execNode hf hn hf')
            refine bind_ne_trapped (operands_ne_trapped f n _ _) fun ws hws => ?_
            refine bind_ne_trapped ?_ fun r _ => by simp [pure, Except.pure]
            exact hg.compute_ne_fault hf.addressable hn (hf.operands hws)

variable {g : Graph} {b : Nat}

/-- A guarded graph enters the same blocks on the heap as on linear memory alone, and comes to the same
there. -/
theorem runFrom_onHeap (hg : Guarded g.node?) (hf : f.Reliable g.node?) (fuel : Nat) :
    (meaning .heap).runFrom g fuel b f.onHeap
      = (((meaning .linear).runFrom g fuel b f).1, ((meaning .linear).runFrom g fuel b f).2.onHeap) := by
  induction fuel generalizing b f with
  | zero => rfl
  | succ fuel ih =>
      have hnodes : (meaning .heap).execNodes g.node? (g.members b) f.onHeap = _ :=
        hg.execNodes_onHeap hf
      cases hlinear : (meaning .linear).execNodes g.node? (g.members b) f with
      | error halt =>
          rw [hlinear] at hnodes
          rw [Meaning.runFrom_error hlinear, Meaning.runFrom_error hnodes]
          rfl
      | ok r =>
          obtain ⟨f', out⟩ := r
          rw [hlinear] at hnodes
          cases out with
          | leave v =>
              rw [Meaning.runFrom_leave hlinear, Meaning.runFrom_leave hnodes]
              rfl
          | goto k =>
              cases hc : (g.block? b).bind (·.successors[k]?) with
              | none =>
                  simp only [Meaning.runFrom, hlinear, hnodes, onHeap, hc]
                  rfl
              | some c =>
                  rw [Meaning.runFrom_goto hlinear hc, Meaning.runFrom_goto hnodes hc,
                    ih (hg.reliable_of_execNodes hf hlinear)]

/-- A guarded graph does not come to a fault. -/
theorem runFrom_ne_fault {p : Word} (hg : Guarded g.node?) (hf : f.Reliable g.node?) (fuel : Nat) :
    ((meaning .linear).runFrom g fuel b f).2 ≠ .halted (.trapped (.fault p) memory) := by
  induction fuel generalizing b f with
  | zero => simp [Meaning.runFrom]
  | succ fuel ih =>
      cases hnodes : (meaning .linear).execNodes g.node? (g.members b) f with
      | error halt =>
          rw [Meaning.runFrom_error hnodes]
          exact fun h => hg.execNodes_ne_fault hf (hnodes.trans (congrArg _ (Outcome.halted.inj h)))
      | ok r =>
          obtain ⟨f', k | v⟩ := r
          · cases hc : (g.block? b).bind (·.successors[k]?) with
            | none => simp [Meaning.runFrom, hnodes, hc]
            | some c =>
                rw [Meaning.runFrom_goto hnodes hc]
                exact ih (hg.reliable_of_execNodes hf hnodes)
          · rw [Meaning.runFrom_leave hnodes]
            simp

/-- A run from the first block. -/
theorem run_onHeap (hg : Guarded g.node?) (hm : Addressable memory) (fuel : Nat) :
    (meaning .heap).run g fuel (heapOf memory)
      = (((meaning .linear).run g fuel memory).1, ((meaning .linear).run g fuel memory).2.onHeap) :=
  hg.runFrom_onHeap (.start hm) fuel

theorem run_ne_fault {p : Word} {heap : Array Byte} (hg : Guarded g.node?) (hm : Addressable memory)
    (fuel : Nat) :
    ((meaning .heap).run g fuel (heapOf memory)).2 ≠ .halted (.trapped (.fault p) heap) := by
  have hlinear {memory' : Array Byte} :
      ((meaning .linear).run g fuel memory).2 ≠ .halted (.trapped (.fault p) memory') :=
    hg.runFrom_ne_fault (.start hm) fuel
  rw [hg.run_onHeap hm]
  generalize ((meaning .linear).run g fuel memory).2 = out at hlinear
  rcases out with _ | _ | ⟨t, memory'⟩ | _
  · simp [Outcome.onHeap]
  · simp [Outcome.onHeap]
  · rintro ⟨⟩
    exact hlinear rfl
  · simp [Outcome.onHeap, Halt.onHeap]

end Guarded

end Isel
