import Isel.Proofs.FamilyRun
import Isel.Proofs.Liveness
import Mathlib

/-! Code runs as its graph does. Along a run of emitted code every live value is in its register, the
heap is the memory of the graph, and what is left of the graph leads to one and the same outcome. -/

namespace Isel

/-- The traps that programs cause. -/
def Trap.isProgram : Trap → Bool
  | divideError | unreachable | fault _ => true
  | _ => false

namespace Words

/-- Whatever traps, traps as programs do, with memory as it is. -/
def TrapsAsProgram {α : Type} (memory : Array Byte) (x : Except Halt α) : Prop :=
  ∀ t memory', x = .error (.trapped t memory') → t.isProgram = true ∧ memory' = memory

namespace TrapsAsProgram

variable {α β : Type} {memory : Array Byte} {x : Except Halt α}

theorem ok (a : α) : TrapsAsProgram memory (.ok a) := fun _ _ h => absurd h (by simp)

theorem error {t : Trap} (h : t.isProgram = true) (memory : Array Byte) :
    TrapsAsProgram memory (.error (.trapped t memory) : Except Halt α) := by
  intro u memory' heq
  obtain ⟨rfl, rfl⟩ := Halt.trapped.inj (Except.error.inj heq)
  exact ⟨h, rfl⟩

theorem orStuck (a : Option α) : TrapsAsProgram memory (orStuck a) := by
  intro t memory' h
  cases a <;> simp [Isel.orStuck] at h

theorem bind {k : α → Except Halt β} (hx : TrapsAsProgram memory x)
    (hk : ∀ a, TrapsAsProgram memory (k a)) : TrapsAsProgram memory (x >>= k) := by
  intro t memory' h
  cases x with
  | ok a => exact hk a t memory' h
  | error halt => exact hx t memory' (congrArg Except.error (Except.error.inj h))

theorem heapPlace (heap : Array Byte) (n : Nat) (p : Word) :
    TrapsAsProgram heap (MemoryLayout.heapPlace heap n p) := by
  unfold MemoryLayout.heapPlace
  split
  · exact .ok _
  · exact .error rfl _

theorem heapWord (heap : Array Byte) (p : Word) :
    TrapsAsProgram heap (MemoryLayout.heapWord heap p) :=
  (heapPlace heap 8 p).bind fun _ => (orStuck _).bind fun _ => .ok _

theorem binary (w : IntWidth) (op : IntBinary) (x y : Word) (memory : Array Byte) :
    TrapsAsProgram memory (Words.binary w op x y memory) := by
  unfold Words.binary
  split
  · exact .ok _
  · exact .error rfl _

theorem checkBounds (width addr size : Word) (memory : Array Byte) :
    TrapsAsProgram memory (Words.checkBounds width addr size memory) := by
  unfold Words.checkBounds
  dsimp only
  split
  · exact .error rfl _
  · exact .ok _

theorem value (n : Node) (xs : List Word) (memory : Array Byte) :
    TrapsAsProgram memory (Words.value .heap n xs memory) := by
  unfold Words.value
  split
  · exact heapWord _ _
  · exact heapWord _ _
  · exact (orStuck _).bind fun _ => checkBounds _ _ _ _
  · exact binary _ _ _ _ _
  · exact binary _ _ _ _ _
  · exact orStuck _

theorem load (a : TargetLoad) (xs : List Word) (memory : Array Byte) :
    TrapsAsProgram memory (Words.load .heap a xs memory) := by
  unfold Words.load
  split
  · exact (heapPlace _ _ _).bind fun _ => (orStuck _).bind fun _ => .ok _
  · exact fun _ _ h => absurd h (by simp)

theorem store (a : TargetStore) (xs : List Word) (memory : Array Byte) :
    TrapsAsProgram memory (Words.store .heap a xs memory) := by
  unfold Words.store
  split
  · exact (heapPlace _ _ _).bind fun _ => orStuck _
  · exact fun _ _ h => absurd h (by simp)

theorem compute (n : Node) (xs : List Word) (memory : Array Byte) :
    TrapsAsProgram memory (Words.compute .heap n xs memory) := by
  unfold Words.compute
  split
  · exact (load _ _ _).bind fun _ => .ok _
  · exact (store _ _ _).bind fun _ => .ok _
  · exact (value _ _ _).bind fun _ => .ok _

end TrapsAsProgram

/-- Only a store has no value. -/
theorem op_of_compute_none (L : MemoryLayout) (n : Node) (xs : List Word) (memory memory' : Array Byte)
    (h : compute L n xs memory = .ok (none, memory')) : ∃ a, n.op = .target (.store a) := by
  unfold compute at h
  split at h
  · obtain ⟨v, -, heq⟩ := bind_eq_ok.mp h
    exact absurd (congrArg Prod.fst (Except.ok.inj heq)) (by simp)
  · next a hop => exact ⟨a, hop⟩
  · obtain ⟨v, -, heq⟩ := bind_eq_ok.mp h
    exact absurd (congrArg Prod.fst (Except.ok.inj heq)) (by simp)

end Words

namespace Meaning

variable {α : Type} (M : Meaning α) {g : Graph} {fuel b id : Nat} {ids : List Nat} {n : Node}
  {e : Env α}

/-- The outcome of a run that leaves block `b` so. -/
def depart (g : Graph) (fuel b : Nat) : Except Halt (Env α × Exit α) → Outcome α
  | .error h => .halted h
  | .ok (e, .leave v) => .returned v e.memory
  | .ok (e, .goto k) =>
    match (g.block? b).bind (·.successors[k]?) with
    | none => .halted .stuck
    | some c => (M.runFrom g fuel c e).2

theorem runFrom_succ (g : Graph) (fuel b : Nat) (e : Env α) :
    (M.runFrom g (fuel + 1) b e).2 = M.depart g fuel b (M.execNodes g.node? (g.members b) e) := by
  rw [runFrom]
  generalize M.execNodes g.node? (g.members b) e = r
  rcases r with h | ⟨e, k | v⟩
  · rfl
  · simp only [depart]
    cases (g.block? b).bind (·.successors[k]?) <;> rfl
  · rfl

variable {M}

theorem depart_goto {k c : Nat} (hc : (g.block? b).bind (·.successors[k]?) = some c) :
    M.depart g fuel b (.ok (e, .goto k)) = (M.runFrom g fuel c e).2 := by
  rw [depart, hc]

theorem execNodes_computation (hn : g.node? id = some n) (hterm : n.op.isTerminator = false) :
    M.execNodes g.node? (id :: ids) e = M.execNode e id n >>= M.execNodes g.node? ids := by
  simp only [execNodes, hn, hterm, Bool.false_eq_true, if_false]

theorem execNodes_terminator {xs : List α} (hn : g.node? id = some n)
    (hterm : n.op.isTerminator = true) (hxs : e.operands n = .ok xs) :
    M.execNodes g.node? (id :: ids) e = (M.exit n xs).map fun out => (e, out) := by
  simp only [execNodes, hn, hterm, if_true, hxs]
  change (M.exit n xs >>= _) = _
  cases M.exit n xs <;> rfl

end Meaning

/-- A run of code ends as a run of a graph does: it returns with the same heap and the value in `rax`,
or it stops at the same trap with the same heap. -/
inductive Machine.EndsAs : Outcome Word → Except Trap Unit × Machine → Prop
  | returned {v : Option Word} {m : Machine} (value : ∀ w, v = some w → m.gpr .rax = w) :
      EndsAs (.returned v m.heap) (.ok (), m)
  | trapped {t : Trap} {m : Machine} (program : t.isProgram = true) :
      EndsAs (.halted (.trapped t m.heap)) (.error t, m)

/-- The output of an operator on words is in a general purpose register. -/
theorem Family.gpr_of_output {f : Family} {n : Node} {q : Requirement} {r : Reg}
    (hf : n.op.family? = some f) (hwords : n.op.onWords = true)
    (hq : (f.constraint n).output? = some q) (hr : q.isMetBy r = true) : ∃ r', r = .gpr r' := by
  have hint (hc : (f.constraint n).output? = some .gpr) : ∃ r', r = .gpr r' := by
    obtain rfl := Option.some.inj (hc.symm.trans hq)
    cases r with
    | gpr r => exact ⟨r, rfl⟩
    | xmm r => exact absurd hr Bool.false_ne_true
  have hfixed {r' : Gpr} (hc : (f.constraint n).output? = some (.fixed (.gpr r'))) :
      ∃ r', r = .gpr r' := by
    obtain rfl := Option.some.inj (hc.symm.trans hq)
    exact ⟨r', (of_decide_eq_true hr).symm⟩
  have hop := (Operator.of_family? hf).2
  cases f
  case arith =>
    refine hint ?_
    simp only [Family.constraint]
    cases n.op.isCommutativeInt <;> rfl
  case division =>
    exact hfixed (rfl : _ = some (Requirement.fixed (.gpr n.op.divisionOutput)))
  case state => exact hfixed (rfl : _ = some (Requirement.fixed (.gpr Gpr.state)))
  case store =>
    have hnone : (Family.constraint .store n).output? = none := rfl
    exact absurd (hnone.symm.trans hq) (by simp)
  case load =>
    obtain ⟨access, hop⟩ := hop
    refine hint ?_
    have hcls : access.cls = .int := by simpa [hop, Operator.onWords] using hwords
    simp only [Family.constraint, hop, Operator.loadClass, hcls]
    rfl
  case floatBinary =>
    obtain ⟨w, op, hop⟩ := hop
    exact absurd hwords (by simp [hop, Operator.onWords])
  case floatUnary =>
    obtain ⟨w, op, hop⟩ := hop
    exact absurd hwords (by simp [hop, Operator.onWords])
  case floatConst =>
    obtain ⟨w, hop⟩ := hop
    exact absurd hwords (by simp [hop, Operator.onWords, ValueType.isInt])
  case ret | intRet | floatRet | branch | branchOn | jump =>
    rw [Family.output?_of_isTerminator rfl] at hq
    exact absurd hq (by simp)
  all_goals exact hint rfl

namespace Emission

open Machine Words

variable {g : Graph} {forced : List (Nat × Reg)} {a : Allocation} {config : Config} {code : Code}
  {b id fuel : Nat} {n : Node} {block : Block} {f : Family} {x : Assignment}
  {done rest bs : List Nat} {m : Machine} {e : Env Word} {out : Outcome Word}

/-- A run of a graph is where a run of its code is: in front of the same nodes, with the same memory
and with the live values in their registers. -/
structure Tracks (g : Graph) (a : Allocation) (out : Outcome Word) (b : Nat) (done : List Nat)
    (m : Machine) (rest : List Nat) (fuel : Nat) (e : Env Word) : Prop where
  members : g.members b = done ++ rest
  outcome : (meaning .heap).depart g fuel b ((meaning .heap).execNodes g.node? rest e) = out
  fuel : g.blocks.size ≤ fuel + b + 1
  memory : e.memory = m.heap
  state : m.gpr Gpr.state = 0
  holds : Holds g a (fun y w => e.values y = some w) b done m
  walk : ∃ bs, g.Walk bs b

namespace Tracks

/-- The operands of the next node are in its input registers. -/
theorem operands (h : Tracks g a out b done m (id :: rest) fuel e)
    (hc : Compiled g forced a config code) (hp : Coded g a config b id n block f x) :
    e.operands n = .ok ((siteOf g b block n x).inputs.map m.word) := by
  rw [Env.operands_eq_ok]
  exact h.holds.operands hp hc h.members

/-- A node is computed, and the code goes on behind it or stops as the graph does. -/
theorem compute (h : Tracks g a out b done m (id :: rest) fuel e)
    (hc : Compiled g forced a config code) (hp : Coded g a config b id n block f x)
    (hwords : n.op.onWords = true) (hterm : n.op.isTerminator = false) {limited : Prop}
    (hlimited : ¬limited) :
    Continues g limited (fun b done m => ∃ rest fuel e, Tracks g a out b done m rest fuel e)
      (EndsAs out) b done id (rest = []) (exec (chunk g a config id) m) := by
  have hnode := Graph.node?_eq_some.mpr ⟨b, hp.node⟩
  have hcomputes := emit_computes hp.family hp.met hp.assigned.output_isSome hp.emitted hwords hterm
    fun _ => h.state
  have houtcome := h.outcome
  rw [Meaning.execNodes_computation hnode hterm,
    Meaning.execNode_of_operands (h.operands hc hp), h.memory] at houtcome
  change (meaning .heap).depart g fuel b
    ((Words.compute .heap n _ m.heap).map _ >>= _) = out at houtcome
  have hprogram := TrapsAsProgram.compute n ((siteOf g b block n x).inputs.map m.word) m.heap
  have hstored := op_of_compute_none .heap n ((siteOf g b block n x).inputs.map m.word) m.heap
  have hstate := (hp.gpr_state hc m).trans h.state
  obtain ⟨bs, hwalk⟩ := h.walk
  have hret : f ≠ .ret := by
    rintro rfl
    rw [(Operator.of_family? hp.family).1] at hterm
    exact absurd hterm (by decide)
  have hstep (v : Option Word) (memory : Array Byte)
      (hown : ∀ r, a.get? id = some r → v = some ((exec (chunk g a config id) m).2.word r)) :
      Holds g a (fun y w => (e.set id v memory).values y = some w) b (done ++ [id])
        (exec (chunk g a config id) m).2 := by
    refine h.holds.step hp hc hret hwalk h.members (fun y w hne hw => ?_) fun r hr => ?_
    · rw [Env.set_values_of_ne e hne]
      exact hw
    · rw [Env.set_values_self]
      exact hown r hr
  have hmore := hc.terminated.rest_ne_nil h.members hp.node hterm
  have hmembers : g.members b = (done ++ [id]) ++ rest := by
    rw [h.members, List.append_assoc]
    rfl
  generalize Words.compute .heap n _ m.heap = r at hcomputes houtcome hprogram hstored
  generalize exec (chunk g a config id) m = s at hcomputes hstate hstep
  cases hcomputes with
  | @value q m' hout =>
      refine .next hmore ⟨rest, fuel, e.set id (some (m'.word q)) m'.heap, hmembers, houtcome, h.fuel,
        rfl, hstate, hstep _ _ fun r hr => ?_, bs, hwalk⟩
      rw [← Option.some.inj ((hp.output hout).symm.trans hr)]
  | @stored m' =>
      refine .next hmore ⟨rest, fuel, e.set id none m'.heap, hmembers, houtcome, h.fuel,
        rfl, hstate, hstep _ _ fun r hr => ?_, bs, hwalk⟩
      obtain ⟨access, hop⟩ := hstored _ rfl
      have hfamily := hp.family
      rw [hop] at hfamily
      obtain rfl : Family.store = f := Option.some.inj hfamily
      exact absurd (Pool.output?_of_get? hc.allocated hnode hp.family hr) Bool.false_ne_true
  | trapped =>
      rw [← houtcome]
      exact .error (.trapped (hprogram _ _ rfl).1)
  | check =>
      rw [← houtcome]
      exact .check (.trapped rfl) fun h => absurd h hlimited

/-- Both go on to the same block. -/
theorem enter (h : Tracks g a out b done m [id] fuel e) (hc : Compiled g forced a config code)
    {k c : Nat} {m' : Machine}
    (hexec : (meaning .heap).execNodes g.node? [id] e = .ok (e, .goto k))
    (hblock : g.block? b = some block) (hsucc : block.successors[k]? = some c)
    (hheap : m'.heap = m.heap) (hstate : m'.gpr Gpr.state = 0)
    (hholds : Holds g a (fun y w => e.values y = some w) b (g.members b) m') :
    b < c ∧ c < g.blocks.size ∧ ∃ rest fuel e, Tracks g a out c [] m' rest fuel e := by
  have hedge : g.Edge b c := ⟨block, hblock, List.mem_of_getElem? hsucc⟩
  have hlt := hc.forward b c hedge
  have hsize := hedge.lt hc.flawless
  have hbind : (g.block? b).bind (·.successors[k]?) = some c := by
    rw [hblock]
    exact hsucc
  have houtcome := h.outcome
  rw [hexec, Meaning.depart_goto hbind] at houtcome
  -- a block further along needs less fuel
  have hfuel := h.fuel
  obtain ⟨fuel', rfl⟩ : ∃ fuel', fuel = fuel' + 1 := ⟨fuel - 1, by omega⟩
  rw [Meaning.runFrom_succ] at houtcome
  obtain ⟨bs, hwalk⟩ := h.walk
  exact ⟨hlt, hsize, g.members c, fuel', e, rfl, houtcome, by omega, h.memory.trans hheap.symm, hstate,
    hholds.enter hedge hc.forward, c :: bs, hwalk.step hedge⟩

/-- The terminator is left by code and graph for the same block, or both return. -/
theorem leave (h : Tracks g a out b done m (id :: rest) fuel e)
    (hc : Compiled g forced a config code) (hp : Coded g a config b id n block f x)
    (hwords : n.op.onWords = true) (hterm : n.op.isTerminator = true)
    (hgpr : ∀ p ∈ x.inputs, ∃ r, p.2 = .gpr r) {limited : Prop} :
    Continues g limited (fun b done m => ∃ rest fuel e, Tracks g a out b done m rest fuel e)
      (EndsAs out) b done id (rest = []) (exec (chunk g a config id) m) := by
  have hleaves := emit_leaves hp.family hp.met hp.emitted hwords hterm (fun _ => hgpr) m
  obtain rfl := Graph.rest_eq_nil hc.flawless h.members hp.node hterm
  have hexit : (meaning .heap).execNodes g.node? [id] e = (Words.exit n _).map fun out => (e, out) :=
    Meaning.execNodes_terminator (Graph.node?_eq_some.mpr ⟨b, hp.node⟩) hterm (h.operands hc hp)
  have hstate := (hp.gpr_state hc m).trans h.state
  have hheap : (exec (chunk g a config id) m).2.heap = m.heap := by
    refine heap_of_emit hp.emitted ?_ m
    rintro rfl
    rw [(Operator.of_family? hp.family).1] at hterm
    exact absurd hterm (by decide)
  obtain ⟨bs, hwalk⟩ := h.walk
  have hholds (hret : f ≠ .ret) : Holds g a (fun y w => e.values y = some w) b (g.members b)
      (exec (chunk g a config id) m).2 := by
    rw [h.members]
    refine h.holds.step hp hc hret hwalk h.members (fun y w _ hw => hw) fun r hr => ?_
    rw [hp.not_allocated hc hterm] at hr
    exact absurd hr (by simp)
  have hret {k : Nat}
      (hgoto : Words.exit n ((siteOf g b block n x).inputs.map m.word) = .ok (.goto k)) :
      f ≠ .ret := by
    rintro rfl
    have hop : n.op = .ret := (Operator.of_family? hp.family).2
    simp [Words.exit, hop] at hgoto
  generalize Words.exit n _ = r at hleaves hexit hret
  generalize exec (chunk g a config id) m = s at hleaves hstate hheap hholds
  cases hleaves with
  | jump hsucc =>
      obtain ⟨hlater, hlt, htracks⟩ := h.enter hc hexit hp.found hsucc hheap hstate (hholds (hret rfl))
      exact .jump hlater hlt htracks
  | @fall k c m' hsucc hfall =>
      obtain ⟨-, hlt, htracks⟩ := h.enter hc hexit hp.found hsucc hheap hstate (hholds (hret rfl))
      obtain rfl := fallthrough_eq hfall
      exact .fall rfl hlt htracks
  | @leave v m' hvalue =>
      have houtcome := h.outcome
      rw [hexit] at houtcome
      change Outcome.returned v e.memory = out at houtcome
      rw [← houtcome, h.memory, ← hheap]
      exact .halt (.returned hvalue)

end Tracks

/-- In a graph on words every value is in a general purpose register. -/
theorem Compiled.gpr_of_get? (hc : Compiled g forced a config code)
    (hwords : ∀ id n, g.node? id = some n → n.op.onWords = true) {v : Nat} {r : Reg}
    (hv : g.blockOf? v = some b) (hr : a.get? v = some r) : ∃ r', r = .gpr r' := by
  obtain ⟨n, hn⟩ := Graph.blockOf?_eq_some.mp hv
  obtain ⟨block, f, x, hp⟩ := hc.coded hn
  have hnode := Graph.node?_eq_some.mpr ⟨b, hn⟩
  have hsome := Pool.output?_of_get? hc.allocated hnode hp.family hr
  obtain ⟨q, hq⟩ := Option.isSome_iff_exists.mp hsome
  obtain ⟨r', hout, hr'⟩ := hp.assigned.output hsome
  obtain rfl := Option.some.inj (hr'.symm.trans hr)
  exact Family.gpr_of_output hp.family (hwords v n hnode) hq (hp.met.output q r' hq hout)

/-- Code for a graph on words ends as the graph does, on every machine whose state register is zero. -/
theorem Compiled.endsAs (hc : Compiled g forced a config code)
    (hwords : ∀ id n, g.node? id = some n → n.op.onWords = true)
    (hsize : code.insts.size ≤ stepLimit) (hfuel : g.blocks.size ≤ fuel)
    (hstate : m.gpr Gpr.state = 0) :
    EndsAs ((meaning .heap).run g fuel m.heap).2 (run code m) := by
  have hpreserves : Preserves g a config (stepLimit < code.insts.size)
      (fun b done m' => ∃ rest fuel' e,
        Tracks g a ((meaning .heap).run g fuel m.heap).2 b done m' rest fuel' e)
      (EndsAs ((meaning .heap).run g fuel m.heap).2) := by
    refine ⟨fun b done id rest n m' hmembers hn hinv => ?_, fun hlimited => absurd hlimited (by omega)⟩
    obtain ⟨rest', fuel', e, h⟩ := hinv
    obtain rfl : rest' = id :: rest := List.append_cancel_left (h.members.symm.trans hmembers)
    obtain ⟨block, f, x, hp⟩ := hc.coded hn
    have hnwords := hwords id n (Graph.node?_eq_some.mpr ⟨b, hn⟩)
    cases hterm : n.op.isTerminator with
    | false => exact h.compute hc hp hnwords hterm (by omega)
    | true =>
        refine h.leave hc hp hnwords hterm fun p hp' => ?_
        obtain ⟨v, hv, -, hr⟩ := exists_of_forall₂_right hp.assigned.inputs hp'
        obtain ⟨-, c, hc', -⟩ := hc.inScope id n b hn v (List.mem_append_left _ hv)
        exact hc.gpr_of_get? hwords hc' hr
  refine run_of_invariant hc.emitted hc.terminated hc.nonempty hpreserves ?_
  obtain ⟨fuel', rfl⟩ : ∃ fuel', fuel = fuel' + 1 := ⟨fuel - 1, by have := hc.nonempty; omega⟩
  exact ⟨g.members 0, fuel', .start m.heap, rfl, (Meaning.runFrom_succ ..).symm, by omega, rfl, hstate,
    .start m, [0], .start⟩

end Emission

/-- Registers and code implement a graph: run on a machine with any linear memory, the code returns
with the heap and the value with which the graph does, and otherwise both stop at the same trap with the
same heap. -/
theorem emit_run {g : Graph} {forced : List (Nat × Reg)} {a : Allocation} {config : Config} {code : Code}
    (hg : Emission.Compiled g forced a config code)
    (hwords : ∀ id n, g.node? id = some n → n.op.onWords = true)
    (hsize : code.insts.size ≤ Machine.stepLimit) (memory : Array Byte) {fuel : Nat}
    (hfuel : g.blocks.size ≤ fuel) :
    Machine.EndsAs ((Words.meaning .heap).run g fuel (Machine.withMemory memory).heap).2
      (Machine.run code (Machine.withMemory memory)) :=
  hg.endsAs hwords hsize hfuel rfl

/-- Divides a hundred by a number in memory, unless the number is zero, and returns what is there
then. -/
def quotients : Graph :=
  .ofParts #[⟨"entry", [1, 2]⟩, ⟨"divide", [2]⟩, ⟨"done", []⟩]
    #[⟨0, .state, [], [], []⟩, ⟨0, .const .i64, [], [.int 8], []⟩,
      ⟨0, .target .memorySpace, [], [], [0]⟩, ⟨0, .target .memorySize, [], [], [0]⟩,
      ⟨0, .target .boundsCheck, [], [.int 8], [0, 1, 3]⟩,
      ⟨0, .target (.load (.word .w64)), [], [], [0, 2, 4]⟩, ⟨0, .branch, [], [], [5]⟩,
      ⟨1, .const .i64, [], [.int 100], []⟩,
      ⟨1, .intBinary .w64 (.division .quotientSigned), [], [], [7, 5]⟩,
      ⟨1, .target (.store (.int .s64)), [], [], [0, 2, 4, 8]⟩, ⟨1, .jump, [], [], []⟩,
      ⟨2, .target (.load (.word .w64)), [], [], [0, 2, 4]⟩, ⟨2, .target .intRet, [], [], [11]⟩]

theorem emit_run_quotients :
    ∃ a code, Pool.allocate [(2, .gpr .r9)] quotients = .ok a ∧ emit quotients a {} = .ok code ∧
      Machine.EndsAs ((Words.meaning .heap).run quotients 3
          (Machine.withMemory #[0, 0, 0, 0, 0, 0, 0, 0, 5, 0, 0, 0, 0, 0, 0, 0]).heap).2
        (Machine.run code (Machine.withMemory #[0, 0, 0, 0, 0, 0, 0, 0, 5, 0, 0, 0, 0, 0, 0, 0])) := by
  have hok : ((Pool.allocate [(2, .gpr .r9)] quotients).toOption.bind fun a =>
      (emit quotients a {}).toOption.map (decide <| ·.insts.size ≤ 20)) = some true := by
    cbv
  obtain ⟨a, ha, hok⟩ := Option.bind_eq_some_iff.mp hok
  obtain ⟨code, hcode, hsize⟩ := Option.map_eq_some_iff.mp hok
  have hallocated := toOption_eq_some.mp ha
  have hemitted := toOption_eq_some.mp hcode
  have hcompiled : Emission.Compiled quotients [(2, .gpr .r9)] a {} code :=
    { flawless := by decide
      terminated := by decide
      forward := by decide
      inScope := Graph.scoped_of_near (by decide)
      nonempty := by decide
      unforced := by decide
      allocated := hallocated
      emitted := hemitted }
  refine ⟨a, code, hallocated, hemitted, emit_run hcompiled ?_ ?_ _ (by decide)⟩
  · exact Graph.forall_node?.mp (by decide)
  · exact Nat.le_trans (of_decide_eq_true hsize) (by decide)

end Isel
