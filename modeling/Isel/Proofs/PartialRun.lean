import Isel.Proofs.StraightCode

/-! Part of a block. Selected nodes run in an order of their own, and when one of them traps, others that
stand before it in the source may not have run, and others that stand behind it may have. What has run
computes what the source does: each word is there for the value of its node, and each access finds the
memory that the accesses before it leave. -/

namespace Isel

/-- Generic stores. -/
def Operator.isStore : Operator → Bool
  | store _ => true
  | _ => false

theorem Operator.isAccess_of_isStore {op : Operator} (h : op.isStore = true) : op.isAccess = true := by
  cases op with
  | store => rfl
  | _ => exact absurd h Bool.false_ne_true

theorem Operator.isTerminator_of_isAccess {op : Operator} (h : op.isAccess = true) :
    op.isTerminator = false := by
  cases op with
  | load | store => rfl
  | _ => exact absurd h Bool.false_ne_true

/-! ### Passing over what cannot be computed -/

namespace Values

variable {g : Graph} {e e' : Env Value} {id i : Nat} {n : Node} {memory : Array Byte}

/-- Gives a node its value, unless it cannot be computed. -/
def attempt (g : Graph) (e : Env Value) (id : Nat) : Env Value :=
  ((g.node? id).bind fun n => (meaning.execNode e id n).toOption).getD e

/-- The values of nodes and memory after them, where those that cannot be computed are passed over. -/
def attempted (g : Graph) (memory : Array Byte) (ids : List Nat) : Env Value :=
  ids.foldl (attempt g) (.start memory)

theorem attempt_of_ok (hn : g.node? id = some n) (h : meaning.execNode e id n = .ok e') :
    attempt g e id = e' := by
  rw [attempt, hn, Option.bind_some, h]
  rfl

theorem attempt_cases (g : Graph) (e : Env Value) (id : Nat) : attempt g e id = e ∨
    ∃ n, g.node? id = some n ∧ meaning.execNode e id n = .ok (attempt g e id) := by
  cases hn : g.node? id with
  | none =>
      refine .inl ?_
      rw [attempt, hn]
      rfl
  | some n =>
      cases hexec : meaning.execNode e id n with
      | error halt =>
          refine .inl ?_
          rw [attempt, hn, Option.bind_some, hexec]
          rfl
      | ok e' => exact .inr ⟨n, rfl, by rw [attempt_of_ok hn hexec, hexec]⟩

theorem values_attempt_of_ne (h : i ≠ id) : (attempt g e id).values i = e.values i := by
  obtain heq | ⟨n, -, hexec⟩ := attempt_cases g e id
  · rw [heq]
  · obtain ⟨xs, v, memory, -, -, heq⟩ := Meaning.execNode_eq_ok.mp hexec
    rw [heq, Env.set_values_of_ne e h]

theorem values_attempts_of_notMem {ids : List Nat} (h : i ∉ ids) :
    (ids.foldl (attempt g) e).values i = e.values i := by
  induction ids generalizing e with
  | nil => rfl
  | cons id ids ih =>
      obtain ⟨hne, h⟩ := not_or.mp (List.mem_cons.not.mp h)
      rw [List.foldl_cons, ih h, values_attempt_of_ne hne]

/-- Only a store changes memory. -/
theorem memory_of_compute {xs : List Value} {v : Option Value} {memory' : Array Byte}
    (hstore : n.op.isStore = false) (h : compute n xs memory = .ok (v, memory')) :
    memory' = memory := by
  unfold compute at h
  split at h
  · obtain ⟨start, -, h⟩ := bind_eq_ok.mp h
    obtain ⟨x, -, h⟩ := bind_eq_ok.mp h
    obtain ⟨y, -, h⟩ := bind_eq_ok.mp h
    exact (congrArg Prod.snd (Except.ok.inj h)).symm
  · next hop =>
      rw [hop] at hstore
      exact absurd hstore.symm Bool.false_ne_true
  · obtain ⟨x, -, h⟩ := bind_eq_ok.mp h
    exact (congrArg Prod.snd (Except.ok.inj h)).symm

theorem memory_attempts {ids : List Nat}
    (h : ∀ id ∈ ids, ∀ n, g.node? id = some n → n.op.isStore = false) :
    (ids.foldl (attempt g) e).memory = e.memory := by
  induction ids generalizing e with
  | nil => rfl
  | cons id ids ih =>
      rw [List.foldl_cons, ih fun i hi => h i (List.mem_cons_of_mem id hi)]
      obtain heq | ⟨n, hn, hexec⟩ := attempt_cases g e id
      · rw [heq]
      · obtain ⟨xs, v, memory, -, hcompute, heq⟩ := Meaning.execNode_eq_ok.mp hexec
        rw [heq, Env.set_memory, memory_of_compute (h id List.mem_cons_self n hn) hcompute]

theorem compute_of_plain {xs : List Value} (haccess : n.op.isAccess = false) :
    compute n xs memory = (value n xs memory).map fun x => (some x, memory) := by
  refine Lowering.values_compute_of_plain (fun op hop => ?_) (fun op hop => ?_)
  all_goals
    rw [hop] at haccess
    exact absurd haccess.symm Bool.false_ne_true

/-- What is no access does not depend on memory. -/
theorem value_of_memory {xs : List Value} {x : Value} {memory' : Array Byte}
    (h : value n xs memory = .ok x) : value n xs memory' = .ok x := by
  unfold value at h ⊢
  split at h
  · obtain ⟨u, hu, h⟩ := bind_eq_ok.mp h
    obtain ⟨v, hv, h⟩ := bind_eq_ok.mp h
    refine bind_eq_ok.mpr ⟨u, hu, bind_eq_ok.mpr ⟨v, hv, ?_⟩⟩
    split at h
    · exact h
    · exact absurd h (by simp)
  · exact h

end Values

namespace Graph.StraightProgram

open Values

variable {g : Graph} {id v : Nat} {n : Node} {done rest : List Nat} {memory : Array Byte}

/-- The nodes of the block before a given one. -/
theorem mem_done (hmembers : g.members 0 = done ++ id :: rest) (hv : g.blockOf? v = some 0) :
    v ∈ done ↔ v < id := by
  have hsorted := g.members_sorted 0
  have hmem := mem_members.mpr hv
  rw [hmembers] at hsorted hmem
  obtain ⟨-, hback, hcross⟩ := List.pairwise_append.mp hsorted
  refine ⟨fun hdone => hcross v hdone id List.mem_cons_self, fun hlt => ?_⟩
  rcases List.mem_append.mp hmem with hdone | hmem
  · exact hdone
  rcases List.mem_cons.mp hmem with rfl | hrest
  · exact absurd hlt (Nat.lt_irrefl v)
  · have hgt := (List.pairwise_cons.mp hback).1 v hrest
    omega

/-- The operands of a node have their values when it is its turn. -/
theorem operands_attempted (hg : g.StraightProgram) (hmembers : g.members 0 = done ++ id :: rest)
    (hn : g.node? id = some n) :
    (attempted g memory (g.members 0)).operands n = (attempted g memory done).operands n := by
  refine mapM_congr fun v hv => ?_
  obtain ⟨hblock, hlt⟩ := hg.reference hn (List.mem_append_left _ hv)
  have hdone := (mem_done hmembers hblock).mpr hlt
  have hnodup := g.members_nodup 0
  rw [hmembers] at hnodup
  have hnot : v ∉ id :: rest := fun hmem => List.disjoint_of_nodup_append hnodup hdone hmem
  rw [attempted, hmembers, List.foldl_append, values_attempts_of_notMem hnot]
  rfl

/-- A node that can be computed when it is its turn keeps its value. -/
theorem values_attempted (hmembers : g.members 0 = done ++ id :: rest) (hn : g.node? id = some n)
    {e : Env Value} (h : meaning.execNode (attempted g memory done) id n = .ok e) :
    (attempted g memory (g.members 0)).values id = e.values id := by
  have hnodup := g.members_nodup 0
  rw [hmembers] at hnodup
  have hnot : id ∉ rest := (List.nodup_cons.mp hnodup.of_append_right).1
  rw [attempted, hmembers, List.foldl_append, List.foldl_cons, values_attempts_of_notMem hnot]
  exact congrArg (Env.values · id) (attempt_of_ok hn h)

/-- The value of a node that is no access. -/
theorem values_of_value (hg : g.StraightProgram) (hn : g.node? id = some n) {xs : List Value} {x : Value}
    (haccess : n.op.isAccess = false)
    (hxs : (attempted g memory (g.members 0)).operands n = .ok xs)
    {memory' : Array Byte} (hvalue : value n xs memory' = .ok x) :
    (attempted g memory (g.members 0)).values id = some x := by
  obtain ⟨done, rest, hmembers⟩ := List.append_of_mem (mem_members.mpr (hg.blockOf?_of_node? hn))
  rw [hg.operands_attempted hmembers hn] at hxs
  have hexec : meaning.execNode (attempted g memory done) id n = _ := Meaning.execNode_of_operands hxs
  rw [show meaning.compute n xs _ = _ from compute_of_plain haccess, value_of_memory hvalue] at hexec
  rw [values_attempted hmembers hn hexec]
  exact Env.set_values_self ..

end Graph.StraightProgram

/-! ### What has run -/

namespace Words

variable {node? : Nat → Option Node} {f : Env Word} {memory : Array Byte}

/-- Each word is what its node computes from the words of its inputs. -/
def Computed (node? : Nat → Option Node) (memory : Array Byte) (f : Env Word) : Prop :=
  ∀ i n w, node? i = some n → n.op.isTargetLoad = false → n.op.isTargetStore = false →
    f.values i = some w → ∃ ws, f.operands n = .ok ws ∧ value .linear n ws memory = .ok w

/-- What runs once is computed for good. -/
theorem computed_of_execBody {ids : List Nat} (hnodup : ids.Nodup)
    (h : (meaning .linear).execBody node? ids (.start memory) = .ok f) : Computed node? memory f := by
  induction ids using List.reverseRecOn generalizing f with
  | nil =>
      obtain rfl := Except.ok.inj h
      exact fun i n w _ _ _ hw => absurd hw (by simp [Env.start])
  | append_singleton ids id ih =>
      rw [Meaning.execBody_append] at h
      obtain ⟨f₁, hfront, hlast⟩ := bind_eq_ok.mp h
      obtain ⟨m, f₂, hm, hexec, hnil⟩ := Meaning.execBody_cons_eq_ok.mp hlast
      obtain rfl := Except.ok.inj hnil
      obtain ⟨ws, v, memory', hws, hcompute, rfl⟩ := Meaning.execNode_eq_ok.mp hexec
      have hsize := Lowering.size_of_execBody hfront
      have hnot : id ∉ ids := fun hid =>
        List.disjoint_of_nodup_append hnodup hid (List.mem_singleton_self id)
      have hnew : f₁.values id = none := Meaning.values_of_execBody hfront hnot
      -- the inputs have their words already, so they are not the node that gets its word now
      have hoperands {n : Node} {xs : List Word} (hxs : f₁.operands n = .ok xs) :
          (f₁.set id v memory').operands n = .ok xs := by
        rw [← hxs]
        refine Env.operands_set_of_notMem (fun hid => ?_) v memory'
        obtain ⟨w, -, hw⟩ := exists_of_forall₂_right (Env.operands_eq_ok.mp hxs).flip hid
        exact absurd (hnew.symm.trans hw) (by simp)
      intro i n w hn hload hstore hw
      by_cases hi : i = id
      · obtain rfl := hi
        obtain rfl := Option.some.inj (hm.symm.trans hn)
        rw [Env.set_values_self] at hw
        obtain rfl := hw
        change compute .linear m ws f₁.memory = _ at hcompute
        rw [compute_of_not_access _ hstore hload] at hcompute
        obtain ⟨x, hx, heq⟩ := bind_eq_ok.mp hcompute
        obtain rfl : x = w := Option.some.inj (congrArg Prod.fst (Except.ok.inj heq))
        exact ⟨ws, hoperands hws, value_of_size hsize.symm hx⟩
      · rw [Env.set_values_of_ne f₁ hi] at hw
        obtain ⟨xs, hxs, hvalue⟩ :=
          ih hnodup.of_append_left hfront i n w hn hload hstore hw
        exact ⟨xs, hoperands hxs, hvalue⟩

end Words

theorem Operator.exists_access? {op : Operator} (h : op.isAccess = true) : ∃ x, op.access? = some x := by
  cases op with
  | load | store => exact ⟨_, rfl⟩
  | _ => exact absurd h Bool.false_ne_true

theorem Operator.conflicts_of_isStore {op op' x y : Operator} (hx : op.access? = some x)
    (hy : op'.access? = some y) (h : op.isStore = true ∨ op'.isStore = true) :
    x.conflicts y = true := by
  cases op <;> cases op' <;> simp [access?] at hx hy
  all_goals
    obtain rfl := hx
    obtain rfl := hy
    first | rfl | exact absurd h (by simp [isStore])

namespace Graph.StraightProgram

variable {g : Graph} {b id v : Nat}

/-- References lead back. -/
theorem le_of_refers (hg : g.StraightProgram) (h : Relation.ReflTransGen g.Refers id v) : v ≤ id := by
  induction h with
  | refl => exact Nat.le_refl _
  | tail _ hrefers ih =>
      obtain ⟨n, hn, hr⟩ := hrefers
      have hlt := (hg.reference hn hr).2
      omega

theorem lt_of_precedes (hg : g.StraightProgram) (h : g.Precedes v id) (hid : g.blockOf? id = some b) :
    v < id := by
  have hv : v ∈ g.layout := by
    rw [← List.idxOf_lt_length_iff]
    exact Nat.lt_of_lt_of_le h List.idxOf_le_length
  obtain ⟨c, hc⟩ := mem_layout.mp hv
  obtain rfl := hg.blockOf? hc
  obtain rfl := hg.blockOf? hid
  by_contra hle
  rcases Nat.lt_or_eq_of_le (Nat.le_of_not_lt hle) with hlt | rfl
  · exact Nat.lt_asymm h (precedes_of_lt hid hc hlt)
  · exact Nat.lt_irrefl _ h

end Graph.StraightProgram

/-- A first part of the schedule of a block has run. -/
structure Ran (g : Graph) (config : Config) (l : Lowering) (memory : Array Byte) (ran : List Nat)
    (f : Env Word) : Prop where
  program : g.StraightProgram
  lowered : Select.lowerAll g config {} = .ok ((), l)
  addressable : Addressable memory
  order : ran <+: Schedule.blockOrder l.nodes 0
  exec : (Words.meaning .linear).execBody l.node? ran (.start memory) = .ok f

/-- Where there is a word for a value, the source has the value. A truth value that is dropped on its way
to a return has none. -/
def Image (g : Graph) (config : Config) (l : Lowering) (e : Env Value) (f : Env Word) : Prop :=
  ∀ y k y' w, g.kindOf? y = some k → g.drops config y = false → l.lowered.get? y = some y' →
    f.values y' = some w → ∃ x, e.values y = some x ∧ x.kind = k ∧ x.Represents w

/-- The source computes what a part of the schedule does: it has the values, each access that has run can
be done when it is its turn, and memory is as the nodes leave it that stand in front of the stores that have
not run. -/
structure Mirrors (g : Graph) (config : Config) (l : Lowering) (memory : Array Byte) (ran : List Nat)
    (f : Env Word) : Prop where
  image : Image g config l (Values.attempted g memory (g.members 0)) f
  access : ∀ done y rest n y', g.members 0 = done ++ y :: rest → g.node? y = some n →
    n.op.isAccess = true → l.lowered.get? y = some y' → y' ∈ ran →
    ∃ e, Values.meaning.execNode (Values.attempted g memory done) y n = .ok e
  memory : ∀ done rest, g.members 0 = done ++ rest →
    (∀ y n y', g.node? y = some n → n.op.isStore = true → l.lowered.get? y = some y' →
      (y' ∈ ran ↔ y ∈ done)) →
    (Values.attempted g memory done).memory = f.memory

theorem Graph.not_drops_of_input {g : Graph} {id v : Nat} {n : Node} (config : Config)
    (hn : g.node? id = some n) (hv : v ∈ n.inputs) (hplain : n.op.isTerminator = false) :
    g.drops config v = false := by
  obtain ⟨k, hk⟩ := List.mem_iff_getElem?.mp hv
  have huse := mem_usesOf_of_input hn hk
  have hop : g.op? id = some n.op := by
    rw [op?, hn]
    rfl
  refine Bool.and_eq_false_imp.mpr fun _ => ?_
  unfold isOnlyReturned
  split
  · next hsingle =>
      obtain ⟨rfl, -⟩ := Use.mk.inj (eq_of_singleUse? hsingle huse)
      rw [hop]
      split
      · next heq => exact absurd (Option.some.inj heq ▸ hplain) (by simp [Operator.isTerminator])
      · next heq => exact absurd (Option.some.inj heq ▸ hplain) (by simp [Operator.isTerminator])
      · rfl
  · rfl

/-- A node for which its input stands: the word of the input is one for its value. -/
theorem Graph.StraightProgram.values_of_elided {g : Graph} {y : Nat} {n : Node} {k : Kind}
    {memory : Array Byte} (hg : g.StraightProgram) (config : Config) (hn : g.node? y = some n)
    (hop : n.op = .wrap ∨ n.op = .address .w64) (hk : g.kindOf? y = some k) :
    ∃ x, n.inputs = [x] ∧ g.kindOf? x = some (.number .i64) ∧ g.drops config x = false ∧
      ∀ u w, (Values.attempted g memory (g.members 0)).values x = some u → u.kind = .number .i64 →
        u.Represents w → ∃ v, (Values.attempted g memory (g.members 0)).values y = some v ∧
          v.kind = k ∧ v.Represents w := by
  obtain ⟨⟨ks, hks, haccepts⟩, -⟩ := hg.typed y n hn
  obtain rfl : ks = [.number .i64] := by
    rcases hop with hop | hop <;> rw [hop] at haccepts <;> exact haccepts
  obtain ⟨x, hinputs⟩ := List.length_eq_one_iff.mp hks.length_eq
  have hx : x ∈ n.inputs := by
    rw [hinputs]
    exact List.mem_singleton_self x
  have hdrops : g.drops config x = false :=
    g.not_drops_of_input config hn hx (by rcases hop with hop | hop <;> rw [hop] <;> rfl)
  rw [hinputs] at hks
  refine ⟨x, hinputs, (List.forall₂_cons.mp hks).1, hdrops, fun u w hu hukind hrep => ?_⟩
  obtain ⟨u, rfl⟩ := (Value.kind_eq_number (w := .w64)).mp hukind
  obtain rfl : w = u := hrep
  have hoperands : (Values.attempted g memory (g.members 0)).operands n = .ok [.i64 w] := by
    rw [Env.operands_eq_ok, hinputs]
    exact .cons hu .nil
  rw [kindOf?, hn] at hk
  rcases hop with hop | hop
  all_goals
    rw [Option.bind_some, hop] at hk
    obtain rfl := Option.some.inj hk
  · have hvalue : Values.value n [.i64 w] memory = .ok (.i32 (w.setWidth 32)) := by
      simp only [Values.value, Values.pure?, hop]
      rfl
    exact ⟨_, hg.values_of_value hn (by rw [hop]; rfl) hoperands hvalue, rfl, rfl⟩
  · have hvalue : Values.value n [.i64 w] memory = .ok (.i64 w) := by
      simp only [Values.value, Values.pure?, hop]
      rfl
    exact ⟨_, hg.values_of_value hn (by rw [hop]; rfl) hoperands hvalue, rfl, rfl⟩

theorem Schedule.Before.mem_front {w front back : List Nat} {i j : Nat} (hw : w.Nodup)
    (h : Before w i j) (hsplit : w = front ++ back) (hj : w.idxOf j ≤ front.length) : i ∈ front := by
  have hlt := h.idxOf_lt hw
  by_contra hi
  have hge : front.length ≤ w.idxOf i := by
    rw [hsplit, List.idxOf_append_of_notMem hi]
    omega
  omega

namespace Ran

open Schedule Lowering Values

variable {g : Graph} {config : Config} {l l₁ : Lowering} {memory : Array Byte} {ran : List Nat}
  {f f' : Env Word} {b i j y z : Nat} {n m : Node}

theorem steps (h : Ran g config l memory ran f) : Steps g config {} l :=
  ((lowerAll_meets config h.program.arrangeable.closed h.program.arrangeable.acyclic).of_ok h.lowered).1

theorem exists_lowered (h : Ran g config l memory ran f) (hn : g.node? y = some n)
    (haccess : n.op.isAccess = true) : ∃ y', l.lowered.get? y = some y' := by
  obtain ⟨b, hb⟩ := Graph.node?_eq_some.mp hn
  obtain ⟨x, hx⟩ := Operator.exists_access? haccess
  have harrangeable := h.program.arrangeable
  exact ((lowerAll_meets config harrangeable.closed harrangeable.acyclic).of_ok h.lowered).2 y
    (Array.getElem?_eq_some_iff.mp hb).1 (absorbs_of_access hb hx)

theorem nodup_order (h : Ran g config l memory ran f) : (blockOrder l.nodes 0).Nodup :=
  (blockOrder_settled h.steps.grounded 0).nodup

theorem computed (h : Ran g config l memory ran f) : Words.Computed l.node? memory f :=
  Words.computed_of_execBody (h.nodup_order.sublist h.order.sublist) h.exec

theorem size_memory (h : Ran g config l memory ran f) : f.memory.size = memory.size :=
  size_of_execBody h.exec

theorem addressable_memory (h : Ran g config l memory ran f) : Addressable f.memory := by
  rw [Addressable, h.size_memory]
  exact h.addressable

/-- Accesses of which one is a store are in the schedule in their order. -/
theorem before (h : Ran g config l memory ran f) (hy : g.node? y = some n) (hz : g.node? z = some m)
    (hn : n.op.isAccess = true) (hm : m.op.isAccess = true)
    (hstore : n.op.isStore = true ∨ m.op.isStore = true) (hlt : y < z)
    (hi : l.lowered.get? y = some i) (hj : l.lowered.get? z = some j) :
    Before (blockOrder l.nodes 0) i j := by
  have hg := h.program
  obtain ⟨b, hb⟩ := Graph.node?_eq_some.mp hy
  obtain ⟨c, hc⟩ := Graph.node?_eq_some.mp hz
  obtain rfl := hg.blockOf? (Graph.blockOf?_eq_some.mpr ⟨n, hb⟩)
  obtain rfl := hg.blockOf? (Graph.blockOf?_eq_some.mpr ⟨m, hc⟩)
  obtain ⟨u, hu⟩ := Operator.exists_access? hn
  obtain ⟨v, hv⟩ := Operator.exists_access? hm
  have horder : i < j := by
    refine lowered_lt hg.arrangeable.closed h.lowered
      (Array.getElem?_eq_some_iff.mp hb).1 (absorbs_of_access hb hu) hc hv (fun x hx hchain => ?_) hi hj
    have hle := hg.le_of_refers hchain
    rcases hx with rfl | hx
    · omega
    · have := hg.lt_of_precedes hx (Graph.blockOf?_eq_some.mpr ⟨n, hb⟩)
      omega
  obtain ⟨p, hp, rfl⟩ := (h.steps.successor hi).access hb hu
  obtain ⟨q, hq, rfl⟩ := (h.steps.successor hj).access hc hv
  have hmem : j ∈ blockOrder l.nodes 0 :=
    (mem_blockOrder h.steps.grounded).mpr (Schedule.blockOf?_eq_some.mpr ⟨q, hq⟩)
  exact (blockOrder_settled h.steps.grounded 0).before_of_conflicts hp hq horder
    (Operator.conflicts_of_isStore hu hv hstore) hmem

/-- If the later one of such accesses has run, so has the earlier one. -/
theorem mem_of_lt (h : Ran g config l memory ran f) (hy : g.node? y = some n) (hz : g.node? z = some m)
    (hn : n.op.isAccess = true) (hm : m.op.isAccess = true)
    (hstore : n.op.isStore = true ∨ m.op.isStore = true) (hlt : y < z)
    (hi : l.lowered.get? y = some i) (hj : l.lowered.get? z = some j) (hran : j ∈ ran) : i ∈ ran := by
  obtain ⟨tail, horder⟩ := h.order
  refine (h.before hy hz hn hm hstore hlt hi hj).mem_front h.nodup_order horder.symm (Nat.le_of_lt ?_)
  rw [← horder, List.idxOf_append_of_mem hran]
  exact List.idxOf_lt_length_iff.mpr hran

/-- A word is what its node computes. -/
theorem word (h : Ran g config l memory ran f) (hkeeps : Keeps l₁ l) {q : Node} {w : Word}
    (hq : l₁.nodes[i]? = some ⟨b, q⟩) (hload : q.op.isTargetLoad = false)
    (hstore : q.op.isTargetStore = false) (hw : f.values i = some w) :
    ∃ ws, List.Forall₂ (fun v w => f.values v = some w) q.inputs ws ∧
      Words.value .linear q ws memory = .ok w := by
  obtain ⟨ws, hws, hvalue⟩ := h.computed i q w (node?_of_placed (hkeeps.nodes hq)) hload hstore hw
  exact ⟨ws, Env.operands_eq_ok.mp hws, hvalue⟩

/-- What a check of bounds does: the size that it takes is that of linear memory. -/
theorem check (h : Ran g config l memory ran f) (hkeeps : Keeps l₁ l) {bytes state address size : Nat}
    (hsize : l₁.nodes[size]? = some ⟨b, Select.sizeNode state⟩) (hbytes : bytes < 2 ^ 64) {ws : List Word}
    (hws : List.Forall₂ (fun v w => f.values v = some w)
      (Select.checkNode ⟨b, state, address, bytes⟩ size).inputs ws) (memory' : Array Byte) :
    ∃ p, f.values address = some p ∧
      Words.value .linear (Select.checkNode ⟨b, state, address, bytes⟩ size) ws memory'
        = if p.toNat + bytes ≤ memory.size then .ok p else .error (.trapped .unreachable memory') := by
  rcases hws with _ | ⟨-, _ | ⟨ha, _ | ⟨hz, _ | -⟩⟩⟩
  rename_i a z
  obtain ⟨ws, hws, hvalue⟩ := h.word hkeeps hsize rfl rfl hz
  rcases hws with _ | ⟨-, -⟩
  obtain rfl := Except.ok.inj hvalue
  refine ⟨a, ha, ?_⟩
  change Words.checkBounds (BitVec.ofNat 64 bytes) a (BitVec.ofNat 64 memory.size) memory' = _
  rw [checkBounds_eq h.addressable.size_lt hbytes]

/-- The words with which a guarded access runs: the start of linear memory, and the address, which has been
checked. -/
theorem address (h : Ran g config l memory ran f) (hkeeps : Keeps l₁ l)
    {bytes state address space checked : Nat} (hguards : Guards l₁ b bytes state address space checked)
    (hbytes : bytes < 2 ^ 64) {u p : Word} (hu : f.values space = some u)
    (hp : f.values checked = some p) :
    u = BitVec.ofNat 64 Machine.memoryStart ∧ f.values address = some p ∧
      p.toNat + bytes ≤ memory.size := by
  obtain ⟨hspace, size, hsize, hcheck⟩ := hguards
  obtain ⟨ws, hws, hvalue⟩ := h.word hkeeps hspace rfl rfl hu
  rcases hws with _ | ⟨-, -⟩
  refine ⟨(Except.ok.inj hvalue).symm, ?_⟩
  obtain ⟨ws, hws, hvalue⟩ := h.word hkeeps hcheck rfl rfl hp
  obtain ⟨a, ha, heq⟩ := h.check hkeeps hsize hbytes hws memory
  rw [heq] at hvalue
  split at hvalue
  · next hle =>
      obtain rfl := Except.ok.inj hvalue
      exact ⟨ha, hle⟩
  · exact absurd hvalue (by simp)

end Ran

/-- An integer operator that has a value and is copied is copied as the one on words. -/
theorem Operator.selected_of_copied {op op' : Operator} {k : Kind} (h : op.copied? = some op')
    (hint : op.isInteger = true) (hkind : op.kind? = some k) :
    op.isDirect = true ∧ op' = op.selected := by
  cases op with
  | const ty | bool ty =>
      obtain rfl := Option.some.inj h
      cases ty with
      | int w => exact ⟨rfl, rfl⟩
      | float w => exact absurd hint Bool.false_ne_true
  | intBinary w op =>
      cases w with
      | w32 =>
          obtain rfl := Option.some.inj h
          exact ⟨rfl, rfl⟩
      | w64 =>
          refine ⟨rfl, ?_⟩
          cases hfused : op.fused? with
          | none | some =>
              simp only [copied?, hfused, Option.some.injEq] at h
              simp only [selected, hfused, h]
  | compare w c | address w =>
      cases w <;> simp [copied?] at h
      rw [← h]
      exact ⟨rfl, rfl⟩
  | state | updateState | bitCount | extend =>
      obtain rfl := Option.some.inj h
      exact ⟨rfl, rfl⟩
  | floatBinary | floatUnary | target => exact absurd hint Bool.false_ne_true
  | wrap | load | store | convert | branch => exact absurd h (by simp [copied?])
  | ret | typedRet | jump => exact absurd hkind (by simp [kind?, resultType])

theorem Follows.exists_value {k : Kind} {r : Except Halt Value} {w : Word} (h : Follows k r (.ok w)) :
    ∃ x, r = .ok x ∧ x.kind = k ∧ x.Represents w := by
  generalize hs : (.ok w : Except Halt Word) = s at h
  cases h with
  | ok hkind hrep => exact ⟨_, rfl, hkind, Except.ok.inj hs ▸ hrep⟩
  | trapped => exact absurd hs (by simp)

namespace Image

open Lowering Values

variable {g : Graph} {config : Config} {l l₁ : Lowering} {e : Env Value} {f : Env Word} {b y : Nat}
  {n m : Node} {k : Kind} {ws : List Word} {w : Word} {memory memory' : Array Byte}

/-- The values of the operands for which there are words. -/
theorem operands (h : Image g config l e f) {vs inputs : List Nat} {ks : List Kind}
    (hkinds : List.Forall₂ (fun v k => g.kindOf? v = some k) vs ks)
    (hdrops : ∀ v ∈ vs, g.drops config v = false)
    (hlowered : List.Forall₂ (fun v v' => l.lowered.get? v = some v') vs inputs)
    (hws : List.Forall₂ (fun v w => f.values v = some w) inputs ws) :
    ∃ xs, List.Forall₂ (fun v x => e.values v = some x) vs xs ∧ Operands ks xs ws := by
  induction hkinds generalizing inputs ws with
  | nil =>
      cases hlowered
      cases hws
      exact ⟨[], .nil, .nil, .nil⟩
  | @cons v k vs ks hk _ ih =>
      cases hlowered with
      | cons hv hlowered =>
          cases hws with
          | cons hw hws =>
              obtain ⟨x, hx, hkind, hrep⟩ := h v k _ _ hk (hdrops v List.mem_cons_self) hv hw
              obtain ⟨xs, hxs, hkinds, hreps⟩ :=
                ih (fun v' hv' => hdrops v' (List.mem_cons_of_mem v hv')) hlowered hws
              exact ⟨x :: xs, .cons hx hxs, .cons hkind hkinds, .cons hrep hreps⟩

/-- The words of the operands of a comparison of 32 bits are extended for it. -/
theorem compared_words (hcomputed : Words.Computed l.node? memory f) (hkeeps : Keeps l₁ l)
    (hlength : n.inputs.length = 2) {c : Comparison} {inputs : List Nat}
    (h : Compared l₁ b n .w32 c inputs)
    (hws : List.Forall₂ (fun v w => f.values v = some w) inputs ws) :
    ∃ inputs' u v, List.Forall₂ (fun v v' => l.lowered.get? v = some v') n.inputs inputs' ∧
      List.Forall₂ (fun v w => f.values v = some w) inputs' [u, v] ∧
      ws = [extend32 c.isSigned (u.setWidth 32), extend32 c.isSigned (v.setWidth 32)] := by
  have hword {i i' : Nat} {signed : Bool} {u : Word}
      (hi : l₁.nodes[i]? = some ⟨b, Select.extension signed i'⟩) (hu : f.values i = some u) :
      ∃ v, f.values i' = some v ∧ u = extend32 signed (v.setWidth 32) := by
    obtain ⟨ws, hws, hvalue⟩ := hcomputed i _ u (node?_of_placed (hkeeps.nodes hi)) rfl rfl hu
    rcases Env.operands_eq_ok.mp hws with _ | ⟨hv, _ | -⟩
    exact ⟨_, hv, (Except.ok.inj hvalue).symm⟩
  cases h with
  | widened hx hy hx' hy' hu hv =>
      rcases hws with _ | ⟨hwu, _ | ⟨hwv, _ | -⟩⟩
      obtain ⟨u, hu, rfl⟩ := hword hu hwu
      obtain ⟨v, hv, rfl⟩ := hword hv hwv
      obtain ⟨p, q, hpq⟩ := List.length_eq_two.mp hlength
      rw [hpq] at hx hy ⊢
      obtain rfl := Option.some.inj hx
      obtain rfl := Option.some.inj hy
      exact ⟨_, u, v, .cons (hkeeps.lowered hx') (.cons (hkeeps.lowered hy') .nil),
        .cons hu (.cons hv .nil), rfl⟩

/-- A node that is neither an access nor stands for another has its value where its new node has a
word. -/
theorem of_form (hg : g.StraightProgram) (h : Image g config l (attempted g memory (g.members 0)) f)
    (hcomputed : Words.Computed l.node? memory' f) (hn : g.node? y = some n)
    (hkind : n.op.kind? = some k) (haccess : n.op.isAccess = false) (hkeeps : Keeps l₁ l)
    (hform : Form g config l₁ b y n m) (hws : f.operands m = .ok ws)
    (hvalue : Words.value .linear m ws memory' = .ok w) :
    ∃ x, (attempted g memory (g.members 0)).values y = some x ∧ x.kind = k ∧ x.Represents w := by
  have hint := hg.integer y n hn
  obtain ⟨⟨ks, hks, haccepts⟩, hliteral⟩ := hg.typed y n hn
  have hterm := Operator.isTerminator_of_kind? hkind
  have hdrops (v : Nat) (hv : v ∈ n.inputs) : g.drops config v = false :=
    g.not_drops_of_input config hn hv hterm
  have hplain {x : Value} {xs : List Value}
      (hxs : List.Forall₂ (fun v x => (attempted g memory (g.members 0)).values v = some x) n.inputs xs)
      (hx : value n xs memory' = .ok x) :
      (attempted g memory (g.members 0)).values y = some x :=
    hg.values_of_value hn haccess (Env.operands_eq_ok.mpr hxs) hx
  rw [Env.operands_eq_ok] at hws
  cases hform with
  | copied hcopied _ _ hlowered =>
      obtain ⟨hdirect, rfl⟩ := Operator.selected_of_copied hcopied hint hkind
      obtain ⟨xs, hxs, hoperands⟩ :=
        h.operands hks hdrops (hlowered.imp fun _ _ hv => hkeeps.lowered hv) hws
      have hfollows : Follows k (value n xs memory') (.ok w) := by
        rw [← hvalue]
        exact value_follows hdirect hkind haccepts hliteral hoperands
      obtain ⟨x, hx, hrep⟩ := hfollows.exists_value
      exact ⟨x, hplain hxs hx, hrep⟩
  | @compared c inputs hop hcompared =>
      rw [hop] at haccepts hkind
      obtain rfl := haccepts
      obtain ⟨inputs', u, v, hlowered, huv, rfl⟩ :=
        compared_words hcomputed hkeeps hks.length_eq hcompared hws
      obtain ⟨xs, hxs, hoperands⟩ := h.operands hks hdrops hlowered huv
      obtain ⟨u', v', rfl, heq⟩ := hoperands.of_two
      obtain ⟨rfl, rfl⟩ : u = u' ∧ v = v' := by simpa using heq
      obtain rfl : Kind.number (.int .w32) = k := Option.some.inj hkind
      have hfollows : Follows (.number (.int .w32))
          (value n [.int .w32 (u.setWidth 32), .int .w32 (v.setWidth 32)] memory') (.ok w) := by
        rw [← hvalue]
        simp only [value, Words.value, pure?, Words.pure?, hop, c.holds_extend32]
        exact .ofBool .w32 _
      obtain ⟨x, hx, hrep⟩ := hfollows.exists_value
      exact ⟨x, hplain hxs hx, hrep⟩
  | signed hop =>
      rw [hop] at hint
      exact absurd hint Bool.false_ne_true
  | loaded hop | stored hop =>
      rw [hop] at haccess
      exact absurd haccess.symm Bool.false_ne_true
  | fused hop | branched hop | branched32 hop =>
      rw [hop] at hterm
      exact absurd hterm.symm Bool.false_ne_true

end Image

namespace Ran

open Schedule Lowering Values

variable {g : Graph} {config : Config} {l l₁ : Lowering} {memory : Array Byte} {ran done rest : List Nat}
  {f f' : Env Word} {b i y : Nat} {n m : Node}

/-- The words with which an access runs stand for the values that it has in the source, and its address has
been checked. -/
theorem access_operands (h : Ran g config l memory ran f)
    (himage : Image g config l (attempted g memory (g.members 0)) f) (hn : g.node? y = some n)
    (haccess : n.op.isAccess = true) {bytes s a state address space checked : Nat} {vs vs' : List Nat}
    {ks : List Kind} {ws : List Word} (hinputs : n.inputs = s :: a :: vs)
    (hkinds : List.Forall₂ (fun v k => g.kindOf? v = some k) n.inputs
      (.state :: .number (.int .w64) :: ks))
    (hkeeps : Keeps l₁ l) (hs : l₁.lowered.get? s = some state) (ha : l₁.lowered.get? a = some address)
    (hvs : List.Forall₂ (fun v v' => l₁.lowered.get? v = some v') vs vs')
    (hguards : Guards l₁ b bytes state address space checked) (hbytes : bytes < 2 ^ 64)
    (hws : List.Forall₂ (fun v w => f.values v = some w) (state :: space :: checked :: vs') ws) :
    ∃ u p us xs, ws = u :: BitVec.ofNat 64 Machine.memoryStart :: p :: us ∧
      p.toNat + bytes ≤ memory.size ∧ Operands ks xs us ∧
      (attempted g memory (g.members 0)).operands n = .ok (.state :: .i64 p :: xs) := by
  rcases hws with _ | ⟨hu, _ | ⟨hspace, _ | ⟨hchecked, hus⟩⟩⟩
  obtain ⟨rfl, haddress, hle⟩ := h.address hkeeps hguards hbytes hspace hchecked
  have hlowered : List.Forall₂ (fun v v' => l.lowered.get? v = some v') n.inputs
      (state :: address :: vs') := by
    rw [hinputs]
    exact .cons (hkeeps.lowered hs) (.cons (hkeeps.lowered ha)
      (hvs.imp fun _ _ hv => hkeeps.lowered hv))
  have hdrops (v : Nat) (hv : v ∈ n.inputs) : g.drops config v = false :=
    g.not_drops_of_input config hn hv (Operator.isTerminator_of_isAccess haccess)
  obtain ⟨xs, hxs, hoperands⟩ := himage.operands hkinds hdrops hlowered
    (.cons hu (.cons haddress hus))
  obtain ⟨u', xs₁, ws₁, rfl, heq, hoperands⟩ := hoperands.of_state
  obtain ⟨-, rfl⟩ := List.cons.inj heq
  obtain ⟨p', xs₂, ws₂, rfl, heq, hoperands⟩ := hoperands.of_number
  obtain ⟨rfl, rfl⟩ := List.cons.inj heq
  refine ⟨_, _, _, xs₂, rfl, hle, hoperands, ?_⟩
  rw [Env.operands_eq_ok.mpr hxs]
  simp only [IntWidth.bits, BitVec.setWidth_eq, Value.int]

/-- A load that has its operands finds what the load of the source does. -/
theorem loaded (h : Ran g config l memory ran f)
    (himage : Image g config l (attempted g memory (g.members 0)) f) (hn : g.node? y = some n) {op : Load}
    (hop : n.op = .load op) (hkeeps : Keeps l₁ l) (hform : Form g config l₁ b y n m) {ws : List Word}
    (hws : f.operands m = .ok ws) :
    ∃ xs x w, (attempted g memory (g.members 0)).operands n = .ok xs ∧
      compute n xs f.memory = .ok (some x, f.memory) ∧
      Words.compute .linear m ws f.memory = .ok (some w, f.memory) ∧ x.kind = .number op.type ∧
      x.Represents w := by
  have hint : n.op.isInteger = true := h.program.integer y n hn
  have haccess : n.op.isAccess = true := by rw [hop]; rfl
  obtain ⟨⟨ks, hks, haccepts⟩, -⟩ := h.program.typed y n hn
  rw [hop] at haccepts hint
  obtain rfl : ks = [.state, .number .i64] := haccepts
  obtain ⟨s, a, state, address, space, checked, control', hs, ha, hs', ha', hguards, rfl⟩ :=
    hform.of_load hop
  obtain ⟨s', a', hinputs⟩ := List.length_eq_two.mp hks.length_eq
  rw [hinputs] at hs ha
  obtain rfl := Option.some.inj hs
  obtain rfl := Option.some.inj ha
  have hbytes := op.access.bytes_bounds
  obtain ⟨u, p, us, xs, rfl, hle, hoperands, hxs⟩ := h.access_operands himage hn haccess hinputs hks
    hkeeps hs' ha' .nil hguards (by omega) (Env.operands_eq_ok.mp hws)
  obtain ⟨rfl, rfl⟩ := hoperands.of_nil
  obtain ⟨nop, control, literals, inputs⟩ := n
  obtain rfl : nop = .load op := hop
  rw [← h.size_memory] at hle
  obtain ⟨x, w, hvalue, hword, hkind, hrep⟩ :=
    @load_inside f.memory h.addressable_memory op hint control literals inputs p u hle
  refine ⟨_, x, w, hxs, hvalue, ?_, hkind, hrep⟩
  rw [Words.compute_load, hword]
  rfl

/-- A store that has its operands writes what the store of the source does. -/
theorem stored (h : Ran g config l memory ran f)
    (himage : Image g config l (attempted g memory (g.members 0)) f) (hn : g.node? y = some n) {op : Store}
    (hop : n.op = .store op) (hkeeps : Keeps l₁ l) (hform : Form g config l₁ b y n m) {ws : List Word}
    (hws : f.operands m = .ok ws) :
    ∃ xs memory', (attempted g memory (g.members 0)).operands n = .ok xs ∧
      compute n xs f.memory = .ok (none, memory') ∧
      Words.compute .linear m ws f.memory = .ok (none, memory') := by
  have hint : n.op.isInteger = true := h.program.integer y n hn
  have haccess : n.op.isAccess = true := by rw [hop]; rfl
  obtain ⟨⟨ks, hks, haccepts⟩, -⟩ := h.program.typed y n hn
  rw [hop] at haccepts hint
  obtain rfl : ks = [.state, .number .i64, .number op.type] := haccepts
  obtain ⟨s, a, v, state, address, value, space, checked, control', hs, ha, hv, hs', ha', hv', hguards,
    rfl⟩ := hform.of_store hop
  obtain ⟨s', a', v', hinputs⟩ := List.length_eq_three.mp hks.length_eq
  rw [hinputs] at hs ha hv
  obtain rfl := Option.some.inj hs
  obtain rfl := Option.some.inj ha
  obtain rfl := Option.some.inj hv
  have hbytes := op.access.bytes_bounds
  obtain ⟨u, p, us, xs, rfl, hle, hoperands, hxs⟩ := h.access_operands himage hn haccess hinputs hks
    hkeeps hs' ha' (.cons hv' .nil) hguards (by omega) (Env.operands_eq_ok.mp hws)
  obtain ⟨x, xs', w, us', rfl, rfl, hkind, hrep, hnil⟩ := hoperands.of_cons
  obtain ⟨rfl, rfl⟩ := hnil.of_nil
  obtain ⟨nop, control, literals, inputs⟩ := n
  obtain rfl : nop = .store op := hop
  rw [← h.size_memory] at hle
  obtain ⟨memory', hvalue, hword⟩ :=
    @store_inside f.memory h.addressable_memory op hint control literals inputs p u x w hkind hrep hle
  refine ⟨_, memory', hxs, hvalue, ?_⟩
  rw [Words.compute_store, hword]
  rfl

/-- A load that runs finds what the load of the source does when it is its turn. -/
theorem load (h : Ran g config l memory ran f)
    (himage : Image g config l (attempted g memory (g.members 0)) f)
    (hmembers : g.members 0 = done ++ y :: rest) (hn : g.node? y = some n) {op : Load}
    (hop : n.op = .load op) (hkeeps : Keeps l₁ l) (hform : Form g config l₁ b y n m)
    (hmemory : (attempted g memory done).memory = f.memory)
    (hexec : (Words.meaning .linear).execNode f i m = .ok f') :
    ∃ x w, Values.meaning.execNode (attempted g memory done) y n
        = .ok ((attempted g memory done).set y (some x) f.memory) ∧
      f' = f.set i (some w) f.memory ∧ x.kind = .number op.type ∧ x.Represents w := by
  obtain ⟨ws, v, memory', hws, hcompute, rfl⟩ := Meaning.execNode_eq_ok.mp hexec
  obtain ⟨xs, x, w, hxs, hvalue, hword, hkind, hrep⟩ := h.loaded himage hn hop hkeeps hform hws
  obtain ⟨rfl, rfl⟩ := Prod.mk.inj (Except.ok.inj (hcompute.symm.trans hword))
  rw [h.program.operands_attempted hmembers hn] at hxs
  rw [← hmemory] at hvalue ⊢
  exact ⟨x, w, Meaning.execNode_eq_ok.mpr ⟨_, _, _, hxs, hvalue, rfl⟩, rfl, hkind, hrep⟩

/-- A store that runs writes what the store of the source does when it is its turn. -/
theorem store (h : Ran g config l memory ran f)
    (himage : Image g config l (attempted g memory (g.members 0)) f)
    (hmembers : g.members 0 = done ++ y :: rest) (hn : g.node? y = some n) {op : Store}
    (hop : n.op = .store op) (hkeeps : Keeps l₁ l) (hform : Form g config l₁ b y n m)
    (hmemory : (attempted g memory done).memory = f.memory)
    (hexec : (Words.meaning .linear).execNode f i m = .ok f') :
    ∃ memory', Values.meaning.execNode (attempted g memory done) y n
        = .ok ((attempted g memory done).set y none memory') ∧ f' = f.set i none memory' := by
  obtain ⟨ws, r, memory', hws, hcompute, rfl⟩ := Meaning.execNode_eq_ok.mp hexec
  obtain ⟨xs, memory'', hxs, hvalue, hword⟩ := h.stored himage hn hop hkeeps hform hws
  obtain ⟨rfl, rfl⟩ := Prod.mk.inj (Except.ok.inj (hcompute.symm.trans hword))
  rw [h.program.operands_attempted hmembers hn] at hxs
  rw [← hmemory] at hvalue
  exact ⟨memory', Meaning.execNode_eq_ok.mpr ⟨_, _, _, hxs, hvalue, rfl⟩, rfl⟩

/-- The last node that has run, and what had run before it. -/
theorem of_append (h : Ran g config l memory (ran ++ [i]) f') :
    ∃ f m, Ran g config l memory ran f ∧ l.nodes[i]? = some ⟨0, m⟩ ∧
      (Words.meaning .linear).execNode f i m = .ok f' := by
  have hexec := h.exec
  rw [Meaning.execBody_append] at hexec
  obtain ⟨f, hfront, hlast⟩ := bind_eq_ok.mp hexec
  obtain ⟨m, f₁, hm, hstep, hnil⟩ := Meaning.execBody_cons_eq_ok.mp hlast
  obtain rfl := Except.ok.inj hnil
  have hmem : i ∈ blockOrder l.nodes 0 := h.order.subset (by simp)
  obtain ⟨q, hq⟩ := Schedule.blockOf?_eq_some.mp ((mem_blockOrder h.steps.grounded).mp hmem)
  obtain rfl := Option.some.inj ((node?_of_placed hq).symm.trans hm)
  exact ⟨f, q, ⟨h.program, h.lowered, h.addressable, (List.prefix_append ran [i]).trans h.order, hfront⟩,
    hq, hstep⟩

theorem notMem_of_append (h : Ran g config l memory (ran ++ [i]) f') : i ∉ ran := fun hmem =>
  List.disjoint_of_nodup_append (h.nodup_order.sublist h.order.sublist) hmem (List.mem_singleton_self i)

section

variable {z z' : Nat} {q : Node} (h : Ran g config l memory ran f)
  (h' : Ran g config l memory (ran ++ [i]) f') (hn : g.node? y = some n) (haccess : n.op.isAccess = true)
  (hi : l.lowered.get? y = some i) (hq : g.node? z = some q) (hstore : q.op.isStore = true)
  (hz : l.lowered.get? z = some z')
include h h' hn haccess hi hq hstore hz

/-- When an access runs, the stores have run that stand before it. -/
theorem stored_of_lt (hlt : z < y) : z' ∈ ran := by
  have hqaccess := Operator.isAccess_of_isStore hstore
  have hran := h'.mem_of_lt hq hn hqaccess haccess (.inl hstore) hlt hz hi (by simp)
  rcases List.mem_append.mp hran with hran | hran
  · exact hran
  · obtain rfl := List.mem_singleton.mp hran
    have hbefore := h.before hq hn hqaccess haccess (.inl hstore) hlt hz hi
    exact absurd (hbefore.idxOf_lt h.nodup_order) (Nat.lt_irrefl _)

/-- When an access runs, no store has run that stands behind it. -/
theorem not_stored_of_gt (hlt : y < z) : z' ∉ ran ++ [i] := by
  have hqaccess := Operator.isAccess_of_isStore hstore
  intro hran
  rcases List.mem_append.mp hran with hran | hran
  · exact h'.notMem_of_append (h.mem_of_lt hn hq haccess hqaccess (.inr hstore) hlt hi hz hran)
  · obtain rfl := List.mem_singleton.mp hran
    have hbefore := h.before hn hq haccess hqaccess (.inr hstore) hlt hi hz
    exact Nat.lt_irrefl _ (hbefore.idxOf_lt h.nodup_order)

theorem stored_iff (hmembers : g.members 0 = done ++ y :: rest) : z' ∈ ran ↔ z ∈ done := by
  rw [Graph.StraightProgram.mem_done hmembers (h.program.blockOf?_of_node? hq)]
  refine ⟨fun hran => ?_, h.stored_of_lt h' hn haccess hi hq hstore hz⟩
  by_contra hle
  rcases Nat.lt_or_eq_of_le (Nat.le_of_not_lt hle) with hlt | rfl
  · exact h.not_stored_of_gt h' hn haccess hi hq hstore hz hlt (List.mem_append_left [i] hran)
  · exact h'.notMem_of_append (Option.some.inj (hz.symm.trans hi) ▸ hran)

end

end Ran

namespace Lowering

variable {g : Graph} {config : Config} {l : Lowering} {b i id y y' : Nat} {n m : Node}

/-- Only accesses become accesses, and only stores become stores. -/
theorem Form.access_of_target (h : Form g config l b id n m) (hg : g.Generic)
    (hn : g.node? id = some n) : (m.op.isTargetLoad = true → n.op.isAccess = true) ∧
      (m.op.isTargetStore = true → n.op.isStore = true) := by
  cases h with
  | @copied op' _ _ hop =>
      obtain ⟨-, -, hload, hstore⟩ := op_of_copied hg hn hop
      refine ⟨fun h => ?_, fun h => ?_⟩
      all_goals
        cases op' with
        | target t => cases t <;> simp_all [Operator.isTargetLoad, Operator.isTargetStore]
        | _ => exact absurd h Bool.false_ne_true
  | loaded hop | stored hop =>
      rw [hop]
      exact ⟨fun _ => rfl, fun h => h⟩
  | signed hop =>
      rw [hop]
      exact ⟨fun h => absurd h Bool.false_ne_true, fun h => absurd h Bool.false_ne_true⟩
  | _ => exact ⟨fun h => absurd h Bool.false_ne_true, fun h => absurd h Bool.false_ne_true⟩

theorem Form.plain_of_plain (h : Form g config l b id n m) (hg : g.Generic) (hn : g.node? id = some n)
    (hplain : n.op.isAccess = false) : m.op.isTargetLoad = false ∧ m.op.isTargetStore = false := by
  obtain ⟨hload, hstore⟩ := h.access_of_target hg hn
  refine ⟨Bool.eq_false_iff.mpr fun hm => ?_, Bool.eq_false_iff.mpr fun hm => ?_⟩
  · exact absurd (hplain.symm.trans (hload hm)) Bool.false_ne_true
  · exact absurd (hplain.symm.trans (Operator.isAccess_of_isStore (hstore hm))) Bool.false_ne_true

theorem Form.isTargetStore (h : Form g config l b id n m) (hstore : n.op.isStore = true) :
    m.op.isTargetStore = true := by
  cases hop : n.op with
  | store op => rw [h.access (by rw [hop]; rfl)]; rfl
  | _ => rw [hop] at hstore; exact absurd hstore Bool.false_ne_true

theorem Aid.isTargetStore (h : Aid g config l b n m) : m.op.isTargetStore = false := by
  cases h <;> rfl

/-- An access is recorded. -/
theorem Successor.form_of_access (h : Successor g config l y y') (hn : g.node? y = some n)
    (haccess : n.op.isAccess = true) :
    ∃ l₁ b m, Keeps l₁ l ∧ Form g config l₁ b y n m ∧ l.nodes[y']? = some ⟨b, m⟩ := by
  obtain ⟨b, hb⟩ := Graph.node?_eq_some.mp hn
  obtain ⟨x, hx⟩ := Operator.exists_access? haccess
  obtain ⟨l₁, m, hform⟩ := h.form hb hx
  exact ⟨l₁, b, m, hform⟩

end Lowering

namespace Ran

open Schedule Lowering Values

variable {g : Graph} {config : Config} {l l₁ : Lowering} {memory : Array Byte} {ran done rest : List Nat}
  {f f' : Env Word} {b i y y' : Nat} {n m : Node}

/-- The memory that an access finds when it runs. -/
theorem memory_before (h : Ran g config l memory ran f) (h' : Ran g config l memory (ran ++ [i]) f')
    (hmirrors : Mirrors g config l memory ran f) (hn : g.node? y = some n)
    (haccess : n.op.isAccess = true) (hi : l.lowered.get? y = some i)
    (hmembers : g.members 0 = done ++ y :: rest) : (attempted g memory done).memory = f.memory :=
  hmirrors.memory done (y :: rest) hmembers fun _ _ _ hq hstore hz =>
    h.stored_iff h' hn haccess hi hq hstore hz hmembers

/-- The value of a node for which there is a word now. -/
theorem image_last (h : Ran g config l memory ran f) (h' : Ran g config l memory (ran ++ [i]) f')
    (hmirrors : Mirrors g config l memory ran f) (hm : l.nodes[i]? = some ⟨b, m⟩)
    (hexec : (Words.meaning .linear).execNode f i m = .ok f') {k : Kind} {w : Word}
    (hy : l.lowered.get? y = some i) (hk : g.kindOf? y = some k) (hdrops : g.drops config y = false)
    (hw : f'.values i = some w) :
    ∃ x, (attempted g memory (g.members 0)).values y = some x ∧ x.kind = k ∧ x.Represents w := by
  have hg := h.program
  have hsuccessor := h.steps.successor hy
  generalize hi : i = y' at hsuccessor
  induction hsuccessor generalizing k with
  | @stands y y' b x n hn _ helided hx hx' _ ih =>
      obtain rfl := hi
      have hop : n.op = .wrap ∨ n.op = .address .w64 := by
        rcases helided with hop | hop | ⟨-, hdropped⟩
        · exact .inl hop
        · exact .inr hop
        · exact absurd (hdropped.symm.trans hdrops).symm Bool.false_ne_true
      obtain ⟨v, hinputs, hvkind, hvdrops, hvalue⟩ :=
        hg.values_of_elided config (Graph.node?_eq_some.mpr ⟨b, hn⟩) hop hk
      rw [hinputs] at hx
      obtain rfl := Option.some.inj hx
      obtain ⟨u, hu, hukind, hrep⟩ := ih hx' hvkind hvdrops rfl
      exact hvalue u w hu hukind hrep
  | @records l₁ y b' n m' hn _ _ hkeeps hform hnew =>
      rw [← hi] at hnew
      obtain ⟨rfl, rfl⟩ := Placed.mk.inj (Option.some.inj (hnew.symm.trans hm))
      have hn := Graph.node?_eq_some.mpr ⟨b', hn⟩
      have hkind : n.op.kind? = some k := by
        rw [Graph.kindOf?, hn] at hk
        exact hk
      cases haccess : n.op.isAccess with
      | false =>
          obtain ⟨ws, v, memory', hws, hcompute, rfl⟩ := Meaning.execNode_eq_ok.mp hexec
          rw [Env.set_values_self] at hw
          obtain ⟨hload, hstore⟩ := hform.plain_of_plain hg.generic hn haccess
          simp only [Words.meaning, Words.compute_of_not_access _ hstore hload] at hcompute
          obtain ⟨u, hu, heq⟩ := bind_eq_ok.mp hcompute
          obtain ⟨rfl, -⟩ := Prod.mk.inj (Except.ok.inj heq)
          obtain rfl := Option.some.inj hw
          exact hmirrors.image.of_form hg h.computed hn hkind haccess hkeeps hform hws
            (Words.value_of_size h.size_memory.symm hu)
      | true =>
          obtain ⟨done, rest, hmembers⟩ :=
            List.append_of_mem (Graph.mem_members.mpr (hg.blockOf?_of_node? hn))
          cases hop : n.op with
          | load op =>
              obtain ⟨x, u, hsource, rfl, hxkind, hrep⟩ := h.load hmirrors.image hmembers hn hop hkeeps
                hform (h.memory_before h' hmirrors hn haccess hy hmembers) hexec
              rw [Env.set_values_self] at hw
              obtain rfl := Option.some.inj hw
              rw [hop] at hkind
              refine ⟨x, ?_, hxkind.trans (Option.some.inj hkind), hrep⟩
              rw [Graph.StraightProgram.values_attempted hmembers hn hsource, Env.set_values_self]
          | store op => rw [hop] at hkind; exact absurd hkind (by simp [Operator.kind?, Operator.resultType])
          | _ => rw [hop] at haccess; exact absurd haccess Bool.false_ne_true

/-- An access that runs can be done in the source when it is its turn. -/
theorem access_last (h : Ran g config l memory ran f) (h' : Ran g config l memory (ran ++ [i]) f')
    (hmirrors : Mirrors g config l memory ran f) (hm : l.nodes[i]? = some ⟨b, m⟩)
    (hexec : (Words.meaning .linear).execNode f i m = .ok f')
    (hmembers : g.members 0 = done ++ y :: rest) (hn : g.node? y = some n)
    (haccess : n.op.isAccess = true) (hy : l.lowered.get? y = some i) :
    ∃ e, Values.meaning.execNode (attempted g memory done) y n = .ok e ∧
      (n.op.isStore = true → e.memory = f'.memory) := by
  obtain ⟨l₁, b', m', hkeeps, hform, hm'⟩ := (h.steps.successor hy).form_of_access hn haccess
  obtain ⟨rfl, rfl⟩ := Placed.mk.inj (Option.some.inj (hm'.symm.trans hm))
  have hmemory := h.memory_before h' hmirrors hn haccess hy hmembers
  cases hop : n.op with
  | load op =>
      obtain ⟨x, w, hsource, -, -⟩ := h.load hmirrors.image hmembers hn hop hkeeps hform hmemory hexec
      exact ⟨_, hsource, fun hstore => absurd hstore Bool.false_ne_true⟩
  | store op =>
      obtain ⟨memory', hsource, rfl⟩ := h.store hmirrors.image hmembers hn hop hkeeps hform hmemory hexec
      exact ⟨_, hsource, fun _ => rfl⟩
  | _ => rw [hop] at haccess; exact absurd haccess Bool.false_ne_true

/-- Memory after the nodes that stand in front of the stores that have not run. -/
theorem memory_last (h : Ran g config l memory ran f) (h' : Ran g config l memory (ran ++ [i]) f')
    (hmirrors : Mirrors g config l memory ran f) (hm : l.nodes[i]? = some ⟨b, m⟩)
    (hexec : (Words.meaning .linear).execNode f i m = .ok f') (hmembers : g.members 0 = done ++ rest)
    (hdone : ∀ y n y', g.node? y = some n → n.op.isStore = true → l.lowered.get? y = some y' →
      (y' ∈ ran ++ [i] ↔ y ∈ done)) :
    (attempted g memory done).memory = f'.memory := by
  cases hstore : m.op.isTargetStore with
  | false =>
      obtain ⟨ws, v, memory', -, hcompute, rfl⟩ := Meaning.execNode_eq_ok.mp hexec
      rw [Env.set_memory, Words.memory_of_compute hstore hcompute]
      refine hmirrors.memory done rest hmembers fun y n y' hn hop hy => ?_
      rw [← hdone y n y' hn hop hy, List.mem_append, List.mem_singleton]
      refine (or_iff_left ?_).symm
      rintro rfl
      obtain ⟨l₁, b', m', -, hform, hm'⟩ :=
        (h.steps.successor hy).form_of_access hn (Operator.isAccess_of_isStore hop)
      obtain ⟨-, rfl⟩ := Placed.mk.inj (Option.some.inj (hm'.symm.trans hm))
      rw [hform.isTargetStore hop] at hstore
      exact absurd hstore.symm Bool.false_ne_true
  | true =>
      obtain ⟨l₁, y, n, -, -, -, hn, haid | ⟨hform, hy⟩⟩ := h.steps.origin hm
      · exact absurd (haid.isTargetStore.symm.trans hstore) Bool.false_ne_true
      have hn := Graph.node?_eq_some.mpr ⟨_, hn⟩
      have hop := (hform.access_of_target h.program.generic hn).2 hstore
      have haccess := Operator.isAccess_of_isStore hop
      have hmem : y ∈ done := (hdone y n i hn hop hy).mp (by simp)
      obtain ⟨front, back, rfl⟩ := List.append_of_mem hmem
      have hmembers' : g.members 0 = front ++ y :: (back ++ rest) := by
        rw [hmembers, List.append_assoc, List.cons_append]
      obtain ⟨e, hsource, hmemory⟩ := h.access_last h' hmirrors hm hexec hmembers' hn haccess hy
      -- behind the store that runs now, no store has run
      have hquiet : ∀ z ∈ back, ∀ q, g.node? z = some q → q.op.isStore = false := by
        intro z hz q hq
        by_contra hne
        have hqstore := Bool.not_eq_false _ ▸ hne
        obtain ⟨z', hz'⟩ := h.exists_lowered hq (Operator.isAccess_of_isStore hqstore)
        have hsorted := g.members_sorted 0
        rw [hmembers'] at hsorted
        have hlt : y < z := (List.pairwise_cons.mp (List.pairwise_append.mp hsorted).2.1).1 z
          (List.mem_append_left rest hz)
        exact h.not_stored_of_gt h' hn haccess hy hq hqstore hz' hlt
          ((hdone z q z' hq hqstore hz').mpr (by simp [hz]))
      rw [attempted, List.foldl_append, List.foldl_cons, memory_attempts hquiet, ← hmemory hop]
      exact congrArg Env.memory (attempt_of_ok hn hsource)

/-- The source computes what any first part of the schedule does. -/
theorem mirrors (h : Ran g config l memory ran f) : Mirrors g config l memory ran f := by
  induction ran using List.reverseRecOn generalizing f with
  | nil =>
      obtain rfl := Except.ok.inj h.exec
      refine ⟨fun y k y' w _ _ _ hw => absurd hw (by simp [Env.start]),
        fun _ _ _ _ _ _ _ _ _ hy' => absurd hy' List.not_mem_nil, fun done rest _ hdone => ?_⟩
      refine memory_attempts fun y hy n hn => ?_
      by_contra hne
      have hstore := Bool.not_eq_false _ ▸ hne
      obtain ⟨y', hy'⟩ := h.exists_lowered hn (Operator.isAccess_of_isStore hstore)
      exact absurd ((hdone y n y' hn hstore hy').mpr hy) List.not_mem_nil
  | append_singleton ran i ih =>
      obtain ⟨f₁, m, h₁, hm, hexec⟩ := h.of_append
      have hmirrors := ih h₁
      refine ⟨fun y k y' w hk hdrops hy hw => ?_, fun done y rest n y' hmembers hn haccess hy hran => ?_,
        fun done rest => h₁.memory_last h hmirrors hm hexec⟩
      · by_cases hi : y' = i
        · obtain rfl := hi
          exact h₁.image_last h hmirrors hm hexec hy hk hdrops hw
        · obtain ⟨ws, v, memory', -, -, rfl⟩ := Meaning.execNode_eq_ok.mp hexec
          rw [Env.set_values_of_ne f₁ hi] at hw
          exact hmirrors.image y k y' w hk hdrops hy hw
      · rcases List.mem_append.mp hran with hran | hran
        · exact hmirrors.access done y rest n y' hmembers hn haccess hy hran
        · obtain rfl := List.mem_singleton.mp hran
          obtain ⟨e, he, -⟩ := h₁.access_last h hmirrors hm hexec hmembers hn haccess hy
          exact ⟨e, he⟩

end Ran

end Isel
