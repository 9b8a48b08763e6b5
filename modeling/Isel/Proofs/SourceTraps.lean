import Isel.Proofs.PartialRun

/-! Traps of the source. A node whose operands have the kinds that its operator takes is never stuck: it has
a value of its own kind, or it traps. So a block of the source runs to its end unless one of its nodes
traps, and then everything that is selected for it can be computed too. Code traps only where its source
does. -/

namespace Isel

theorem Value.exists_represents (xs : List Value) : ∃ ws, List.Forall₂ Represents xs ws := by
  induction xs with
  | nil => exact ⟨[], .nil⟩
  | cons x xs ih =>
      obtain ⟨ws, hws⟩ := ih
      cases x with
      | i32 v => exact ⟨_, .cons (represents_setWidth (w := .w32) v) hws⟩
      | i64 v => exact ⟨_, .cons (represents_setWidth (w := .w64) v) hws⟩
      | state => exact ⟨0 :: ws, .cons trivial hws⟩

namespace Values

variable {n : Node} {xs : List Value} {ks : List Kind} {memory memory' : Array Byte} {v : Option Value}

theorem size_of_compute (h : compute n xs memory = .ok (v, memory')) : memory'.size = memory.size := by
  cases hstore : n.op.isStore with
  | false => rw [memory_of_compute hstore h]
  | true =>
      unfold compute at h
      split at h
      · next heq => simp [heq, Operator.isStore] at hstore
      · obtain ⟨start, -, h⟩ := bind_eq_ok.mp h
        obtain ⟨u, -, h⟩ := bind_eq_ok.mp h
        obtain ⟨bytes, hbytes, h⟩ := bind_eq_ok.mp h
        obtain ⟨-, rfl⟩ := Prod.mk.inj (Except.ok.inj h)
        exact Words.size_of_replaceBytes? (orStuck_eq_ok.mp hbytes)
      · obtain ⟨x, -, h⟩ := bind_eq_ok.mp h
        obtain ⟨-, rfl⟩ := Prod.mk.inj (Except.ok.inj h)
        rfl

theorem address_of_place {bytes start : Nat} {x : Value} (h : place memory bytes x = .ok start) :
    ∃ p, x = .i64 p ∧ p.toNat + bytes ≤ memory.size := by
  obtain ⟨p, hp, h⟩ := bind_eq_ok.mp h
  cases x with
  | i64 q =>
      obtain rfl : q = p := Option.some.inj (orStuck_eq_ok.mp hp)
      split at h
      · next hle => exact ⟨q, rfl, hle⟩
      · exact absurd h (by simp)
  | i32 q => exact absurd (orStuck_eq_ok.mp hp) (by simp [Value.int?])
  | state => exact absurd (orStuck_eq_ok.mp hp) (by simp [Value.int?])

/-- An access that can be done ends within linear memory. -/
theorem address_of_compute {bytes : Nat} (hop : n.op.accessBytes? = some bytes)
    (h : compute n xs memory = .ok (v, memory')) :
    ∃ p, xs[1]? = some (.i64 p) ∧ p.toNat + bytes ≤ memory.size := by
  unfold compute at h
  split at h
  · next op address heq =>
      rw [heq] at hop
      obtain rfl := Option.some.inj hop
      obtain ⟨start, hstart, -⟩ := bind_eq_ok.mp h
      obtain ⟨p, rfl, hle⟩ := address_of_place hstart
      exact ⟨p, rfl, hle⟩
  · next op address x heq =>
      rw [heq] at hop
      obtain rfl := Option.some.inj hop
      obtain ⟨start, hstart, -⟩ := bind_eq_ok.mp h
      obtain ⟨p, rfl, hle⟩ := address_of_place hstart
      exact ⟨p, rfl, hle⟩
  · obtain ⟨x, hx, -⟩ := bind_eq_ok.mp h
    cases hcase : n.op with
    | load op | store op => simp [value, pure?, hcase, orStuck] at hx
    | _ => rw [hcase] at hop; exact absurd hop (by simp [Operator.accessBytes?])

/-- A node has a value of a kind, or it traps. -/
inductive Proceeds (k : Option Kind) : Except Halt (Option Value × Array Byte) → Prop
  | ok {v : Option Value} {memory : Array Byte} (kind : v.map Value.kind = k) : Proceeds k (.ok (v, memory))
  | trapped {t : Trap} {memory : Array Byte} : Proceeds k (.error (.trapped t memory))

theorem Proceeds.of_follows {k : Kind} {r : Except Halt Value} {s : Except Halt Word}
    (h : Follows k r s) (memory : Array Byte) :
    Proceeds (some k) (r.map fun x => (some x, memory)) := by
  cases h with
  | ok hkind => exact .ok (congrArg some hkind)
  | trapped => exact .trapped

/-- A node on integers with operands of the kinds that it takes is not stuck. -/
theorem compute_proceeds (hint : n.op.isInteger = true) (hplain : n.op.isTerminator = false)
    (haccepts : n.op.accepts ks) (hliteral : ∀ ty, n.op = .const ty → n.literals ≠ [])
    (hkinds : List.Forall₂ (fun (x : Value) k => x.kind = k) xs ks) (hm : Addressable memory) :
    Proceeds n.op.kind? (compute n xs memory) := by
  obtain ⟨ws, hreps⟩ := Value.exists_represents xs
  have hoperands : Operands ks xs ws := ⟨hkinds, hreps⟩
  cases hdirect : n.op.isDirect with
  | true =>
      obtain ⟨hload, hstore, -, -, k, hk⟩ := Lowering.direct_not_access hdirect
      have hfollows : Follows k (value n xs memory)
          (Words.value .linear ⟨n.op.selected, [], n.literals, []⟩ ws memory) :=
        value_follows hdirect hk haccepts hliteral hoperands
      rw [Lowering.values_compute_of_plain hload hstore, hk]
      exact .of_follows hfollows memory
  | false =>
      obtain ⟨op, control, literals, inputs⟩ := n
      cases op with
      | compare w c =>
          obtain rfl : ks = _ := haccepts
          obtain ⟨x, -, hkind, hcompute⟩ :=
            Lowering.compare_value (n := ⟨.compare w c, control, literals, inputs⟩) rfl hkinds
          rw [hcompute]
          exact .ok (congrArg some hkind)
      | wrap =>
          obtain rfl : ks = [.number (.int .w64)] := haccepts
          obtain ⟨u, rfl, -⟩ := hoperands.of_one
          exact .ok rfl
      | address w =>
          obtain rfl : ks = [.number (.int w)] := haccepts
          obtain ⟨u, rfl, -⟩ := hoperands.of_one
          cases w <;> exact .ok rfl
      | load op =>
          obtain rfl : ks = [.state, .number (.int .w64)] := haccepts
          obtain ⟨s, xs', ws', rfl, rfl, hone⟩ := hoperands.of_state
          obtain ⟨p, rfl, rfl⟩ := hone.of_one
          by_cases hp : p.toNat + op.access.bytes ≤ memory.size
          · obtain ⟨x, w, hvalue, -, hkind, -⟩ :=
              @load_inside memory hm op hint control literals inputs p s hp
            simp only [IntWidth.bits, BitVec.setWidth_eq, Value.int, hvalue]
            exact .ok (congrArg some hkind)
          · simp only [IntWidth.bits, BitVec.setWidth_eq, Value.int, load_outside hp]
            exact .trapped
      | store op =>
          obtain rfl : ks = [.state, .number (.int .w64), .number op.type] := haccepts
          obtain ⟨s, xs₁, ws₁, rfl, rfl, htwo⟩ := hoperands.of_state
          obtain ⟨p, xs₂, ws₂, rfl, rfl, hone⟩ := htwo.of_number
          obtain ⟨x, xs₃, u, ws₃, rfl, rfl, hkind, hrep, hnil⟩ := hone.of_cons
          obtain ⟨rfl, rfl⟩ := hnil.of_nil
          by_cases hp : p.toNat + op.access.bytes ≤ memory.size
          · obtain ⟨memory', hvalue, -⟩ :=
              @store_inside memory hm op hint control literals inputs p s x u hkind hrep hp
            simp only [IntWidth.bits, BitVec.setWidth_eq, Value.int, hvalue]
            exact .ok rfl
          · simp only [IntWidth.bits, BitVec.setWidth_eq, Value.int, store_outside hp]
            exact .trapped
      | const ty | bool ty =>
          cases ty with
          | int w => exact absurd hdirect.symm Bool.false_ne_true
          | float w => exact absurd hint Bool.false_ne_true
      | floatBinary | floatUnary | convert | target => exact absurd hint Bool.false_ne_true
      | ret | typedRet | branch | jump => exact absurd hplain.symm Bool.false_ne_true
      | state | updateState | intBinary | bitCount | extend =>
          exact absurd hdirect.symm Bool.false_ne_true

end Values

theorem Meaning.execBody_singleton {α : Type} {M : Meaning α} {node? : Nat → Option Node} {i : Nat}
    {n : Node} (hn : node? i = some n) (e : Env α) : M.execBody node? [i] e = M.execNode e i n := by
  rw [execBody, hn]
  change (M.execNode e i n >>= pure) = _
  rw [bind_pure]

/-- Where the first computations of a block come to a halt, so does the block. -/
theorem Meaning.execNodes_error {α : Type} {M : Meaning α} {node? : Nat → Option Node} {body : List Nat}
    {e : Env α} {halt : Halt}
    (hbody : ∀ i ∈ body, ∃ n, node? i = some n ∧ n.op.isTerminator = false)
    (h : M.execBody node? body e = .error halt) (rest : List Nat) :
    M.execNodes node? (body ++ rest) e = .error halt := by
  induction body generalizing e with
  | nil => exact absurd h (by simp [execBody])
  | cons i body ih =>
      obtain ⟨n, hn, hplain⟩ := hbody i List.mem_cons_self
      rw [List.cons_append]
      unfold execNodes
      unfold execBody at h
      rw [hn] at h ⊢
      simp only [hplain, Bool.false_eq_true, if_false]
      change (M.execNode e i n >>= _) = _ at h
      cases hexec : M.execNode e i n with
      | error halt' =>
          rw [hexec] at h
          exact congrArg Except.error (Except.error.inj h)
      | ok e' =>
          rw [hexec] at h
          exact ih (fun j hj => hbody j (List.mem_cons_of_mem i hj)) h

namespace Graph.StraightProgram

open Values

variable {g : Graph} {id : Nat} {n : Node} {done rest : List Nat} {memory : Array Byte} {e : Env Value}

/-- The values of nodes are of their kinds, and memory has its size. -/
structure Settled (g : Graph) (memory : Array Byte) (done : List Nat) (e : Env Value) : Prop where
  values : ∀ v ∈ done, ∀ k, g.kindOf? v = some k → ∃ x, e.values v = some x ∧ x.kind = k
  size : e.memory.size = memory.size

/-- The next node finds operands of the kinds that it takes. -/
theorem Settled.operands (h : Settled g memory done e) (hg : g.StraightProgram)
    (hmembers : g.members 0 = done ++ id :: rest) (hn : g.node? id = some n) {ks : List Kind}
    (hks : List.Forall₂ (fun v k => g.kindOf? v = some k) n.inputs ks) :
    ∃ xs, e.operands n = .ok xs ∧ List.Forall₂ (fun (x : Value) k => x.kind = k) xs ks := by
  have hdone : ∀ v ∈ n.inputs, v ∈ done := fun v hv => by
    obtain ⟨hblock, hlt⟩ := hg.reference hn (List.mem_append_left _ hv)
    exact (mem_done hmembers hblock).mpr hlt
  simp only [Env.operands_eq_ok]
  generalize n.inputs = vs at hks hdone
  induction hks with
  | nil => exact ⟨[], .nil, .nil⟩
  | @cons v k vs ks hk _ ih =>
      obtain ⟨x, hx, hkind⟩ := h.values v (hdone v List.mem_cons_self) k hk
      obtain ⟨xs, hxs, hkinds⟩ := ih fun v' hv' => hdone v' (List.mem_cons_of_mem v hv')
      exact ⟨x :: xs, .cons hx hxs, .cons hkind hkinds⟩

/-- The next node has a value of its kind, or it traps. -/
theorem Settled.next (h : Settled g memory done e) (hg : g.StraightProgram) (hm : Addressable memory)
    (hmembers : g.members 0 = done ++ id :: rest) (hn : g.node? id = some n)
    (hplain : n.op.isTerminator = false) :
    (∃ e', meaning.execNode e id n = .ok e' ∧ Settled g memory (done ++ [id]) e') ∨
      ∃ t memory', meaning.execNode e id n = .error (.trapped t memory') := by
  obtain ⟨⟨ks, hks, haccepts⟩, hliteral⟩ := hg.typed id n hn
  obtain ⟨xs, hxs, hkinds⟩ := h.operands hg hmembers hn hks
  have hm' : Addressable e.memory := by
    rw [Addressable, h.size]
    exact hm
  have hproceeds := compute_proceeds (hg.integer id n hn) hplain haccepts hliteral hkinds hm'
  rw [Meaning.execNode_of_operands hxs]
  change (∃ e', (compute n xs e.memory).map _ = .ok e' ∧ _) ∨ ∃ t memory', (compute n xs e.memory).map _ = _
  generalize hcompute : compute n xs e.memory = r at hproceeds
  cases hproceeds with
  | trapped => exact .inr ⟨_, _, rfl⟩
  | @ok v memory' hkind =>
      refine .inl ⟨_, rfl, fun y hy k hk => ?_, (size_of_compute hcompute).trans h.size⟩
      by_cases hne : y = id
      · subst hne
        rw [kindOf?, hn, Option.bind_some, ← hkind, Option.map_eq_some_iff] at hk
        obtain ⟨x, rfl, hxk⟩ := hk
        exact ⟨x, Env.set_values_self .., hxk⟩
      · have hdone : y ∈ done := by simpa [hne] using hy
        obtain ⟨x, hx, hxk⟩ := h.values y hdone k hk
        exact ⟨x, (Env.set_values_of_ne e hne ..).trans hx, hxk⟩

/-- The first computations of the block have values of their kinds, or they come to a trap. -/
theorem execBody_settled (hg : g.StraightProgram) (hm : Addressable memory)
    (hmembers : g.members 0 = done ++ rest)
    (hbody : ∀ i ∈ done, ∃ n, g.node? i = some n ∧ n.op.isTerminator = false) :
    (meaning.execBody g.node? done (.start memory) = .ok (attempted g memory done) ∧
      Settled g memory done (attempted g memory done)) ∨
      ∃ t memory', meaning.execBody g.node? done (.start memory) = .error (.trapped t memory') := by
  induction done using List.reverseRecOn generalizing rest with
  | nil => exact .inl ⟨rfl, fun v hv => absurd hv List.not_mem_nil, rfl⟩
  | append_singleton done id ih =>
      obtain ⟨n, hn, hplain⟩ := hbody id (by simp)
      have hmembers' : g.members 0 = done ++ id :: rest := by simpa using hmembers
      rw [Meaning.execBody_append]
      rcases ih hmembers' fun i hi => hbody i (List.mem_append_left _ hi) with
        ⟨hexec, hsettled⟩ | ⟨t, memory', hexec⟩
      · rw [hexec]
        change (meaning.execBody g.node? [id] _ = _ ∧ _) ∨ ∃ t memory', meaning.execBody g.node? [id] _ = _
        rw [Meaning.execBody_singleton hn]
        rcases hsettled.next hg hm hmembers' hn hplain with ⟨e, he, hnext⟩ | htrapped
        · have hattempted : attempted g memory (done ++ [id]) = e := by
            rw [attempted, List.foldl_append]
            exact attempt_of_ok hn he
          rw [hattempted]
          exact .inl ⟨he, hnext⟩
        · exact .inr htrapped
      · exact .inr ⟨t, memory', by rw [hexec]; rfl⟩

theorem computations (hg : g.StraightProgram) (hmembers : g.members 0 = done ++ id :: rest) :
    ∀ i ∈ done, ∃ n, g.node? i = some n ∧ n.op.isTerminator = false := by
  intro i hi
  have hblock : g.blockOf? i = some 0 := mem_members.mp (by simp [hmembers, hi])
  obtain ⟨n, hn⟩ := blockOf?_eq_some.mp hblock
  obtain ⟨front, back, rfl⟩ := List.append_of_mem hi
  rw [List.append_assoc, List.cons_append] at hmembers
  refine ⟨n, node?_eq_some.mpr ⟨0, hn⟩, Bool.eq_false_iff.mpr fun hterm => ?_⟩
  exact absurd (rest_eq_nil hg.flawless hmembers hn hterm) (by simp)

/-- Unless the block traps, each of its computations can be done when it is its turn. -/
theorem execNode_of_not_trapped (hg : g.StraightProgram) (hm : Addressable memory)
    (h : ¬∃ t memory', (meaning.run g 1 memory).2 = .halted (.trapped t memory'))
    (hmembers : g.members 0 = done ++ id :: rest) (hn : g.node? id = some n)
    (hplain : n.op.isTerminator = false) :
    Settled g memory done (attempted g memory done) ∧
      ∃ e, meaning.execNode (attempted g memory done) id n = .ok e := by
  have hdone := hg.computations hmembers
  have hbody : ∀ i ∈ done ++ [id], ∃ n, g.node? i = some n ∧ n.op.isTerminator = false := by
    intro i hi
    rcases List.mem_append.mp hi with hi | hi
    · exact hdone i hi
    · exact ⟨n, List.mem_singleton.mp hi ▸ hn, hplain⟩
  have hsplit : g.members 0 = (done ++ [id]) ++ rest := by rw [hmembers, List.append_cons]
  rcases hg.execBody_settled hm hsplit hbody with ⟨hexec, -⟩ | ⟨t, memory', hexec⟩
  · rw [Meaning.execBody_append] at hexec
    obtain ⟨e, hfront, hlast⟩ := bind_eq_ok.mp hexec
    rw [Meaning.execBody_singleton hn] at hlast
    rcases hg.execBody_settled hm hmembers hdone with ⟨hexec, hsettled⟩ | ⟨t, memory', hexec⟩
    · obtain rfl := Except.ok.inj (hfront.symm.trans hexec)
      exact ⟨hsettled, _, hlast⟩
    · exact absurd (hfront.symm.trans hexec) (by simp)
  · have hnodes := Meaning.execNodes_error hbody hexec rest
    rw [← hsplit] at hnodes
    exact absurd ⟨t, memory', congrArg Prod.snd (Meaning.runFrom_error hnodes)⟩ h

/-- Unless the block traps, each of its nodes but the accesses has a value. -/
theorem value_of_not_trapped (hg : g.StraightProgram) (hm : Addressable memory)
    (h : ¬∃ t memory', (meaning.run g 1 memory).2 = .halted (.trapped t memory'))
    (hn : g.node? id = some n) (hplain : n.op.isTerminator = false) (hload : ∀ op, n.op ≠ .load op)
    (hstore : ∀ op, n.op ≠ .store op) {xs : List Value}
    (hxs : (attempted g memory (g.members 0)).operands n = .ok xs) :
    ∃ x, value n xs memory = .ok x := by
  obtain ⟨done, rest, hmembers⟩ := List.append_of_mem (mem_members.mpr (hg.blockOf?_of_node? hn))
  obtain ⟨-, e, he⟩ := hg.execNode_of_not_trapped hm h hmembers hn hplain
  obtain ⟨ys, v, memory', hys, hcompute, -⟩ := Meaning.execNode_eq_ok.mp he
  rw [← hg.operands_attempted hmembers hn] at hys
  obtain rfl := Except.ok.inj (hxs.symm.trans hys)
  change compute n xs _ = _ at hcompute
  rw [Lowering.values_compute_of_plain hload hstore] at hcompute
  obtain ⟨x, hx, -⟩ := map_eq_ok.mp hcompute
  exact ⟨x, value_of_memory hx⟩

end Graph.StraightProgram

/-! ### Where the source does not trap -/

theorem Follows.exists_word {k : Kind} {x : Value} {r : Except Halt Word} (h : Follows k (.ok x) r) :
    ∃ w, r = .ok w := by
  generalize hs : (.ok x : Except Halt Value) = s at h
  cases h with
  | ok => exact ⟨_, rfl⟩
  | trapped => exact absurd hs (by simp)

theorem Operator.accessBytes?_le {op : Operator} {bytes : Nat} (h : op.accessBytes? = some bytes) :
    bytes ≤ 8 := by
  cases op with
  | load op | store op =>
      obtain rfl := Option.some.inj h
      exact op.access.bytes_bounds.2
  | _ => exact absurd h (by simp [accessBytes?])

/-- An integer operator that is copied and is no terminator has a value. -/
theorem Operator.exists_kind_of_copied {op op' : Operator} (h : op.copied? = some op')
    (hint : op.isInteger = true) (hplain : op.isTerminator = false) : ∃ k, op.kind? = some k := by
  cases op with
  | store | branch => exact absurd h (by simp [copied?])
  | ret | typedRet | jump => exact absurd hplain.symm Bool.false_ne_true
  | target => exact absurd hint Bool.false_ne_true
  | _ => exact ⟨_, rfl⟩

namespace Ran

open Lowering Values Schedule

variable {g : Graph} {config : Config} {l l₁ : Lowering} {memory : Array Byte} {ran : List Nat}
  {f : Env Word} {b i y : Nat} {n m : Node} {ws : List Word}

section

variable (h : Ran g config l memory ran f)
  (hsource : ¬∃ t memory', (meaning.run g 1 memory).2 = .halted (.trapped t memory'))
  (hkeeps : Keeps l₁ l) (hn : g.node? y = some n) (hws : f.operands m = .ok ws)
include h hsource hkeeps hn hws

/-- A check of bounds is passed if the access that it is made for can be done. -/
theorem check_computes {a s' a' size bytes : Nat} (hop : n.op.accessBytes? = some bytes)
    (ha : n.inputs[1]? = some a) (ha' : l₁.lowered.get? a = some a')
    (hsize : l₁.nodes[size]? = some ⟨b, Select.sizeNode s'⟩)
    (hm : m = Select.checkNode ⟨b, s', a', bytes⟩ size) :
    ∃ r, Words.compute .linear m ws f.memory = .ok r := by
  subst hm
  have hg := h.program
  have haccess := Operator.isAccess_of_accessBytes? hop
  have hplain := Operator.isTerminator_of_isAccess haccess
  have hbytes : bytes < 2 ^ 64 := Nat.lt_of_le_of_lt (Operator.accessBytes?_le hop) (by decide)
  -- the access has been done, so its address lies in linear memory
  obtain ⟨done, rest, hmembers⟩ :=
    List.append_of_mem (Graph.mem_members.mpr (hg.blockOf?_of_node? hn))
  obtain ⟨hsettled, e, he⟩ := hg.execNode_of_not_trapped h.addressable hsource hmembers hn hplain
  obtain ⟨xs, v, memory', hxs, hcompute, -⟩ := Meaning.execNode_eq_ok.mp he
  obtain ⟨p, hp, hle⟩ := address_of_compute hop hcompute
  rw [hsettled.size] at hle
  rw [← hg.operands_attempted hmembers hn] at hxs
  obtain ⟨x, hx, hvalue⟩ := getElem?_of_forall₂ (Env.operands_eq_ok.mp hxs) ha
  obtain rfl := Option.some.inj (hp.symm.trans hx)
  -- and the check is made on the word of that address
  obtain ⟨q, hq, hcheck⟩ := h.check hkeeps hsize hbytes (Env.operands_eq_ok.mp hws) f.memory
  obtain ⟨⟨ks, hks, -⟩, -⟩ := hg.typed y n hn
  obtain ⟨k, -, hk⟩ := getElem?_of_forall₂ hks ha
  have hdrops := g.not_drops_of_input config hn (List.mem_of_getElem? ha) hplain
  obtain ⟨x, hx, -, hrep⟩ := h.mirrors.image a k a' q hk hdrops (hkeeps.lowered ha') hq
  obtain rfl := Option.some.inj (hx.symm.trans hvalue)
  obtain rfl : q = p := hrep
  rw [if_pos hle] at hcheck
  rw [words_compute_of_plain rfl rfl, hcheck]
  exact ⟨_, rfl⟩

theorem aid_computes (haid : Aid g config l₁ b n m) :
    ∃ r, Words.compute .linear m ws f.memory = .ok r := by
  cases haid with
  | magnitude hop =>
      have hint := h.program.integer y n hn
      rw [hop] at hint
      exact absurd hint Bool.false_ne_true
  | extension | space | size =>
      rcases Env.operands_eq_ok.mp hws with _ | ⟨-, _ | -⟩
      exact ⟨_, rfl⟩
  | check hop _ ha _ ha' hsize => exact h.check_computes hsource hkeeps hn hws hop ha ha' hsize rfl

theorem form_computes (hform : Form g config l₁ b y n m) (hplain : m.op.isTerminator = false) :
    ∃ r, Words.compute .linear m ws f.memory = .ok r := by
  have hint := h.program.integer y n hn
  have himage := h.mirrors.image
  have hterm : n.op.isTerminator = false := hform.isTerminator.symm.trans hplain
  cases hform with
  | @copied _ control inputs hcopied _ _ hlowered =>
      obtain ⟨k, hkind⟩ := Operator.exists_kind_of_copied hcopied hint hterm
      obtain ⟨hdirect, rfl⟩ := Operator.selected_of_copied hcopied hint hkind
      obtain ⟨hload, hstore, htload, htstore, -⟩ := direct_not_access hdirect
      obtain ⟨⟨ks, hks, haccepts⟩, hliteral⟩ := h.program.typed y n hn
      obtain ⟨xs, hxs, hoperands⟩ := himage.operands hks
        (fun v hv => g.not_drops_of_input config hn hv hterm)
        (hlowered.imp fun _ _ hv => hkeeps.lowered hv) (Env.operands_eq_ok.mp hws)
      obtain ⟨x, hx⟩ := h.program.value_of_not_trapped h.addressable hsource hn hterm
        hload hstore (Env.operands_eq_ok.mpr hxs)
      have hfollows : Follows k (value n xs f.memory)
          (Words.value .linear ⟨n.op.selected, control, n.literals, inputs⟩ ws f.memory) :=
        value_follows hdirect hkind haccepts hliteral hoperands
      rw [value_of_memory hx] at hfollows
      obtain ⟨w, hw⟩ := hfollows.exists_word
      rw [words_compute_of_plain htload htstore, hw]
      exact ⟨_, rfl⟩
  | compared hop hcompared =>
      cases hcompared
      rcases Env.operands_eq_ok.mp hws with _ | ⟨-, _ | ⟨-, _ | -⟩⟩
      exact ⟨_, rfl⟩
  | signed hop =>
      rw [hop] at hint
      exact absurd hint Bool.false_ne_true
  | loaded hop hcontrol hs ha hs' ha' hguards =>
      obtain ⟨xs, x, w, -, -, hword, -⟩ := h.loaded himage hn hop hkeeps
        (.loaded hop hcontrol hs ha hs' ha' hguards) hws
      exact ⟨_, hword⟩
  | stored hop hcontrol hs ha hv hs' ha' hv' hguards =>
      obtain ⟨xs, memory', -, -, hword⟩ := h.stored himage hn hop hkeeps
        (.stored hop hcontrol hs ha hv hs' ha' hv' hguards) hws
      exact ⟨_, hword⟩
  | fused hop | branched hop | branched32 hop =>
      rw [hop] at hterm
      exact absurd hterm.symm Bool.false_ne_true

end

/-- Where the selected block comes to a stop, the block of the source traps. -/
theorem source_traps (h : Ran g config l memory ran f) (hstops : l.Stops memory ran i f) :
    ∃ t memory', (meaning.run g 1 memory).2 = .halted (.trapped t memory') := by
  by_contra hsource
  obtain ⟨m, ws, hm, hplain, hws, hblocked⟩ := hstops.blocked
  have hmem : i ∈ blockOrder l.nodes 0 := hstops.order.subset (by simp)
  obtain ⟨q, hq⟩ := Schedule.blockOf?_eq_some.mp ((mem_blockOrder h.steps.grounded).mp hmem)
  obtain rfl := Option.some.inj ((node?_of_placed hq).symm.trans hm)
  have hcomputes : ∃ r, Words.compute .linear q ws f.memory = .ok r := by
    obtain ⟨l₁, y, n, -, hkeeps, -, hn, haid | ⟨hform, -⟩⟩ := h.steps.origin hq
    · exact h.aid_computes hsource hkeeps (Graph.node?_eq_some.mpr ⟨_, hn⟩) hws haid
    · exact h.form_computes hsource hkeeps (Graph.node?_eq_some.mpr ⟨_, hn⟩) hws hform hplain
  obtain ⟨r, hr⟩ := hcomputes
  exact hblocked r hr

end Ran

end Isel
