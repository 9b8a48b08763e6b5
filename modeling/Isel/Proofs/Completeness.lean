import Isel.Proofs.LoweringSteps
import Isel.Proofs.Registered
import Isel.Proofs.SelectionRun

/-! Which graphs can be selected. Lowering makes only nodes whose operators the target has, and it
comes to an end unless a node is a conversion or lacks an input that is taken from it. -/

namespace Isel

/-- What a node is copied with is an operator of the target. -/
theorem Operator.family?_of_copied? {op op' : Operator} (h : op.copied? = some op') :
    op'.family?.isSome = true := by
  cases op with
  | intBinary w op =>
      rcases w with _ | _ <;> rcases op with op | (_ | _ | _) | op
      all_goals
        obtain rfl := Option.some.inj h
        rfl
  | compare w c | address w =>
      cases w with
      | w32 => cases h <;> rfl
      | w64 => cases h <;> rfl
  | floatBinary w op =>
      cases op with
      | arith op =>
          cases h
          rfl
      | copysign => cases h
  | const ty | bool ty =>
      obtain rfl := Option.some.inj h
      cases ty <;> rfl
  | typedRet ty =>
      obtain rfl := Option.some.inj h
      rcases ty with _ | _ <;> rfl
  | target op =>
      obtain rfl := Option.some.inj h
      rcases op with _ | (_ | _) | _ | _ | _ | _ | _ | _ | _ | _ <;> rfl
  | _ => cases h <;> rfl

namespace Lowering

open Select

variable {g : Graph} {config : Config} {l : Lowering} {b id : Nat} {n m : Node}

theorem Aid.family? (h : Aid g config l b n m) : m.op.family?.isSome = true := by
  cases h <;> rfl

theorem Form.family? (h : Form g config l b id n m) : m.op.family?.isSome = true := by
  cases h with
  | copied hop => exact Operator.family?_of_copied? hop
  | signed hop => simp [hop, Operator.family?]
  | _ => rfl

/-- The target has the operator of every new node. -/
theorem Steps.family? (h : Steps g config {} l) {i : Nat} {p : Placed} (hi : l.nodes[i]? = some p) :
    p.node.op.family?.isSome = true := by
  obtain ⟨l₁, id, n, -, -, -, -, haid | ⟨hform, -⟩⟩ := h.origin hi
  · exact haid.family?
  · exact hform.family?

/-! ### Completeness -/

theorem lt_length_of_input {index v : Nat} (h : n.inputs[index]? = some v) : index < n.inputs.length :=
  (List.getElem?_eq_some_iff.mp h).1

theorem Compared.two_le {p : Node} {w : IntWidth} {c : Comparison} {inputs : List Nat}
    (h : Compared l b p w c inputs) : 2 ≤ p.inputs.length := by
  cases h with
  | same _ hy => exact lt_length_of_input hy
  | widened _ hy => exact lt_length_of_input hy

/-- A node has what lowering takes from it, and so has the comparison that it takes over. -/
structure Supplies (g : Graph) (config : Config) (id : Nat) (n : Node) : Prop where
  supported : n.op.isConversion = false
  inputs : g.required config id n ≤ n.inputs.length
  absorbed : ∀ c p, n.op = .branch → n.inputs[0]? = some c → absorbs g config c = true →
    g.node? c = some p → 2 ≤ p.inputs.length

theorem Supplies.of_required {k : Nat} (hsupported : n.op.isConversion = false)
    (hbranch : n.op ≠ .branch) (hk : g.required config id n = k) (hle : k ≤ n.inputs.length) :
    Supplies g config id n :=
  ⟨hsupported, hk ▸ hle, fun _ _ hop => absurd hop hbranch⟩

theorem Elided.supplies {x : Nat} (h : Elided g config id n) (hx : n.inputs[0]? = some x) :
    Supplies g config id n := by
  have hrequired := h.required_eq
  have hlt := lt_length_of_input hx
  rcases h with hop | hop | ⟨hop, -⟩ <;>
    exact .of_required (by rw [hop]; rfl) (by simp [hop]) hrequired hlt

/-- A branch is supplied with a predicate, and with the operands of one that it takes over. -/
theorem supplies_branch {c : Nat} (hop : n.op = .branch) (hhead : n.inputs.head? = some c)
    (habsorbed : absorbs g config c = true → ∀ p, g.node? c = some p → 2 ≤ p.inputs.length) :
    Supplies g config id n := by
  rw [List.head?_eq_getElem?] at hhead
  refine ⟨by rw [hop]; rfl, ?_, fun c' p _ hc' habs hp => ?_⟩
  · have hrequired : g.required config id n = 1 := by simp [Graph.required, hop]
    rw [hrequired]
    exact lt_length_of_input hhead
  · obtain rfl := Option.some.inj (hhead.symm.trans hc')
    exact habsorbed habs p hp

theorem Form.supplies (h : Form g config l b id n m) (hfree : absorbs g config id = false)
    (hlowered : ∀ y y', l.lowered.get? y = some y' → absorbs g config y = false) :
    Supplies g config id n := by
  cases h with
  | copied hop hkept _ _ =>
      refine .of_required ?_ ?_ (required_of_copied? hop hkept hfree) (Nat.zero_le _)
      · cases hn : n.op with
        | convert c =>
            rw [hn] at hop
            exact absurd hop (by simp [Operator.copied?])
        | _ => rfl
      · intro hbranch
        rw [hbranch] at hop
        exact absurd hop (by simp [Operator.copied?])
  | compared hop hoperands =>
      exact .of_required (by rw [hop]; rfl) (by simp [hop]) (by simp [Graph.required, hop])
        hoperands.two_le
  | signed hop _ hy =>
      exact .of_required (by rw [hop]; rfl) (by simp [hop]) (by simp [Graph.required, hop])
        (lt_length_of_input hy)
  | loaded hop _ _ ha =>
      exact .of_required (by rw [hop]; rfl) (by simp [hop]) (by simp [Graph.required, hop])
        (lt_length_of_input ha)
  | stored hop _ _ _ hv =>
      exact .of_required (by rw [hop]; rfl) (by simp [hop]) (by simp [Graph.required, hop])
        (lt_length_of_input hv)
  | fused hop _ hhead _ hp _ hoperands =>
      refine supplies_branch hop hhead fun _ p hp' => ?_
      obtain rfl := Option.some.inj (hp.symm.trans hp')
      exact hoperands.two_le
  | branched hop _ hhead hv =>
      refine supplies_branch hop hhead fun habs => ?_
      exact absurd ((hlowered _ _ hv).symm.trans habs) (by simp)
  | branched32 hop _ hhead hv =>
      refine supplies_branch hop hhead fun habs => ?_
      exact absurd ((hlowered _ _ hv).symm.trans habs) (by simp)

/-- What was lowered had all that it needs. -/
theorem Steps.supplies (h : Steps g config {} l) {y y' : Nat} (hy : l.lowered.get? y = some y')
    (hn : g.node? y = some n) : Supplies g config y n := by
  cases h.successor hy with
  | stands hn' _ helided hx =>
      obtain rfl := Option.some.inj ((Graph.node?_eq_some.mpr ⟨_, hn'⟩).symm.trans hn)
      exact helided.supplies hx
  | records hn' hfree hsteps _ hform =>
      obtain rfl := Option.some.inj ((Graph.node?_eq_some.mpr ⟨_, hn'⟩).symm.trans hn)
      refine hform.supplies hfree fun z z' hz => ?_
      cases hsteps.successor hz with
      | stands _ hfree => exact hfree
      | records _ hfree => exact hfree

end Lowering

theorem Graph.input_of_mem_usesOf {g : Graph} {id user k : Nat}
    (h : ⟨user, .input k⟩ ∈ g.usesOf id) : ∃ n, g.node? user = some n ∧ n.inputs[k]? = some id := by
  obtain ⟨⟨i, n⟩, hentry, huses⟩ := List.mem_flatMap.mp h
  obtain ⟨slot, hslot, huse⟩ := List.mem_map.mp huses
  obtain ⟨rfl, rfl⟩ := Use.mk.inj huse
  obtain ⟨j, -, hj⟩ := List.mem_filterMap.mp hentry
  obtain ⟨n', hn', heq⟩ := Option.map_eq_some_iff.mp hj
  obtain ⟨rfl, rfl⟩ := Prod.mk.inj heq
  refine ⟨n', hn', ?_⟩
  rcases List.mem_append.mp hslot with hinput | hcontrol
  · obtain ⟨⟨v, k'⟩, hfilter, heq⟩ := List.mem_map.mp hinput
    obtain ⟨hmem, hv⟩ := List.mem_filter.mp hfilter
    obtain rfl : k' = k := by simpa using heq
    obtain rfl : v = id := by simpa using hv
    exact List.mem_zipIdx_iff_getElem?.mp hmem
  · obtain ⟨_, -, heq⟩ := List.mem_map.mp hcontrol
    exact absurd heq (by simp)

namespace Lowering

open Select

variable {g : Graph} {config : Config} {l : Lowering}

/-- Where all nodes are lowered, the graph is complete. A comparison that is not lowered by itself was
taken over by the branch on it. -/
theorem Steps.complete (h : Steps g config {} l)
    (hall : ∀ id < g.nodes.size, absorbs g config id = false → ∃ new, l.lowered.get? id = some new) :
    g.Complete config := by
  have hlowered {id : Nat} {n : Node} (hn : g.node? id = some n)
      (hfree : absorbs g config id = false) : Supplies g config id n := by
    obtain ⟨b, hb⟩ := Graph.node?_eq_some.mp hn
    obtain ⟨new, hnew⟩ := hall id (Array.getElem?_eq_some_iff.mp hb).1 hfree
    exact h.supplies hnew hn
  intro id n hn
  cases hfree : absorbs g config id with
  | false => exact ⟨(hlowered hn hfree).supported, (hlowered hn hfree).inputs⟩
  | true =>
      obtain ⟨w, c, user, hop, huse, huser⟩ :=
        Graph.isFusable_eq_true.mp (isFusable_of_absorbs hfree)
      rw [Graph.op?, hn] at hop
      replace hop : n.op = .compare w c := Option.some.inj hop
      obtain ⟨m, hm, hinput⟩ := Graph.input_of_mem_usesOf (Graph.mem_usesOf_of_singleUse? huse)
      rw [Graph.op?, hm] at huser
      replace huser : m.op = .branch := Option.some.inj huser
      have huserFree : absorbs g config user = false := by
        by_contra hne
        obtain ⟨w', c', hop'⟩ := Graph.op_of_isFusable
          (isFusable_of_absorbs (Bool.not_eq_false _ ▸ hne))
        rw [Graph.op?, hm, Option.map_some, huser] at hop'
        exact absurd hop' (by simp)
      have htwo := (hlowered hm huserFree).absorbed id n huser hinput hfree hn
      refine ⟨by rw [hop]; rfl, ?_⟩
      have hrequired : g.required config id n = 2 := by
        cases w <;> simp [Graph.required, hop, hfree]
      rwa [hrequired]

end Lowering

/-! ### Selection -/

section

variable {g : Graph} {config : Config} {l : Lowering}

theorem op_of_schedule {blocks : Array Block} {nodes : Array Placed} {q : Placed}
    (h : q ∈ (schedule blocks nodes).nodes) :
    ∃ (i : Nat) (p : Placed), nodes[i]? = some p ∧ q.node.op = p.node.op := by
  obtain ⟨hmem, -⟩ := Array.mem_filter.mp h
  obtain ⟨i, -, hi⟩ := List.mem_filterMap.mp (List.mem_toArray.mp hmem)
  obtain ⟨p, hp, rfl⟩ := Option.map_eq_some_iff.mp hi
  exact ⟨i, p, hp, rfl⟩

theorem mem_nodes_of_mem_entries {id : Nat} {n : Node} (h : (id, n) ∈ g.entries) :
    ∃ q ∈ g.nodes, q.node = n := by
  obtain ⟨j, -, hj⟩ := List.mem_filterMap.mp h
  obtain ⟨m, hm, heq⟩ := Option.map_eq_some_iff.mp hj
  obtain ⟨rfl, rfl⟩ := Prod.mk.inj heq
  obtain ⟨q, hq, rfl⟩ := Option.map_eq_some_iff.mp hm
  exact ⟨q, Array.mem_of_getElem? hq, rfl⟩

theorem Operator.require_of_family? {op : Operator} (h : op.family?.isSome = true) :
    ∃ d, op.require = .ok d := by
  obtain ⟨f, hf⟩ := Option.isSome_iff_exists.mp h
  exact ⟨⟨op, f, op.features⟩, by simp [require, descriptor?, hf]⟩

theorem forM_require (es : List (Nat × Node))
    (h : ∀ e ∈ es, e.2.op.family?.isSome = true) :
    (es.forM fun e => do let _ ← orError e.2.op.require : Except Failure Unit) = .ok () := by
  induction es with
  | nil => rfl
  | cons e es ih =>
      obtain ⟨he, hes⟩ := List.forall_mem_cons.mp h
      obtain ⟨d, hd⟩ := Operator.require_of_family? he
      change ((orError e.2.op.require >>= fun _ => pure ()) >>= fun _ => es.forM _) = _
      rw [hd]
      exact ih hes

/-- A graph that was lowered is selected: the table has an opcode for every new node. -/
theorem select_of_lowerAll (hclosed : g.isClosed = true)
    (hlower : Select.lowerAll g config {} = .ok ((), l)) (hsteps : Lowering.Steps g config {} l) :
    select g config = .ok (schedule g.blocks l.nodes, l.stats) := by
  have hrequire := forM_require (schedule g.blocks l.nodes).entries fun ⟨id, n⟩ he => by
    obtain ⟨q, hq, rfl⟩ := mem_nodes_of_mem_entries he
    obtain ⟨i, p, hp, hop⟩ := op_of_schedule hq
    rw [hop]
    exact hsteps.family? hp
  unfold select
  rw [hclosed]
  change (Select.lowerAll g config {} >>= fun r : Unit × Lowering =>
    (schedule g.blocks r.2.nodes).entries.forM (fun e => do let _ ← orError e.2.op.require) >>=
      fun _ => pure (schedule g.blocks r.2.nodes, r.2.stats)) = _
  rw [hlower]
  change ((schedule g.blocks l.nodes).entries.forM _ >>= _) = (_ : Except Failure _)
  rw [hrequire]
  rfl

/-- Selection of a graph without cycles succeeds on complete graphs and on no others. On those it
refuses, the target has nothing for a node, or a node is malformed; an opcode is never missing, for the
table has one for every node that selection makes. -/
theorem select_ok_iff_complete (hclosed : g.isClosed = true) (hacyclic : g.Acyclic) :
    ((∃ r, select g config = .ok r) ↔ g.Complete config) ∧
    (¬g.Complete config → (∃ name id, select g config = .error (.error (.unsupported name id))) ∨
      ∃ message, select g config = .error (.error (.malformed message))) ∧
    (∀ name, select g config ≠ .error (.error (.missingOpcode name))) ∧
    ∀ g' stats, select g config = .ok (g', stats) →
      ∀ q ∈ g'.nodes, Registry.x64.contains q.node.op = true := by
  have hmeets := Lowering.lowerAll_meets config hclosed hacyclic
  unfold Select.Meets at hmeets
  cases hlower : Select.lowerAll g config {} with
  | ok r =>
      obtain ⟨_, l⟩ := r
      rw [hlower] at hmeets
      obtain ⟨hsteps, hall⟩ := hmeets
      have hselect := select_of_lowerAll hclosed hlower hsteps
      have hcomplete := hsteps.complete hall
      refine ⟨⟨fun _ => hcomplete, fun _ => ⟨_, hselect⟩⟩, fun h => absurd hcomplete h, ?_, ?_⟩
      · simp [hselect]
      · intro g' stats heq q hq
        rw [hselect, Except.ok.injEq, Prod.mk.injEq] at heq
        obtain ⟨rfl, -⟩ := heq
        obtain ⟨i, p, hp, hop⟩ := op_of_schedule hq
        rw [Registry.contains, Registry.x64_get?, Operator.descriptor?, Option.isSome_map, hop]
        exact hsteps.family? hp
  | error e =>
      rw [hlower] at hmeets
      obtain ⟨hincomplete, hrefuses⟩ := hmeets
      have hselect : select g config = .error e := by
        unfold select
        rw [hclosed]
        change (Select.lowerAll g config {} >>= _) = _
        rw [hlower]
        rfl
      refine ⟨⟨fun ⟨r, hr⟩ => ?_, fun h => absurd h hincomplete⟩, fun _ => ?_, fun name h => ?_, ?_⟩
      · exact absurd (hselect.symm.trans hr) (by simp)
      · rcases hrefuses with ⟨name, id, rfl⟩ | ⟨message, rfl⟩
        · exact .inl ⟨name, id, hselect⟩
        · exact .inr ⟨message, hselect⟩
      · rw [hselect] at h
        rcases hrefuses with ⟨_, _, rfl⟩ | ⟨_, rfl⟩ <;> exact absurd h (by simp)
      · intro g' stats h
        exact absurd (hselect.symm.trans h) (by simp)

end

/-- Compares with a node that stands behind the branch, and stores or drops a truth value. -/
def sketch (stored : List Nat) : Graph :=
  .ofParts #[⟨"entry", [1, 2]⟩, ⟨"left", []⟩, ⟨"right", []⟩]
    #[⟨0, .state, [], [], []⟩, ⟨0, .const .i32, [], [.int 5], []⟩,
      ⟨0, .compare .w32 .ltS, [], [], [1, 4]⟩, ⟨0, .branch, [], [], [2]⟩,
      ⟨0, .const .i32, [], [.int 7], []⟩, ⟨1, .const .i64, [], [.int 1], []⟩,
      ⟨1, .bool .i64, [], [], [5]⟩, ⟨1, .typedRet .i64, [], [], [6]⟩,
      ⟨2, .store (.full .i64), [], [], stored⟩, ⟨2, .ret, [], [], []⟩]

/-- With a value to store the graph is selected; without one it is malformed. -/
theorem select_ok_iff_complete_sketch :
    (∃ r, select (sketch [0, 5, 5]) {} = .ok r) ∧ ¬(sketch [0, 5]).Complete {} ∧
      ((∃ name id, select (sketch [0, 5]) {} = .error (.error (.unsupported name id))) ∨
        ∃ message, select (sketch [0, 5]) {} = .error (.error (.malformed message))) := by
  let rank (id : Nat) : Nat := if id = 4 then 0 else id + 1
  have hincomplete : ¬(sketch [0, 5]).Complete {} := by decide
  refine ⟨?_, hincomplete, ?_⟩
  · have hacyclic : (sketch [0, 5, 5]).Acyclic := Graph.acyclic_of_rank rank (by decide)
    exact (select_ok_iff_complete (by decide +kernel) hacyclic).1.mpr (by decide)
  · have hacyclic : (sketch [0, 5]).Acyclic := Graph.acyclic_of_rank rank (by decide)
    exact (select_ok_iff_complete (by decide +kernel) hacyclic).2.1 hincomplete

end Isel
