import Isel.Proofs.Linearization

/-! What the absence of flaws says of a graph, and why lowering such a graph comes to an end. Lowering
calls itself for the nodes that a node refers to, and nothing in it stops a chain of references that
comes back to its start. References within a block go to earlier nodes; if those to other blocks go to
earlier blocks, then the block and the place in it bound the depth of the calls. -/

namespace Isel

namespace Graph

variable {g : Graph} {b id r : Nat}

/-- The rules for graphs. Places are those in the list of the nodes of a block. -/
structure WellFormed (g : Graph) : Prop where
  successors : ∀ b block, g.block? b = some block → ∀ c ∈ block.successors, c < g.blocks.size
  terminators : ∀ (id b : Nat) (n : Node), g.nodes[id]? = some ⟨b, n⟩ → n.op.isTerminator = true →
    (g.members b).getLast? = some id
  references : ∀ (id b : Nat) (n : Node), g.nodes[id]? = some ⟨b, n⟩ → ∀ r ∈ n.references,
    ∃ c, g.blockOf? r = some c ∧ (c = b → [r, id].Sublist (g.members b))
  controlBlocks : ∀ (id b : Nat) (n : Node), g.nodes[id]? = some ⟨b, n⟩ → ∀ c ∈ n.controlBlocks,
    c < g.blocks.size

/-- The nodes of a block stand in the order of their numbers. -/
theorem sublist_members_iff (hr : g.blockOf? r = some b) (hid : g.blockOf? id = some b) :
    [r, id].Sublist (g.members b) ↔ r < id := by
  constructor
  · exact List.pairwise_iff_forall_sublist.mp (g.members_sorted b)
  · intro hlt
    have hsubset : [r, id] ⊆ g.members b := by
      simp only [List.cons_subset, List.nil_subset, mem_members]
      exact ⟨hr, hid, trivial⟩
    have hpair : [r, id].Pairwise (· < ·) := List.pairwise_pair.mpr hlt
    refine List.sublist_of_subperm_of_pairwise ?_ hpair (g.members_sorted b)
    exact List.subperm_of_subset (hpair.imp fun h => Nat.ne_of_lt h) hsubset

/-- A graph has no flaw if and only if it keeps the rules. -/
theorem flaw?_eq_none_iff : g.flaw? = none ↔ g.WellFormed := by
  constructor
  · intro hg
    refine ⟨fun b block hblock c hc => Edge.lt ⟨block, hblock, hc⟩ hg,
      fun id b n hn => getLast?_of_isTerminator hg hn, fun id b n hn r hr => ?_,
      fun id b n hn c hc => controlBlock_lt hg hn hc⟩
    obtain ⟨c, hc, hlt⟩ := reference_lt hg hn hr
    refine ⟨c, hc, ?_⟩
    rintro rfl
    exact (sublist_members_iff hc (blockOf?_eq_some.mpr ⟨n, hn⟩)).mpr (hlt rfl)
  · intro h
    refine flaw?_eq_none h.successors h.terminators (fun id b n hn r hr => ?_) fun id n hn => ?_
    · obtain ⟨c, hc, hbefore⟩ := h.references id b n hn r hr
      refine ⟨c, hc, ?_⟩
      rintro rfl
      exact (sublist_members_iff hc (blockOf?_eq_some.mpr ⟨n, hn⟩)).mp (hbefore rfl)
    · obtain ⟨b, hb⟩ := node?_eq_some.mp hn
      exact h.controlBlocks id b n hb

/-- References to another block go to one with a smaller number. -/
def Descending (g : Graph) : Prop :=
  ∀ id < g.nodes.size, ∀ p ∈ g.nodes[id]?, ∀ r ∈ p.node.references, ∀ c ∈ g.blockOf? r,
    c ≠ p.block → c < p.block

instance (g : Graph) : Decidable g.Descending :=
  inferInstanceAs (Decidable (∀ _ < _, ∀ _ ∈ _, ∀ _ ∈ _, ∀ _ ∈ _, _ → _))

/-- The place of a node by its block and then by its number. -/
def depth (g : Graph) (id : Nat) : Nat := (g.blockOf? id).getD 0 * g.nodes.size + id

theorem acyclic_of_descending (hg : g.flaw? = none) (h : g.Descending) : g.Acyclic := by
  refine acyclic_of_rank g.depth fun id hid p hp r hr => ?_
  obtain ⟨c, hc, hlt⟩ := reference_lt hg hp hr
  have hb : g.blockOf? id = some p.block := blockOf?_eq_some.mpr ⟨p.node, hp⟩
  have hr' : r < g.nodes.size := id_lt_of_blockOf? hc
  rw [depth, depth, hc, hb, Option.getD_some, Option.getD_some]
  by_cases hsame : c = p.block
  · have := hlt hsame
    rw [hsame]
    omega
  · have hstep : c + 1 ≤ p.block := h id hid p hp r hr c hc hsame
    calc c * g.nodes.size + r < c * g.nodes.size + g.nodes.size := by omega
      _ = (c + 1) * g.nodes.size := (Nat.succ_mul ..).symm
      _ ≤ p.block * g.nodes.size := Nat.mul_le_mul_right _ hstep
      _ ≤ p.block * g.nodes.size + id := Nat.le_add_right ..

theorem isClosed_of_flaw? (hg : g.flaw? = none) : g.isClosed = true := by
  refine Array.all_eq_true'.mpr fun p hp => ?_
  obtain ⟨id, hid⟩ := Array.mem_iff_getElem?.mp hp
  refine List.all_eq_true.mpr fun r hr => decide_eq_true ?_
  obtain ⟨c, hc, -⟩ := reference_lt hg hid hr
  exact id_lt_of_blockOf? hc

end Graph

namespace Select

open Relation

section Calls

variable {recur recur' : Nat → Select Nat} {b id : Nat} {n : Node}

theorem mapM_congr {α β : Type} {f f' : α → Select β} {xs : List α} (h : ∀ x ∈ xs, f x = f' x) :
    xs.mapM f = xs.mapM f' := by
  induction xs with
  | nil => rfl
  | cons x xs ih =>
      rw [List.mapM_cons, List.mapM_cons, h x List.mem_cons_self,
        ih fun y hy => h y (List.mem_cons_of_mem x hy)]

variable (h : ∀ v ∈ n.references, recur v = recur' v)
include h

theorem input_congr (index : Nat) : input recur id n index = input recur' id n index := by
  unfold input
  split
  · next v hv => exact h v (List.mem_append_left _ (List.mem_of_getElem? hv))
  · rfl

theorem controls_congr : n.control.mapM (control recur) = n.control.mapM (control recur') := by
  refine mapM_congr fun c hc => ?_
  cases c with
  | block c => rfl
  | node v =>
      have hv : v ∈ n.controlNodes := List.mem_filterMap.mpr ⟨.node v, hc, rfl⟩
      rw [control, control, h v (List.mem_append_right _ hv)]

theorem copy_congr (op : Operator) : copy recur b n op = copy recur' b n op := by
  rw [copy, copy, controls_congr h, mapM_congr fun v hv => h v (List.mem_append_left _ hv)]

theorem retarget_congr (op : Target) : retarget recur b n op = retarget recur' b n op := by
  rw [retarget, retarget, copy_congr h]

theorem eliminate_congr : eliminate recur id n = eliminate recur' id n := by
  rw [eliminate, eliminate, input_congr h]

theorem compared_congr (w : IntWidth) (c : Comparison) :
    compared recur b id n w c = compared recur' b id n w c := by
  cases w <;> simp only [compared, widen, input_congr h]

theorem access_congr {config : Config} {op : Target} {bytes state address : Nat} {value : List Nat} :
    access recur config b n op bytes state address value
      = access recur' config b n op bytes state address value := by
  rw [access, access, controls_congr h]

end Calls

variable {g : Graph} {config : Config} {recur recur' : Nat → Select Nat} {b id : Nat} {n : Node}

/-- A branch that takes over a comparison lowers what the comparison refers to. -/
theorem branch_congr (hn : g.node? id = some n) (h : ∀ v, TransGen g.Refers id v → recur v = recur' v) :
    branch recur g config b id n = branch recur' g config b id n := by
  have hrefs : ∀ v ∈ n.references, recur v = recur' v := fun v hv => h v (.single ⟨n, hn, hv⟩)
  cases hhead : n.inputs.head? with
  | none => simp only [branch, hhead]
  | some predicate =>
      have hmem : predicate ∈ n.references :=
        List.mem_append_left _ (List.mem_of_head? hhead)
      cases hp : g.node? predicate with
      | none => rw [branch_dangling hhead hp, branch_dangling hhead hp, controls_congr hrefs]
      | some p =>
          cases hfused : config.fuseBranches && g.isFusable predicate with
          | false =>
              have hplain : plainBranch recur b predicate p = plainBranch recur' b predicate p := by
                funext control
                rw [plainBranch, plainBranch, hrefs predicate hmem]
              rw [branch_plain hhead hp hfused, branch_plain hhead hp hfused, controls_congr hrefs,
                hplain]
          | true =>
              obtain ⟨w, c, hop⟩ := Graph.op_of_isFusable (Bool.and_eq_true_iff.mp hfused).2
              rw [Graph.op?, hp, Option.map_some, Option.some.injEq] at hop
              have hprefs : ∀ v ∈ p.references, recur v = recur' v := fun v hv =>
                h v (.tail (.single ⟨n, hn, hmem⟩) ⟨p, hp, hv⟩)
              have htaken : fusedBranch recur b predicate p w c = fusedBranch recur' b predicate p w c := by
                funext control
                rw [fusedBranch, fusedBranch, compared_congr hprefs]
              rw [branch_fused hhead hp hop hfused, branch_fused hhead hp hop hfused,
                controls_congr hrefs, htaken]

/-- Lowering a node calls itself only for nodes that the node leads to. -/
theorem node_congr (hn : g.node? id = some n) (h : ∀ v, TransGen g.Refers id v → recur v = recur' v) :
    node recur g config b id n = node recur' g config b id n := by
  have hrefs : ∀ v ∈ n.references, recur v = recur' v := fun v hv => h v (.single ⟨n, hn, hv⟩)
  unfold node
  simp only [eliminate_congr hrefs, copy_congr hrefs, retarget_congr hrefs, compared_congr hrefs,
    branch_congr hn h, load, store, copysign, input_congr hrefs, access_congr hrefs]

/-- One level of lowering, with `recur` in place of the calls. -/
def level (g : Graph) (config : Config) (recur : Nat → Select Nat) (id : Nat) : Select Nat := do
  match (← get).lowered.get? id with
  | some new => return new
  | none =>
    let some p := g.nodes[id]? | throw .dangling
    let new ← node recur g config p.block id p.node
    modify fun l => { l with lowered := l.lowered.set id new }
    return new

theorem lower_succ (fuel : Nat) : lower g config (fuel + 1) = level g config (lower g config fuel) := rfl

theorem level_congr (h : ∀ v, TransGen g.Refers id v → recur v = recur' v) :
    level g config recur id = level g config recur' id := by
  unfold level
  cases hp : g.nodes[id]? with
  | none => rfl
  | some p =>
      dsimp only
      rw [node_congr (Graph.node?_eq_some.mpr ⟨p.block, hp⟩) h]

/-- In a graph without cycles lowering comes to an end. -/
theorem iterate_level (hclosed : g.isClosed = true) (hacyclic : g.Acyclic) {fuel : Nat}
    (hlt : id < g.nodes.size) (hfuel : Lowering.Fueled g id fuel) (rest : Nat → Select Nat) :
    (level g config)^[fuel] rest id = lower g config fuel id := by
  induction fuel generalizing id with
  | zero => exact absurd hacyclic (hfuel.not_zero hlt)
  | succ fuel ih =>
      rw [Function.iterate_succ_apply', lower_succ]
      refine level_congr fun v hv => ?_
      obtain ⟨y, -, m, hm, hmem⟩ := TransGen.tail'_iff.mp hv
      exact ih (Graph.lt_of_isClosed hclosed hm hmem) (hfuel.next hlt hv)

end Select

/-- A graph has no flaw exactly if it keeps the rules. If moreover its references to other blocks lead to
smaller blocks, then no chain of references comes back to its start and lowering each node ends: once the
calls are unfolded to as many levels as the graph has nodes none is left, so that it does not matter what
`rest` would answer to it. -/
theorem Graph.rules_exact_lowering_finite (g : Graph) :
    (g.flaw? = none ↔ g.WellFormed) ∧
      (g.flaw? = none → g.Descending → g.Acyclic ∧
        ∀ (config : Config) (id : Nat), id < g.nodes.size → ∀ rest : Nat → Select Nat,
          (Select.level g config)^[g.nodes.size] rest id = Select.lower g config g.nodes.size id) := by
  refine ⟨flaw?_eq_none_iff, fun hg hdescending => ?_⟩
  have hacyclic := acyclic_of_descending hg hdescending
  refine ⟨hacyclic, fun config id hlt rest => ?_⟩
  exact Select.iterate_level (isClosed_of_flaw? hg) hacyclic hlt (Lowering.fueled_size g id) rest

/-- The second block got its node first. -/
def Graph.upward : Graph :=
  .ofParts #[⟨"b0", [1, 1]⟩, ⟨"b1", []⟩]
    #[⟨1, .typedRet .i64, [.block 1, .node 2], [], [1]⟩, ⟨0, .const .i64, [], [.int 7], []⟩,
      ⟨0, .compare .w64 .eq, [], [], [1, 1]⟩, ⟨0, .branch, [.block 0, .node 1], [], [2]⟩]

theorem Graph.rules_exact_lowering_finite_upward :
    upward.flaw? = none ∧ upward.Descending ∧ upward.WellFormed ∧ upward.Acyclic ∧
      ∀ (config : Config) (id : Nat), id < 4 → ∀ rest : Nat → Select Nat,
        (Select.level upward config)^[4] rest id = Select.lower upward config 4 id := by
  have hflaw : upward.flaw? = none := by decide
  have hdescending : upward.Descending := by decide
  obtain ⟨hexact, hfinite⟩ := Graph.rules_exact_lowering_finite upward
  obtain ⟨hacyclic, hends⟩ := hfinite hflaw hdescending
  exact ⟨hflaw, hdescending, hexact.mp hflaw, hacyclic, hends⟩

end Isel
