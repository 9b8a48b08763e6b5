import Isel.Proofs.SelectedNodes

/-! Branches on comparisons. A branch takes over a comparison of integers exactly if nothing else refers to
the comparison, by an input or by a control, anywhere in the graph. -/

namespace Isel

open Select

-- Sums of natural numbers start at the zero of the core library, whatever else is imported.
attribute [local instance (2000)] Zero.ofOfNat0

namespace Graph

variable {g : Graph} {id : Nat}

/-- The number of times that the nodes of a graph refer to a node, by inputs and by controls. -/
def referenceCount (g : Graph) (id : Nat) : Nat :=
  (g.nodes.toList.map fun p => p.node.references.count id).sum

/-- A node is the first input of a branch. -/
def IsPredicate (g : Graph) (id : Nat) : Prop :=
  ∃ user n, g.node? user = some n ∧ n.op = .branch ∧ n.inputs[0]? = some id

theorem length_slotsOf (n : Node) (id : Nat) : (n.slotsOf id).length = n.references.count id := by
  have hinputs : (n.inputs.zipIdx.filter (·.1 == id)).length = n.inputs.count id := by
    calc (n.inputs.zipIdx.filter (·.1 == id)).length
        = n.inputs.zipIdx.countP ((· == id) ∘ Prod.fst) := List.countP_eq_length_filter.symm
      _ = (n.inputs.zipIdx.map Prod.fst).countP (· == id) := List.countP_map.symm
      _ = n.inputs.count id := by rw [List.zipIdx_map_fst, List.count]
  have hcontrol : (n.controlNodes.filter (· == id)).length = n.controlNodes.count id := by
    rw [← List.countP_eq_length_filter, List.count]
  rw [Node.slotsOf, List.length_append, List.length_map, List.length_map, hinputs, hcontrol,
    Node.references, List.count_append]

open scoped List in
/-- The entries of a graph are its nodes in another order. -/
theorem entries_perm (g : Graph) : (g.entries.map Prod.snd).Perm (g.nodes.toList.map Placed.node) := by
  have hlayout : g.layout.Perm (List.range g.nodes.size) := by
    refine (List.perm_ext_iff_of_nodup g.layout_nodup List.nodup_range).mpr fun id => ?_
    rw [List.mem_range, mem_layout]
    constructor
    · rintro ⟨b, hb⟩
      exact id_lt_of_blockOf? hb
    · intro hlt
      exact ⟨_, by rw [blockOf?, Array.getElem?_eq_getElem hlt]; rfl⟩
  have hsnd : g.entries.map Prod.snd = g.layout.filterMap g.node? := by
    rw [entries, List.map_filterMap]
    congr 1
    funext id
    cases g.node? id <;> rfl
  have hrange : (List.range g.nodes.size).map (fun id => g.nodes[id]?) = g.nodes.toList.map some := by
    refine List.ext_getElem (by simp) fun i hi _ => ?_
    simp [Array.getElem?_eq_getElem (by simpa using hi)]
  calc g.entries.map Prod.snd
      = g.layout.filterMap g.node? := hsnd
    _ ~ (List.range g.nodes.size).filterMap g.node? := hlayout.filterMap _
    _ = ((List.range g.nodes.size).map fun id => g.nodes[id]?).filterMap (Option.map Placed.node) := by
        rw [List.filterMap_map]
        rfl
    _ = g.nodes.toList.map Placed.node := by
        rw [hrange, List.filterMap_map]
        exact congrFun List.filterMap_eq_map' _

theorem length_usesOf (g : Graph) (id : Nat) : (g.usesOf id).length = g.referenceCount id := by
  have hlength : (g.usesOf id).length
      = ((g.entries.map Prod.snd).map fun n => n.references.count id).sum := by
    rw [usesOf, List.length_flatMap, List.map_map]
    congr 1
    refine List.map_congr_left fun e _ => ?_
    simp [length_slotsOf]
  rw [hlength, (g.entries_perm.map _).sum_nat, List.map_map]
  rfl

/-- What it takes to be taken over. -/
theorem isFusable_iff : g.isFusable id = true ↔
    (∃ w c, g.op? id = some (.compare w c)) ∧ g.referenceCount id = 1 ∧ g.IsPredicate id := by
  rw [isFusable_eq_true, ← length_usesOf]
  constructor
  · rintro ⟨w, c, user, hop, hsingle, huser⟩
    refine ⟨⟨w, c, hop⟩, ?_, ?_⟩
    · rw [usesOf_of_singleUse? hsingle, List.length_singleton]
    · obtain ⟨n, hn, hinput⟩ := input_of_mem_usesOf (mem_usesOf_of_singleUse? hsingle)
      rw [op?, hn] at huser
      exact ⟨user, n, hn, Option.some.inj huser, hinput⟩
  · rintro ⟨⟨w, c, hop⟩, hlength, user, n, hn, hbranch, hinput⟩
    obtain ⟨use, huses⟩ := List.length_eq_one_iff.mp hlength
    have hmem := mem_usesOf_of_input hn hinput
    rw [huses, List.mem_singleton] at hmem
    refine ⟨w, c, user, hop, ?_, ?_⟩
    · rw [singleUse?, huses, hmem]
    · rw [op?, hn, Option.map_some, hbranch]

/-- Whether a node compares integers. -/
def isComparison (g : Graph) (id : Nat) : Bool :=
  match g.op? id with
  | some (.compare _ _) => true
  | _ => false

theorem isComparison_of_absorbs {config : Config} (h : absorbs g config id = true) :
    g.isComparison id = true := by
  obtain ⟨w, c, hop⟩ := op_of_isFusable (Lowering.isFusable_of_absorbs h)
  rw [isComparison, hop]

theorem absorbs_iff {config : Config} {w : IntWidth} {c : Comparison}
    (hop : g.op? id = some (.compare w c)) : absorbs g config id = true ↔
      config.fuseBranches = true ∧ g.referenceCount id = 1 ∧ g.IsPredicate id := by
  rw [absorbs, Bool.and_eq_true, isFusable_iff]
  exact and_congr_right fun _ => and_iff_right ⟨w, c, hop⟩

end Graph

/-- What a node waits for, and what it is selected as. -/
inductive SelectedControl (g : Graph) (config : Config) : Control → Control → Prop
  | block (c : Nat) : SelectedControl g config (.block c) (.block c)
  | node {v v' : Nat} (selected : selectedNode? g config v = some v') :
      SelectedControl g config (.node v) (.node v')

/-- The operands of a comparison `p` as a branch of block `b` takes them over: the selected ones, under
an extension if they have 32 bits. -/
inductive SelectedOperands (g : Graph) (config : Config) (g' : Graph) (b : Nat) (p : Node) :
    IntWidth → Comparison → List Nat → Prop
  | same {c : Comparison} {x y x' y' : Nat} (x_input : p.inputs[0]? = some x)
      (y_input : p.inputs[1]? = some y) (x_selected : selectedNode? g config x = some x')
      (y_selected : selectedNode? g config y = some y') :
      SelectedOperands g config g' b p .w64 c [x', y']
  | widened {c : Comparison} {x y x' y' u v : Nat} (x_input : p.inputs[0]? = some x)
      (y_input : p.inputs[1]? = some y) (x_selected : selectedNode? g config x = some x')
      (y_selected : selectedNode? g config y = some y')
      (u_node : g'.nodes[u]? = some ⟨b, .target (.extend32 c.isSigned), [], [], [x']⟩)
      (v_node : g'.nodes[v]? = some ⟨b, .target (.extend32 c.isSigned), [], [], [y']⟩) :
      SelectedOperands g config g' b p .w32 c [u, v]

/-- A branch `n` of block `b` that is still one, on the selected predicate or on its extension. -/
inductive StaysBranch (g : Graph) (config : Config) (g' : Graph) (b id : Nat) (n : Node) : Prop
  | intro {i predicate q v : Nat} {control : List Control} (selected : selectedNode? g config id = some i)
      (node : g'.nodes[i]? = some ⟨b, .branch, control, [], [v]⟩)
      (control_selected : List.Forall₂ (SelectedControl g config) n.control control)
      (predicate_input : n.inputs[0]? = some predicate)
      (predicate_selected : selectedNode? g config predicate = some q)
      (operand : v = q ∨ g'.nodes[v]? = some ⟨b, .target (.extend32 false), [], [], [q]⟩)

namespace Selected

open Lowering Schedule

variable {g g' : Graph} {config : Config} {stats : Stats} {l l₁ : Lowering} {id b : Nat} {n p : Node}

theorem control (h : Selected g config g' stats l) (hkeeps : Keeps l₁ l) {control control' : List Control}
    (hcontrol : List.Forall₂ (Controls l₁) control control') :
    List.Forall₂ (SelectedControl g config) control
      (renumber (place g.blocks l.nodes) ⟨.branch, control', [], []⟩).control := by
  refine List.forall₂_map_right_iff.mpr (hcontrol.imp fun c c' hc => ?_)
  cases hc with
  | block b => exact .block b
  | node hlowered => exact .node (h.selected (hkeeps.lowered hlowered))

theorem operands (h : Selected g config g' stats l) (hkeeps : Keeps l₁ l) {w : IntWidth}
    {c : Comparison} {inputs : List Nat} (hcompared : Compared l₁ b p w c inputs) :
    SelectedOperands g config g' b p w c (inputs.map (place g.blocks l.nodes)) := by
  cases hcompared with
  | same hx hy hx' hy' =>
      exact .same hx hy (h.selected (hkeeps.lowered hx')) (h.selected (hkeeps.lowered hy'))
  | widened hx hy hx' hy' hu hv =>
      exact .widened hx hy (h.selected (hkeeps.lowered hx')) (h.selected (hkeeps.lowered hy'))
        (h.node (hkeeps.nodes hu)) (h.node (hkeeps.nodes hv))

theorem elides_of_branch (hn : g.nodes[id]? = some ⟨b, n⟩) (hop : n.op = .branch) :
    g.elides config id = false := by
  refine (Graph.elides_eq_false (Graph.node?_eq_some.mpr ⟨b, hn⟩)).mpr ?_
  rintro (heq | heq | ⟨heq, -⟩) <;> exact absurd (hop.symm.trans heq) (by simp)

theorem absorbs_of_branch (hn : g.nodes[id]? = some ⟨b, n⟩) (hop : n.op = .branch) :
    absorbs g config id = false :=
  absorbs_eq_false (Graph.node?_eq_some.mpr ⟨b, hn⟩) fun _ _ heq => absurd (hop.symm.trans heq) (by simp)

/-- A branch that takes over the comparison it is on. -/
theorem fusedBranch (h : Selected g config g' stats l) (hn : g.nodes[id]? = some ⟨b, n⟩)
    (hop : n.op = .branch) {predicate : Nat} {w : IntWidth} {c : Comparison}
    (hinput : n.inputs[0]? = some predicate) (habsorbs : absorbs g config predicate = true)
    (hp : g.node? predicate = some p) (hpop : p.op = .compare w c) :
    ∃ i control inputs, selectedNode? g config id = some i ∧
      g'.nodes[i]? = some ⟨b, .target (.branchOn c), control, [], inputs⟩ ∧
      List.Forall₂ (SelectedControl g config) n.control control ∧
      SelectedOperands g config g' b p w c inputs := by
  obtain ⟨l₁, m, i, hi, hkeeps, hform, hnode⟩ :=
    h.form hn (absorbs_of_branch hn hop) (elides_of_branch hn hop)
  have hnot {v : Nat} (hhead : n.inputs.head? = some v) {v' : Nat}
      (hv' : l₁.lowered.get? v = some v') : False := by
    rw [List.head?_eq_getElem?] at hhead
    obtain rfl := Option.some.inj (hhead.symm.trans hinput)
    exact absurd ((h.steps.free (hkeeps.lowered hv')).symm.trans habsorbs) (by simp)
  cases hform with
  | fused hop' hcontrol hhead _ hp' hpop' hoperands =>
      rw [List.head?_eq_getElem?] at hhead
      obtain rfl := Option.some.inj (hhead.symm.trans hinput)
      obtain rfl := Option.some.inj (hp'.symm.trans hp)
      obtain ⟨rfl, rfl⟩ := Operator.compare.inj (hpop'.symm.trans hpop)
      exact ⟨_, _, _, h.selected hi, h.node hnode, h.control hkeeps hcontrol, h.operands hkeeps hoperands⟩
  | branched _ _ hhead hv => exact (hnot hhead hv).elim
  | branched32 _ _ hhead hv => exact (hnot hhead hv).elim
  | copied hcopied =>
      rw [hop] at hcopied
      exact absurd hcopied (by simp [Operator.copied?])
  | compared hop' | signed hop' | loaded hop' | stored hop' =>
      exact absurd (hop.symm.trans hop') (by simp)

/-- Every other branch. -/
theorem staysBranch (h : Selected g config g' stats l) (hn : g.nodes[id]? = some ⟨b, n⟩)
    (hop : n.op = .branch)
    (hfree : ∀ predicate, n.inputs[0]? = some predicate → absorbs g config predicate = false) :
    StaysBranch g config g' b id n := by
  obtain ⟨l₁, m, i, hi, hkeeps, hform, hnode⟩ :=
    h.form hn (absorbs_of_branch hn hop) (elides_of_branch hn hop)
  cases hform with
  | fused hop' hcontrol hhead habsorbs =>
      rw [List.head?_eq_getElem?] at hhead
      exact absurd ((hfree _ hhead).symm.trans habsorbs) (by simp)
  | branched _ hcontrol hhead hv =>
      rw [List.head?_eq_getElem?] at hhead
      exact ⟨h.selected hi, h.node hnode, h.control hkeeps hcontrol, hhead,
        h.selected (hkeeps.lowered hv), .inl rfl⟩
  | branched32 _ hcontrol hhead hv hu =>
      rw [List.head?_eq_getElem?] at hhead
      exact ⟨h.selected hi, h.node hnode, h.control hkeeps hcontrol, hhead,
        h.selected (hkeeps.lowered hv), .inr (h.node (hkeeps.nodes hu))⟩
  | copied hcopied =>
      rw [hop] at hcopied
      exact absurd hcopied (by simp [Operator.copied?])
  | compared hop' | signed hop' | loaded hop' | stored hop' =>
      exact absurd (hop.symm.trans hop') (by simp)

/-- A node is selected as none if and only if it is taken over. -/
theorem selectedNode?_eq_none (h : Selected g config g' stats l) (hlt : id < g.nodes.size) :
    selectedNode? g config id = none ↔ absorbs g config id = true := by
  refine ⟨fun hnone => ?_, h.selectedNode?_of_absorbs⟩
  by_contra hne
  obtain ⟨i, hi⟩ := h.all id hlt (Bool.eq_false_iff.mpr hne)
  exact absurd (hnone.symm.trans (h.selected hi)) (by simp)

/-- The comparisons that are selected as none are those counted. -/
theorem fused_eq_card (h : Selected g config g' stats l) : stats.fused
    = {id ∈ Finset.range g.nodes.size |
        g.isComparison id ∧ selectedNode? g config id = none}.card := by
  rw [h.fused_eq]
  refine congrArg Finset.card (Finset.filter_congr fun id hid => ?_)
  rw [h.selectedNode?_eq_none (Finset.mem_range.mp hid)]
  exact (and_iff_right_of_imp Graph.isComparison_of_absorbs).symm

end Selected

variable {g g' : Graph} {config : Config} {stats : Stats}

/-- With fusion, a comparison has no node of its own exactly if the graph refers to it once and by the
predicate of a branch. That branch becomes one on the comparison, with its operands; every other branch
stays one. Without fusion every comparison has a node and every branch stays one. -/
theorem select_fuses_exactly (hselect : select g config = .ok (g', stats)) :
    (config.fuseBranches = true →
      (∀ id b p w c, g.nodes[id]? = some ⟨b, p⟩ → p.op = .compare w c →
        (selectedNode? g config id = none ↔ g.referenceCount id = 1 ∧ g.IsPredicate id) ∧
        (g.referenceCount id = 1 → ∀ user a n, g.nodes[user]? = some ⟨a, n⟩ → n.op = .branch →
          n.inputs[0]? = some id → ∃ i control inputs, selectedNode? g config user = some i ∧
            g'.nodes[i]? = some ⟨a, .target (.branchOn c), control, [], inputs⟩ ∧
            List.Forall₂ (SelectedControl g config) n.control control ∧
            SelectedOperands g config g' a p w c inputs)) ∧
      ∀ user a n, g.nodes[user]? = some ⟨a, n⟩ → n.op = .branch →
        (∀ id, n.inputs[0]? = some id → ¬(g.isComparison id = true ∧ g.referenceCount id = 1)) →
        StaysBranch g config g' a user n) ∧
    stats.fused = {id ∈ Finset.range g.nodes.size |
      g.isComparison id ∧ selectedNode? g config id = none}.card ∧
    (config.fuseBranches = false → stats.fused = 0 ∧
      (∀ id < g.nodes.size, selectedNode? g config id ≠ none) ∧
      ∀ user a n, g.nodes[user]? = some ⟨a, n⟩ → n.op = .branch →
        StaysBranch g config g' a user n) := by
  obtain ⟨l, h⟩ := exists_selected hselect
  refine ⟨fun hfuse => ⟨fun id b p w c hp hop => ⟨?_, ?_⟩, ?_⟩, h.fused_eq_card, fun hfuse => ?_⟩
  · have hpop : g.op? id = some (.compare w c) := by
      rw [Graph.op?, Graph.node?_eq_some.mpr ⟨b, hp⟩, Option.map_some, hop]
    rw [h.selectedNode?_eq_none (Array.getElem?_eq_some_iff.mp hp).1, Graph.absorbs_iff hpop]
    exact and_iff_right hfuse
  · intro hcount user a n hn hbranch hinput
    have hnode := Graph.node?_eq_some.mpr ⟨b, hp⟩
    have hpop : g.op? id = some (.compare w c) := by rw [Graph.op?, hnode, Option.map_some, hop]
    have hpredicate : g.IsPredicate id := ⟨user, n, Graph.node?_eq_some.mpr ⟨a, hn⟩, hbranch, hinput⟩
    have habsorbs := (Graph.absorbs_iff hpop).mpr ⟨hfuse, hcount, hpredicate⟩
    exact h.fusedBranch hn hbranch hinput habsorbs hnode hop
  · intro user a n hn hbranch hother
    refine h.staysBranch hn hbranch fun id hinput => Bool.eq_false_iff.mpr fun habsorbs => ?_
    have hcomparison := Graph.isComparison_of_absorbs habsorbs
    obtain ⟨-, hcount, -⟩ := Graph.isFusable_iff.mp (Lowering.isFusable_of_absorbs habsorbs)
    exact hother id hinput ⟨hcomparison, hcount⟩
  · have hfree (id : Nat) : absorbs g config id = false := by rw [absorbs, hfuse, Bool.false_and]
    refine ⟨?_, fun id hlt hnone => ?_, fun user a n hn hbranch => ?_⟩
    · rw [h.fused_eq]
      simp [hfree]
    · exact absurd ((hfree id).symm.trans ((h.selectedNode?_eq_none hlt).mp hnone)) (by simp)
    · exact h.staysBranch hn hbranch fun id _ => hfree id

/-- Two comparisons of the same numbers. The second branch is on one that it also waits for. -/
def forked : Graph :=
  .ofParts #[⟨"entry", [1, 2]⟩, ⟨"left", [2, 3]⟩, ⟨"right", []⟩, ⟨"end", []⟩]
    #[⟨0, .const .i32, [], [.int 5], []⟩, ⟨0, .const .i32, [], [.int 7], []⟩,
      ⟨0, .compare .w32 .ltU, [], [], [0, 1]⟩, ⟨0, .compare .w32 .eq, [], [], [0, 1]⟩,
      ⟨0, .branch, [.node 1], [], [2]⟩, ⟨1, .branch, [.node 3], [], [3]⟩,
      ⟨2, .ret, [], [], []⟩, ⟨3, .ret, [], [], []⟩]

/-- The first branch takes its comparison over, under extensions without sign; the second does not. -/
theorem select_fuses_exactly_forked : ∃ g' stats, select forked {} = .ok (g', stats) ∧
    stats.fused = 1 ∧ selectedNode? forked {} 2 = none ∧ selectedNode? forked {} 3 ≠ none ∧
    (∃ i control inputs, selectedNode? forked {} 4 = some i ∧
      g'.nodes[i]? = some ⟨0, .target (.branchOn .ltU), control, [], inputs⟩ ∧
      SelectedOperands forked {} g' 0 ⟨.compare .w32 .ltU, [], [], [0, 1]⟩ .w32 .ltU inputs) ∧
    StaysBranch forked {} g' 1 5 ⟨.branch, [.node 3], [], [3]⟩ := by
  have hstats : (select forked {}).toOption.map (fun r => r.2.fused) = some 1 := by decide +kernel
  obtain ⟨⟨g', stats⟩, hok, hfusedOne⟩ := Option.map_eq_some_iff.mp hstats
  have hselect := toOption_eq_some.mp hok
  obtain ⟨hon, -⟩ := select_fuses_exactly hselect
  obtain ⟨hcomparisons, hbranches⟩ := hon rfl
  obtain ⟨hfirst, hfused⟩ :=
    hcomparisons 2 0 ⟨.compare .w32 .ltU, [], [], [0, 1]⟩ .w32 .ltU (by decide) rfl
  obtain ⟨hsecond, -⟩ :=
    hcomparisons 3 0 ⟨.compare .w32 .eq, [], [], [0, 1]⟩ .w32 .eq (by decide) rfl
  obtain ⟨i, control, inputs, hi, hnode, -, hoperands⟩ :=
    hfused (by decide) 4 0 ⟨.branch, [.node 1], [], [2]⟩ (by decide) rfl rfl
  refine ⟨g', stats, hselect, hfusedOne, ?_, ?_, ⟨i, control, inputs, hi, hnode, hoperands⟩, ?_⟩
  · exact hfirst.mpr ⟨by decide, 4, ⟨.branch, [.node 1], [], [2]⟩, by decide, rfl, rfl⟩
  · exact fun hnone => absurd (hsecond.mp hnone).1 (by decide)
  · refine hbranches 5 1 _ (by decide) rfl fun id hid hcount => ?_
    obtain rfl : 3 = id := Option.some.inj hid
    exact absurd hcount.2 (by decide)

end Isel
