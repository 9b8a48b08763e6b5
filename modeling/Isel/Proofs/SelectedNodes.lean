import Isel.Proofs.AccessGuards
import Mathlib.Data.Finset.Card

/-! What becomes of each node of a graph that is selected. A comparison that a branch takes over has no
node of its own, an elided node shares the node of its first input, and every other node has one that no
other node has. The statistics are the numbers of the first two and of the helper nodes. -/

namespace Isel

open Select

namespace Graph

variable {g : Graph} {config : Config} {id v : Nat} {n : Node}

/-- A comparison is taken over by the branch that is its one user. -/
theorem user_of_absorbs (h : absorbs g config v = true) : ∃ user m,
    g.singleUse? v = some ⟨user, .input 0⟩ ∧ g.node? user = some m ∧ m.op = .branch ∧
      m.inputs[0]? = some v := by
  obtain ⟨w, c, user, -, hsingle, huser⟩ := isFusable_eq_true.mp (Lowering.isFusable_of_absorbs h)
  obtain ⟨m, hm, hinput⟩ := input_of_mem_usesOf (mem_usesOf_of_singleUse? hsingle)
  rw [op?, hm] at huser
  exact ⟨user, m, hsingle, hm, Option.some.inj huser, hinput⟩

theorem lt_of_absorbs (h : absorbs g config v = true) : v < g.nodes.size := by
  obtain ⟨w, c, hop⟩ := op_of_isFusable (Lowering.isFusable_of_absorbs h)
  obtain ⟨n, hn, -⟩ := Option.map_eq_some_iff.mp hop
  obtain ⟨b, hb⟩ := node?_eq_some.mp hn
  exact (Array.getElem?_eq_some_iff.mp hb).1

theorem absorbs_of_elides (h : g.elides config id = true) : absorbs g config id = false := by
  obtain ⟨n, hn, helided⟩ := node_of_elides h
  refine Lowering.absorbs_eq_false hn fun w c hop => ?_
  rcases helided with heq | heq | ⟨heq, -⟩ <;> exact absurd (hop.symm.trans heq) (by simp)

theorem absorbs_of_fuses (h : g.fuses config id = true) : absorbs g config id = false := by
  obtain ⟨n, hn, hop, -⟩ := node_of_fuses h
  exact Lowering.absorbs_eq_false hn fun w c heq => absurd (hop.symm.trans heq) (by simp)

/-- As many comparisons are taken over as branches take one over: each has one user, and each user has
one first input. -/
theorem card_absorbs (g : Graph) (config : Config) :
    {id ∈ Finset.range g.nodes.size | absorbs g config id}.card
      = {id ∈ Finset.range g.nodes.size | g.fuses config id}.card := by
  let user (v : Nat) : Nat := (g.singleUse? v).elim 0 Use.user
  have huser {v : Nat} (h : absorbs g config v = true) : ∃ m, g.node? (user v) = some m ∧
      m.op = .branch ∧ m.inputs.head? = some v := by
    obtain ⟨u, m, hsingle, hm, hop, hinput⟩ := user_of_absorbs h
    refine ⟨m, ?_, hop, by rw [List.head?_eq_getElem?, hinput]⟩
    simpa [user, hsingle] using hm
  refine Finset.card_nbij user ?_ ?_ ?_
  · intro v hv
    obtain ⟨m, hm, hop, hhead⟩ := huser (Finset.mem_filter.mp hv).2
    obtain ⟨b, hb⟩ := node?_eq_some.mp hm
    refine Finset.mem_filter.mpr ⟨Finset.mem_range.mpr (Array.getElem?_eq_some_iff.mp hb).1, ?_⟩
    exact (fuses_eq_true hm).mpr ⟨hop, v, hhead, (Finset.mem_filter.mp hv).2⟩
  · intro v hv w hw heq
    obtain ⟨m, hm, -, hv⟩ := huser (Finset.mem_filter.mp hv).2
    obtain ⟨m', hm', -, hw⟩ := huser (Finset.mem_filter.mp hw).2
    rw [heq, hm'] at hm
    obtain rfl := Option.some.inj hm
    exact Option.some.inj (hv.symm.trans hw)
  · intro id hid
    have hfuses := (Finset.mem_filter.mp hid).2
    obtain ⟨n, hn, -, v, hhead, habsorbs⟩ := node_of_fuses hfuses
    refine ⟨v, ?_, ?_⟩
    · exact Finset.mem_filter.mpr ⟨Finset.mem_range.mpr (lt_of_absorbs habsorbs), habsorbs⟩
    · obtain ⟨u, m, hsingle, -⟩ := user_of_absorbs habsorbs
      rw [List.head?_eq_getElem?] at hhead
      have huse := eq_of_singleUse? hsingle (mem_usesOf_of_input hn hhead)
      simp [user, hsingle, ← (Use.mk.inj huse).1]

end Graph

namespace Lowering

variable {g : Graph} {config : Config} {l : Lowering} {y z i : Nat}

theorem Steps.free (h : Steps g config {} l) (hy : l.lowered.get? y = some i) :
    absorbs g config y = false := by
  cases h.successor hy with
  | stands _ hfree => exact hfree
  | records _ hfree => exact hfree

/-- Two nodes that are not elided have different nodes. -/
theorem Steps.lowered_inj (h : Steps g config {} l) (hykept : g.elides config y = false)
    (hzkept : g.elides config z = false) (hy : l.lowered.get? y = some i)
    (hz : l.lowered.get? z = some i) : y = z := by
  induction h with
  | refl => exact absurd hy (by simp)
  | @tail l₁ l' hsteps hstep ih =>
      cases hstep with
      | tables _ hlowered => exact ih (hlowered ▸ hy) (hlowered ▸ hz)
      | aid _ _ _ hlowered => exact ih (hlowered ▸ hy) (hlowered ▸ hz)
      | @record id b n m hn hnew hfree hform hnodes hlowered =>
          have hold {x : Nat} (hx : l₁.lowered.get? x = some l₁.nodes.size) : False :=
            Nat.lt_irrefl _ (Steps.successor hsteps hx).lt
          rw [hlowered, Table.get?_set] at hy hz
          by_cases hyid : y = id <;> by_cases hzid : z = id
          · rw [hyid, hzid]
          · rw [if_pos hyid, Option.some.injEq] at hy
            rw [if_neg hzid, ← hy] at hz
            exact (hold hz).elim
          · rw [if_pos hzid, Option.some.injEq] at hz
            rw [if_neg hyid, ← hz] at hy
            exact (hold hy).elim
          · rw [if_neg hyid] at hy
            rw [if_neg hzid] at hz
            exact ih hy hz
      | @stand id b v n hn hnew hfree hstands hnodes hlowered =>
          obtain ⟨helided, -, -⟩ := hstands
          have helides : g.elides config id = true :=
            (Graph.elides_eq_true (Graph.node?_eq_some.mpr ⟨b, hn⟩)).mpr helided
          have hne {x : Nat} (hx : g.elides config x = false) : x ≠ id := by
            rintro rfl
            exact absurd (hx.symm.trans helides) (by simp)
          rw [hlowered, Table.get?_set, if_neg (hne hykept)] at hy
          rw [hlowered, Table.get?_set, if_neg (hne hzkept)] at hz
          exact ih hy hz

/-- When all nodes are lowered but those taken over, these are the ones that are counted. -/
theorem tally_of_lowered (hsteps : Steps g config {} l)
    (hall : ∀ id < g.nodes.size, absorbs g config id = false → ∃ new, l.lowered.get? id = some new)
    (kind : Nat → Bool) :
    l.tally g kind = {id ∈ Finset.range g.nodes.size | absorbs g config id = false ∧ kind id}.card := by
  refine congrArg Finset.card (Finset.filter_congr fun id hid => and_congr_left fun _ => ?_)
  constructor
  · intro hcontains
    obtain ⟨new, hnew⟩ := Option.isSome_iff_exists.mp hcontains
    exact hsteps.free hnew
  · intro hfree
    obtain ⟨new, hnew⟩ := hall id (Finset.mem_range.mp hid) hfree
    simp [Table.contains, hnew]

end Lowering

open Lowering

/-- A selection with the state that lowering ends in. -/
structure Selected (g : Graph) (config : Config) (g' : Graph) (stats : Stats) (l : Lowering) :
    Prop where
  lowered : lowerAll g config {} = .ok ((), l)
  graph : g' = schedule g.blocks l.nodes
  stats : stats = l.stats
  steps : Steps g config {} l
  balanced : Balanced g config {} l
  all : ∀ id < g.nodes.size, absorbs g config id = false → ∃ new, l.lowered.get? id = some new

variable {g g' : Graph} {config : Config} {stats : Stats} {l : Lowering} {id b i : Nat} {n : Node}

theorem isClosed_of_select {r : Graph × Stats} (h : select g config = .ok r) : g.isClosed = true := by
  cases hclosed : g.isClosed with
  | true => rfl
  | false =>
      rw [select_of_not_closed config hclosed] at h
      contradiction

theorem exists_selected (h : select g config = .ok (g', stats)) : ∃ l, Selected g config g' stats l := by
  obtain ⟨l, hlower, rfl⟩ := select_ok h
  have hclosed := isClosed_of_select h
  obtain ⟨⟨hsteps, hbalanced⟩, hall⟩ := steps_of_lowerAll hclosed hlower
  have hstats := h.symm.trans (select_of_lowerAll hclosed hlower hsteps)
  rw [Except.ok.injEq, Prod.mk.injEq] at hstats
  exact ⟨l, hlower, rfl, hstats.2, hsteps, hbalanced, hall⟩

namespace Selected

theorem selectedNode?_eq (h : Selected g config g' stats l) (id : Nat) :
    selectedNode? g config id = (l.lowered.get? id).map (Schedule.place g.blocks l.nodes) := by
  rw [selectedNode?, h.lowered]

theorem selected (h : Selected g config g' stats l) (hi : l.lowered.get? id = some i) :
    selectedNode? g config id = some (Schedule.place g.blocks l.nodes i) := by
  rw [h.selectedNode?_eq, hi]
  rfl

/-- A lowered node at its place. -/
theorem node (h : Selected g config g' stats l) {p : Placed} (hi : l.nodes[i]? = some p) :
    g'.nodes[Schedule.place g.blocks l.nodes i]?
      = some ⟨p.block, Schedule.renumber (Schedule.place g.blocks l.nodes) p.node⟩ := by
  rw [h.graph]
  exact Schedule.schedule_node h.steps.grounded h.steps.housed hi

/-- What a comparison that is taken over has. -/
theorem selectedNode?_of_absorbs (h : Selected g config g' stats l) (habsorbs : absorbs g config id = true) :
    selectedNode? g config id = none := by
  rw [h.selectedNode?_eq]
  cases hi : l.lowered.get? id with
  | none => rfl
  | some i => exact absurd ((h.steps.free hi).symm.trans habsorbs) (by simp)

/-- What an elided node has. -/
theorem stands (h : Selected g config g' stats l) (hn : g.nodes[id]? = some ⟨b, n⟩)
    (helides : g.elides config id = true) : ∃ x i, n.inputs[0]? = some x ∧
      l.lowered.get? id = some i ∧ l.lowered.get? x = some i := by
  obtain ⟨i, hi⟩ := h.all id (Array.getElem?_eq_some_iff.mp hn).1 (Graph.absorbs_of_elides helides)
  cases h.steps.successor hi with
  | stands hn' _ _ hx hx' =>
      obtain ⟨-, rfl⟩ := Placed.mk.inj (Option.some.inj (hn'.symm.trans hn))
      exact ⟨_, i, hx, hi, hx'⟩
  | records hn' _ _ _ hform =>
      obtain ⟨rfl, rfl⟩ := Placed.mk.inj (Option.some.inj (hn'.symm.trans hn))
      have helided := (Graph.elides_eq_true (Graph.node?_eq_some.mpr ⟨_, hn⟩)).mp helides
      exact absurd helided hform.not_elided

/-- What every other node has: a node of its own in its block. -/
theorem form (h : Selected g config g' stats l) (hn : g.nodes[id]? = some ⟨b, n⟩)
    (hfree : absorbs g config id = false) (hkept : g.elides config id = false) :
    ∃ l₁ m i, l.lowered.get? id = some i ∧ Keeps l₁ l ∧ Form g config l₁ b id n m ∧
      l.nodes[i]? = some ⟨b, m⟩ := by
  obtain ⟨i, hi⟩ := h.all id (Array.getElem?_eq_some_iff.mp hn).1 hfree
  have hnot := (Graph.elides_eq_false (Graph.node?_eq_some.mpr ⟨b, hn⟩)).mp hkept
  obtain ⟨l₁, m, hkeeps, hform, hnode⟩ := (h.steps.successor hi).form_of_kept hn hnot
  exact ⟨l₁, m, i, hi, hkeeps, hform, hnode⟩

/-- Different nodes that are not elided are selected as different nodes. -/
theorem selected_inj (h : Selected g config g' stats l) {id' : Nat} (hkept : g.elides config id = false)
    (hkept' : g.elides config id' = false) (hid : selectedNode? g config id = some i)
    (hid' : selectedNode? g config id' = some i) : id = id' := by
  rw [h.selectedNode?_eq] at hid hid'
  obtain ⟨j, hj, rfl⟩ := Option.map_eq_some_iff.mp hid
  obtain ⟨j', hj', hplace⟩ := Option.map_eq_some_iff.mp hid'
  have hlt := (h.steps.successor hj).lt
  obtain rfl := Schedule.place_inj h.steps.grounded h.steps.housed hlt hplace
  exact h.steps.lowered_inj hkept hkept' hj hj'

theorem size (h : Selected g config g' stats l) : g'.nodes.size = l.nodes.size := by
  have hperm := (Schedule.places_perm h.steps.grounded h.steps.housed).length_eq
  rw [h.graph]
  simpa using hperm.symm

theorem eliminated_eq (h : Selected g config g' stats l) :
    stats.eliminated = {id ∈ Finset.range g.nodes.size | g.elides config id}.card := by
  rw [h.stats, h.balanced.totals.2.1, tally_of_lowered h.steps h.all]
  refine congrArg Finset.card (Finset.filter_congr fun id _ => and_iff_right_of_imp ?_)
  exact Graph.absorbs_of_elides

theorem fused_eq (h : Selected g config g' stats l) :
    stats.fused = {id ∈ Finset.range g.nodes.size | absorbs g config id}.card := by
  rw [h.stats, h.balanced.totals.2.2, tally_of_lowered h.steps h.all, Graph.card_absorbs]
  refine congrArg Finset.card (Finset.filter_congr fun id _ => and_iff_right_of_imp ?_)
  exact Graph.absorbs_of_fuses

/-- The nodes that have one of their own. -/
def kept (g : Graph) (config : Config) : Finset Nat :=
  {id ∈ Finset.range g.nodes.size | absorbs g config id = false ∧ g.elides config id = false}

theorem mem_kept : id ∈ kept g config ↔
    id < g.nodes.size ∧ absorbs g config id = false ∧ g.elides config id = false := by
  rw [kept, Finset.mem_filter, Finset.mem_range]

theorem size_eq (h : Selected g config g' stats l) :
    g'.nodes.size = stats.inserted + (kept g config).card := by
  rw [h.size, h.stats, h.balanced.totals.1, tally_of_lowered h.steps h.all]
  simp [kept]

/-- A node is taken over, elided or has a node of its own. -/
theorem card_kept (h : Selected g config g' stats l) :
    stats.fused + stats.eliminated + (kept g config).card = g.nodes.size := by
  have habsorbs := Finset.card_filter_add_card_filter_not (s := Finset.range g.nodes.size)
    fun id => absorbs g config id = true
  have helides := Finset.card_filter_add_card_filter_not
    (s := {id ∈ Finset.range g.nodes.size | ¬absorbs g config id = true})
    fun id => g.elides config id = true
  have helided : {id ∈ Finset.range g.nodes.size | ¬absorbs g config id = true ∧ g.elides config id}
      = {id ∈ Finset.range g.nodes.size | g.elides config id} := by
    refine Finset.filter_congr fun id _ => and_iff_right_of_imp fun helides => ?_
    rw [Graph.absorbs_of_elides helides]
    exact Bool.false_ne_true
  rw [Finset.filter_filter, Finset.filter_filter, helided] at helides
  rw [Finset.card_range] at habsorbs
  simp only [Bool.not_eq_true] at habsorbs helides
  rw [h.fused_eq, h.eliminated_eq, kept]
  omega

/-- Every node that some node is selected as belongs to one that is not elided. -/
theorem exists_kept (h : Selected g config g' stats l) (hid : selectedNode? g config id = some i) :
    ∃ y ∈ kept g config, selectedNode? g config y = some i := by
  rw [h.selectedNode?_eq] at hid
  obtain ⟨j, hj, rfl⟩ := Option.map_eq_some_iff.mp hid
  have hsuccessor := h.steps.successor hj
  clear hid
  induction hsuccessor with
  | stands _ _ _ _ hx _ ih => exact ih hx
  | @records l₁ y b n m hn hfree _ _ hform _ =>
      have hkept := (Graph.elides_eq_false (Graph.node?_eq_some.mpr ⟨b, hn⟩)).mpr hform.not_elided
      exact ⟨y, mem_kept.mpr ⟨(Array.getElem?_eq_some_iff.mp hn).1, hfree, hkept⟩, h.selected hj⟩

/-- The nodes that no node is selected as are the helpers. -/
theorem inserted_eq (h : Selected g config g' stats l) : stats.inserted
    = {i ∈ Finset.range g'.nodes.size |
        ∀ id < g.nodes.size, selectedNode? g config id ≠ some i}.card := by
  have hsplit := Finset.card_filter_add_card_filter_not (s := Finset.range g'.nodes.size)
    fun i => ∀ id < g.nodes.size, selectedNode? g config id ≠ some i
  have hcard : (kept g config).card = {i ∈ Finset.range g'.nodes.size |
      ¬∀ id < g.nodes.size, selectedNode? g config id ≠ some i}.card := by
    have hselected {y : Nat} (hy : y ∈ kept g config) : ∃ i, selectedNode? g config y = some i ∧
        i < g'.nodes.size := by
      obtain ⟨hlt, hfree, hkept⟩ := mem_kept.mp hy
      obtain ⟨l₁, m, j, hj, -, -, hnode⟩ := h.form (Array.getElem?_eq_getElem hlt) hfree hkept
      exact ⟨_, h.selected hj, (Array.getElem?_eq_some_iff.mp (h.node hnode)).1⟩
    refine Finset.card_nbij (fun y => (selectedNode? g config y).getD 0) ?_ ?_ ?_
    · intro y hy
      obtain ⟨i, hi, hlt⟩ := hselected hy
      refine Finset.mem_filter.mpr ⟨?_, fun hnone => ?_⟩
      · simpa [hi] using hlt
      · exact hnone y (mem_kept.mp hy).1 (by simp [hi])
    · intro y hy z hz heq
      obtain ⟨i, hi, -⟩ := hselected hy
      obtain ⟨j, hj, -⟩ := hselected hz
      obtain rfl : i = j := by simpa [hi, hj] using heq
      exact h.selected_inj (mem_kept.mp hy).2.2 (mem_kept.mp hz).2.2 hi hj
    · intro i hi
      obtain ⟨-, hsome⟩ := Finset.mem_filter.mp hi
      push Not at hsome
      obtain ⟨id, -, hid⟩ := hsome
      obtain ⟨y, hy, hyi⟩ := h.exists_kept hid
      exact ⟨y, hy, by simp [hyi]⟩
  rw [Finset.card_range] at hsplit
  have hsize := h.size_eq
  omega

end Selected

/-- Selection keeps the blocks and accounts for every node. -/
theorem select_accounts_for_nodes (hselect : select g config = .ok (g', stats)) :
    g'.blocks = g.blocks ∧
    g'.nodes.size + stats.fused + stats.eliminated = g.nodes.size + stats.inserted ∧
    stats.fused = {id ∈ Finset.range g.nodes.size | absorbs g config id}.card ∧
    stats.eliminated = {id ∈ Finset.range g.nodes.size | g.elides config id}.card ∧
    stats.inserted = {i ∈ Finset.range g'.nodes.size |
      ∀ id < g.nodes.size, selectedNode? g config id ≠ some i}.card ∧
    ∀ id b n, g.nodes[id]? = some ⟨b, n⟩ →
      (absorbs g config id = true → selectedNode? g config id = none) ∧
      (g.elides config id = true → ∃ x i, n.inputs[0]? = some x ∧
        selectedNode? g config id = some i ∧ selectedNode? g config x = some i) ∧
      (absorbs g config id = false → g.elides config id = false →
        ∃ i, selectedNode? g config id = some i ∧ g'.blockOf? i = some b ∧
          ∀ id', g.elides config id' = false → selectedNode? g config id' = some i → id' = id) := by
  obtain ⟨l, h⟩ := exists_selected hselect
  refine ⟨?_, ?_, h.fused_eq, h.eliminated_eq, h.inserted_eq, fun id b n hn => ⟨?_, ?_, ?_⟩⟩
  · rw [h.graph, Schedule.schedule_blocks]
  · have hsize := h.size_eq
    have hkept := h.card_kept
    omega
  · exact h.selectedNode?_of_absorbs
  · intro helides
    obtain ⟨x, i, hx, hi, hxi⟩ := h.stands hn helides
    exact ⟨x, _, hx, h.selected hi, h.selected hxi⟩
  · intro hfree hkept
    obtain ⟨l₁, m, i, hi, -, -, hnode⟩ := h.form hn hfree hkept
    refine ⟨_, h.selected hi, ?_, fun id' hkept' hid' => ?_⟩
    · rw [Graph.blockOf?, h.node hnode]
      rfl
    · exact h.selected_inj hkept' hkept hid' (h.selected hi)

/-- The comparison goes into the branch, with an extension of each operand, the dropped truth value stands
for its operand, and the store gets three helper nodes. -/
theorem select_accounts_for_nodes_sketch :
    ∃ g' stats, select (sketch [0, 5, 5]) {} = .ok (g', stats) ∧ stats.fused = 1 ∧
      stats.eliminated = 1 ∧ stats.inserted = 5 ∧ g'.nodes.size = 13 ∧
      selectedNode? (sketch [0, 5, 5]) {} 2 = none ∧
      ∃ i, selectedNode? (sketch [0, 5, 5]) {} 6 = some i ∧
        selectedNode? (sketch [0, 5, 5]) {} 5 = some i := by
  have hstats : (select (sketch [0, 5, 5]) {}).toOption.map
      (fun r => (r.2.fused, r.2.eliminated, r.2.inserted)) = some (1, 1, 5) := by decide +kernel
  obtain ⟨⟨g', stats⟩, hok, hstats⟩ := Option.map_eq_some_iff.mp hstats
  have hselect := toOption_eq_some.mp hok
  obtain ⟨hfused, heliminated, hinserted⟩ : stats.fused = 1 ∧ stats.eliminated = 1 ∧
    stats.inserted = 5 := by simpa using hstats
  obtain ⟨-, hsize, -, -, -, hnodes⟩ := select_accounts_for_nodes hselect
  have hsource : (sketch [0, 5, 5]).nodes.size = 10 := by decide
  obtain ⟨x, i, hx, hi, hxi⟩ := (hnodes 6 1 ⟨.bool .i64, [], [], [5]⟩ (by decide)).2.1 (by decide)
  obtain rfl : 5 = x := Option.some.inj hx
  refine ⟨g', stats, hselect, hfused, heliminated, hinserted, by omega, ?_, i, hi, hxi⟩
  exact (hnodes 2 0 ⟨.compare .w32 .ltS, [], [], [1, 4]⟩ (by decide)).1 (by decide +kernel)

end Isel
