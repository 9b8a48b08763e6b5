import Isel.Proofs.Allocation
import Isel.Proofs.Availability
import Isel.Proofs.CodeLayout

/-! Values in registers. A value is live where it has been computed and a node further along the
layout uses it. The instructions of a node leave the registers of live values alone, and they never
change the register in which the state of memory arrives. -/

namespace Isel

namespace Graph

variable {g : Graph} {b c id u y : Nat} {done rest back bs : List Nat}

/-- The nodes that the layout comes to before the rest of a block. -/
def passed (g : Graph) (b : Nat) (done : List Nat) : List Nat :=
  (List.range b).flatMap g.members ++ done

theorem passed_append : g.passed b (done ++ [id]) = g.passed b done ++ [id] := by
  rw [passed, passed, List.append_assoc]

theorem layout_at (hb : b < g.blocks.size) (hmembers : g.members b = done ++ id :: rest) :
    ∃ back, g.layout = g.passed b done ++ id :: back := by
  obtain ⟨after, hlayout⟩ := layout_split hb
  refine ⟨rest ++ after, ?_⟩
  rw [hlayout, hmembers, passed]
  simp

theorem notMem_passed (hlayout : g.layout = g.passed b done ++ id :: back) :
    id ∉ g.passed b done := by
  have hnodup := g.layout_nodup
  rw [hlayout] at hnodup
  exact fun hmem => List.disjoint_of_nodup_append hnodup hmem List.mem_cons_self

theorem idxOf_layout (hlayout : g.layout = g.passed b done ++ id :: back) :
    g.layout.idxOf id = (g.passed b done).length := by
  rw [hlayout, List.idxOf_append_of_notMem (notMem_passed hlayout), List.idxOf_cons_self,
    Nat.add_zero]

theorem precedes_of_passed (hlayout : g.layout = g.passed b done ++ id :: back)
    (hy : y ∈ g.passed b done) : g.Precedes y id := by
  rw [Precedes, idxOf_layout hlayout, hlayout, List.idxOf_append_of_mem hy]
  exact List.idxOf_lt_length_iff.mpr hy

theorem precedes_of_not_passed (hlayout : g.layout = g.passed b done ++ id :: back)
    (hu : u ∉ g.passed b (done ++ [id])) : g.Precedes id u := by
  rw [passed_append, List.mem_append, List.mem_singleton, not_or] at hu
  rw [Precedes, idxOf_layout hlayout, hlayout, List.idxOf_append_of_notMem hu.1,
    List.idxOf_cons_ne _ (Ne.symm hu.2)]
  omega

/-- Where edges go forward, a path does. -/
theorem Walk.le_of_mem (h : g.Walk bs b) (hforward : g.Forward) (hc : c ∈ bs) : c ≤ b := by
  induction h with
  | start => exact Nat.le_of_eq (List.mem_singleton.mp hc)
  | @step bs b d _ hedge ih =>
      rcases List.mem_cons.mp hc with rfl | hc
      · exact Nat.le_refl _
      · exact Nat.le_trans (ih hc) (Nat.le_of_lt (hforward b d hedge))

theorem Available.passed (h : g.Available b done y) (hforward : g.Forward) (hwalk : g.Walk bs b) :
    y ∈ g.passed b done := by
  rcases h with hy | ⟨c, hc, hne, hdom⟩
  · exact List.mem_append_right _ hy
  · have hle := hwalk.le_of_mem hforward (hdom bs hwalk)
    refine List.mem_append_left _ (List.mem_flatMap.mpr ⟨c, List.mem_range.mpr ?_, mem_members.mpr hc⟩)
    omega

/-- A value that has been computed and that a node further along the layout uses. -/
structure Live (g : Graph) (b : Nat) (done : List Nat) (y : Nat) : Prop where
  available : g.Available b done y
  used : ∃ u p, g.node? u = some p ∧ y ∈ p.inputs ∧ u ∉ g.passed b done

namespace Live

/-- Nothing is live when the first block is entered. -/
theorem not_start : ¬g.Live 0 [] y := fun h => not_available_start h.available

theorem of_append (h : g.Live b (done ++ [id]) y) (hne : y ≠ id) : g.Live b done y := by
  obtain ⟨havailable, u, p, hu, hy, hnot⟩ := h
  refine ⟨havailable.of_append.resolve_right hne, u, p, hu, hy, fun hmem => hnot ?_⟩
  rw [passed_append]
  exact List.mem_append_left _ hmem

/-- What is live when a block is entered was live at the end of the block before. -/
theorem of_edge (h : g.Live c [] y) (hedge : g.Edge b c) (hlt : b < c) :
    g.Live b (g.members b) y := by
  obtain ⟨havailable, u, p, hu, hy, hnot⟩ := h
  refine ⟨havailable.of_edge hedge, u, p, hu, hy, fun hmem => hnot ?_⟩
  rw [passed, List.append_nil]
  rcases List.mem_append.mp hmem with hmem | hmem
  · obtain ⟨d, hd, hud⟩ := List.mem_flatMap.mp hmem
    exact List.mem_flatMap.mpr ⟨d, List.mem_range.mpr (Nat.lt_trans (List.mem_range.mp hd) hlt), hud⟩
  · exact List.mem_flatMap.mpr ⟨b, List.mem_range.mpr hlt, hmem⟩

end Live

/-- The inputs of the node that comes next are live. -/
theorem live_of_input {n : Node} {v : Nat} (hscoped : g.Scoped)
    (hmembers : g.members b = done ++ id :: rest) (hn : g.nodes[id]? = some ⟨b, n⟩)
    (hv : v ∈ n.inputs) : g.Live b done v := by
  have hb := blockOf?_lt (blockOf?_eq_some.mpr ⟨n, hn⟩)
  obtain ⟨back, hlayout⟩ := layout_at hb hmembers
  have href : v ∈ n.references := List.mem_append_left _ hv
  exact ⟨available_of_reference hscoped hmembers hn href, id, n, node?_eq_some.mpr ⟨b, hn⟩, hv,
    notMem_passed hlayout⟩

end Graph

/-- Further inputs leave the output as it is. -/
theorem Constraint.output?_inputs (c : Constraint) (k : Nat) (q : Requirement) :
    (c.inputs k q).output? = c.output? := by
  unfold Constraint.inputs
  induction k with
  | zero => rfl
  | succ k ih =>
      rw [Nat.fold_succ, ← ih, Constraint.input, Constraint.add, output?, output?,
        List.find?_append]
      simp

theorem Family.output?_of_isTerminator {f : Family} (h : f.isTerminator = true) (n : Node) :
    (f.constraint n).output? = none := by
  cases f
  case ret => exact Constraint.output?_inputs _ _ _
  all_goals first | rfl | exact absurd h (by decide)

namespace Emission

open Machine

variable {g : Graph} {forced : List (Nat × Reg)} {a : Allocation} {config : Config} {code : Code}
  {b c id y : Nat} {n : Node} {block : Block} {f : Family} {x : Assignment} {r : Reg}
  {done rest bs : List Nat}

/-- A graph whose values are in scope and whose edges go forward, with registers and code for it.
Nothing is forced into the state register. -/
structure Compiled (g : Graph) (forced : List (Nat × Reg)) (a : Allocation) (config : Config)
    (code : Code) : Prop where
  flawless : g.flaw? = none
  terminated : g.Terminated
  forward : g.Forward
  inScope : g.Scoped
  nonempty : 0 < g.blocks.size
  unforced : ∀ p ∈ forced, p.2 ≠ .gpr Gpr.state
  allocated : Pool.allocate forced g = .ok a
  emitted : emit g a config = .ok code

/-- A node in its block, with the family and the registers for which code was emitted. -/
structure Coded (g : Graph) (a : Allocation) (config : Config) (b id : Nat) (n : Node)
    (block : Block) (f : Family) (x : Assignment) : Prop where
  node : g.nodes[id]? = some ⟨b, n⟩
  found : g.block? b = some block
  family : n.op.family? = some f
  assigned : Assigned a id n (f.constraint n) x
  met : (f.constraint n).Met x
  emitted : f.emit (siteOf g b block n x) = .ok (chunk g a config id)

theorem Compiled.coded (h : Compiled g forced a config code) (hn : g.nodes[id]? = some ⟨b, n⟩) :
    ∃ block f x, Coded g a config b id n block f x := by
  have hb := Graph.blockOf?_lt (Graph.blockOf?_eq_some.mpr ⟨n, hn⟩)
  have hblock : g.block? b = some g.blocks[b] := by
    rw [Graph.block?, Array.getElem?_eq_getElem hb]
  obtain ⟨f, x, hf, hassigned, hmet, hemit⟩ :=
    emitNode_ok ((emit_ok h.emitted).2 id b n _ hn hblock)
  exact ⟨_, f, x, hn, hblock, hf, hassigned, hmet, hemit⟩

/-- Control falls through to the next block only. -/
theorem fallthrough_eq (h : (siteOf g b block n x).fallthrough = some c) : b + 1 = c := by
  change (if b + 1 < g.blocks.size then some (b + 1) else none) = some c at h
  split at h
  · exact Option.some.inj h
  · exact absurd h (by simp)

namespace Coded

/-- The output is where the allocation says. -/
theorem output (h : Coded g a config b id n block f x) (hr : x.output = some r) :
    a.get? id = some r := by
  cases hout : (f.constraint n).output? with
  | none => exact absurd (h.assigned.noOutput hout) (by simp [hr])
  | some q =>
      obtain ⟨r', hr', hget⟩ := h.assigned.output (by rw [hout]; rfl)
      rw [hr] at hr'
      rw [hget, hr']

/-- A temporary is fixed by the constraint, or it is where the allocation says. -/
theorem scratch (h : Coded g a config b id n block f x) (hr : r ∈ x.scratches) :
    ∃ d ∈ (f.constraint n).ofRole .scratch,
      d.requirement.fixed? = some r ∨ a.scratch? id d.index = some r := by
  obtain ⟨d, hd, hloc⟩ := exists_of_forall₂_right h.assigned.scratches hr
  refine ⟨d, hd, ?_⟩
  unfold scratchLocation at hloc
  split at hloc
  · next q hq =>
      rw [hq, ← Except.ok.inj hloc]
      exact .inl rfl
  · split at hloc
    · next q hq => exact .inr (hq.trans (congrArg some (Except.ok.inj hloc)))
    · exact absurd hloc (by simp)

theorem mem_overwritten {c : Constraint} {d : Demand} (hd : d ∈ c.ofRole .scratch)
    (hr : d.requirement.fixed? = some r) : r ∈ c.overwritten := by
  obtain ⟨hd, hrole⟩ := List.mem_filter.mp hd
  refine List.mem_filterMap.mpr ⟨d, List.mem_filter.mpr ⟨hd, ?_⟩, hr⟩
  rw [of_decide_eq_true hrole]
  rfl

/-- Apart from a return, the instructions of a node write what the allocator takes them to write. -/
theorem written (h : Coded g a config b id n block f x) (hf : f ≠ .ret) :
    (siteOf g b block n x).written f ⊆ Pool.written a ⟨id, n, f.constraint n⟩ := by
  intro r hr
  rw [Site.written, if_neg hf, List.append_nil, List.mem_append, List.mem_append] at hr
  rw [Pool.written, List.mem_append, List.mem_append]
  rcases hr with (hr | hr) | hr
  · exact .inl (.inl hr)
  · refine .inl (.inr (Option.mem_toList.mpr (h.output ?_)))
    exact Option.mem_toList.mp hr
  · obtain ⟨d, hd, hfixed | hget⟩ := h.scratch hr
    · exact .inl (.inl (mem_overwritten hd hfixed))
    · exact .inr (List.mem_filterMap.mpr ⟨d, hd, hget⟩)

/-- The instructions of a node never write the register of the state. -/
theorem state_notMem_written (h : Coded g a config b id n block f x)
    (hc : Compiled g forced a config code) (hf : f ≠ .state) :
    .gpr Gpr.state ∉ (siteOf g b block n x).written f := by
  intro hr
  rw [Site.written, List.mem_append, List.mem_append, List.mem_append] at hr
  rcases hr with ((hr | hr) | hr) | hr
  · obtain ⟨d, hd, hfixed⟩ := List.mem_filterMap.mp hr
    exact hf (Pool.demand_of_state (List.mem_filter.mp hd).1 hfixed).1
  · have hget := h.output (Option.mem_toList.mp hr)
    have hop := Pool.op_of_state_register hc.allocated hc.unforced
      (Graph.node?_eq_some.mpr ⟨b, h.node⟩) hget
    have hfamily := h.family
    rw [hop] at hfamily
    exact hf (Option.some.inj hfamily).symm
  · obtain ⟨d, hd, hfixed | hget⟩ := h.scratch hr
    · exact hf (Pool.demand_of_state (List.mem_filter.mp hd).1 hfixed).1
    · exact Pool.scratch?_ne_state hc.allocated id d.index hget
  · split at hr
    · exact absurd hr (by decide)
    · exact absurd hr List.not_mem_nil

/-- The register of the state keeps what it holds. -/
theorem gpr_state (h : Coded g a config b id n block f x)
    (hc : Compiled g forced a config code) (m : Machine) :
    (exec (chunk g a config id) m).2.gpr Gpr.state = m.gpr Gpr.state := by
  by_cases hf : f = .state
  · subst hf
    rw [← Except.ok.inj h.emitted]
    rfl
  · exact (Family.exec_changes h.emitted m).gprs _ (h.state_notMem_written hc hf)

/-- A terminator has no value. -/
theorem not_allocated (h : Coded g a config b id n block f x)
    (hc : Compiled g forced a config code) (hterm : n.op.isTerminator = true) :
    a.get? id = none := by
  rw [(Operator.of_family? h.family).1] at hterm
  by_contra hne
  obtain ⟨r, hr⟩ := Option.ne_none_iff_exists'.mp hne
  have hout := Pool.output?_of_get? hc.allocated (Graph.node?_eq_some.mpr ⟨b, h.node⟩) h.family hr
  rw [Family.output?_of_isTerminator hterm] at hout
  exact absurd hout (by decide)

/-- A value that stays live keeps its register. -/
theorem kept (h : Coded g a config b id n block f x) (hc : Compiled g forced a config code)
    (hf : f ≠ .ret) (hwalk : g.Walk bs b) (hmembers : g.members b = done ++ id :: rest)
    (hlive : g.Live b (done ++ [id]) y) (hne : y ≠ id) (hr : a.get? y = some r) (m : Machine) :
    (exec (chunk g a config id) m).2.word r = m.word r := by
  have hb := Graph.blockOf?_lt (Graph.blockOf?_eq_some.mpr ⟨n, h.node⟩)
  obtain ⟨back, hlayout⟩ := Graph.layout_at hb hmembers
  obtain ⟨u, p, hu, hy, hnot⟩ := hlive.used
  obtain ⟨d, hd⟩ := Graph.node?_eq_some.mp hu
  have hbefore := Graph.precedes_of_passed hlayout
    ((hlive.of_append hne).available.passed hc.forward hwalk)
  have hafter := Graph.precedes_of_not_passed hlayout hnot
  refine (Family.exec_changes h.emitted m).words r fun hmem => ?_
  exact Pool.notMem_written hc.allocated h.node hd hy hbefore hafter hr h.family (h.written hf hmem)

end Coded

/-- What is said of the live values holds of the words in their registers. -/
def Holds (g : Graph) (a : Allocation) (P : Nat → Word → Prop) (b : Nat) (done : List Nat)
    (m : Machine) : Prop :=
  ∀ y r, g.Live b done y → a.get? y = some r → P y (m.word r)

namespace Holds

variable {P Q : Nat → Word → Prop} {m : Machine}

theorem start (m : Machine) : Holds g a P 0 [] m := fun _ _ hlive _ => absurd hlive Graph.Live.not_start

/-- The operands of the next node are in its input registers. -/
theorem operands (h : Holds g a P b done m) (hp : Coded g a config b id n block f x)
    (hc : Compiled g forced a config code) (hmembers : g.members b = done ++ id :: rest) :
    List.Forall₂ P n.inputs ((siteOf g b block n x).inputs.map m.word) := by
  change List.Forall₂ _ _ ((x.inputs.map Prod.snd).map m.word)
  rw [List.map_map, List.forall₂_map_right_iff]
  have hlive : ∀ v ∈ n.inputs, g.Live b done v :=
    fun v hv => Graph.live_of_input hc.inScope hmembers hp.node hv
  refine ((List.forall₂_and_left _ _).mpr ⟨hlive, hp.assigned.inputs⟩).imp ?_
  rintro v ⟨v', r⟩ ⟨hv, rfl, hr⟩
  exact h v' r hv hr

/-- After a node it is enough to know its own value. -/
theorem step (h : Holds g a P b done m) (hp : Coded g a config b id n block f x)
    (hc : Compiled g forced a config code) (hf : f ≠ .ret) (hwalk : g.Walk bs b)
    (hmembers : g.members b = done ++ id :: rest) (hother : ∀ y w, y ≠ id → P y w → Q y w)
    (hown : ∀ r, a.get? id = some r → Q id ((exec (chunk g a config id) m).2.word r)) :
    Holds g a Q b (done ++ [id]) (exec (chunk g a config id) m).2 := by
  intro y r hlive hr
  by_cases hne : y = id
  · subst hne
    exact hown r hr
  · rw [hp.kept hc hf hwalk hmembers hlive hne hr]
    exact hother y _ hne (h y r (hlive.of_append hne) hr)

/-- A block is entered with the values of the block before. -/
theorem enter (h : Holds g a P b (g.members b) m) (hedge : g.Edge b c) (hforward : g.Forward) :
    Holds g a P c [] m := fun y r hlive hr => h y r (hlive.of_edge hedge (hforward b c hedge)) hr

end Holds

end Emission

end Isel
