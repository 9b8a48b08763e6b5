import Isel.Proofs.Families
import Isel.Proofs.Layout
import Isel.Proofs.PoolSteps
import Mathlib.Data.List.Induction

/-! What an allocation promises. A value keeps its register until its last use along the layout, and
nothing but the state of memory is ever in the register in which that state arrives. -/

namespace Isel.Pool

variable {g : Graph} {is : List Item} {a : Allocation} {forced : List (Nat × Reg)} {s : State}

/-- A node of the graph with the constraint of its family. -/
structure Item.Of (g : Graph) (i : Item) : Prop where
  node : g.node? i.id = some i.node
  constraint : ∃ f, i.node.op.family? = some f ∧ i.constraint = f.constraint i.node

theorem items_ok (h : items g = .ok is) : is.map Item.id = g.layout ∧ ∀ i ∈ is, i.Of g := by
  have hitems := mapM_eq_ok.mp h
  have hitem {entry : Nat × Node} {i : Item}
      (hi : (do return ⟨entry.1, entry.2, ← entry.2.constraint⟩ : Except Error Item) = .ok i) :
      i.id = entry.1 ∧ i.node = entry.2 ∧ entry.2.constraint = .ok i.constraint := by
    obtain ⟨c, hc, hpure⟩ := bind_eq_ok.mp hi
    obtain rfl := Except.ok.inj hpure
    exact ⟨rfl, rfl, hc⟩
  refine ⟨?_, fun i hi => ?_⟩
  · have hids : List.Forall₂ (· = ·) (g.entries.map Prod.fst) (is.map Item.id) := by
      rw [List.forall₂_map_left_iff, List.forall₂_map_right_iff]
      exact hitems.imp fun entry i hi => (hitem hi).1.symm
    rw [List.forall₂_eq_eq_eq] at hids
    rw [← Graph.entries_map_fst, hids]
  · obtain ⟨entry, hentry, hi⟩ := exists_of_forall₂_right hitems hi
    obtain ⟨hid, hnode, hconstraint⟩ := hitem hi
    obtain ⟨d, hd, hpure⟩ := bind_eq_ok.mp hconstraint
    obtain ⟨k, -, hk⟩ := List.mem_filterMap.mp hentry
    obtain ⟨m, hm, heq⟩ := Option.map_eq_some_iff.mp hk
    obtain rfl := heq
    refine ⟨by rw [hid, hnode]; exact hm, d.family, ?_, ?_⟩
    · rw [hnode]
      exact Emission.require_ok hd
    · rw [hnode]
      exact (Except.ok.inj hpure).symm

/-- The item of a node stands where the node does in the layout. -/
theorem item_at (h : items g = .ok is) {id b : Nat} {n : Node} (hn : g.nodes[id]? = some ⟨b, n⟩) :
    ∃ i, is[g.layout.idxOf id]? = some i ∧ i.id = id ∧ i.node = n ∧ i.Of g := by
  obtain ⟨hids, hof⟩ := items_ok h
  have hmem : id ∈ g.layout := Graph.mem_layout.mpr ⟨b, Graph.blockOf?_eq_some.mpr ⟨n, hn⟩⟩
  have hget : (is.map Item.id)[g.layout.idxOf id]? = some id := by
    rw [hids]
    exact List.getElem?_idxOf hmem
  rw [List.getElem?_map, Option.map_eq_some_iff] at hget
  obtain ⟨i, hi, rfl⟩ := hget
  have hi' := hof i (List.mem_of_getElem? hi)
  refine ⟨i, hi, rfl, ?_, hi'⟩
  have hnode := hi'.node
  rw [Graph.node?_eq_some.mpr ⟨b, hn⟩] at hnode
  exact (Option.some.inj hnode).symm

theorem get?_setAll (vs : List Nat) (t : Table Nat Nat) (p v : Nat) :
    (vs.foldl (fun t v => t.set v p) t).get? v = if v ∈ vs then some p else t.get? v := by
  induction vs generalizing t with
  | nil => rfl
  | cons u vs ih =>
      rw [List.foldl_cons, ih, Table.get?_set]
      by_cases hu : v = u <;> by_cases hvs : v ∈ vs <;> simp [hu, hvs]

/-- The last use of an input is not before it is used. -/
theorem lastUses_le {p v : Nat} {i : Item} (hi : is[p]? = some i) (hv : v ∈ i.node.inputs) :
    ∃ last, (lastUses is).get? v = some last ∧ p ≤ last := by
  have hmem : (i, p) ∈ is.zipIdx := List.mem_zipIdx_iff_getElem?.mpr hi
  have hsorted : is.zipIdx.Pairwise fun e e' => e.2 ≤ e'.2 := by
    rw [List.pairwise_iff_getElem]
    intro k l hk hl hkl
    simp only [List.getElem_zipIdx]
    omega
  unfold lastUses
  generalize is.zipIdx = es at hmem hsorted
  -- the last entry decides, unless the value is not among its inputs
  induction es using List.reverseRecOn with
  | nil => exact absurd hmem List.not_mem_nil
  | append_singleton es e ih =>
      obtain ⟨hes, -, hlast⟩ := List.pairwise_append.mp hsorted
      have hle : p ≤ e.2 := by
        rcases List.mem_append.mp hmem with hmem | hmem
        · exact hlast _ hmem e (List.mem_singleton_self e)
        · exact Nat.le_of_eq (congrArg Prod.snd (List.mem_singleton.mp hmem))
      rw [List.foldl_append, List.foldl_cons, List.foldl_nil, get?_setAll]
      split
      · exact ⟨e.2, rfl, hle⟩
      · next hnot =>
          refine ih ((List.mem_append.mp hmem).resolve_right fun hmem => hnot ?_) hes
          rw [← List.mem_singleton.mp hmem]
          exact hv

/-- What an accepted allocation has been checked for. -/
structure Allocates (forced : List (Nat × Reg)) (g : Graph) (a : Allocation) (is : List Item)
    (s : State) : Prop where
  items : items g = .ok is
  run : is.zipIdx.foldlM (step (pins forced is) (lastUses is)) (State.initial (pins forced is)) = .ok s
  allocation : a = s.allocation
  kept : ∀ e ∈ is.zipIdx, overwrittenAt? a (lastUses is) is e = none

theorem allocate_ok (h : allocate forced g = .ok a) : ∃ is s, Allocates forced g a is s := by
  obtain ⟨is, his, h⟩ := bind_eq_ok.mp h
  obtain ⟨s, hs, h⟩ := bind_eq_ok.mp h
  split at h
  · exact absurd h (by simp)
  · next hnone =>
      obtain rfl := Except.ok.inj h
      exact ⟨is, s, his, hs, rfl, List.findSome?_eq_none_iff.mp hnone⟩

/-- A value that is used later is not overwritten. -/
theorem notMem_written (h : allocate forced g = .ok a) {y id u b c : Nat} {n p : Node} {r : Reg} {f : Family}
    (hid : g.nodes[id]? = some ⟨b, n⟩) (hu : g.nodes[u]? = some ⟨c, p⟩) (hy : y ∈ p.inputs)
    (hbefore : g.Precedes y id) (hafter : g.Precedes id u) (hr : a.get? y = some r)
    (hf : n.op.family? = some f) : r ∉ written a ⟨id, n, f.constraint n⟩ := by
  obtain ⟨is, s, hallocates⟩ := allocate_ok h
  obtain ⟨i, hi, rfl, rfl, -, f', hf', hc⟩ := item_at hallocates.items hid
  obtain ⟨j, hj, rfl, rfl, -⟩ := item_at hallocates.items hu
  obtain rfl := Option.some.inj (hf.symm.trans hf')
  have hlt : g.layout.idxOf y < g.layout.length :=
    Nat.lt_of_lt_of_le hbefore (List.idxOf_le_length ..)
  have hget : (is.map Item.id)[g.layout.idxOf y]? = some y := by
    rw [(items_ok hallocates.items).1, List.getElem?_idxOf (List.idxOf_lt_length_iff.mp hlt)]
  rw [List.getElem?_map, Option.map_eq_some_iff] at hget
  obtain ⟨earlier, hearlier, rfl⟩ := hget
  have hmem : earlier ∈ is.take (g.layout.idxOf i.id) := by
    rw [← List.getElem?_take_of_lt hbefore] at hearlier
    exact List.mem_of_getElem? hearlier
  obtain ⟨last, hlast, hle⟩ := lastUses_le hj hy
  have hkept := hallocates.kept (i, g.layout.idxOf i.id) (List.mem_zipIdx_iff_getElem?.mpr hi)
  have hnone := List.findSome?_eq_none_iff.mp hkept earlier hmem
  rw [hr, hlast] at hnone
  intro hwritten
  have hcond : g.layout.idxOf i.id < last ∧ (written a i).contains r = true := by
    refine ⟨Nat.lt_of_lt_of_le hafter hle, List.contains_iff_mem.mpr ?_⟩
    rw [← hc] at hwritten
    exact hwritten
  simp only [if_pos hcond] at hnone
  exact absurd hnone (by simp)

/-- Registers have been given to values that are outputs, and the state register only where it is
pinned. -/
structure State.Sound (is : List Item) (pinned : Table Nat Reg) (s : State) : Prop where
  free : ∀ r ∈ s.free, r ≠ .gpr Gpr.state
  output : ∀ id r, s.allocation.get? id = some r → ∃ i ∈ is, i.id = id ∧ i.constraint.output?.isSome = true
  value : ∀ id r, s.allocation.get? id = some r → pinned.get? id = some r ∨ r ≠ .gpr Gpr.state
  scratch : ∀ id k r, s.allocation.scratch? id k = some r → r ≠ .gpr Gpr.state

namespace State.Sound

variable {pinned : Table Nat Reg} {s s' : State}

theorem initial (is : List Item) (pinned : Table Nat Reg) : (State.initial pinned).Sound is pinned where
  free r hr := by
    have hpool : ∀ r ∈ registers, r ≠ .gpr Gpr.state := by decide
    exact hpool r (mem_registers hr)
  output id r h := absurd h (by simp [Allocation.get?, State.initial])
  value id r h := absurd h (by simp [Allocation.get?, State.initial])
  scratch id k r h := absurd h (by simp [Allocation.scratch?, State.initial])

theorem step (h : s.Sound is pinned) {e : Item × Nat} {lastUse : Table Nat Nat} (he : e.1 ∈ is)
    (hstep : Pool.step pinned lastUse s e = .ok s') : s'.Sound is pinned := by
  obtain ⟨hvalues, hscratches⟩ := step_entries hstep
  have hvalue : ∀ id r, s'.allocation.get? id = some r → pinned.get? id = some r ∨ r ≠ .gpr Gpr.state := by
    intro id r hr
    rcases hvalues id r hr with hold | ⟨-, -, hpinned | ⟨-, hfree⟩⟩
    · exact h.value id r hold
    · exact .inl hpinned
    · exact .inr (h.free r hfree)
  refine ⟨fun r hr => ?_, fun id r hr => ?_, hvalue, fun id k r hr => ?_⟩
  · rcases mem_free_of_step hstep hr with hfree | ⟨v, hnone, hget⟩
    · exact h.free r hfree
    · exact (hvalue v r hget).resolve_left fun hpinned => absurd (hnone.symm.trans hpinned) (by simp)
  · rcases hvalues id r hr with hold | ⟨rfl, hout, -⟩
    · exact h.output id r hold
    · exact ⟨e.1, he, rfl, hout⟩
  · rcases hscratches id k r hr with hold | ⟨-, hfree⟩
    · exact h.scratch id k r hold
    · exact h.free r hfree

theorem run (h : s.Sound is pinned) {es : List (Item × Nat)} {lastUse : Table Nat Nat}
    (hes : ∀ e ∈ es, e.1 ∈ is) (hrun : es.foldlM (Pool.step pinned lastUse) s = .ok s') :
    s'.Sound is pinned := by
  induction es generalizing s with
  | nil => exact Except.ok.inj hrun ▸ h
  | cons e es ih =>
      rw [List.foldlM_cons] at hrun
      obtain ⟨s₁, hstep, hrun⟩ := bind_eq_ok.mp hrun
      obtain ⟨he, hes⟩ := List.forall_mem_cons.mp hes
      exact ih (h.step he hstep) hes hrun

end State.Sound

theorem sound_of_allocate (h : Allocates forced g a is s) : s.Sound is (pins forced is) := by
  refine (State.Sound.initial is (pins forced is)).run (fun e he => ?_) h.run
  exact List.mem_of_getElem? (List.mem_zipIdx_iff_getElem?.mp he)

theorem demands_inputs (c : Constraint) (k : Nat) (q : Requirement) :
    ∀ d ∈ (c.inputs k q).demands, d ∈ c.demands ∨ d.requirement = q := by
  unfold Constraint.inputs
  induction k with
  | zero => exact fun d hd => .inl hd
  | succ k ih =>
      intro d hd
      rw [Nat.fold_succ] at hd
      rcases List.mem_append.mp hd with hd | hd
      · exact ih d hd
      · rw [List.mem_singleton.mp hd]
        exact .inr rfl

/-- The registers besides that of the state that a constraint may ask for by name. -/
def fixedRegs : List Reg :=
  [.gpr .rax, .gpr .rcx, .gpr .rdx, .gpr Gpr.scratch, .xmm .xmm0, .xmm Xmm.scratch, .xmm Xmm.maskScratch]

theorem fixed_demand {f : Family} {n : Node} {d : Demand} {r : Reg} (hd : d ∈ (f.constraint n).demands)
    (hfixed : d.requirement.fixed? = some r) :
    (f = .state ∧ d.role = .output ∧ r = .gpr Gpr.state) ∨ r ∈ fixedRegs := by
  have hlisted {P : Prop} (hall : ((f.constraint n).demands.all fun d =>
      d.requirement.fixed?.all (fixedRegs.contains ·)) = true) : P ∨ r ∈ fixedRegs := by
    have hd := List.all_eq_true.mp hall d hd
    rw [hfixed] at hd
    exact .inr (List.contains_iff_mem.mp hd)
  cases f
  case ret =>
    rcases demands_inputs _ _ _ d hd with hd | hd
    · exact absurd hd List.not_mem_nil
    · rw [hd] at hfixed
      exact absurd hfixed (by simp [Requirement.fixed?])
  case state =>
    rw [List.mem_singleton.mp hd] at hfixed ⊢
    exact .inl ⟨rfl, rfl, (Option.some.inj hfixed).symm⟩
  case arith =>
    refine hlisted ?_
    simp only [Family.constraint]
    cases n.op.isCommutativeInt <;> rfl
  case division =>
    refine hlisted ?_
    simp only [Family.constraint]
    have hout : n.op.divisionOutput = .rax ∨ n.op.divisionOutput = .rdx := by
      unfold Operator.divisionOutput
      split
      · split
        · exact .inr rfl
        · exact .inl rfl
      · exact .inl rfl
    rcases hout with hout | hout <;> rw [hout] <;> rfl
  case floatBinary =>
    refine hlisted ?_
    simp only [Family.constraint]
    split
    · rfl
    · next w op _ _ => cases op.isCommutative <;> rfl
    · rfl
  case floatUnary =>
    refine hlisted ?_
    simp only [Family.constraint]
    split <;> rfl
  all_goals exact hlisted rfl

/-- Only the state itself has to be in the state register. -/
theorem demand_of_state {f : Family} {n : Node} {d : Demand} (hd : d ∈ (f.constraint n).demands)
    (hfixed : d.requirement.fixed? = some (.gpr Gpr.state)) : f = .state ∧ d.role = .output := by
  rcases fixed_demand hd hfixed with ⟨hf, hrole, -⟩ | hmem
  · exact ⟨hf, hrole⟩
  · exact absurd hmem (by decide)

/-- What an item pins to the state register is its own value, and the item is that state. -/
theorem op_of_pinsOf {i : Item} (hi : i.Of g) {v : Nat} (h : (v, Reg.gpr Gpr.state) ∈ pinsOf i) :
    v = i.id ∧ i.node.op = .state := by
  obtain ⟨f, hf, hc⟩ := hi.constraint
  rw [pinsOf, hc] at h
  rcases List.mem_append.mp h with h | h
  · obtain ⟨r, hr, heq⟩ := Option.map_eq_some_iff.mp (Option.mem_toList.mp h)
    obtain ⟨rfl, rfl⟩ := Prod.mk.inj heq
    obtain ⟨q, hq, hfixed⟩ := Option.bind_eq_some_iff.mp hr
    obtain ⟨d, hd, rfl⟩ := Option.map_eq_some_iff.mp hq
    obtain ⟨rfl, -⟩ := demand_of_state (List.mem_of_find?_eq_some hd) hfixed
    exact ⟨rfl, (Operator.of_family? hf).2⟩
  · obtain ⟨d, hd, hget⟩ := List.mem_filterMap.mp h
    obtain ⟨v', -, hget⟩ := Option.bind_eq_some_iff.mp hget
    obtain ⟨r, hr, heq⟩ := Option.bind_eq_some_iff.mp hget
    obtain ⟨rfl, rfl⟩ := Prod.mk.inj (Option.some.inj heq)
    obtain ⟨hd, hrole⟩ := List.mem_filter.mp hd
    obtain ⟨-, hout⟩ := demand_of_state hd hr
    rw [hout] at hrole
    exact absurd hrole (by decide)

/-- Folding entries into a table adds only these. -/
theorem get?_foldl {ps : List (Nat × Reg)} {set : Table Nat Reg → Nat × Reg → Table Nat Reg}
    (hset : ∀ t p k r, (set t p).get? k = some r → t.get? k = some r ∨ p = (k, r))
    {t : Table Nat Reg} {k : Nat} {r : Reg} (h : (ps.foldl set t).get? k = some r) :
    t.get? k = some r ∨ (k, r) ∈ ps := by
  induction ps generalizing t with
  | nil => exact .inl h
  | cons p ps ih =>
      rcases ih h with h | h
      · rcases hset t p k r h with h | rfl
        · exact .inl h
        · exact .inr List.mem_cons_self
      · exact .inr (List.mem_cons_of_mem p h)

/-- What is pinned to the state register, unless it is forced there, is a state. -/
theorem op_of_pins (hitems : ∀ i ∈ is, i.Of g) (hforced : ∀ p ∈ forced, p.2 ≠ .gpr Gpr.state)
    {id : Nat} (h : (pins forced is).get? id = some (.gpr Gpr.state)) :
    ∃ i ∈ is, i.id = id ∧ i.node.op = .state := by
  have hnew := get?_foldl (fun t p k r hr => ?_) h
  · rcases hnew with h | h
    · have hold := get?_foldl (fun t p k r hr => ?_) h
      · rcases hold with h | h
        · exact absurd h (by simp)
        · exact absurd rfl (hforced _ h)
      · rw [Table.get?_set] at hr
        split at hr
        · next heq => exact .inr (Prod.ext heq.symm (Option.some.inj hr))
        · exact .inl hr
    · obtain ⟨i, hi, hpin⟩ := List.mem_flatMap.mp h
      obtain ⟨rfl, hop⟩ := op_of_pinsOf (hitems i hi) hpin
      exact ⟨i, hi, rfl, hop⟩
  · rw [Table.get?_setIfNew] at hr
    split at hr
    · next heq =>
        cases hp : t.get? p.1 with
        | none =>
            rw [hp] at hr
            exact .inr (Prod.ext heq.symm (Option.some.inj hr))
        | some u =>
            rw [hp] at hr
            rw [heq, hp]
            exact .inl hr
    · exact .inl hr

/-- A value in the state register is a state. -/
theorem op_of_state_register (h : allocate forced g = .ok a)
    (hforced : ∀ p ∈ forced, p.2 ≠ .gpr Gpr.state) {id : Nat} {n : Node} (hn : g.node? id = some n)
    (hr : a.get? id = some (.gpr Gpr.state)) : n.op = .state := by
  obtain ⟨is, s, hallocates⟩ := allocate_ok h
  have hitems := (items_ok hallocates.items).2
  rw [hallocates.allocation] at hr
  have hpinned := ((sound_of_allocate hallocates).value id _ hr).resolve_right (fun hne => hne rfl)
  obtain ⟨i, hi, rfl, hop⟩ := op_of_pins hitems hforced hpinned
  rw [(hitems i hi).node] at hn
  exact Option.some.inj hn ▸ hop

theorem scratch?_ne_state (h : allocate forced g = .ok a) (id k : Nat) :
    a.scratch? id k ≠ some (.gpr Gpr.state) := by
  obtain ⟨is, s, hallocates⟩ := allocate_ok h
  rw [hallocates.allocation]
  exact fun hr => (sound_of_allocate hallocates).scratch id k _ hr rfl

/-- What has a register is an output. -/
theorem output?_of_get? (h : allocate forced g = .ok a) {id : Nat} {n : Node} {r : Reg} {f : Family}
    (hn : g.node? id = some n) (hf : n.op.family? = some f) (hr : a.get? id = some r) :
    (f.constraint n).output?.isSome = true := by
  obtain ⟨is, s, hallocates⟩ := allocate_ok h
  rw [hallocates.allocation] at hr
  obtain ⟨i, hi, rfl, hout⟩ := (sound_of_allocate hallocates).output id r hr
  obtain ⟨hnode, f', hf', hc⟩ := (items_ok hallocates.items).2 i hi
  obtain rfl := Option.some.inj (hn.symm.trans hnode)
  obtain rfl := Option.some.inj (hf.symm.trans hf')
  rw [← hc]
  exact hout

end Isel.Pool
