import Isel.Proofs.Allocation
import Isel.Proofs.Extensions
import Isel.Proofs.Registered

/-! No register of the allocator is lost and none is given out twice. A register is free, or it is
that of one value that is still to be used, and only a value that was pinned can be in a register that
is overwritten too early. -/

namespace Isel.Pool

open scoped List

variable {g : Graph} {is : List Item} {forced : List (Nat × Reg)} {pinned : Table Nat Reg}
  {s s' : State} {i : Item} {a : Allocation} {rs : List Reg} {k v u : Nat} {r : Reg}

/-! ### When values are needed -/

/-- Where a value is computed along the layout. -/
def position (is : List Item) (v : Nat) : Nat := (is.map Item.id).idxOf v

/-- The last position at which a value is needed: its last use, or its own position if nothing uses
it. -/
def due (is : List Item) (v : Nat) : Nat := ((lastUses is).get? v).getD (position is v)

/-- Every value is computed before it is used. -/
def InOrder (is : List Item) : Prop := ∀ v p, (lastUses is).get? v = some p → position is v < p

theorem position_eq (hids : (is.map Item.id).Nodup) (hi : is[k]? = some i) : position is i.id = k := by
  obtain ⟨hlt, rfl⟩ := List.getElem?_eq_some_iff.mp hi
  have hidx := hids.idxOf_getElem k (by simpa using hlt)
  rwa [List.getElem_map] at hidx

theorem id_of_position (hi : is[k]? = some i) (hv : position is v = k) : i.id = v := by
  have hlt : (is.map Item.id).idxOf v < (is.map Item.id).length := by
    obtain ⟨hlt, -⟩ := List.getElem?_eq_some_iff.mp hi
    simpa [← hv, position] using hlt
  have hget := List.getElem?_idxOf (List.idxOf_lt_length_iff.mp hlt)
  rw [show (is.map Item.id).idxOf v = k from hv, List.getElem?_map, hi] at hget
  exact Option.some.inj hget

/-- The last use of a value is at a node that has it as an input. -/
theorem input_of_lastUses {p : Nat} (h : (lastUses is).get? v = some p) :
    ∃ i, is[p]? = some i ∧ v ∈ i.node.inputs := by
  have huse : ∃ e ∈ is.zipIdx, e.2 = p ∧ v ∈ e.1.node.inputs := by
    unfold lastUses at h
    generalize is.zipIdx = es at h
    induction es using List.reverseRecOn with
    | nil => exact absurd h (by simp)
    | append_singleton es e ih =>
        rw [List.foldl_append, List.foldl_cons, List.foldl_nil, get?_setAll] at h
        split at h
        · next hmem => exact ⟨e, by simp, Option.some.inj h, hmem⟩
        · obtain ⟨e', he', huse⟩ := ih h
          exact ⟨e', List.mem_append_left _ he', huse⟩
  obtain ⟨e, he, rfl, hmem⟩ := huse
  exact ⟨e.1, List.mem_zipIdx_iff_getElem?.mp he, hmem⟩

theorem InOrder.position_le_due (h : InOrder is) (v : Nat) : position is v ≤ due is v := by
  unfold due
  cases hlast : (lastUses is).get? v with
  | none => exact Nat.le_refl _
  | some p => exact Nat.le_of_lt (h v p hlast)

theorem nodup_eraseDups : (vs : List Nat) → vs.eraseDups.Nodup
  | [] => List.nodup_nil
  | v :: vs => by
    rw [List.eraseDups_cons, List.nodup_cons]
    exact ⟨by simp [List.mem_eraseDups], nodup_eraseDups _⟩
termination_by vs => vs.length
decreasing_by exact Nat.lt_succ_of_le (List.length_filter_le ..)

theorem nodup_dying (lastUse : Table Nat Nat) (p : Nat) (i : Item) : (dying lastUse p i).Nodup :=
  nodup_eraseDups _

/-- What dies at a position is what is needed there for the last time. -/
theorem mem_dying (hids : (is.map Item.id).Nodup) (hi : is[k]? = some i) :
    v ∈ dying (lastUses is) k i ↔ due is v = k := by
  have hmem : v ∈ dying (lastUses is) k i ↔
      (v ∈ i.node.inputs ∧ (lastUses is).get? v = some k) ∨
        ((lastUses is).get? i.id = none ∧ v = i.id) := by
    simp only [dying, List.mem_eraseDups, List.mem_mergeSort, List.mem_append, List.mem_filter,
      decide_eq_true_eq, Table.contains]
    rcases Option.eq_none_or_eq_some ((lastUses is).get? i.id) with hnone | ⟨p, hsome⟩
    · simp [hnone]
    · simp [hsome]
  rw [hmem, due]
  cases hlast : (lastUses is).get? v with
  | none =>
      constructor
      · rintro (⟨-, hsome⟩ | ⟨-, rfl⟩)
        · exact absurd hsome (by simp)
        · exact position_eq hids hi
      · intro hpos
        obtain rfl := id_of_position hi hpos
        exact .inr ⟨hlast, rfl⟩
  | some p =>
      constructor
      · rintro (⟨-, hsome⟩ | ⟨hnone, rfl⟩)
        · exact Option.some.inj hsome
        · exact absurd (hlast.symm.trans hnone) (by simp)
      · rintro rfl
        obtain ⟨j, hj, huse⟩ := input_of_lastUses hlast
        obtain rfl := Option.some.inj (hi.symm.trans hj)
        exact .inl ⟨huse, rfl⟩

/-! ### Free and held registers -/

/-- An unpinned value is in a register that it needs at or after a position. -/
structure Holds (pinned : Table Nat Reg) (is : List Item) (k : Nat) (a : Allocation) (v : Nat)
    (r : Reg) : Prop where
  unpinned : pinned.get? v = none
  get : a.get? v = some r
  le_due : k ≤ due is v

/-- Registers come from the pool, are free once, and are held by at most one value. If values are
computed in order, no register of the pool is lost. -/
structure Balanced (pinned : Table Nat Reg) (is : List Item) (k : Nat) (free : List Reg)
    (a : Allocation) : Prop where
  nodup : free.Nodup
  pool : ∀ r ∈ free, r ∈ (State.initial pinned).free
  home : ∀ v r, pinned.get? v = none → a.get? v = some r → r ∈ (State.initial pinned).free
  held : ∀ v r, Holds pinned is k a v r → r ∉ free
  unique : ∀ v w r, Holds pinned is k a v r → Holds pinned is k a w r → v = w
  covered : InOrder is → ∀ r ∈ (State.initial pinned).free, r ∈ free ∨ ∃ v, Holds pinned is k a v r

theorem Holds.of_set {w : Nat} {q : Reg} (h : Holds pinned is k (a.set v r) w q) :
    (w = v ∧ q = r) ∨ Holds pinned is k a w q :=
  (Allocation.get?_of_set h.get).imp_right fun hget => ⟨h.unpinned, hget, h.le_due⟩

theorem Holds.set {w : Nat} {q : Reg} (h : Holds pinned is k a w q) (hne : w ≠ v) :
    Holds pinned is k (a.set v r) w q :=
  ⟨h.unpinned, (Allocation.get?_set_of_ne hne).trans h.get, h.le_due⟩

theorem Holds.congr {a' : Allocation} (heq : ∀ v, a'.get? v = a.get? v)
    (h : Holds pinned is k a v r) : Holds pinned is k a' v r :=
  ⟨h.unpinned, (heq v).trans h.get, h.le_due⟩

theorem Holds.mono (h : Holds pinned is (k + 1) a v r) : Holds pinned is k a v r :=
  ⟨h.unpinned, h.get, Nat.le_of_succ_le h.le_due⟩

namespace Balanced

theorem congr {rs' : List Reg} {a' : Allocation} (h : Balanced pinned is k rs a) (hperm : rs' ~ rs)
    (heq : ∀ v, a'.get? v = a.get? v) : Balanced pinned is k rs' a' where
  nodup := hperm.nodup_iff.mpr h.nodup
  pool r hr := h.pool r (hperm.mem_iff.mp hr)
  home v r hv hr := h.home v r hv ((heq v).symm.trans hr)
  held v r hold hr := h.held v r (hold.congr fun v => (heq v).symm) (hperm.mem_iff.mp hr)
  unique v w r hv hw := h.unique v w r (hv.congr fun v => (heq v).symm) (hw.congr fun v => (heq v).symm)
  covered horder r hr := by
    refine (h.covered horder r hr).imp hperm.mem_iff.mpr fun hold => ?_
    obtain ⟨v, hold⟩ := hold
    exact ⟨v, hold.congr heq⟩

/-- A pinned value needs no register of the pool. -/
theorem pin (h : Balanced pinned is k rs a) (hpinned : pinned.get? v = some r) :
    Balanced pinned is k rs (a.set v r) := by
  have hold {w : Nat} {q : Reg} (hw : Holds pinned is k (a.set v r) w q) : Holds pinned is k a w q := by
    rcases hw.of_set with ⟨rfl, -⟩ | hw'
    · exact absurd (hpinned.symm.trans hw.unpinned) (by simp)
    · exact hw'
  refine ⟨h.nodup, h.pool, fun w q hw hq => ?_, fun w q hw => h.held w q (hold hw),
    fun w x q hw hx => h.unique w x q (hold hw) (hold hx), fun horder q hq => ?_⟩
  · rcases Allocation.get?_of_set hq with ⟨rfl, -⟩ | hq
    · exact absurd (hpinned.symm.trans hw) (by simp)
    · exact h.home w q hw hq
  · refine (h.covered horder q hq).imp_right fun hheld => ?_
    obtain ⟨w, hw⟩ := hheld
    refine ⟨w, hw.set ?_⟩
    rintro rfl
    exact absurd (hpinned.symm.trans hw.unpinned) (by simp)

/-- A free register becomes that of a new value. -/
theorem take (h : Balanced pinned is k (r :: rs) a) (hunpinned : pinned.get? v = none)
    (hnew : a.get? v = none) (hposition : position is v = k) : Balanced pinned is k rs (a.set v r) := by
  obtain ⟨hnot, hnodup⟩ := List.nodup_cons.mp h.nodup
  have hr := h.pool r List.mem_cons_self
  -- what held a register before cannot have held the one that was free
  have hother {w : Nat} (hw : Holds pinned is k a w r) : False := h.held w r hw List.mem_cons_self
  refine ⟨hnodup, fun q hq => h.pool q (List.mem_cons_of_mem r hq), fun w q hw hq => ?_,
    fun w q hw => ?_, fun w x q hw hx => ?_, fun horder q hq => ?_⟩
  · rcases Allocation.get?_of_set hq with ⟨-, rfl⟩ | hq
    · exact hr
    · exact h.home w q hw hq
  · rcases hw.of_set with ⟨-, rfl⟩ | hw
    · exact hnot
    · exact fun hq => h.held w q hw (List.mem_cons_of_mem r hq)
  · rcases hw.of_set with ⟨rfl, rfl⟩ | hw'
    · rcases hx.of_set with ⟨rfl, -⟩ | hx'
      · rfl
      · exact (hother hx').elim
    · rcases hx.of_set with ⟨-, rfl⟩ | hx'
      · exact (hother hw').elim
      · exact h.unique w x q hw' hx'
  · by_cases heq : q = r
    · subst heq
      refine .inr ⟨v, hunpinned, Allocation.get?_set_self, ?_⟩
      rw [← hposition]
      exact horder.position_le_due v
    · rcases h.covered horder q hq with hmem | ⟨w, hw⟩
      · exact .inl ((List.mem_cons.mp hmem).resolve_left heq)
      · refine .inr ⟨w, hw.set ?_⟩
        rintro rfl
        exact absurd (hnew.symm.trans hw.get) (by simp)

/-- The registers of the values that are due are given back. -/
theorem release (h : Balanced pinned is k rs a) {vs : List Nat} (hvs : vs.Nodup)
    (hdue : ∀ v, v ∈ vs ↔ pinned.get? v = none ∧ due is v = k) :
    Balanced pinned is (k + 1) (vs.filterMap a.get? ++ rs) a := by
  have hholds {v : Nat} {r : Reg} (hv : v ∈ vs) (hr : a.get? v = some r) : Holds pinned is k a v r := by
    obtain ⟨hunpinned, hk⟩ := (hdue v).mp hv
    exact ⟨hunpinned, hr, Nat.le_of_eq hk.symm⟩
  refine ⟨?_, fun r hr => ?_, h.home, fun v r hv hr => ?_,
    fun v w r hv hw => h.unique v w r hv.mono hw.mono, fun horder r hr => ?_⟩
  · refine List.Nodup.append ?_ h.nodup fun r hfreed hfree => ?_
    · rw [List.Nodup, List.pairwise_filterMap]
      refine hvs.imp_of_mem fun {v w} hv hw hne r hr q hq heq => hne ?_
      exact h.unique v w r (hholds hv hr) (hholds hw (heq ▸ hq))
    · obtain ⟨v, hv, hr⟩ := List.mem_filterMap.mp hfreed
      exact h.held v r (hholds hv hr) hfree
  · rcases List.mem_append.mp hr with hr | hr
    · obtain ⟨v, hv, hr⟩ := List.mem_filterMap.mp hr
      exact h.home v r (hholds hv hr).unpinned hr
    · exact h.pool r hr
  · rcases List.mem_append.mp hr with hr | hr
    · obtain ⟨w, hw, hr⟩ := List.mem_filterMap.mp hr
      obtain rfl := h.unique v w r hv.mono (hholds hw hr)
      have hk := ((hdue v).mp hw).2
      have hle := hv.le_due
      omega
    · exact h.held v r hv.mono hr
  · rcases h.covered horder r hr with hfree | ⟨v, hv⟩
    · exact .inl (List.mem_append_right _ hfree)
    · by_cases hk : due is v = k
      · refine .inl (List.mem_append_left _ (List.mem_filterMap.mpr ⟨v, ?_, hv.get⟩))
        exact (hdue v).mpr ⟨hv.unpinned, hk⟩
      · have hle := hv.le_due
        exact .inr ⟨v, hv.unpinned, hv.get, by omega⟩

theorem step (h : Balanced pinned is k s.free s.allocation) (hids : (is.map Item.id).Nodup)
    (hi : is[k]? = some i) (hnew : s.allocation.get? i.id = none)
    (hstep : Pool.step pinned (lastUses is) s (i, k) = .ok s') :
    Balanced pinned is (k + 1) s'.free s'.allocation := by
  obtain ⟨s₁, hvalue, -, hfree, hvalues, -⟩ := step_ok hstep
  have hplaced : Balanced pinned is k s₁.free s₁.allocation := by
    rcases (placeValue_ok hvalue).2 with rfl | ⟨-, ⟨r, hr, rfl⟩ | ⟨hnone, r, hperm, hset⟩⟩
    · exact h
    · exact h.pin hr
    · rw [hset]
      exact (h.congr hperm.symm fun _ => rfl).take hnone hnew (position_eq hids hi)
  have hdue (v : Nat) : v ∈ (dying (lastUses is) k i).filter (fun v => !pinned.contains v) ↔
      pinned.get? v = none ∧ due is v = k := by
    rw [List.mem_filter, mem_dying hids hi, and_comm]
    simp [Table.contains]
  rw [funext hvalues] at hfree
  exact (hplaced.release ((nodup_dying _ _ _).filter _) hdue).congr hfree hvalues

end Balanced

/-! ### What has been given out -/

/-- Only nodes up to a position have been given registers. While an unpinned value is needed, no
other node gets its register, unless that node is pinned to it. -/
structure Recorded (pinned : Table Nat Reg) (is : List Item) (k : Nat) (a : Allocation) : Prop where
  value : ∀ v r, a.get? v = some r → position is v < k ∧ ∀ q, pinned.get? v = some q → q = r
  scratch : ∀ u j r, a.scratch? u j = some r → position is u < k
  kept : ∀ v u r, pinned.get? v = none → a.get? v = some r → position is v < position is u →
    position is u < due is v →
      (pinned.get? u = none → a.get? u ≠ some r) ∧ ∀ j, a.scratch? u j ≠ some r

theorem Recorded.step (h : Recorded pinned is k s.allocation)
    (hbalanced : Balanced pinned is k s.free s.allocation) (hids : (is.map Item.id).Nodup)
    (hi : is[k]? = some i) (hstep : Pool.step pinned (lastUses is) s (i, k) = .ok s') :
    Recorded pinned is (k + 1) s'.allocation := by
  obtain ⟨hvalues, hscratches⟩ := step_entries hstep
  have hposition := position_eq hids hi
  have hvalue : ∀ v r, s'.allocation.get? v = some r →
      position is v < k + 1 ∧ ∀ q, pinned.get? v = some q → q = r := by
    intro v r hr
    rcases hvalues v r hr with hold | ⟨rfl, -, hpinned | ⟨hnone, -⟩⟩
    · exact (h.value v r hold).imp_left Nat.lt_succ_of_lt
    · exact ⟨by omega, fun q hq => Option.some.inj (hq.symm.trans hpinned)⟩
    · exact ⟨by omega, fun q hq => absurd (hq.symm.trans hnone) (by simp)⟩
  have hscratch : ∀ u j r, s'.allocation.scratch? u j = some r → position is u < k + 1 := by
    intro u j r hr
    rcases hscratches u j r hr with hold | ⟨rfl, -⟩
    · exact Nat.lt_succ_of_lt (h.scratch u j r hold)
    · omega
  refine ⟨hvalue, hscratch, fun v u r hv hr hbefore hneeded => ?_⟩
  rcases hvalues v r hr with hold | ⟨rfl, -⟩
  · -- the node of this step takes what is free, and a value that is needed is not in a free register
    have hheld (hu : u = i.id) : r ∉ s.free := by
      refine hbalanced.held v r ⟨hv, hold, ?_⟩
      rw [hu] at hneeded
      omega
    obtain ⟨hvalue', hscratch'⟩ := h.kept v u r hv hold hbefore hneeded
    refine ⟨fun hu hget => ?_, fun j hget => ?_⟩
    · rcases hvalues u r hget with hget | ⟨heq, -, hpinned | ⟨-, hfree⟩⟩
      · exact hvalue' hu hget
      · exact absurd (hpinned.symm.trans hu) (by simp)
      · exact hheld heq hfree
    · rcases hscratches u j r hget with hget | ⟨heq, hfree⟩
      · exact hscratch' j hget
      · exact hheld heq hfree
  · refine ⟨fun _ hget => ?_, fun j hget => ?_⟩
    · have hlt := (hvalue u r hget).1
      omega
    · have hlt := hscratch u j r hget
      omega

/-! ### The run -/

/-- The allocator after a number of nodes. -/
def after (forced : List (Nat × Reg)) (is : List Item) (k : Nat) : Except Error State :=
  (is.zipIdx.take k).foldlM (step (pins forced is) (lastUses is)) (State.initial (pins forced is))

/-- What holds after each step. -/
structure Conserved (pinned : Table Nat Reg) (is : List Item) (k : Nat) (s : State) : Prop where
  balanced : Balanced pinned is k s.free s.allocation
  recorded : Recorded pinned is k s.allocation
  sorted : s.Sorted

theorem conserved_initial (pinned : Table Nat Reg) (is : List Item) :
    Conserved pinned is 0 (State.initial pinned) := by
  have hnone (v : Nat) : (State.initial pinned).allocation.get? v = none := rfl
  have hnothing {v : Nat} {r : Reg} : ¬Holds pinned is 0 (State.initial pinned).allocation v r :=
    fun h => absurd ((hnone v).symm.trans h.get) (by simp)
  have hnodup : registers.Nodup := by decide
  refine ⟨⟨?_, fun _ => id, fun v r _ h => ?_, fun v r h => absurd h hnothing,
    fun v w r h => absurd h hnothing, fun _ r hr => .inl hr⟩, ⟨fun v r h => ?_, fun u j r h => ?_,
    fun v u r _ h => ?_⟩, ⟨fun r hr => ?_, fun r hr => ?_⟩⟩
  · rw [free_initial]
    exact hnodup.filter _
  · exact absurd ((hnone v).symm.trans h) (by simp)
  · exact absurd ((hnone v).symm.trans h) (by simp)
  · exact absurd h (by simp [Allocation.scratch?, State.initial])
  · exact absurd ((hnone v).symm.trans h) (by simp)
  · obtain ⟨q, -, rfl⟩ := List.mem_map.mp (List.mem_of_mem_filter hr)
    rfl
  · obtain ⟨q, -, rfl⟩ := List.mem_map.mp (List.mem_of_mem_filter hr)
    rfl

theorem Conserved.step (h : Conserved pinned is k s) (hids : (is.map Item.id).Nodup)
    (hi : is[k]? = some i) (hstep : Pool.step pinned (lastUses is) s (i, k) = .ok s') :
    Conserved pinned is (k + 1) s' := by
  obtain ⟨-, -, hsorted, -⟩ := step_ok hstep
  have hnew : s.allocation.get? i.id = none := by
    by_contra hne
    obtain ⟨r, hr⟩ := Option.ne_none_iff_exists'.mp hne
    have hlt := (h.recorded.value i.id r hr).1
    rw [position_eq hids hi] at hlt
    exact Nat.lt_irrefl k hlt
  exact ⟨h.balanced.step hids hi hnew hstep, h.recorded.step h.balanced hids hi hstep, hsorted h.sorted⟩

theorem after_succ (hi : is[k]? = some i) (h : after forced is (k + 1) = .ok s') :
    ∃ s, after forced is k = .ok s ∧ step (pins forced is) (lastUses is) s (i, k) = .ok s' := by
  have hlast : is.zipIdx[k]? = some (i, k) := by
    rw [List.getElem?_zipIdx, hi, Option.map_some, Nat.zero_add]
  rw [after, List.take_add_one, hlast, List.foldlM_append] at h
  obtain ⟨s, hs, h⟩ := bind_eq_ok.mp h
  refine ⟨s, hs, ?_⟩
  rw [Option.toList_some, List.foldlM_cons] at h
  obtain ⟨s'', hstep, hpure⟩ := bind_eq_ok.mp h
  rw [hstep, ← Except.ok.inj hpure]

theorem conserved_after (hids : (is.map Item.id).Nodup) (hk : k ≤ is.length)
    (h : after forced is k = .ok s) : Conserved (pins forced is) is k s := by
  induction k generalizing s with
  | zero => exact Except.ok.inj h ▸ conserved_initial (pins forced is) is
  | succ k ih =>
      have hi : is[k]? = some is[k] := List.getElem?_eq_getElem hk
      obtain ⟨s₀, hs₀, hstep⟩ := after_succ hi h
      exact (ih (Nat.le_of_succ_le hk) hs₀).step hids hi hstep

/-! ### What is refused -/

/-- The allocator has no register left. -/
def exhausted : Error := .malformed "test allocator ran out of registers"

theorem State.take_failsOnly (s : State) (c : RegClass) : FailsOnly (· = exhausted) (s.take c) := by
  unfold State.take
  dsimp only
  split
  all_goals
    split
    · exact .ok _
    · exact .error rfl

theorem placeScratches_failsOnly (i : Item) (ds : List Demand) (s : State) :
    FailsOnly (· = exhausted) (placeScratches i ds s) := by
  induction ds generalizing s with
  | nil => exact .ok _
  | cons d ds ih =>
      unfold placeScratches
      split
      · exact ih s
      · exact .bind (s.take_failsOnly _) fun _ _ => .bind (ih _) fun _ _ => .ok _

theorem step_failsOnly (pinned : Table Nat Reg) (lastUse : Table Nat Nat) (s : State) (e : Item × Nat) :
    FailsOnly (· = exhausted) (step pinned lastUse s e) := by
  refine .bind ?_ fun s₁ _ => .bind (placeScratches_failsOnly _ _ s₁) fun _ _ => .ok _
  unfold placeValue
  split
  · exact .ok _
  · split
    · exact .ok _
    · exact .bind (s.take_failsOnly _) fun _ _ => .ok _

/-- No constraint asks for a register of the pool by name. -/
theorem overwritten_notMem (hi : i.Of g) (hr : r ∈ i.constraint.overwritten) : r ∉ registers := by
  obtain ⟨f, -, hc⟩ := hi.constraint
  rw [hc, Constraint.overwritten] at hr
  obtain ⟨d, hd, hfixed⟩ := List.mem_filterMap.mp hr
  rcases fixed_demand (List.mem_of_mem_filter hd) hfixed with ⟨-, -, rfl⟩ | hmem
  · decide
  · have hnone : ∀ q ∈ fixedRegs, q ∉ registers := by decide
    exact hnone r hmem

theorem overwrittenAt?_eq_some {lastUse : Table Nat Nat} {e : Error}
    (h : overwrittenAt? a lastUse is (i, k) = some e) : ∃ j ∈ is.take k, ∃ r last,
      a.get? j.id = some r ∧ lastUse.get? j.id = some last ∧ k < last ∧ r ∈ written a i ∧
      e = .malformed s!"i{j.id} in {r.name} is live across i{i.id}, which overwrites it" := by
  obtain ⟨j, hj, h⟩ := List.exists_of_findSome?_eq_some h
  refine ⟨j, hj, ?_⟩
  split at h
  · next r last hr hlast =>
      split at h
      · next hcond =>
          exact ⟨r, last, hr, hlast, hcond.1, List.contains_iff_mem.mp hcond.2, (Option.some.inj h).symm⟩
      · exact absurd h (by simp)
  · exact absurd h (by simp)

/-- A value in a register of the pool is never overwritten while it is needed. -/
theorem pinned_of_overwrittenAt? (h : Conserved pinned is is.length s) (hids : (is.map Item.id).Nodup)
    (hof : ∀ i ∈ is, i.Of g) (hi : is[k]? = some i) {e : Error}
    (he : overwrittenAt? s.allocation (lastUses is) is (i, k) = some e) :
    ∃ v r, pinned.get? v = some r ∧
      e = .malformed s!"i{v} in {r.name} is live across i{i.id}, which overwrites it" := by
  obtain ⟨j, hj, r, last, hr, hlast, hafter, hwritten, rfl⟩ := overwrittenAt?_eq_some he
  cases hpinned : pinned.get? j.id with
  | some q =>
      obtain rfl := (h.recorded.value j.id r hr).2 q hpinned
      exact ⟨j.id, q, hpinned, rfl⟩
  | none =>
      have hpool := h.balanced.home j.id r hpinned hr
      have hbefore : position is j.id < position is i.id := by
        obtain ⟨m, hm, rfl⟩ := List.mem_take_iff_getElem.mp hj
        rw [position_eq hids hi, position_eq hids (List.getElem?_eq_getElem (by omega))]
        omega
      have hneeded : position is i.id < due is j.id := by
        rw [position_eq hids hi, due, hlast]
        exact hafter
      obtain ⟨hvalue, hscratch⟩ := h.recorded.kept j.id i.id r hpinned hr hbefore hneeded
      exfalso
      rw [written, List.mem_append, List.mem_append, Option.mem_toList] at hwritten
      rcases hwritten with (hfixed | hown) | htemporary
      · exact overwritten_notMem (hof i (List.mem_of_getElem? hi)) hfixed (mem_registers hpool)
      · cases hi' : pinned.get? i.id with
        | none => exact hvalue hi' hown
        | some q =>
            obtain rfl := (h.recorded.value i.id r hown).2 q hi'
            exact pinned_notMem hi' hpool
      · obtain ⟨d, -, hd⟩ := List.mem_filterMap.mp htemporary
        exact hscratch d.index hd

/-! ### Conservation -/

/-- An unpinned value is in a register and is used at or after a position. -/
def Awaited (pinned : Table Nat Reg) (is : List Item) (k : Nat) (a : Allocation) (v : Nat) (r : Reg) :
    Prop :=
  pinned.get? v = none ∧ a.get? v = some r ∧ ∃ p, (lastUses is).get? v = some p ∧ k ≤ p

theorem Awaited.holds (h : Awaited pinned is k a v r) : Holds pinned is k a v r := by
  obtain ⟨hunpinned, hget, p, hp, hle⟩ := h
  refine ⟨hunpinned, hget, ?_⟩
  rw [due, hp]
  exact hle

theorem Holds.awaited (h : Holds pinned is k a v r) (ha : Recorded pinned is k a) :
    Awaited pinned is k a v r := by
  have hdue := h.le_due
  rw [due] at hdue
  cases hlast : (lastUses is).get? v with
  | some p =>
      rw [hlast] at hdue
      exact ⟨h.unpinned, h.get, p, hlast, hdue⟩
  | none =>
      rw [hlast] at hdue
      exact absurd (ha.value v r h.get).1 (Nat.not_lt.mpr hdue)

/-- A register is free in one place, or the register of one value that is still to be used. -/
theorem Conserved.free_or_awaited (h : Conserved pinned is k s) (horder : InOrder is)
    (hr : r ∈ (State.initial pinned).free) :
    ((s.queue r).count r = 1 ∧ ∀ v, ¬Awaited pinned is k s.allocation v r) ∨
      (r ∉ s.free ∧ ∃! v, Awaited pinned is k s.allocation v r) := by
  have hnodup := h.balanced.nodup
  rcases h.balanced.covered horder r hr with hfree | ⟨v, hv⟩
  · refine .inl ⟨List.count_eq_one_of_mem ?_ ?_, fun v hv => h.balanced.held v r hv.holds hfree⟩
    · cases r with
      | gpr q => exact hnodup.of_append_left
      | xmm q => exact hnodup.of_append_right
    · rcases List.mem_append.mp hfree with hmem | hmem
      · have hcls := h.sorted.gprs r hmem
        cases r with
        | gpr q => exact hmem
        | xmm q => exact absurd hcls (by simp [Reg.cls])
      · have hcls := h.sorted.xmms r hmem
        cases r with
        | gpr q => exact absurd hcls (by simp [Reg.cls])
        | xmm q => exact hmem
  · refine .inr ⟨h.balanced.held v r hv, v, hv.awaited h.recorded, fun w hw => ?_⟩
    exact h.balanced.unique w v r hw.holds hv

theorem inOrder_of_precedes (h : items g = .ok is)
    (horder : ∀ id n, g.node? id = some n → ∀ v ∈ n.inputs, g.Precedes v id) : InOrder is := by
  obtain ⟨hids, hof⟩ := items_ok h
  intro v p hp
  obtain ⟨i, hi, hv⟩ := input_of_lastUses hp
  have hprecedes := horder i.id i.node (hof i (List.mem_of_getElem? hi)).node v hv
  rw [Graph.Precedes, ← hids] at hprecedes
  exact Nat.lt_of_lt_of_eq hprecedes (position_eq (hids ▸ g.layout_nodup) hi)

theorem exists_items (h : ∀ id n, g.node? id = some n → Registry.x64.contains n.op = true) :
    ∃ is, items g = .ok is := by
  have hnever : FailsOnly (fun _ => False) (items g) := by
    refine .mapM fun entry hentry => .bind ?_ fun _ _ => .ok _
    obtain ⟨id, -, hid⟩ := List.mem_filterMap.mp hentry
    obtain ⟨n, hn, rfl⟩ := Option.map_eq_some_iff.mp hid
    obtain ⟨d, hd⟩ := Option.isSome_iff_exists.mp (h id n hn)
    refine .bind ?_ fun _ _ => .ok _
    rw [← Registry.x64_require, Registry.require, hd]
    exact .ok d
  cases hitems : items g with
  | ok is => exact ⟨is, rfl⟩
  | error e => exact (hnever e hitems).elim

theorem after_length (forced : List (Nat × Reg)) (is : List Item) : after forced is is.length
    = is.zipIdx.foldlM (step (pins forced is) (lastUses is)) (State.initial (pins forced is)) := by
  rw [after, List.take_of_length_le (by rw [List.length_zipIdx])]

/-- An allocation fails for want of a register, or because a pinned value is overwritten. -/
theorem allocate_failsOnly (his : items g = .ok is) (forced : List (Nat × Reg)) :
    FailsOnly (fun e => e = exhausted ∨ ∃ (v u : Nat) (r : Reg), (pins forced is).get? v = some r ∧
      e = .malformed s!"i{v} in {r.name} is live across i{u}, which overwrites it")
      (allocate forced g) := by
  obtain ⟨hlayout, hof⟩ := items_ok his
  have hids : (is.map Item.id).Nodup := hlayout ▸ g.layout_nodup
  refine .bind (fun e he => absurd (his.symm.trans he) (by simp)) fun is' his' => ?_
  obtain rfl := Except.ok.inj (his.symm.trans his')
  refine .bind (fun e he => .inl (FailsOnly.foldlM (step_failsOnly _ _) _ e he)) fun s hs => ?_
  have hconserved :=
    conserved_after (k := is.length) hids (Nat.le_refl _) ((after_length forced is).trans hs)
  split
  · next e he =>
      obtain ⟨⟨i, k⟩, hi, he⟩ := List.exists_of_findSome?_eq_some he
      have hi := List.mem_zipIdx_iff_getElem?.mp hi
      obtain ⟨v, r, hr, he⟩ := pinned_of_overwrittenAt? hconserved hids hof hi he
      exact .error (.inr ⟨v, i.id, r, hr, he⟩)
  · exact .ok _

/-- The pools are conserved. For every graph of the target, after any number of nodes no register is
free twice, none that is pinned is free, and none is free that a value without a pin still needs. If
values are computed before they are used, every register of the pools is then either free in one
place or the register of one such value. So the refusal of a graph names a value that is pinned. -/
theorem pools_conserved (hregistered : ∀ id n, g.node? id = some n → Registry.x64.contains n.op = true)
    (forced : List (Nat × Reg)) : ∃ is, items g = .ok is ∧
    (∀ k s, k ≤ is.length → after forced is k = .ok s →
      s.free.Nodup ∧ (∀ v r, (pins forced is).get? v = some r → r ∉ s.free) ∧
      (∀ v r, Awaited (pins forced is) is k s.allocation v r → r ∉ s.free) ∧
      ((∀ id n, g.node? id = some n → ∀ v ∈ n.inputs, g.Precedes v id) →
        ∀ r ∈ (State.initial (pins forced is)).free,
          ((s.queue r).count r = 1 ∧ ∀ v, ¬Awaited (pins forced is) is k s.allocation v r) ∨
          (r ∉ s.free ∧ ∃! v, Awaited (pins forced is) is k s.allocation v r))) ∧
    ∀ e, allocate forced g = .error e → e = .malformed "test allocator ran out of registers" ∨
      ∃ (v u : Nat) (r : Reg), (pins forced is).get? v = some r ∧
        e = .malformed s!"i{v} in {r.name} is live across i{u}, which overwrites it" := by
  obtain ⟨is, his⟩ := exists_items hregistered
  have hids : (is.map Item.id).Nodup := (items_ok his).1 ▸ g.layout_nodup
  refine ⟨is, his, fun k s hk hs => ?_, allocate_failsOnly his forced⟩
  have hconserved := conserved_after hids hk hs
  have hbalanced := hconserved.balanced
  refine ⟨hbalanced.nodup, fun v r hr hfree => pinned_notMem hr (hbalanced.pool r hfree),
    fun v r hv => hbalanced.held v r hv.holds, fun horder r hr => ?_⟩
  exact hconserved.free_or_awaited (inOrder_of_precedes his horder) hr

/-- The dividend is used again, although the division overwrites it. -/
def reusedDividend : Graph := .ofParts #[{ name := "entry" }]
  #[⟨0, { op := .const (.int .w64), literals := [.int 7] }⟩,
    ⟨0, { op := .const (.int .w64), literals := [.int 2] }⟩,
    ⟨0, { op := .intBinary .w64 (.division .quotientSigned), inputs := [0, 1] }⟩,
    ⟨0, { op := .target (.int (.arith .add)), inputs := [0, 2] }⟩,
    ⟨0, { op := .target .intRet, inputs := [3] }⟩]

/-- In front of the division one register of the pool is held. The graph is refused for a pinned
value. -/
theorem pools_conserved_reusedDividend : ∃ is s, items reusedDividend = .ok is ∧
    after [] is 2 = .ok s ∧ s.free.Nodup ∧ .gpr .rbx ∉ s.free ∧
    (∃! v, Awaited (pins [] is) is 2 s.allocation v (.gpr .rbx)) ∧
    allocate [] reusedDividend
      = .error (.malformed "i0 in rax is live across i2, which overwrites it") ∧
    ∃ v r, (pins [] is).get? v = some r := by
  have hregistered : ∀ id n, reusedDividend.node? id = some n → Registry.x64.contains n.op = true :=
    Graph.forall_node?.mp (by decide +kernel)
  have horder : ∀ id n, reusedDividend.node? id = some n → ∀ v ∈ n.inputs, reusedDividend.Precedes v id :=
    Graph.forall_node?.mp (by decide +kernel)
  have hfacts : ((items reusedDividend).toOption.bind fun is => (after [] is 2).toOption.map fun s =>
      (is.length, decide (.gpr .rbx ∈ (State.initial (pins [] is)).free), decide (.gpr .rbx ∈ s.free)))
        = some (5, true, false) := by
    decide +kernel
  have hallocate : allocate [] reusedDividend
      = .error (.malformed "i0 in rax is live across i2, which overwrites it") := by
    cbv
  obtain ⟨is, his, hfacts⟩ := Option.bind_eq_some_iff.mp hfacts
  obtain ⟨s, hs, hfacts⟩ := Option.map_eq_some_iff.mp hfacts
  rw [toOption_eq_some] at his hs
  simp only [Prod.mk.injEq, decide_eq_true_eq, decide_eq_false_iff_not] at hfacts
  obtain ⟨hlength, hpool, hheld⟩ := hfacts
  obtain ⟨is', his', hruns, hrefused⟩ := pools_conserved hregistered []
  obtain rfl := Except.ok.inj (his.symm.trans his')
  obtain ⟨hnodup, -, -, hcovered⟩ := hruns 2 s (by omega) hs
  have hawaited : ∃! v, Awaited (pins [] is) is 2 s.allocation v (.gpr .rbx) := by
    rcases hcovered horder _ hpool with ⟨hcount, -⟩ | ⟨-, hunique⟩
    · exact absurd (List.count_pos_iff.mp (hcount ▸ Nat.one_pos)) fun hmem =>
        hheld (List.mem_append_left _ hmem)
    · exact hunique
  refine ⟨is, s, his, hs, hnodup, hheld, hawaited, hallocate, ?_⟩
  rcases hrefused _ hallocate with hexhausted | ⟨v, u, r, hr, -⟩
  · exact absurd hexhausted (by decide)
  · exact ⟨v, r, hr⟩

end Isel.Pool
