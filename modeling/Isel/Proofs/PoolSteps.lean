import Isel.Allocation.Pool
import Isel.Proofs.Evaluation
import Mathlib.Data.List.Perm.Basic

/-! What one step of the allocator does to its queues and to the registers that it has given out. A
step takes registers for the value and the temporaries of its node, and gives back those of the
temporaries and of the values that die. -/

namespace Isel

open scoped List

namespace Allocation

variable {a : Allocation} {id v : Nat} {r q : Reg}

theorem get?_set_self : (a.set id r).get? id = some r := Table.get?_set_self ..

theorem get?_set_of_ne (h : v ≠ id) : (a.set id r).get? v = a.get? v := Table.get?_set_of_ne _ _ h

theorem get?_of_set (h : (a.set id r).get? v = some q) : (v = id ∧ q = r) ∨ a.get? v = some q := by
  by_cases heq : v = id
  · subst heq
    exact .inl ⟨rfl, Option.some.inj (h.symm.trans get?_set_self)⟩
  · exact .inr ((get?_set_of_ne heq).symm.trans h)

end Allocation

namespace Pool

variable {pinned : Table Nat Reg} {s s' : State} {i : Item} {k : Nat} {r : Reg}

/-! ### The queues -/

namespace State

/-- The free registers of both classes. -/
def free (s : State) : List Reg := s.gprs ++ s.xmms

/-- The queue in which a register waits. -/
def queue (s : State) : Reg → List Reg
  | .gpr _ => s.gprs
  | .xmm _ => s.xmms

/-- Every free register is in the queue of its class. -/
structure Sorted (s : State) : Prop where
  gprs : ∀ r ∈ s.gprs, r.cls = .int
  xmms : ∀ r ∈ s.xmms, r.cls = .float

theorem take_ok {c : RegClass} (h : s.take c = .ok (r, s')) :
    s.free ~ r :: s'.free ∧ s'.allocation = s.allocation ∧ (s.Sorted → s'.Sorted) := by
  unfold take at h
  dsimp only at h
  split at h
  · split at h
    · next q rest heq =>
        obtain ⟨rfl, rfl⟩ := Prod.mk.inj (Except.ok.inj h)
        refine ⟨?_, rfl, fun hs => ⟨hs.gprs, fun q hq => hs.xmms q ?_⟩⟩
        · rw [free, heq]
          exact List.perm_middle
        · rw [heq]
          exact List.mem_cons_of_mem _ hq
    · exact absurd h (by simp)
  all_goals
    split at h
    · next q rest heq =>
        obtain ⟨rfl, rfl⟩ := Prod.mk.inj (Except.ok.inj h)
        refine ⟨?_, rfl, fun hs => ⟨fun q hq => hs.gprs q ?_, hs.xmms⟩⟩
        · rw [free, heq]
          exact .refl _
        · rw [heq]
          exact List.mem_cons_of_mem _ hq
    · exact absurd h (by simp)

theorem giveBack_spec (s : State) (r : Reg) : (s.giveBack r).free ~ r :: s.free ∧
    (s.giveBack r).allocation = s.allocation ∧ (s.Sorted → (s.giveBack r).Sorted) := by
  cases r with
  | gpr q =>
      refine ⟨?_, rfl, fun hs => ⟨fun p hp => ?_, hs.xmms⟩⟩
      · rw [free, giveBack, List.append_assoc]
        exact List.perm_middle
      · rcases List.mem_append.mp hp with hp | hp
        · exact hs.gprs p hp
        · rw [List.mem_singleton.mp hp]
          rfl
  | xmm q =>
      refine ⟨?_, rfl, fun hs => ⟨hs.gprs, fun p hp => ?_⟩⟩
      · rw [free, giveBack, ← List.append_assoc]
        exact List.perm_append_singleton _ _
      · rcases List.mem_append.mp hp with hp | hp
        · exact hs.xmms p hp
        · rw [List.mem_singleton.mp hp]
          rfl

theorem giveBackAll_spec (rs : List Reg) (s : State) :
    (rs.foldl giveBack s).free ~ rs ++ s.free ∧
    (rs.foldl giveBack s).allocation = s.allocation ∧ (s.Sorted → (rs.foldl giveBack s).Sorted) := by
  induction rs generalizing s with
  | nil => exact ⟨.refl _, rfl, id⟩
  | cons r rs ih =>
      obtain ⟨hfree, hallocation, hsorted⟩ := s.giveBack_spec r
      obtain ⟨hfree', hallocation', hsorted'⟩ := ih (s.giveBack r)
      refine ⟨?_, hallocation'.trans hallocation, hsorted' ∘ hsorted⟩
      calc (rs.foldl giveBack (s.giveBack r)).free
        _ ~ rs ++ (s.giveBack r).free := hfree'
        _ ~ rs ++ r :: s.free := hfree.append_left rs
        _ ~ r :: rs ++ s.free := List.perm_middle

end State

/-- All registers that may be free. -/
def registers : List Reg := gprs.map .gpr ++ xmms.map .xmm

theorem free_initial (pinned : Table Nat Reg) : (State.initial pinned).free
    = registers.filter fun r => !(pinned.entries.map Prod.snd).contains r := by
  rw [registers, List.filter_append]
  rfl

theorem mem_registers (hr : r ∈ (State.initial pinned).free) : r ∈ registers := by
  rw [free_initial] at hr
  exact List.mem_of_mem_filter hr

theorem pinned_notMem (h : pinned.get? v = some r) : r ∉ (State.initial pinned).free := by
  obtain ⟨e, he, rfl⟩ := Option.map_eq_some_iff.mp h
  have hmem : e.2 ∈ pinned.entries.map Prod.snd :=
    List.mem_map_of_mem (List.mem_of_find?_eq_some he)
  rw [free_initial, List.mem_filter]
  rintro ⟨-, hnot⟩
  rw [List.contains_iff_mem.mpr hmem] at hnot
  exact absurd hnot (by decide)

/-! ### One step -/

/-- A value stays without a register, gets the one it is pinned to, or takes a free one. -/
theorem placeValue_ok (h : placeValue pinned i s = .ok s') : (s.Sorted → s'.Sorted) ∧
    (s' = s ∨ i.constraint.output?.isSome = true ∧
      ((∃ r, pinned.get? i.id = some r ∧ s' = { s with allocation := s.allocation.set i.id r }) ∨
        (pinned.get? i.id = none ∧
          ∃ r, s.free ~ r :: s'.free ∧ s'.allocation = s.allocation.set i.id r))) := by
  unfold placeValue at h
  split at h
  · obtain rfl := Except.ok.inj h
    exact ⟨id, .inl rfl⟩
  · next q hq =>
      have hout : i.constraint.output?.isSome = true := by rw [hq]; rfl
      split at h
      · next r hr =>
          obtain rfl := Except.ok.inj h
          exact ⟨fun hs => ⟨hs.gprs, hs.xmms⟩, .inr ⟨hout, .inl ⟨r, hr, rfl⟩⟩⟩
      · next hnone =>
          obtain ⟨⟨r, s₁⟩, htake, hpure⟩ := bind_eq_ok.mp h
          obtain rfl := Except.ok.inj hpure
          obtain ⟨hfree, hallocation, hsorted⟩ := State.take_ok htake
          refine ⟨fun hs => ⟨(hsorted hs).gprs, (hsorted hs).xmms⟩,
            .inr ⟨hout, .inr ⟨hnone, r, hfree, ?_⟩⟩⟩
          rw [← hallocation]

/-- Temporaries are taken from the free registers, and no value is touched. -/
theorem placeScratches_ok {ds : List Demand} {rs : List Reg}
    (h : placeScratches i ds s = .ok (rs, s')) : (s.Sorted → s'.Sorted) ∧ s.free ~ rs ++ s'.free ∧
    (∀ v, s'.allocation.get? v = s.allocation.get? v) ∧
    ∀ u j r, s'.allocation.scratch? u j = some r →
      s.allocation.scratch? u j = some r ∨ u = i.id ∧ r ∈ rs := by
  induction ds generalizing s rs with
  | nil =>
      obtain ⟨rfl, rfl⟩ := Prod.mk.inj (Except.ok.inj h)
      exact ⟨id, .refl _, fun _ => rfl, fun _ _ _ => .inl⟩
  | cons d ds ih =>
      unfold placeScratches at h
      split at h
      · exact ih h
      · obtain ⟨⟨r, s₁⟩, htake, h⟩ := bind_eq_ok.mp h
        obtain ⟨⟨rs', s₂⟩, hrest, hpure⟩ := bind_eq_ok.mp h
        obtain ⟨rfl, rfl⟩ := Prod.mk.inj (Except.ok.inj hpure)
        obtain ⟨hfree, hallocation, hsorted⟩ := State.take_ok htake
        obtain ⟨hsorted', hfree', hvalues, hscratches⟩ := ih hrest
        refine ⟨fun hs => hsorted' ⟨(hsorted hs).gprs, (hsorted hs).xmms⟩, hfree.trans (hfree'.cons r),
          fun v => ?_, fun u j q hq => ?_⟩
        · rw [hvalues, ← hallocation]
          rfl
        · rcases hscratches u j q hq with hold | ⟨hu, hmem⟩
          · simp only [Allocation.scratch?, Allocation.setScratch, Table.get?_set] at hold
            split at hold
            · next heq =>
                rw [← Option.some.inj hold]
                exact .inr ⟨congrArg Prod.fst heq, List.mem_cons_self⟩
            · rw [← hallocation]
              exact .inl hold
          · exact .inr ⟨hu, List.mem_cons_of_mem r hmem⟩

/-- What a node has taken for its temporaries is free again at the end of its step. -/
theorem step_ok {lastUse : Table Nat Nat} (h : step pinned lastUse s (i, k) = .ok s') :
    ∃ s₁, placeValue pinned i s = .ok s₁ ∧ (s.Sorted → s'.Sorted) ∧
      s'.free ~ ((dying lastUse k i).filter fun v => !pinned.contains v).filterMap s'.allocation.get?
        ++ s₁.free ∧
      (∀ v, s'.allocation.get? v = s₁.allocation.get? v) ∧
      ∀ u j r, s'.allocation.scratch? u j = some r →
        s₁.allocation.scratch? u j = some r ∨ u = i.id ∧ r ∈ s₁.free := by
  obtain ⟨s₁, hvalue, h⟩ := bind_eq_ok.mp h
  obtain ⟨⟨temporaries, s₂⟩, hplace, hpure⟩ := bind_eq_ok.mp h
  obtain ⟨hsorted, hfree, hvalues, hscratches⟩ := placeScratches_ok hplace
  have hend := Except.ok.inj hpure
  generalize hfreed : ((dying lastUse k i).filter fun v => !pinned.contains v).filterMap
    s₂.allocation.get? = freed at hend
  obtain ⟨hfree', hallocation, hsorted'⟩ := s₂.giveBackAll_spec (temporaries ++ freed)
  rw [← hend]
  refine ⟨s₁, hvalue, fun hs => hsorted' (hsorted ((placeValue_ok hvalue).1 hs)), ?_, fun v => ?_,
    fun u j r hr => ?_⟩
  · rw [hallocation, hfreed]
    calc ((temporaries ++ freed).foldl State.giveBack s₂).free
      _ ~ temporaries ++ freed ++ s₂.free := hfree'
      _ ~ freed ++ temporaries ++ s₂.free := List.perm_append_comm.append_right _
      _ = freed ++ (temporaries ++ s₂.free) := List.append_assoc ..
      _ ~ freed ++ s₁.free := hfree.symm.append_left freed
  · rw [hallocation, hvalues]
  · rw [hallocation] at hr
    refine (hscratches u j r hr).imp_right fun ⟨hu, hmem⟩ => ⟨hu, ?_⟩
    exact hfree.mem_iff.mpr (List.mem_append_left _ hmem)

/-- What is new after a step belongs to its node, and comes from the free registers unless it is
pinned. -/
theorem step_entries {lastUse : Table Nat Nat} (h : step pinned lastUse s (i, k) = .ok s') :
    (∀ v r, s'.allocation.get? v = some r → s.allocation.get? v = some r ∨
      v = i.id ∧ i.constraint.output?.isSome = true ∧
        (pinned.get? v = some r ∨ pinned.get? v = none ∧ r ∈ s.free)) ∧
    ∀ u j r, s'.allocation.scratch? u j = some r →
      s.allocation.scratch? u j = some r ∨ u = i.id ∧ r ∈ s.free := by
  obtain ⟨s₁, hvalue, -, -, hvalues, hscratches⟩ := step_ok h
  rcases (placeValue_ok hvalue).2 with rfl | ⟨hout, ⟨r, hr, rfl⟩ | ⟨hnone, r, hperm, ht⟩⟩
  · exact ⟨fun v q hq => .inl ((hvalues v).symm.trans hq), hscratches⟩
  · refine ⟨fun v q hq => ?_, hscratches⟩
    rcases Allocation.get?_of_set ((hvalues v).symm.trans hq) with ⟨rfl, rfl⟩ | hold
    · exact .inr ⟨rfl, hout, .inl hr⟩
    · exact .inl hold
  · refine ⟨fun v q hq => ?_, fun u j q hq => ?_⟩
    · rw [hvalues, ht] at hq
      rcases Allocation.get?_of_set hq with ⟨rfl, rfl⟩ | hold
      · exact .inr ⟨rfl, hout, .inr ⟨hnone, hperm.mem_iff.mpr List.mem_cons_self⟩⟩
      · exact .inl hold
    · refine (hscratches u j q hq).imp (fun hold => ?_) fun hnew => ?_
      · rw [ht] at hold
        exact hold
      · exact ⟨hnew.1, hperm.mem_iff.mpr (List.mem_cons_of_mem r hnew.2)⟩

/-- A register that is free after a step was free before it, or belongs to a value that is not
pinned. -/
theorem mem_free_of_step {lastUse : Table Nat Nat} (h : step pinned lastUse s (i, k) = .ok s')
    (hr : r ∈ s'.free) :
    r ∈ s.free ∨ ∃ v, pinned.get? v = none ∧ s'.allocation.get? v = some r := by
  obtain ⟨s₁, hvalue, -, hfree, -, -⟩ := step_ok h
  rcases List.mem_append.mp (hfree.mem_iff.mp hr) with hfreed | hkept
  · obtain ⟨v, hv, hget⟩ := List.mem_filterMap.mp hfreed
    have hunpinned := (List.mem_filter.mp hv).2
    exact .inr ⟨v, by simpa [Table.contains] using hunpinned, hget⟩
  · refine .inl ?_
    rcases (placeValue_ok hvalue).2 with rfl | ⟨-, ⟨q, -, rfl⟩ | ⟨-, q, hperm, -⟩⟩
    · exact hkept
    · exact hkept
    · exact hperm.mem_iff.mpr (List.mem_cons_of_mem q hkept)

end Pool

end Isel
