import Isel.Proofs.Schedule
import Isel.Proofs.Words

/-! Nodes that neither refer to one another nor conflict in memory can change places in a run. Any
two orders of the same nodes that both keep references and conflicting accesses in order therefore
have the same result. -/

namespace Isel

namespace Operator

theorem conflicts_comm (x y : Operator) : x.conflicts y = y.conflicts x := by
  unfold conflicts
  cases x.isTargetStore <;> cases y.isTargetStore <;> cases x.isTargetLoad <;>
    cases y.isTargetLoad <;> rfl

end Operator

namespace Words

variable {n m : Node} {xs ys : List Word} {memory memory₁ memory₂ : Array Byte}
  {u v : Option Word}

theorem length_writeBytes (bytes : Array Byte) (start : Nat) (bs : List Byte) :
    (writeBytes bytes start bs).size = bytes.size := by
  induction bs generalizing bytes start with
  | nil => rfl
  | cons b bs ih => rw [writeBytes, ih, Array.size_setIfInBounds]

theorem size_of_replaceBytes? {bytes bytes' : Array Byte} {start k x : Nat}
    (h : replaceBytes? bytes start k x = some bytes') : bytes'.size = bytes.size := by
  unfold replaceBytes? at h
  split at h
  · rw [← Option.some.inj h, length_writeBytes]
  · exact absurd h (by simp)

theorem compute_of_not_access (L : MemoryLayout) (hstore : n.op.isTargetStore = false)
    (hload : n.op.isTargetLoad = false) :
    compute L n xs memory = value L n xs memory >>= fun x => .ok (some x, memory) := by
  unfold compute
  split
  · next heq => simp [heq, Operator.isTargetLoad] at hload
  · next heq => simp [heq, Operator.isTargetStore] at hstore
  · rfl

/-- Only a store changes memory. -/
theorem memory_of_compute {L : MemoryLayout} (hstore : n.op.isTargetStore = false)
    (h : compute L n xs memory = .ok (v, memory₁)) : memory₁ = memory := by
  unfold compute at h
  split at h
  · obtain ⟨x, -, heq⟩ := bind_eq_ok.mp h
    exact (congrArg Prod.snd (Except.ok.inj heq)).symm
  · next heq => simp [heq, Operator.isTargetStore] at hstore
  · obtain ⟨x, -, heq⟩ := bind_eq_ok.mp h
    exact (congrArg Prod.snd (Except.ok.inj heq)).symm

theorem size_of_compute {L : MemoryLayout} (h : compute L n xs memory = .ok (v, memory₁)) :
    memory₁.size = memory.size := by
  cases hstore : n.op.isTargetStore with
  | false => rw [memory_of_compute hstore h]
  | true =>
      unfold compute at h
      split at h
      · next heq => simp [heq, Operator.isTargetStore] at hstore
      · next a heq =>
          obtain ⟨bytes, hbytes, heq⟩ := bind_eq_ok.mp h
          obtain ⟨-, rfl⟩ := Prod.mk.inj (Except.ok.inj heq)
          unfold store at hbytes
          split at hbytes
          · obtain ⟨start, -, hreplace⟩ := bind_eq_ok.mp hbytes
            exact size_of_replaceBytes? (orStuck_eq_ok.mp hreplace)
          · exact absurd hbytes (by simp)
      · obtain ⟨x, -, heq⟩ := bind_eq_ok.mp h
        obtain ⟨-, rfl⟩ := Prod.mk.inj (Except.ok.inj heq)
        rfl

/-- What is no access depends on linear memory only through its size. -/
theorem value_of_size {x : Word} (hsize : memory₁.size = memory.size)
    (h : value .linear n xs memory = .ok x) : value .linear n xs memory₁ = .ok x := by
  unfold value at h ⊢
  split at h
  · exact h
  · simp only [MemoryLayout.linear] at h ⊢
    rw [hsize]
    exact h
  · obtain ⟨l, hl, hcheck⟩ := bind_eq_ok.mp h
    refine bind_eq_ok.mpr ⟨l, hl, ?_⟩
    simp only [checkBounds] at hcheck ⊢
    split at hcheck
    · exact absurd hcheck (by simp)
    · next hpass => rw [if_neg hpass, ← hcheck]
  · unfold binary at h ⊢
    split at h
    · exact h
    · exact absurd h (by simp)
  · unfold binary at h ⊢
    split at h
    · exact h
    · exact absurd h (by simp)
  · exact h

theorem compute_of_size (hstore : n.op.isTargetStore = false) (hload : n.op.isTargetLoad = false)
    (hsize : memory₁.size = memory.size) (h : compute .linear n xs memory = .ok (v, memory₂)) :
    compute .linear n xs memory₁ = .ok (v, memory₁) := by
  rw [compute_of_not_access _ hstore hload] at h ⊢
  obtain ⟨x, hx, heq⟩ := bind_eq_ok.mp h
  obtain ⟨rfl, -⟩ := Prod.mk.inj (Except.ok.inj heq)
  exact bind_eq_ok.mpr ⟨x, value_of_size hsize hx, rfl⟩

/-- Computations without a conflict can change places. -/
theorem compute_comm (hconflict : m.op.conflicts n.op = false)
    (hm : compute .linear m xs memory = .ok (v, memory₁))
    (hn : compute .linear n ys memory₁ = .ok (u, memory₂)) :
    ∃ memory', compute .linear n ys memory = .ok (u, memory') ∧
      compute .linear m xs memory' = .ok (v, memory₂) := by
  cases hms : m.op.isTargetStore with
  | true =>
      have hquiet : n.op.isTargetStore = false ∧ n.op.isTargetLoad = false := by
        have h := Bool.or_eq_false_iff.mp hconflict
        simpa [hms] using h.1
      obtain rfl := memory_of_compute hquiet.1 hn
      exact ⟨memory, compute_of_size hquiet.1 hquiet.2 (size_of_compute hm).symm hn, hm⟩
  | false =>
      obtain rfl := memory_of_compute hms hm
      refine ⟨memory₂, hn, ?_⟩
      cases hns : n.op.isTargetStore with
      | false =>
          obtain rfl := memory_of_compute hns hn
          exact hm
      | true =>
          have hload : m.op.isTargetLoad = false := by
            simpa [Operator.conflicts, hms, hns] using hconflict
          exact compute_of_size hms hload (size_of_compute hn) hm

end Words

namespace Env

variable {α : Type}

theorem set_comm (e : Env α) {i j : Nat} (h : i ≠ j) (u v : Option α)
    (memory₁ memory₂ memory : Array Byte) :
    (e.set i v memory₁).set j u memory = (e.set j u memory₂).set i v memory := by
  unfold set
  congr 1
  funext k
  by_cases hi : k = i
  · subst hi
    simp [h]
  · simp [hi]

end Env

namespace Reorder

open Words Schedule

variable {node? : Nat → Option Node} {e e' : Env Word} {i j : Nat}

/-- Node `i` has to come before node `j`: it is an input of it, or both are accesses in this order
that do not commute. -/
def MustPrecede (node? : Nat → Option Node) (i j : Nat) : Prop :=
  ∃ m n, node? i = some m ∧ node? j = some n ∧
    (i ∈ n.inputs ∨ (m.op.conflicts n.op = true ∧ i < j))

theorem swap {ids : List Nat} (hij : i ≠ j) (h : ¬MustPrecede node? i j)
    (h' : ¬MustPrecede node? j i)
    (hrun : (meaning .linear).execBody node? (i :: j :: ids) e = .ok e') :
    (meaning .linear).execBody node? (j :: i :: ids) e = .ok e' := by
  simp only [Meaning.execBody_cons_eq_ok, Meaning.execNode_eq_ok] at hrun ⊢
  obtain ⟨m, _, hm, ⟨xs, v, memory₁, hxs, hcm, rfl⟩, n, _, hn, ⟨ys, u, memory₂, hys, hcn, rfl⟩,
    hrest⟩ := hrun
  have hin : i ∉ n.inputs := fun hmem => h ⟨m, n, hm, hn, .inl hmem⟩
  have hjm : j ∉ m.inputs := fun hmem => h' ⟨n, m, hn, hm, .inl hmem⟩
  have hconflict : m.op.conflicts n.op = false := by
    rw [Bool.eq_false_iff]
    intro hc
    rcases Nat.lt_or_gt_of_ne hij with hlt | hgt
    · exact h ⟨m, n, hm, hn, .inr ⟨hc, hlt⟩⟩
    · exact h' ⟨n, m, hn, hm, .inr ⟨Operator.conflicts_comm _ _ ▸ hc, hgt⟩⟩
  obtain ⟨memory', hcn', hcm'⟩ := compute_comm hconflict hcm hcn
  rw [Env.operands_set_of_notMem hin] at hys
  refine ⟨n, _, hn, ⟨ys, u, memory', hys, hcn', rfl⟩, m, _, hm,
    ⟨xs, v, memory₂, by rw [Env.operands_set_of_notMem hjm]; exact hxs, hcm', rfl⟩, ?_⟩
  rw [e.set_comm (Ne.symm hij) v u memory' memory₁ memory₂]
  exact hrest

/-- A node moves to the front over nodes that it need not wait for. -/
theorem move_front {front back : List Nat}
    (hfront : ∀ y ∈ front, y ≠ i ∧ ¬MustPrecede node? y i ∧ ¬MustPrecede node? i y)
    (hrun : (meaning .linear).execBody node? (front ++ i :: back) e = .ok e') :
    (meaning .linear).execBody node? (i :: (front ++ back)) e = .ok e' := by
  induction front generalizing e with
  | nil => exact hrun
  | cons y front ih =>
      obtain ⟨hne, hyi, hiy⟩ := hfront y List.mem_cons_self
      obtain ⟨n, e₁, hn, hfirst, hrest⟩ := Meaning.execBody_cons_eq_ok.mp hrun
      have hmoved := ih (fun z hz => hfront z (List.mem_cons_of_mem y hz)) hrest
      exact swap hne hyi hiy (Meaning.execBody_cons_eq_ok.mpr ⟨n, e₁, hn, hfirst, hmoved⟩)

/-- Two orders of the same nodes that keep what has to be kept have the same result. -/
theorem execBody_of_perm {ids ids' : List Nat} (hperm : ids.Perm ids') (hnodup : ids.Nodup)
    (hkeep : ids.Pairwise fun i j => ¬MustPrecede node? j i)
    (hkeep' : ids'.Pairwise fun i j => ¬MustPrecede node? j i)
    (hrun : (meaning .linear).execBody node? ids e = .ok e') :
    (meaning .linear).execBody node? ids' e = .ok e' := by
  induction ids' generalizing ids e with
  | nil => rwa [hperm.eq_nil] at hrun
  | cons i rest ih =>
      obtain ⟨front, back, rfl⟩ := List.append_of_mem (hperm.mem_iff.mpr List.mem_cons_self)
      have hperm' : (front ++ back).Perm rest :=
        (List.perm_middle.symm.trans hperm).cons_inv
      have hni : i ∉ front := fun hmem =>
        List.disjoint_of_nodup_append hnodup hmem List.mem_cons_self
      have hfront : ∀ y ∈ front, y ≠ i ∧ ¬MustPrecede node? y i ∧ ¬MustPrecede node? i y := by
        intro y hy
        have hrest : y ∈ rest := hperm'.mem_iff.mp (List.mem_append_left _ hy)
        exact ⟨fun heq => hni (heq ▸ hy), (List.pairwise_cons.mp hkeep').1 y hrest,
          (List.pairwise_append.mp hkeep).2.2 y hy i List.mem_cons_self⟩
      obtain ⟨n, e₁, hn, hfirst, hrest⟩ :=
        Meaning.execBody_cons_eq_ok.mp (move_front hfront hrun)
      have hsub : (front ++ back).Sublist (front ++ i :: back) :=
        List.Sublist.append_left (List.sublist_cons_self i back) front
      exact Meaning.execBody_cons_eq_ok.mpr ⟨n, e₁, hn, hfirst, ih hperm' (hnodup.sublist hsub)
        (hkeep.sublist hsub) (List.pairwise_cons.mp hkeep').2 hrest⟩

/-- Nodes that halt in one order halt in the other too, though perhaps at another node. -/
theorem execBody_error_of_perm {ids ids' : List Nat} (hperm : ids.Perm ids') (hnodup : ids.Nodup)
    (hkeep : ids.Pairwise fun i j => ¬MustPrecede node? j i)
    (hkeep' : ids'.Pairwise fun i j => ¬MustPrecede node? j i) {h : Halt}
    (hrun : (meaning .linear).execBody node? ids e = .error h) :
    ∃ h', (meaning .linear).execBody node? ids' e = .error h' := by
  cases hrun' : (meaning .linear).execBody node? ids' e with
  | error h' => exact ⟨h', rfl⟩
  | ok e' =>
      have hsame := execBody_of_perm hperm.symm (hperm.nodup_iff.mp hnodup) hkeep' hkeep hrun'
      rw [hrun] at hsame
      exact absurd hsame (by simp)

end Reorder

end Isel
