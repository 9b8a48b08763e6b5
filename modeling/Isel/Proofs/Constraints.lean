import Isel.Proofs.CodeLayout

/-! What the checks of emission say about the registers of a node: its output, its inputs and its
temporaries are where the instructions of its family expect them, no temporary is also an operand,
and no input is overwritten before it is read. -/

namespace Isel

/-- Registers as a constraint asks for them. -/
structure Constraint.Met (c : Constraint) (x : Assignment) : Prop where
  output : ∀ q r, c.output? = some q → x.output = some r → q.isMetBy r = true
  input : ∀ d ∈ c.ofRole .input, ∃ v r, x.inputs[d.index]? = some (v, r) ∧
    d.requirement.isMetBy r = true
  scratch : ∀ d ∈ c.ofRole .scratch, ∃ r, x.scratches[d.index]? = some r ∧
    d.requirement.isMetBy r = true ∧ x.output ≠ some r ∧ ∀ p ∈ x.inputs, p.2 ≠ r
  clobber : ∀ r ∈ c.overwritten, ∀ d ∈ c.ofRole .input, d.requirement.fixed? = none → ∀ v,
    x.inputs[d.index]? = some (v, r) → c.isPinned x v r = true

namespace Constraint

variable {c : Constraint} {x : Assignment} {d : Demand}

theorem input_of_violation? (h : inputViolation? x d = none) :
    ∃ v r, x.inputs[d.index]? = some (v, r) ∧ d.requirement.isMetBy r = true := by
  unfold inputViolation? at h
  split at h
  · exact absurd h (by simp)
  · next v r hget =>
      refine ⟨v, r, hget, ?_⟩
      by_contra hne
      rw [if_neg hne] at h
      exact absurd h (by simp)

theorem scratch_of_violation? (h : scratchViolation? x d = none) :
    ∃ r, x.scratches[d.index]? = some r ∧ d.requirement.isMetBy r = true ∧ x.output ≠ some r ∧
      ∀ p ∈ x.inputs, p.2 ≠ r := by
  unfold scratchViolation? at h
  split at h
  · exact absurd h (by simp)
  · next r hget =>
      split at h
      · exact absurd h (by simp)
      · next hmet =>
          split at h
          · exact absurd h (by simp)
          · next hfree =>
              obtain ⟨hout, hin⟩ := not_or.mp hfree
              refine ⟨r, hget, by simpa using hmet, hout, fun p hp heq => hin ?_⟩
              exact List.any_eq_true.mpr ⟨p, hp, by simpa using heq⟩

theorem met_of_violation? (h : c.violation? x = none) : c.Met x := by
  unfold violation? at h
  simp only [Option.or_eq_none_iff, List.findSome?_eq_none_iff] at h
  obtain ⟨hout, hin, hscratch, hclobber⟩ := h
  refine ⟨fun q r hq hr => ?_, fun d hd => input_of_violation? (hin d hd),
    fun d hd => scratch_of_violation? (hscratch d hd), fun r hr d hd hfixed v hget => ?_⟩
  · rw [outputViolation?, hq, hr] at hout
    by_contra hne
    exact absurd hout (by simp [hne])
  · have hnone := hclobber r hr d hd
    rw [clobberViolation?, hfixed, hget] at hnone
    by_contra hne
    exact absurd hnone (by simp [hne])

end Constraint

namespace Emission

variable {g : Graph} {a : Allocation} {config : Config} {b id : Nat} {n : Node} {block : Block}
  {c : Constraint} {x : Assignment} {is : List Inst}

theorem location_eq_ok {r : Reg} : location a id = .ok r ↔ a.get? id = some r := by
  unfold location
  cases a.get? id <;> simp

/-- What emission sees of a node in block `b`. -/
def siteOf (g : Graph) (b : Nat) (block : Block) (n : Node) (x : Assignment) : Site where
  node := n
  output := x.output
  inputs := x.inputs.map Prod.snd
  scratches := x.scratches
  successors := block.successors
  fallthrough := if b + 1 < g.blocks.size then some (b + 1) else none
  trap := g.blocks.size

/-- The registers of a node come from the allocation. -/
structure Assigned (a : Allocation) (id : Nat) (n : Node) (c : Constraint) (x : Assignment) :
    Prop where
  output : c.output?.isSome = true → ∃ r, x.output = some r ∧ a.get? id = some r
  noOutput : c.output? = none → x.output = none
  inputs : List.Forall₂ (fun v p => p.1 = v ∧ a.get? v = some p.2) n.inputs x.inputs
  scratches : List.Forall₂ (fun d r => scratchLocation a id d = .ok r) (c.ofRole .scratch) x.scratches

theorem Assigned.output_isSome (h : Assigned a id n c x) (hsome : c.output?.isSome = true) :
    x.output.isSome = true := by
  obtain ⟨r, hr, -⟩ := h.output hsome
  rw [hr]
  rfl

theorem assigned_of_assignment (h : assignment a id n c = .ok x) : Assigned a id n c x := by
  obtain ⟨output, houtput, hrest⟩ := bind_eq_ok.mp h
  obtain ⟨inputs, hinputs, hrest⟩ := bind_eq_ok.mp hrest
  obtain ⟨scratches, hscratches, hx⟩ := bind_eq_ok.mp hrest
  obtain rfl := Except.ok.inj hx
  refine ⟨fun hsome => ?_, fun hnone => ?_, ?_, mapM_eq_ok.mp hscratches⟩
  · obtain ⟨q, hq⟩ := Option.isSome_iff_exists.mp hsome
    rw [hq, Option.mapM_some] at houtput
    obtain ⟨r, hr, hpure⟩ := bind_eq_ok.mp houtput
    exact ⟨r, (Except.ok.inj hpure).symm, location_eq_ok.mp hr⟩
  · rw [hnone] at houtput
    exact (Except.ok.inj houtput).symm
  · refine (mapM_eq_ok.mp hinputs).imp fun v p hp => ?_
    obtain ⟨r, hr, hpure⟩ := bind_eq_ok.mp hp
    obtain rfl := Except.ok.inj hpure
    exact ⟨rfl, location_eq_ok.mp hr⟩

theorem mapError_eq_ok {ε ε' α : Type} {e : Except ε α} {f : ε → ε'} {v : α} :
    e.mapError f = .ok v ↔ e = .ok v := by
  cases e <;> simp [Except.mapError]

theorem require_ok {op : Operator} {d : Descriptor} (h : op.require = .ok d) :
    op.family? = some d.family := by
  unfold Operator.require Operator.descriptor? at h
  cases hf : op.family? with
  | none => exact absurd h (by simp [hf])
  | some f =>
      rw [hf] at h
      rw [← Except.ok.inj h]

theorem checkAssignment_ok {u : Unit} (h : checkAssignment config id n c x = .ok u) : c.Met x := by
  refine Constraint.met_of_violation? ?_
  unfold checkAssignment at h
  split at h
  · next hnone => exact hnone
  · split at h
    all_goals exact absurd h (by simp)

/-- What emission of a node has checked, and what it yields. -/
theorem emitNode_ok (h : emitNode g a config b block id n = .ok is) :
    ∃ f x, n.op.family? = some f ∧ Assigned a id n (f.constraint n) x ∧ (f.constraint n).Met x ∧
      f.emit (siteOf g b block n x) = .ok is := by
  obtain ⟨d, hd, h⟩ := bind_eq_ok.mp h
  obtain ⟨-, -, h⟩ := bind_eq_ok.mp h
  obtain ⟨x, hx, h⟩ := bind_eq_ok.mp h
  obtain ⟨u, hcheck, h⟩ := bind_eq_ok.mp h
  split at h
  · exact absurd h (by simp)
  · exact ⟨d.family, x, require_ok (mapError_eq_ok.mp hd),
      assigned_of_assignment (mapError_eq_ok.mp hx), checkAssignment_ok hcheck,
      mapError_eq_ok.mp h⟩

end Emission

end Isel
