import Isel.Proofs.SelectedScope

/-! Guarded accesses. In a selected graph every load and store takes an address that has been checked
for its width, against the size of linear memory at a state that comes from the caller. -/

namespace Isel

/-- The guards of an access of `bytes` bytes: the start of linear memory, and an address that has been
checked against its size. -/
structure GuardedBy (node? : Nat → Option Node) (bytes : Nat) (n : Node) (space checked : Nat) :
    Prop where
  space_input : n.inputs[1]? = some space
  checked_input : n.inputs[2]? = some checked
  space : ∃ k, node? space = some k ∧ k.op = .target .memorySpace
  checked : ∃ k p size, node? checked = some k ∧ k.op = .target .boundsCheck ∧
    k.literals = [.int (BitVec.ofNat 64 bytes)] ∧ k.inputs[2]? = some size ∧ node? size = some p ∧
    p.op = .target .memorySize

/-- Every access is guarded, and the memory context is taken from a state. -/
structure Guarded (node? : Nat → Option Node) : Prop where
  context : ∀ i n, node? i = some n → n.op = .target .memorySpace ∨ n.op = .target .memorySize →
    ∃ s, n.inputs[0]? = some s ∧ IsState node? s
  load : ∀ i n a, node? i = some n → n.op = .target (.load a) →
    ∃ space checked, GuardedBy node? a.bytes n space checked
  store : ∀ i n a, node? i = some n → n.op = .target (.store a) →
    ∃ space checked, GuardedBy node? a.bytes n space checked

section Renumber

variable {node? new? : Nat → Option Node} {f : Nat → Nat}

open Schedule

theorem getElem?_renumber {n : Node} {k v : Nat} (h : n.inputs[k]? = some v) :
    (renumber f n).inputs[k]? = some (f v) := by
  rw [renumber, List.getElem?_map, h, Option.map_some]

theorem IsState.renumber {i : Nat} (h : IsState node? i)
    (hnew : ∀ i n, node? i = some n → new? (f i) = some (renumber f n)) : IsState new? (f i) := by
  induction h with
  | arrives hn hop => exact .arrives (hnew _ _ hn) hop
  | updates hn hop hinput _ ih => exact .updates (hnew _ _ hn) hop (getElem?_renumber hinput) ih

theorem GuardedBy.renumber {bytes space checked : Nat} {n : Node}
    (h : GuardedBy node? bytes n space checked)
    (hnew : ∀ i n, node? i = some n → new? (f i) = some (renumber f n)) :
    GuardedBy new? bytes (renumber f n) (f space) (f checked) := by
  obtain ⟨k, hk, hkop⟩ := h.space
  obtain ⟨c, p, size, hc, hcop, hliterals, hinput, hp, hpop⟩ := h.checked
  exact ⟨getElem?_renumber h.space_input, getElem?_renumber h.checked_input, ⟨_, hnew _ _ hk, hkop⟩,
    _, _, _, hnew _ _ hc, hcop, hliterals, getElem?_renumber hinput, hnew _ _ hp, hpop⟩

/-- Guards stay guards when nodes are put in order. -/
theorem Guarded.renumber (h : Guarded node?)
    (hnew : ∀ i n, node? i = some n → new? (f i) = some (renumber f n))
    (hold : ∀ j m, new? j = some m → ∃ i n, node? i = some n ∧ m = renumber f n) : Guarded new? where
  context j m hm hop := by
    obtain ⟨i, n, hn, rfl⟩ := hold j m hm
    obtain ⟨s, hs, hstate⟩ := h.context i n hn hop
    exact ⟨f s, getElem?_renumber hs, hstate.renumber hnew⟩
  load j m a hm hop := by
    obtain ⟨i, n, hn, rfl⟩ := hold j m hm
    obtain ⟨space, checked, hguarded⟩ := h.load i n a hn hop
    exact ⟨_, _, hguarded.renumber hnew⟩
  store j m a hm hop := by
    obtain ⟨i, n, hn, rfl⟩ := hold j m hm
    obtain ⟨space, checked, hguarded⟩ := h.store i n a hn hop
    exact ⟨_, _, hguarded.renumber hnew⟩

end Renumber

/-- A copy is of an operator on memory only if the node is. -/
theorem Operator.copied?_ne {op : Operator} {t : Target} (hop : ∀ t, op ≠ .target t)
    (h : op.copied? = some (.target t)) :
    (∃ signed, t = .extend32 signed) ∨ (∃ op, t = .int op) ∨ t = .intRet ∨ t = .floatRet := by
  cases op with
  | target t => exact absurd rfl (hop t)
  | extend signed => exact .inl ⟨signed, (Operator.target.inj (Option.some.inj h)).symm⟩
  | address w =>
      cases w with
      | w32 => exact .inl ⟨false, (Operator.target.inj (Option.some.inj h)).symm⟩
      | w64 => exact absurd h (by simp [copied?])
  | intBinary w op =>
      cases w with
      | w32 => exact absurd h (by simp [copied?])
      | w64 =>
          simp only [copied?] at h
          split at h
          · next op' _ => exact .inr (.inl ⟨op', (Operator.target.inj (Option.some.inj h)).symm⟩)
          · exact absurd h (by simp)
  | compare w c => cases w <;> exact absurd h (by simp [copied?])
  | floatBinary w op => cases op <;> exact absurd h (by simp [copied?])
  | typedRet ty =>
      obtain rfl := Operator.target.inj (Option.some.inj h)
      cases ty.isFloat
      · exact .inr (.inr (.inl rfl))
      · exact .inr (.inr (.inr rfl))
  | _ => exact absurd h (by simp [copied?])

namespace Lowering

open Select Schedule

variable {g : Graph} {config : Config} {l l₁ : Lowering} {b id i s s' : Nat} {n m : Node}

/-- A node made by lowering. -/
def node? (l : Lowering) (i : Nat) : Option Node := (l.nodes[i]?).map Placed.node

theorem node?_of_placed {p : Placed} (h : l.nodes[i]? = some p) : l.node? i = some p.node := by
  rw [node?, h, Option.map_some]

/-- States of memory are copied. -/
theorem Steps.copies_state (h : Steps g config {} l) (hn : g.node? s = some n)
    (hop : n.op = .state ∨ n.op = .updateState) (hs : l.lowered.get? s = some s') :
    ∃ m, l.node? s' = some m ∧ m.op = n.op ∧
      List.Forall₂ (fun v v' => l.lowered.get? v = some v') n.inputs m.inputs := by
  cases h.successor hs with
  | stands hn' _ helided =>
      obtain rfl := Option.some.inj (hn.symm.trans (Graph.node?_eq_some.mpr ⟨_, hn'⟩))
      rcases hop with hop | hop <;> exact absurd helided (by simp [Elided, hop])
  | records hn' _ _ hkeeps hform hnew =>
      obtain rfl := Option.some.inj (hn.symm.trans (Graph.node?_eq_some.mpr ⟨_, hn'⟩))
      refine ⟨_, node?_of_placed hnew, ?_⟩
      cases hform with
      | copied hcopied _ _ hinputs =>
          refine ⟨?_, hinputs.imp fun _ _ hv => hkeeps.lowered hv⟩
          rcases hop with hop | hop <;> rw [hop] at hcopied ⊢ <;> exact (Option.some.inj hcopied).symm
      | compared hop' | signed hop' | loaded hop' => rcases hop with hop | hop <;> simp [hop] at hop'
      | stored hop' | fused hop' | branched hop' => rcases hop with hop | hop <;> simp [hop] at hop'
      | branched32 hop' => rcases hop with hop | hop <;> simp [hop] at hop'

/-- What a state of memory is lowered to is a state of memory. -/
theorem Steps.isState (h : Steps g config {} l) (hstate : IsState g.node? s)
    (hs : l.lowered.get? s = some s') : IsState l.node? s' := by
  induction hstate generalizing s' with
  | arrives hn hop =>
      obtain ⟨m, hm, hmop, -⟩ := h.copies_state hn (.inl hop) hs
      exact .arrives hm (hmop.trans hop)
  | updates hn hop hv _ ih =>
      obtain ⟨m, hm, hmop, hinputs⟩ := h.copies_state hn (.inr hop) hs
      obtain ⟨v', hv', hlowered⟩ := forall₂_getElem? hinputs hv
      exact .updates hm (hmop.trans hop) hv' (ih hlowered)

theorem Guards.guardedBy {bytes state address space checked : Nat}
    (h : Guards l₁ b bytes state address space checked) (hkeeps : Keeps l₁ l)
    (hspace : n.inputs[1]? = some space) (hchecked : n.inputs[2]? = some checked) :
    GuardedBy l.node? bytes n space checked := by
  obtain ⟨size, hsize, hcheck⟩ := h.checked
  refine ⟨hspace, hchecked, ⟨_, node?_of_placed (hkeeps.nodes h.space), rfl⟩, ?_⟩
  exact ⟨_, _, size, node?_of_placed (hkeeps.nodes hcheck), rfl, rfl, rfl,
    node?_of_placed (hkeeps.nodes hsize), rfl⟩

/-- A copied node does not work on memory. -/
theorem op_of_copied {op' : Operator} (hg : g.Generic) (hn : g.node? id = some n)
    (hop : n.op.copied? = some op') :
    op' ≠ .target .memorySpace ∧ op' ≠ .target .memorySize ∧ (∀ a, op' ≠ .target (.load a)) ∧
      ∀ a, op' ≠ .target (.store a) := by
  have hne {t : Target} (heq : op' = .target t) :=
    Operator.copied?_ne (hg.op_ne_target hn) (heq ▸ hop)
  refine ⟨fun heq => ?_, fun heq => ?_, fun a heq => ?_, fun a heq => ?_⟩
  all_goals rcases hne heq with ⟨_, h⟩ | ⟨_, h⟩ | h | h <;> cases h

/-- The new nodes are guarded. -/
theorem Steps.guarded (h : Steps g config {} l) (hg : g.Generic) : Guarded l.node? where
  context i n hi hop := by
    obtain ⟨p, hp, rfl⟩ := Option.map_eq_some_iff.mp hi
    obtain ⟨l₁, id, k, hsteps, hkeeps, -, hk, hcases⟩ := h.origin hp
    have hknode := Graph.node?_eq_some.mpr ⟨_, hk⟩
    have hstate {s s' : Nat} (haccess : k.op.isAccess = true) (hs : k.inputs[0]? = some s)
        (hs' : l₁.lowered.get? s = some s') : IsState l.node? s' := by
      obtain ⟨s₁, hs₁, hstate⟩ := hg.states id k hknode haccess
      obtain rfl := Option.some.inj (hs.symm.trans hs₁)
      exact h.isState hstate (hkeeps.lowered hs')
    rcases hcases with haid | ⟨hform, -⟩
    · generalize p.node = m at haid hop
      cases haid with
      | extension | magnitude | check => rcases hop with hop | hop <;> cases hop
      | space haccess hs hs' => exact ⟨_, rfl, hstate haccess hs hs'⟩
      | size haccess hs hs' => exact ⟨_, rfl, hstate haccess hs hs'⟩
    · generalize p.node = m at hform hop
      cases hform with
      | copied hcopied =>
          obtain ⟨hspace, hsize, -⟩ := op_of_copied hg hknode hcopied
          exact absurd hop (not_or.mpr ⟨hspace, hsize⟩)
      | signed hop' => rcases hop with hop | hop <;> exact absurd (hop'.symm.trans hop) (by simp)
      | compared | loaded | stored | fused => rcases hop with hop | hop <;> cases hop
      | branched | branched32 => rcases hop with hop | hop <;> cases hop
  load i n a hi hop := by
    obtain ⟨p, hp, rfl⟩ := Option.map_eq_some_iff.mp hi
    obtain ⟨l₁, id, k, -, hkeeps, -, hk, haid | ⟨hform, -⟩⟩ := h.origin hp
    · generalize p.node = m at haid hop
      cases haid <;> cases hop
    · generalize p.node = m at hform hop
      cases hform with
      | copied hcopied =>
          exact absurd hop ((op_of_copied hg (Graph.node?_eq_some.mpr ⟨_, hk⟩) hcopied).2.2.1 a)
      | signed hop' => exact absurd (hop'.symm.trans hop) (by simp)
      | @loaded op _ _ _ _ space checked _ _ _ _ _ _ _ hguards =>
          obtain rfl : op.access = a := Target.load.inj (Operator.target.inj hop)
          exact ⟨space, checked, hguards.guardedBy hkeeps rfl rfl⟩
      | compared | stored | fused | branched | branched32 => cases hop
  store i n a hi hop := by
    obtain ⟨p, hp, rfl⟩ := Option.map_eq_some_iff.mp hi
    obtain ⟨l₁, id, k, -, hkeeps, -, hk, haid | ⟨hform, -⟩⟩ := h.origin hp
    · generalize p.node = m at haid hop
      cases haid <;> cases hop
    · generalize p.node = m at hform hop
      cases hform with
      | copied hcopied =>
          exact absurd hop ((op_of_copied hg (Graph.node?_eq_some.mpr ⟨_, hk⟩) hcopied).2.2.2 a)
      | signed hop' => exact absurd (hop'.symm.trans hop) (by simp)
      | @stored op _ _ _ _ _ _ space checked _ _ _ _ _ _ _ _ _ hguards =>
          obtain rfl : op.access = a := Target.store.inj (Operator.target.inj hop)
          exact ⟨space, checked, hguards.guardedBy hkeeps rfl rfl⟩
      | compared | loaded | fused | branched | branched32 => cases hop

/-- The new nodes in order are guarded. -/
theorem Steps.guarded_schedule (h : Steps g config {} l) (hg : g.Generic) :
    Guarded (schedule g.blocks l.nodes).node? := by
  refine (h.guarded hg).renumber (f := place g.blocks l.nodes) (fun i n hi => ?_) fun j m hj => ?_
  · obtain ⟨p, hp, rfl⟩ := Option.map_eq_some_iff.mp hi
    exact Graph.node?_eq_some.mpr ⟨_, schedule_node h.grounded h.housed hp⟩
  · obtain ⟨b, hb⟩ := Graph.node?_eq_some.mp hj
    obtain ⟨i, p, hp, -, heq⟩ := exists_of_schedule_node h.grounded h.housed hb
    exact ⟨i, p.node, node?_of_placed hp, (Placed.mk.inj heq).2⟩

end Lowering

end Isel
