import Isel.Proofs.Schedule
import Mathlib.Data.List.Forall2

/-! What a node stands for once everything it refers to is written out: a tree of operators. Nodes that
are found in different places, or of which one graph has several and another only one, stand for the same
if their trees are equal. Scheduling moves nodes and does not change their trees. -/

namespace Isel

/-- A node with all that it refers to written out. -/
inductive Expansion
  | node (op : Operator) (block : Nat) (literals : List Literal) (control : List (Nat ⊕ Expansion))
      (inputs : List Expansion)

/-- What a node waits for, with nodes written out. -/
def unfoldControl (f : Nat → Option Expansion) : Control → Option (Nat ⊕ Expansion)
  | .block b => some (.inl b)
  | .node r => (f r).map .inr

/-- Writes out a node, along chains of references that are shorter than `fuel`. -/
def unfold (nodes : Array Placed) : Nat → Nat → Option Expansion
  | 0, _ => none
  | fuel + 1, i => do
    let p ← nodes[i]?
    let control ← p.node.control.mapM (unfoldControl (unfold nodes fuel))
    let inputs ← p.node.inputs.mapM (unfold nodes fuel)
    return .node p.node.op p.block p.node.literals control inputs

/-- A node stands for a tree. -/
def Unfolds (nodes : Array Placed) (i : Nat) (e : Expansion) : Prop :=
  ∃ fuel, unfold nodes fuel i = some e

/-- What a node waits for stands for a block or a tree. -/
def UnfoldsControl (nodes : Array Placed) (c : Control) (x : Nat ⊕ Expansion) : Prop :=
  ∃ fuel, unfoldControl (unfold nodes fuel) c = some x

/-- Nodes are still there. -/
def Extends (nodes nodes' : Array Placed) : Prop :=
  ∀ ⦃i : Nat⦄ ⦃p : Placed⦄, nodes[i]? = some p → nodes'[i]? = some p

theorem option_mapM_eq_some {α β : Type} {f : α → Option β} {xs : List α} {ys : List β} :
    xs.mapM f = some ys ↔ List.Forall₂ (fun x y => f x = some y) xs ys := by
  induction xs generalizing ys with
  | nil =>
      rw [List.mapM_nil, List.forall₂_nil_left_iff]
      exact ⟨fun h => (Option.some.inj h).symm, fun h => h ▸ rfl⟩
  | cons x xs ih =>
      simp only [List.mapM_cons, Option.bind_eq_bind, Option.bind_eq_some_iff, ih,
        List.forall₂_cons_left_iff, Option.pure_def, Option.some.injEq]
      constructor
      · rintro ⟨y, hy, zs, hzs, rfl⟩
        exact ⟨y, zs, hy, hzs, rfl⟩
      · rintro ⟨y, zs, hy, hzs, rfl⟩
        exact ⟨y, hy, zs, hzs, rfl⟩

variable {nodes nodes' : Array Placed} {i j fuel fuel' : Nat} {e e' : Expansion}

theorem unfold_succ : unfold nodes (fuel + 1) i = some e ↔ ∃ b n control inputs,
    nodes[i]? = some ⟨b, n⟩ ∧
    List.Forall₂ (fun c x => unfoldControl (unfold nodes fuel) c = some x) n.control control ∧
    List.Forall₂ (fun v x => unfold nodes fuel v = some x) n.inputs inputs ∧
    e = .node n.op b n.literals control inputs := by
  simp only [unfold, Option.bind_eq_bind, Option.bind_eq_some_iff, option_mapM_eq_some, Option.pure_def,
    Option.some.injEq]
  constructor
  · rintro ⟨⟨b, n⟩, hp, control, hcontrol, inputs, hinputs, rfl⟩
    exact ⟨b, n, control, inputs, hp, hcontrol, hinputs, rfl⟩
  · rintro ⟨b, n, control, inputs, hp, hcontrol, hinputs, rfl⟩
    exact ⟨⟨b, n⟩, hp, control, hcontrol, inputs, hinputs, rfl⟩

theorem unfoldControl_mono {f f' : Nat → Option Expansion} {c : Control} {x : Nat ⊕ Expansion}
    (h : ∀ r e, f r = some e → f' r = some e) (hx : unfoldControl f c = some x) :
    unfoldControl f' c = some x := by
  cases c with
  | block b => exact hx
  | node r =>
      obtain ⟨e, he, rfl⟩ := Option.map_eq_some_iff.mp hx
      exact Option.map_eq_some_iff.mpr ⟨e, h r e he, rfl⟩

/-- More nodes and longer chains change no tree. -/
theorem unfold_mono (hnodes : Extends nodes nodes') (hfuel : fuel ≤ fuel')
    (h : unfold nodes fuel i = some e) : unfold nodes' fuel' i = some e := by
  induction fuel generalizing fuel' i e with
  | zero => exact absurd h (by simp [unfold])
  | succ fuel ih =>
      obtain ⟨fuel', rfl⟩ : ∃ k, fuel' = k + 1 := ⟨fuel' - 1, by omega⟩
      have hsub : ∀ r e, unfold nodes fuel r = some e → unfold nodes' fuel' r = some e :=
        fun r e he => ih (by omega) he
      obtain ⟨b, n, control, inputs, hp, hcontrol, hinputs, rfl⟩ := unfold_succ.mp h
      refine unfold_succ.mpr ⟨b, n, control, inputs, hnodes hp, ?_, ?_, rfl⟩
      · exact hcontrol.imp fun _ _ hc => unfoldControl_mono hsub hc
      · exact hinputs.imp fun _ _ hv => hsub _ _ hv

theorem Extends.refl (nodes : Array Placed) : Extends nodes nodes := fun _ _ h => h

theorem Extends.trans {nodes'' : Array Placed} (h : Extends nodes nodes') (h' : Extends nodes' nodes'') :
    Extends nodes nodes'' := fun _ _ hi => h' (h hi)

namespace Unfolds

theorem mono (h : Unfolds nodes i e) (hnodes : Extends nodes nodes') : Unfolds nodes' i e := by
  obtain ⟨fuel, hfuel⟩ := h
  exact ⟨fuel, unfold_mono hnodes (Nat.le_refl fuel) hfuel⟩

/-- A node stands for one tree. -/
theorem unique (h : Unfolds nodes i e) (h' : Unfolds nodes i e') : e = e' := by
  obtain ⟨fuel, hfuel⟩ := h
  obtain ⟨fuel', hfuel'⟩ := h'
  have hmax := unfold_mono (.refl nodes) (Nat.le_max_left fuel fuel') hfuel
  have hmax' := unfold_mono (.refl nodes) (Nat.le_max_right fuel fuel') hfuel'
  exact Option.some.inj (hmax.symm.trans hmax')

end Unfolds

theorem UnfoldsControl.mono {c : Control} {x : Nat ⊕ Expansion} (h : UnfoldsControl nodes c x)
    (hnodes : Extends nodes nodes') : UnfoldsControl nodes' c x := by
  obtain ⟨fuel, hfuel⟩ := h
  exact ⟨fuel, unfoldControl_mono (fun _ _ => unfold_mono hnodes (Nat.le_refl fuel)) hfuel⟩

/-- Finitely many results need no more than some amount of fuel. -/
theorem exists_fuel {α β : Type} {f : Nat → α → Option β} {xs : List α} {ys : List β}
    (hmono : ∀ fuel fuel' x y, fuel ≤ fuel' → f fuel x = some y → f fuel' x = some y)
    (h : List.Forall₂ (fun x y => ∃ fuel, f fuel x = some y) xs ys) :
    ∃ fuel, List.Forall₂ (fun x y => f fuel x = some y) xs ys := by
  induction h with
  | nil => exact ⟨0, .nil⟩
  | @cons x y xs ys hxy _ ih =>
      obtain ⟨fuel, hfirst⟩ := hxy
      obtain ⟨fuel', hrest⟩ := ih
      refine ⟨max fuel fuel', .cons (hmono _ _ x y (Nat.le_max_left _ _) hfirst) ?_⟩
      exact hrest.imp fun x y hxy => hmono _ _ x y (Nat.le_max_right _ _) hxy

theorem Unfolds.of_node {b : Nat} {n : Node} {control : List (Nat ⊕ Expansion)} {inputs : List Expansion}
    (hp : nodes[i]? = some ⟨b, n⟩) (hcontrol : List.Forall₂ (UnfoldsControl nodes) n.control control)
    (hinputs : List.Forall₂ (Unfolds nodes) n.inputs inputs) :
    Unfolds nodes i (.node n.op b n.literals control inputs) := by
  have hmono (fuel fuel' r : Nat) (e : Expansion) (hle : fuel ≤ fuel')
      (h : unfold nodes fuel r = some e) : unfold nodes fuel' r = some e :=
    unfold_mono (.refl nodes) hle h
  obtain ⟨fuel, hcontrol⟩ := exists_fuel (f := fun fuel => unfoldControl (unfold nodes fuel))
    (fun _ _ _ _ hle => unfoldControl_mono fun _ _ => hmono _ _ _ _ hle) hcontrol
  obtain ⟨fuel', hinputs⟩ := exists_fuel hmono hinputs
  refine ⟨max fuel fuel' + 1, unfold_succ.mpr ⟨b, n, control, inputs, hp, ?_, ?_, rfl⟩⟩
  · refine hcontrol.imp fun _ _ hc => unfoldControl_mono (fun r e => ?_) hc
    exact hmono _ _ r e (Nat.le_max_left _ _)
  · exact hinputs.imp fun r e hr => hmono _ _ r e (Nat.le_max_right _ _) hr

/-- The tree of a node is found at its place in the schedule. -/
theorem Unfolds.place {blocks : Array Block} (hg : Schedule.Grounded nodes)
    (hh : Schedule.Housed blocks nodes) (h : Unfolds nodes i e) :
    Unfolds (schedule blocks nodes).nodes (Schedule.place blocks nodes i) e := by
  obtain ⟨fuel, hfuel⟩ := h
  refine ⟨fuel, ?_⟩
  induction fuel generalizing i e with
  | zero => exact absurd hfuel (by simp [unfold])
  | succ fuel ih =>
      obtain ⟨b, n, control, inputs, hp, hcontrol, hinputs, rfl⟩ := unfold_succ.mp hfuel
      refine unfold_succ.mpr ⟨b, _, control, inputs, Schedule.schedule_node hg hh hp, ?_, ?_, rfl⟩
      · refine List.forall₂_map_left_iff.mpr (hcontrol.imp fun c x hc => ?_)
        cases c with
        | block b => exact hc
        | node r =>
            obtain ⟨e, he, rfl⟩ := Option.map_eq_some_iff.mp hc
            exact Option.map_eq_some_iff.mpr ⟨e, ih he, rfl⟩
      · exact List.forall₂_map_left_iff.mpr (hinputs.imp fun _ _ hv => ih hv)

end Isel
