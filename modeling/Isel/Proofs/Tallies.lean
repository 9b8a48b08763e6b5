import Isel.Proofs.LoweringForms
import Mathlib.Data.Finset.Card

/-! Counting while nodes are lowered. Statistics are compared with the number of nodes of a kind that
the table has: between two states of lowering both grow by the same amount. -/

namespace Isel

open Select

instance (g : Graph) (config : Config) (id : Nat) (n : Node) :
    Decidable (Lowering.Elided g config id n) :=
  inferInstanceAs (Decidable (_ ∨ _ ∨ (_ ∧ _)))

namespace Graph

variable {g : Graph} {config : Config} {id : Nat} {n : Node}

/-- Whether a node stands for its first input. -/
def elides (g : Graph) (config : Config) (id : Nat) : Bool :=
  (g.node? id).any fun n => decide (Lowering.Elided g config id n)

/-- Whether a node is a branch that takes over the comparison it is on. -/
def fuses (g : Graph) (config : Config) (id : Nat) : Bool :=
  (g.node? id).any fun n => n.op == .branch && n.inputs.head?.any (absorbs g config)

theorem elides_eq_true (hn : g.node? id = some n) :
    g.elides config id = true ↔ Lowering.Elided g config id n := by
  simp [elides, hn]

theorem elides_eq_false (hn : g.node? id = some n) :
    g.elides config id = false ↔ ¬Lowering.Elided g config id n := by
  rw [← elides_eq_true hn, Bool.not_eq_true]

theorem node_of_elides (h : g.elides config id = true) :
    ∃ n, g.node? id = some n ∧ Lowering.Elided g config id n := by
  cases hn : g.node? id with
  | none => simp [elides, hn] at h
  | some n => exact ⟨n, rfl, (elides_eq_true hn).mp h⟩

theorem fuses_eq_true (hn : g.node? id = some n) : g.fuses config id = true ↔
    n.op = .branch ∧ ∃ c, n.inputs.head? = some c ∧ absorbs g config c = true := by
  rw [fuses, hn, Option.any_some, Bool.and_eq_true, beq_iff_eq]
  cases n.inputs.head? <;> simp

theorem node_of_fuses (h : g.fuses config id = true) : ∃ n, g.node? id = some n ∧ n.op = .branch ∧
    ∃ c, n.inputs.head? = some c ∧ absorbs g config c = true := by
  cases hn : g.node? id with
  | none => simp [fuses, hn] at h
  | some n => exact ⟨n, rfl, (fuses_eq_true hn).mp h⟩

end Graph

namespace Lowering

variable {g : Graph} {config : Config} {l l₁ l' : Lowering} {id v : Nat} {kind : Nat → Bool}

/-- The number of nodes of a kind that are lowered. -/
def tally (g : Graph) (l : Lowering) (kind : Nat → Bool) : Nat :=
  {id ∈ Finset.range g.nodes.size | l.lowered.contains id ∧ kind id}.card

theorem tally_empty : ({} : Lowering).tally g kind = 0 := by
  simp [tally, Table.contains]

theorem tally_congr (h : l'.lowered = l.lowered) : l'.tally g kind = l.tally g kind := by
  rw [tally, tally, h]

/-- One more node is lowered. -/
theorem tally_set (hlt : id < g.nodes.size) (hnew : l.lowered.get? id = none)
    (hset : l'.lowered = l.lowered.set id v) :
    l'.tally g kind = l.tally g kind + if kind id then 1 else 0 := by
  have hcontains (y : Nat) : l'.lowered.contains y ↔ y = id ∨ l.lowered.contains y := by
    rw [hset, Table.contains, Table.contains, Table.get?_set]
    split <;> simp_all
  have hnot : ¬l.lowered.contains id := by simp [Table.contains, hnew]
  cases hkind : kind id with
  | true =>
      have hinsert : {y ∈ Finset.range g.nodes.size | l'.lowered.contains y ∧ kind y}
          = insert id {y ∈ Finset.range g.nodes.size | l.lowered.contains y ∧ kind y} := by
        ext y
        simp only [Finset.mem_filter, Finset.mem_insert, Finset.mem_range, hcontains]
        constructor
        · rintro ⟨hy, rfl | hlowered, hkind⟩
          · exact .inl rfl
          · exact .inr ⟨hy, hlowered, hkind⟩
        · rintro (rfl | ⟨hy, hlowered, hkind⟩)
          · exact ⟨hlt, .inl rfl, hkind⟩
          · exact ⟨hy, .inr hlowered, hkind⟩
      rw [tally, hinsert, Finset.card_insert_of_notMem (by simp [hnot])]
      rfl
  | false =>
      have hsame : {y ∈ Finset.range g.nodes.size | l'.lowered.contains y ∧ kind y}
          = {y ∈ Finset.range g.nodes.size | l.lowered.contains y ∧ kind y} := by
        refine Finset.filter_congr fun y _ => ?_
        rw [hcontains]
        refine and_congr_left fun hy => or_iff_right ?_
        rintro rfl
        exact absurd (hkind.symm.trans hy) (by simp)
      rw [tally, hsame]
      rfl

/-- Between two states the new nodes are the helpers and one for each node that is not elided, and
elided nodes and branches that take over a comparison are counted when they are lowered. -/
structure Balanced (g : Graph) (config : Config) (l l' : Lowering) : Prop where
  nodes : l'.nodes.size + l.stats.inserted + l.tally g (fun id => !g.elides config id)
    = l.nodes.size + l'.stats.inserted + l'.tally g (fun id => !g.elides config id)
  eliminated : l'.stats.eliminated + l.tally g (g.elides config)
    = l.stats.eliminated + l'.tally g (g.elides config)
  fused : l'.stats.fused + l.tally g (g.fuses config) = l.stats.fused + l'.tally g (g.fuses config)

theorem Balanced.refl (l : Lowering) : Balanced g config l l := ⟨rfl, rfl, rfl⟩

theorem Balanced.trans (h : Balanced g config l l₁) (h' : Balanced g config l₁ l') :
    Balanced g config l l' where
  nodes := by have := h.nodes; have := h'.nodes; omega
  eliminated := by have := h.eliminated; have := h'.eliminated; omega
  fused := by have := h.fused; have := h'.fused; omega

/-- Statistics of two states in which the same nodes are lowered. -/
theorem Balanced.of_lowered (hlowered : l'.lowered = l.lowered)
    (hnodes : l'.nodes.size + l.stats.inserted = l.nodes.size + l'.stats.inserted)
    (heliminated : l'.stats.eliminated = l.stats.eliminated)
    (hfused : l'.stats.fused = l.stats.fused) : Balanced g config l l' where
  nodes := by rw [tally_congr hlowered, hnodes]
  eliminated := by rw [tally_congr hlowered, heliminated]
  fused := by rw [tally_congr hlowered, hfused]

/-- From the start, the statistics are the numbers of nodes in the table. -/
theorem Balanced.totals (h : Balanced g config {} l) :
    l.nodes.size = l.stats.inserted + l.tally g (fun id => !g.elides config id) ∧
    l.stats.eliminated = l.tally g (g.elides config) ∧ l.stats.fused = l.tally g (g.fuses config) := by
  obtain ⟨hnodes, heliminated, hfused⟩ := h
  rw [tally_empty] at hnodes heliminated hfused
  change l.nodes.size + 0 + 0 = 0 + l.stats.inserted + _ at hnodes
  change l.stats.eliminated + 0 = 0 + _ at heliminated
  change l.stats.fused + 0 = 0 + _ at hfused
  omega

/-- The state in which one more elided node is counted. -/
def dropped (l : Lowering) : Lowering :=
  { l with stats := { l.stats with eliminated := l.stats.eliminated + 1 } }

/-- Statistics before and after a node is recorded: only a branch that takes over a comparison
counts. -/
structure Counts (g : Graph) (config : Config) (id : Nat) (s s' : Stats) : Prop where
  inserted : s'.inserted = s.inserted
  eliminated : s'.eliminated = s.eliminated
  fused : s'.fused = s.fused + if g.fuses config id then 1 else 0

section

variable (hlt : id < g.nodes.size) (hnew : l₁.lowered.get? id = none)

include hlt hnew

/-- An elided node is counted before what it stands for is lowered, and entered in the table after. -/
theorem Balanced.stand (h : Balanced g config l.dropped l₁) (helides : g.elides config id = true)
    (hfuses : g.fuses config id = false) (hset : l'.lowered = l₁.lowered.set id v)
    (hnodes : l'.nodes = l₁.nodes) (hstats : l'.stats = l₁.stats) : Balanced g config l l' where
  nodes := by
    rw [tally_set hlt hnew hset, hnodes, hstats, helides]
    exact h.nodes
  eliminated := by
    have hbefore := h.eliminated
    have hcount : l.dropped.stats.eliminated = l.stats.eliminated + 1 := rfl
    have hsame : l.dropped.tally g (g.elides config) = l.tally g (g.elides config) := rfl
    rw [tally_set hlt hnew hset, hstats, helides, if_pos rfl]
    omega
  fused := by
    rw [tally_set hlt hnew hset, hstats, hfuses]
    exact h.fused

theorem Balanced.record (h : Balanced g config l l₁) (helides : g.elides config id = false)
    {p : Placed} (hcounts : Counts g config id l₁.stats l'.stats)
    (hset : l'.lowered = l₁.lowered.set id v) (hnodes : l'.nodes = l₁.nodes.push p) :
    Balanced g config l l' where
  nodes := by
    have hbefore := h.nodes
    rw [tally_set hlt hnew hset, hnodes, hcounts.inserted, Array.size_push, helides]
    simp only [Bool.not_false, if_true]
    omega
  eliminated := by
    rw [tally_set hlt hnew hset, hcounts.eliminated, helides]
    exact h.eliminated
  fused := by
    have hbefore := h.fused
    rw [tally_set hlt hnew hset, hcounts.fused]
    omega

end

end Lowering

end Isel
