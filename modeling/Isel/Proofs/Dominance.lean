import Isel.Graph.Basic
import Mathlib.Data.List.Basic

/-! Paths through the blocks of a graph. A block dominates another if every path from the first
block to the other passes through it. Along an edge the strict dominators of the target are
dominators of the source, and no two blocks on a path dominate one another: these two facts say that
a value computed in a dominating block is still the current one. -/

namespace Isel.Graph

variable {g : Graph} {a b c : Nat} {bs : List Nat}

/-- Control may go from a block to another. -/
def Edge (g : Graph) (b c : Nat) : Prop := ∃ block, g.block? b = some block ∧ c ∈ block.successors

/-- The blocks on a path from the first block, the last one first. -/
inductive Walk (g : Graph) : List Nat → Nat → Prop
  | start : Walk g [0] 0
  | step {bs : List Nat} {b c : Nat} : Walk g bs b → g.Edge b c → Walk g (c :: bs) c

/-- Every path from the first block to `b` passes through `a`. -/
def Dominates (g : Graph) (a b : Nat) : Prop := ∀ bs, g.Walk bs b → a ∈ bs

/-- Paths depend on the blocks only. -/
theorem Walk.of_blocks {g' : Graph} (h : g.Walk bs b) (hblocks : g'.blocks = g.blocks) :
    g'.Walk bs b := by
  induction h with
  | start => exact .start
  | step _ hedge ih =>
      obtain ⟨block, hblock, hmem⟩ := hedge
      refine ih.step ⟨block, ?_, hmem⟩
      rw [block?, hblocks]
      exact hblock

theorem Dominates.of_blocks {g' : Graph} (h : g.Dominates a b) (hblocks : g'.blocks = g.blocks) :
    g'.Dominates a b := fun bs hwalk => h bs (hwalk.of_blocks hblocks.symm)

theorem Walk.target_mem (h : g.Walk bs b) : b ∈ bs := by
  cases h <;> exact List.mem_cons_self

/-- A path can be cut at each of its blocks. -/
theorem Walk.cut (h : g.Walk bs b) (ha : a ∈ bs) : ∃ as, g.Walk as a ∧ as <:+ bs := by
  induction h with
  | start =>
      obtain rfl : a = 0 := List.mem_singleton.mp ha
      exact ⟨[0], .start, List.suffix_rfl⟩
  | @step bs b c hwalk hedge ih =>
      rcases List.mem_cons.mp ha with rfl | ha
      · exact ⟨_, hwalk.step hedge, List.suffix_rfl⟩
      · obtain ⟨as, has, hsuffix⟩ := ih ha
        exact ⟨as, has, hsuffix.trans (List.suffix_cons c bs)⟩

/-- Cut at a block other than its last one, a path gets shorter. -/
theorem Walk.cut_shorter (h : g.Walk bs b) (ha : a ∈ bs) (hne : a ≠ b) :
    ∃ as, g.Walk as a ∧ as.length < bs.length := by
  cases h with
  | start => exact absurd (List.mem_singleton.mp ha) hne
  | @step bs b _ hwalk hedge =>
      rcases List.mem_cons.mp ha with rfl | ha
      · exact absurd rfl hne
      · obtain ⟨as, has, hsuffix⟩ := hwalk.cut ha
        exact ⟨as, has, Nat.lt_succ_of_le hsuffix.length_le⟩

/-- Every path starts at the first block. -/
theorem dominates_first (g : Graph) (b : Nat) : g.Dominates 0 b := by
  intro bs hwalk
  induction hwalk with
  | start => exact List.mem_singleton_self 0
  | step _ _ ih => exact List.mem_cons_of_mem _ ih

theorem Dominates.refl (g : Graph) (b : Nat) : g.Dominates b b := fun _ h => h.target_mem

theorem Dominates.trans (hab : g.Dominates a b) (hbc : g.Dominates b c) : g.Dominates a c := by
  intro bs hwalk
  obtain ⟨as, has, hsuffix⟩ := hwalk.cut (hbc bs hwalk)
  exact hsuffix.subset (hab as has)

/-- Two blocks that dominate one another are the same, if any path leads to them. -/
theorem Dominates.antisymm (hab : g.Dominates a b) (hba : g.Dominates b a) (h : g.Walk bs b) :
    a = b := by
  -- descent on the length of a path to either of them: it passes through the other one
  induction hn : bs.length using Nat.strongRecOn generalizing a b bs with
  | ind n ih =>
      by_contra hne
      obtain ⟨as, has, hlt⟩ := h.cut_shorter (hab bs h) hne
      exact hne (ih as.length (hn ▸ hlt) hba hab has rfl).symm

/-- What strictly dominates the target of an edge dominates its source. -/
theorem Dominates.of_edge (h : g.Dominates a c) (hedge : g.Edge b c) (hne : a ≠ c) :
    g.Dominates a b := by
  intro bs hwalk
  rcases List.mem_cons.mp (h _ (hwalk.step hedge)) with heq | hmem
  · exact absurd heq hne
  · exact hmem

end Isel.Graph
