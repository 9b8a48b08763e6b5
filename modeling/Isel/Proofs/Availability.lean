import Isel.Proofs.Layout

/-! Which nodes have been run, wherever a run that follows the edges of a graph has come to. -/

namespace Isel.Graph

variable {g : Graph} {b c id y : Nat} {n : Node} {done rest bs : List Nat}

/-- While block `b` runs and has come past some of its nodes, these have their values, and so have
the nodes of the blocks that strictly dominate it. -/
def Available (g : Graph) (b : Nat) (done : List Nat) (y : Nat) : Prop :=
  y ∈ done ∨ ∃ c, g.blockOf? y = some c ∧ c ≠ b ∧ g.Dominates c b

theorem Available.mono (h : g.Available b done y) (rest : List Nat) :
    g.Available b (done ++ rest) y := h.imp_left (List.mem_append_left _)

theorem Available.of_append (h : g.Available b (done ++ [id]) y) :
    g.Available b done y ∨ y = id := by
  rcases h with hy | hy
  · exact (List.mem_append.mp hy).imp .inl List.mem_singleton.mp
  · exact .inl (.inr hy)

/-- Nothing has been run when the first block is entered. -/
theorem not_available_start : ¬g.Available 0 [] y := by
  rintro (hmem | ⟨c, -, hne, hdom⟩)
  · exact List.not_mem_nil hmem
  · exact hne (List.mem_singleton.mp (hdom [0] .start))

/-- The node of a block that comes next has not been run. -/
theorem not_available_next (hmembers : g.members b = done ++ id :: rest)
    (hn : g.nodes[id]? = some ⟨b, n⟩) : ¬g.Available b done id := by
  rintro (hmem | ⟨c, hc, hne, -⟩)
  · exact List.disjoint_of_nodup_append (hmembers ▸ g.members_nodup b) hmem List.mem_cons_self
  · rw [blockOf?_eq_some.mpr ⟨n, hn⟩] at hc
    exact hne (Option.some.inj hc).symm

/-- What has been run when a block is entered had been run at the end of the block before. -/
theorem Available.of_edge (h : g.Available c [] y) (hedge : g.Edge b c) :
    g.Available b (g.members b) y := by
  rcases h with hmem | ⟨d, hd, hne, hdom⟩
  · exact absurd hmem List.not_mem_nil
  · by_cases hdb : d = b
    · exact .inl (mem_members.mpr (hdb ▸ hd))
    · exact .inr ⟨d, hd, hdb, hdom.of_edge hedge hne⟩

/-- The node of a block that comes next finds all that it refers to. -/
theorem available_of_reference (hscoped : g.Scoped) (hmembers : g.members b = done ++ id :: rest)
    (hn : g.nodes[id]? = some ⟨b, n⟩) {r : Nat} (hr : r ∈ n.references) : g.Available b done r := by
  obtain ⟨hprecedes, c, hc, hdom⟩ := hscoped id n b hn r hr
  by_cases hcb : c = b
  · subst hcb
    obtain ⟨after, hlayout⟩ := layout_split (blockOf?_lt hc)
    rw [hmembers, List.append_assoc, ← List.append_assoc] at hlayout
    rcases List.mem_append.mp (hprecedes.mem_front hlayout) with hr | hr
    · exact absurd hc (blockOf?_of_mem_before hr)
    · exact .inl hr
  · exact .inr ⟨c, hc, hcb, hdom⟩

/-- What an available node refers to is available. -/
theorem Available.reference (h : g.Available b done y) (hscoped : g.Scoped) (hwalk : g.Walk bs b)
    (hmembers : g.members b = done ++ rest) (hn : g.node? y = some n) {r : Nat}
    (hr : r ∈ n.references) : g.Available b done r := by
  obtain ⟨c, hc⟩ := node?_eq_some.mp hn
  have hblock := blockOf?_eq_some.mpr ⟨n, hc⟩
  rcases h with hy | ⟨d, hd, hne, hdom⟩
  · obtain ⟨front, after, rfl⟩ := List.append_of_mem hy
    have hb : g.blockOf? y = some b := mem_members.mp (hmembers ▸ List.mem_append_left _ hy)
    obtain rfl := Option.some.inj (hblock.symm.trans hb)
    rw [List.append_assoc, List.cons_append] at hmembers
    exact (available_of_reference hscoped hmembers hc hr).mono _
  · obtain rfl := Option.some.inj (hblock.symm.trans hd)
    obtain ⟨-, a, ha, hac⟩ := hscoped y n c hc r hr
    refine .inr ⟨a, ha, ?_, hac.trans hdom⟩
    rintro rfl
    exact hne (hdom.antisymm hac hwalk)

end Isel.Graph
