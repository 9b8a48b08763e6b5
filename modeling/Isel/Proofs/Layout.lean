import Isel.Graph.Verify
import Isel.Proofs.Dominance
import Mathlib.Data.List.Nodup

/-! The order of nodes along the layout, and the rules that a graph has to keep so that each of its
values is there when it is needed: every reference leads to an earlier node in a dominating block,
and every block ends in a terminator. -/

namespace Isel.Graph

variable {g : Graph} {a b id r : Nat}

theorem node?_eq_some {n : Node} :
    g.node? id = some n ↔ ∃ b, g.nodes[id]? = some ⟨b, n⟩ := by
  simp only [node?, Option.map_eq_some_iff]
  constructor
  · rintro ⟨⟨b, m⟩, hp, rfl⟩
    exact ⟨b, hp⟩
  · rintro ⟨b, hp⟩
    exact ⟨_, hp, rfl⟩

theorem forall_node? {P : Nat → Node → Prop} :
    (∀ id < g.nodes.size, ∀ n ∈ g.node? id, P id n) ↔ ∀ id n, g.node? id = some n → P id n := by
  constructor
  · intro h id n hn
    obtain ⟨b, hb⟩ := node?_eq_some.mp hn
    exact h id (Array.getElem?_eq_some_iff.mp hb).1 n hn
  · exact fun h id _ n hn => h id n hn

theorem blockOf?_eq_some : g.blockOf? id = some b ↔ ∃ n, g.nodes[id]? = some ⟨b, n⟩ := by
  simp only [blockOf?, Option.map_eq_some_iff]
  constructor
  · rintro ⟨⟨c, n⟩, hp, rfl⟩
    exact ⟨n, hp⟩
  · rintro ⟨n, hp⟩
    exact ⟨_, hp, rfl⟩

theorem blockOf?_lt (h : g.blockOf? id = some b) : b < g.blocks.size := by
  obtain ⟨n, hp⟩ := blockOf?_eq_some.mp h
  exact g.block_lt _ (Array.mem_of_getElem? hp)

theorem id_lt_of_blockOf? (h : g.blockOf? id = some b) : id < g.nodes.size := by
  obtain ⟨n, hp⟩ := blockOf?_eq_some.mp h
  exact (Array.getElem?_eq_some_iff.mp hp).1

@[simp] theorem mem_members : id ∈ g.members b ↔ g.blockOf? id = some b := by
  simp only [members, List.mem_filter, List.mem_range, beq_iff_eq]
  exact ⟨And.right, fun h => ⟨id_lt_of_blockOf? h, h⟩⟩

theorem members_sorted (g : Graph) (b : Nat) : (g.members b).Pairwise (· < ·) :=
  List.pairwise_lt_range.filter _

theorem members_nodup (g : Graph) (b : Nat) : (g.members b).Nodup := List.nodup_range.filter _

@[simp] theorem mem_layout : id ∈ g.layout ↔ ∃ b, g.blockOf? id = some b := by
  simp only [layout, List.mem_flatMap, List.mem_range, mem_members]
  exact ⟨fun ⟨b, _, h⟩ => ⟨b, h⟩, fun ⟨b, h⟩ => ⟨b, blockOf?_lt h, h⟩⟩

theorem layout_nodup (g : Graph) : g.layout.Nodup := by
  refine List.nodup_flatMap.mpr ⟨fun b _ => members_nodup g b, ?_⟩
  refine List.nodup_range.imp fun {b c} hne => ?_
  intro id hb hc
  rw [mem_members] at hb hc
  exact hne (Option.some.inj (hb.symm.trans hc))

theorem entries_map_fst (g : Graph) : g.entries.map Prod.fst = g.layout := by
  have hnode : ∀ id ∈ g.layout, (g.node? id).isSome = true := by
    intro id hid
    obtain ⟨b, hb⟩ := mem_layout.mp hid
    obtain ⟨n, hn⟩ := blockOf?_eq_some.mp hb
    rw [node?_eq_some.mpr ⟨b, hn⟩]
    rfl
  unfold entries
  generalize g.layout = ids at hnode
  induction ids with
  | nil => rfl
  | cons id ids ih =>
      obtain ⟨n, hn⟩ := Option.isSome_iff_exists.mp (hnode id List.mem_cons_self)
      rw [List.filterMap_cons, hn, Option.map_some, List.map_cons,
        ih fun i hi => hnode i (List.mem_cons_of_mem id hi)]

theorem range_split {n : Nat} (hb : b < n) :
    List.range n = List.range b ++ b :: List.range' (b + 1) (n - (b + 1)) := by
  have happend := List.range'_append_1 (s := 0) (m := b) (n := n - (b + 1) + 1)
  rw [Nat.zero_add, show b + (n - (b + 1) + 1) = n by omega] at happend
  rw [List.range_eq_range', List.range_eq_range', ← List.range'_succ, happend]

/-- The layout comes to the nodes of a block after those of all blocks before it. -/
theorem layout_split (hb : b < g.blocks.size) :
    ∃ rest, g.layout = (List.range b).flatMap g.members ++ (g.members b ++ rest) := by
  refine ⟨((List.range' (b + 1) (g.blocks.size - (b + 1))).flatMap g.members), ?_⟩
  rw [layout, range_split hb, List.flatMap_append, List.flatMap_cons]

theorem blockOf?_of_mem_before (h : id ∈ (List.range b).flatMap g.members) :
    g.blockOf? id ≠ some b := by
  obtain ⟨a, ha, hid⟩ := List.mem_flatMap.mp h
  rw [mem_members] at hid
  rw [List.mem_range] at ha
  intro hb
  exact Nat.ne_of_lt ha (Option.some.inj (hid.symm.trans hb))

/-- A node comes before another along the layout. -/
def Precedes (g : Graph) (a b : Nat) : Prop := g.layout.idxOf a < g.layout.idxOf b

/-- What precedes the node that the layout comes to next is among those before it. -/
theorem Precedes.mem_front {front back : List Nat} (h : g.Precedes r id)
    (hlayout : g.layout = front ++ id :: back) : r ∈ front := by
  have hnot : id ∉ front := by
    have hnodup := g.layout_nodup
    rw [hlayout] at hnodup
    exact fun hmem => (List.disjoint_of_nodup_append hnodup) hmem List.mem_cons_self
  have hid : g.layout.idxOf id = front.length := by
    rw [hlayout, List.idxOf_append_of_notMem hnot, List.idxOf_cons_self, Nat.add_zero]
  have hlt : g.layout.idxOf r < front.length := hid ▸ h
  by_contra hr
  rw [hlayout, List.idxOf_append_of_notMem hr] at hlt
  omega

/-- Every node refers to earlier nodes in blocks that dominate its own. -/
def Scoped (g : Graph) : Prop :=
  ∀ id n b, g.nodes[id]? = some ⟨b, n⟩ → ∀ r ∈ n.references,
    g.Precedes r id ∧ ∃ c, g.blockOf? r = some c ∧ g.Dominates c b

/-- References that stay in their block or go back to the first one are in scope. -/
theorem scoped_of_near (h : ∀ id < g.nodes.size, ∀ p ∈ g.nodes[id]?, ∀ r ∈ p.node.references,
    g.Precedes r id ∧ ∃ c ∈ g.blockOf? r, c = 0 ∨ c = p.block) : g.Scoped := by
  intro id n b hn r hr
  have hlt := (Array.getElem?_eq_some_iff.mp hn).1
  obtain ⟨hprecedes, c, hc, hnear⟩ := h id hlt ⟨b, n⟩ hn r hr
  refine ⟨hprecedes, c, hc, ?_⟩
  rcases hnear with rfl | rfl
  · exact dominates_first g b
  · exact Dominates.refl g _

instance (g : Graph) (a b : Nat) : Decidable (g.Precedes a b) :=
  inferInstanceAs (Decidable (_ < _))

/-- Every block ends in a terminator. -/
def Terminated (g : Graph) : Prop :=
  ∀ b, b < g.blocks.size → ∃ id n, (g.members b).getLast? = some id ∧ g.node? id = some n ∧
    n.op.isTerminator = true

instance (g : Graph) : Decidable g.Terminated :=
  decidable_of_iff (∀ b < g.blocks.size, ∃ id ∈ (g.members b).getLast?, ∃ n ∈ g.node? id,
    n.op.isTerminator = true) <| by
  refine forall₂_congr fun b _ => ?_
  constructor
  · rintro ⟨id, hid, n, hn, hterm⟩
    exact ⟨id, n, hid, hn, hterm⟩
  · rintro ⟨id, n, hid, hn, hterm⟩
    exact ⟨id, hid, n, hn, hterm⟩

/-- Every edge goes to a block further along the layout. -/
def Forward (g : Graph) : Prop := ∀ b c, g.Edge b c → b < c

instance (g : Graph) : Decidable g.Forward :=
  decidable_of_iff (∀ b < g.blocks.size, ∀ block ∈ g.block? b, ∀ c ∈ block.successors, b < c) <| by
  constructor
  · rintro h b c ⟨block, hblock, hc⟩
    exact h b (Array.getElem?_eq_some_iff.mp hblock).1 block hblock c hc
  · exact fun h b _ block hblock c hc => h b c ⟨block, hblock, hc⟩

theorem Terminated.members_ne_nil (h : g.Terminated) (hb : b < g.blocks.size) : g.members b ≠ [] := by
  obtain ⟨id, n, hlast, -⟩ := h b hb
  intro hnil
  rw [hnil] at hlast
  exact absurd hlast (by simp)

theorem nodeFlaw?_of_flaw? {n : Node} (hg : g.flaw? = none) (hn : g.nodes[id]? = some ⟨b, n⟩) :
    ∃ name, g.nodeFlaw? b name id n = none := by
  have hb : g.blockOf? id = some b := blockOf?_eq_some.mpr ⟨n, hn⟩
  have hlt := blockOf?_lt hb
  have hblock := List.findSome?_eq_none_iff.mp hg b (List.mem_range.mpr hlt)
  have hget : g.block? b = some g.blocks[b] := by
    rw [block?, Array.getElem?_eq_getElem hlt]
  rw [hget, Option.bind_some, blockFlaw?, Option.or_eq_none_iff] at hblock
  have hnode := List.findSome?_eq_none_iff.mp hblock.2 id (mem_members.mpr hb)
  rw [node?_eq_some.mpr ⟨b, hn⟩, Option.bind_some] at hnode
  exact ⟨_, hnode⟩

/-- In a graph without flaws only the last node of a block is a terminator. -/
theorem getLast?_of_isTerminator {n : Node} (hg : g.flaw? = none)
    (hn : g.nodes[id]? = some ⟨b, n⟩) (ht : n.op.isTerminator = true) :
    (g.members b).getLast? = some id := by
  obtain ⟨name, hnode⟩ := nodeFlaw?_of_flaw? hg hn
  rw [nodeFlaw?, ht] at hnode
  by_contra hne
  have hcond : (true && (g.members b).getLast? != some id) = true := by simpa using hne
  rw [if_pos hcond] at hnode
  exact absurd hnode (by simp)

/-- In a graph without flaws the blocks that a node waits for exist. -/
theorem controlBlock_lt {n : Node} (hg : g.flaw? = none) (hn : g.nodes[id]? = some ⟨b, n⟩) {c : Nat}
    (hc : c ∈ n.controlBlocks) : c < g.blocks.size := by
  obtain ⟨name, hnode⟩ := nodeFlaw?_of_flaw? hg hn
  rw [nodeFlaw?] at hnode
  split at hnode
  · exact absurd hnode (by simp)
  · have hknown := List.findSome?_eq_none_iff.mp (Option.or_eq_none_iff.mp hnode).2 c hc
    by_contra hge
    rw [if_neg hge] at hknown
    exact absurd hknown (by simp)

/-- In a graph without flaws what a node refers to exists, and stands before it if it is in its block. -/
theorem reference_lt {n : Node} (hg : g.flaw? = none) (hn : g.nodes[id]? = some ⟨b, n⟩)
    (hr : r ∈ n.references) : ∃ c, g.blockOf? r = some c ∧ (c = b → r < id) := by
  obtain ⟨name, hnode⟩ := nodeFlaw?_of_flaw? hg hn
  rw [nodeFlaw?] at hnode
  split at hnode
  · exact absurd hnode (by simp)
  · have hknown := List.findSome?_eq_none_iff.mp (Option.or_eq_none_iff.mp hnode).1 r hr
    rw [referenceFlaw?] at hknown
    split at hknown
    · exact absurd hknown (by simp)
    · next c hc =>
        refine ⟨c, hc, fun heq => ?_⟩
        by_contra hle
        rw [if_pos ⟨heq, by omega⟩] at hknown
        exact absurd hknown (by simp)

/-- In a graph without flaws every edge leads to a block. -/
theorem Edge.lt {c : Nat} (h : g.Edge b c) (hg : g.flaw? = none) : c < g.blocks.size := by
  obtain ⟨block, hblock, hc⟩ := h
  have hlt := (Array.getElem?_eq_some_iff.mp hblock).1
  have hflaw := List.findSome?_eq_none_iff.mp hg b (List.mem_range.mpr hlt)
  rw [hblock, Option.bind_some, blockFlaw?, Option.or_eq_none_iff] at hflaw
  have hknown := List.findSome?_eq_none_iff.mp hflaw.1 c hc
  by_contra hge
  rw [if_neg hge] at hknown
  exact absurd hknown (by simp)

/-- A block does not end in a computation. -/
theorem Terminated.rest_ne_nil {n : Node} {done rest : List Nat} (h : g.Terminated)
    (hmembers : g.members b = done ++ id :: rest) (hn : g.nodes[id]? = some ⟨b, n⟩)
    (hterm : n.op.isTerminator = false) : rest ≠ [] := by
  rintro rfl
  have hb := blockOf?_lt (blockOf?_eq_some.mpr ⟨n, hn⟩)
  obtain ⟨last, m, hlast, hm, hmterm⟩ := h b hb
  rw [hmembers, List.getLast?_concat] at hlast
  obtain rfl := Option.some.inj hlast
  rw [node?_eq_some.mpr ⟨b, hn⟩] at hm
  rw [Option.some.inj hm, hmterm] at hterm
  exact absurd hterm (by decide)

/-- A block ends with its terminator. -/
theorem rest_eq_nil {n : Node} {done rest : List Nat} (hg : g.flaw? = none)
    (hmembers : g.members b = done ++ id :: rest) (hn : g.nodes[id]? = some ⟨b, n⟩)
    (hterm : n.op.isTerminator = true) : rest = [] := by
  have hlast := getLast?_of_isTerminator hg hn hterm
  by_contra hne
  rw [hmembers, List.getLast?_append_of_ne_nil _ (List.cons_ne_nil id rest),
    List.getLast?_cons_of_ne_nil hne] at hlast
  have hnodup := (hmembers ▸ g.members_nodup b).of_append_right
  exact (List.nodup_cons.mp hnodup).1 (List.mem_of_getLast? hlast)

/-- The nodes of a block are computations and then one terminator. -/
theorem members_eq_append (hg : g.flaw? = none) (ht : g.Terminated) (hb : b < g.blocks.size) :
    ∃ body id n, g.members b = body ++ [id] ∧ g.nodes[id]? = some ⟨b, n⟩ ∧
      n.op.isTerminator = true ∧
      ∀ i ∈ body, ∃ m, g.nodes[i]? = some ⟨b, m⟩ ∧ m.op.isTerminator = false := by
  obtain ⟨id, n, hlast, hnode, hterm⟩ := ht b hb
  obtain ⟨body, hmembers⟩ := List.getLast?_eq_some_iff.mp hlast
  have hplaced {i : Nat} (hi : i ∈ g.members b) : ∃ m, g.nodes[i]? = some ⟨b, m⟩ :=
    blockOf?_eq_some.mp (mem_members.mp hi)
  obtain ⟨m, hm⟩ := hplaced (List.mem_of_getLast? hlast)
  obtain ⟨c, hc⟩ := node?_eq_some.mp hnode
  obtain ⟨rfl, rfl⟩ : b = c ∧ m = n := by
    have := hm.symm.trans hc
    simpa using this
  refine ⟨body, id, m, hmembers, hm, hterm, fun i hi => ?_⟩
  obtain ⟨k, hk⟩ := hplaced (hmembers ▸ List.mem_append_left _ hi)
  refine ⟨k, hk, ?_⟩
  by_contra hne
  have hlast' := getLast?_of_isTerminator hg hk (by simpa using hne)
  rw [hlast, Option.some.injEq] at hlast'
  have hnodup := hmembers ▸ g.members_nodup b
  exact List.disjoint_of_nodup_append hnodup hi (hlast' ▸ List.mem_singleton_self id)

end Isel.Graph
