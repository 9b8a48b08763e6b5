import Isel.Proofs.Printing

/-! Graphs that come from a text. Their nodes are numbered in the order in which they are laid out,
and whatever a node or an edge refers to is there, so only the order of nodes within a block can be
wrong with them. -/

namespace Isel.Graph

variable {g : Graph} {b id : Nat} {f : Flaw}

/-! ### What flaws say -/

/-- What is wrong with a graph that has a flaw. -/
inductive Broken (g : Graph) : Flaw → Prop
  | successor {b c : Nat} {block : Block} (hblock : g.block? b = some block)
      (hc : c ∈ block.successors) (hge : g.blocks.size ≤ c) : g.Broken (.unknownSuccessor block.name)
  | terminator {b id : Nat} {block : Block} {n : Node} (hblock : g.block? b = some block)
      (hn : g.nodes[id]? = some ⟨b, n⟩) (hterm : n.op.isTerminator = true)
      (hlast : (g.members b).getLast? ≠ some id) : g.Broken (.terminatorNotLast id block.name)
  | undefined {id used : Nat} {n : Node} (hn : g.node? id = some n) (hused : used ∈ n.references)
      (hge : g.nodes.size ≤ used) : g.Broken (.undefinedNode id used)
  | early {b id used : Nat} {n : Node} (hn : g.nodes[id]? = some ⟨b, n⟩) (hused : used ∈ n.references)
      (hblock : g.blockOf? used = some b) (hle : id ≤ used) : g.Broken (.useBeforeDefinition id used)
  | control {id c : Nat} {n : Node} (hn : g.node? id = some n) (hc : c ∈ n.controlBlocks)
      (hge : g.blocks.size ≤ c) : g.Broken (.unknownControlBlock id)

theorem blockOf?_eq_none : g.blockOf? id = none ↔ g.nodes.size ≤ id := by
  rw [blockOf?, Option.map_eq_none_iff, Array.getElem?_eq_none_iff]

theorem broken_of_referenceFlaw? {n : Node} {used : Nat} (hn : g.nodes[id]? = some ⟨b, n⟩)
    (hused : used ∈ n.references) (h : g.referenceFlaw? b id used = some f) : g.Broken f := by
  unfold referenceFlaw? at h
  split at h
  · next hnone =>
      obtain rfl := Option.some.inj h
      exact .undefined (node?_eq_some.mpr ⟨b, hn⟩) hused (blockOf?_eq_none.mp hnone)
  · next c hc =>
      split at h
      · next hearly =>
          obtain rfl := Option.some.inj h
          obtain ⟨rfl, hle⟩ := hearly
          exact .early hn hused hc hle
      · exact absurd h (by simp)

theorem broken_of_nodeFlaw? {n : Node} {block : Block} (hblock : g.block? b = some block)
    (hn : g.nodes[id]? = some ⟨b, n⟩) (h : g.nodeFlaw? b block.name id n = some f) : g.Broken f := by
  unfold nodeFlaw? at h
  split at h
  · next hterm =>
      obtain rfl := Option.some.inj h
      obtain ⟨hterm, hlast⟩ := Bool.and_eq_true_iff.mp hterm
      exact .terminator hblock hn hterm (by simpa using hlast)
  · rcases Option.or_eq_some_iff.mp h with href | ⟨-, hcontrol⟩
    · obtain ⟨used, hused, hflaw⟩ := List.exists_of_findSome?_eq_some href
      exact broken_of_referenceFlaw? hn hused hflaw
    · obtain ⟨c, hc, hflaw⟩ := List.exists_of_findSome?_eq_some hcontrol
      split at hflaw
      · exact absurd hflaw (by simp)
      · next hge =>
          obtain rfl := Option.some.inj hflaw
          exact .control (node?_eq_some.mpr ⟨b, hn⟩) hc (Nat.le_of_not_lt hge)

/-- A flaw is found where there is something wrong. -/
theorem broken_of_flaw? (h : g.flaw? = some f) : g.Broken f := by
  obtain ⟨b, -, h⟩ := List.exists_of_findSome?_eq_some h
  obtain ⟨block, hblock, h⟩ := Option.bind_eq_some_iff.mp h
  rcases Option.or_eq_some_iff.mp h with hsuccessor | ⟨-, hnode⟩
  · obtain ⟨c, hc, hflaw⟩ := List.exists_of_findSome?_eq_some hsuccessor
    split at hflaw
    · exact absurd hflaw (by simp)
    · next hge =>
        obtain rfl := Option.some.inj hflaw
        exact .successor hblock hc (Nat.le_of_not_lt hge)
  · obtain ⟨id, hid, hflaw⟩ := List.exists_of_findSome?_eq_some hnode
    obtain ⟨n, hn, hflaw⟩ := Option.bind_eq_some_iff.mp hflaw
    obtain ⟨m, hm⟩ := blockOf?_eq_some.mp (mem_members.mp hid)
    obtain rfl : m = n := by
      rw [node?_eq_some.mpr ⟨b, hm⟩] at hn
      exact Option.some.inj hn
    exact broken_of_nodeFlaw? hblock hm hflaw

/-! ### Closed graphs -/

/-- Whatever nodes and edges refer to is there. -/
structure Closed (g : Graph) : Prop where
  inputs : ∀ id n, g.node? id = some n → ∀ v ∈ n.inputs, v < g.nodes.size
  controlNodes : ∀ id n, g.node? id = some n → ∀ v ∈ n.controlNodes, v < g.nodes.size
  controlBlocks : ∀ id n, g.node? id = some n → ∀ b ∈ n.controlBlocks, b < g.blocks.size
  successors : ∀ b c, g.Edge b c → c < g.blocks.size

theorem Closed.references (h : g.Closed) {n : Node} (hn : g.node? id = some n) {v : Nat}
    (hv : v ∈ n.references) : v < g.nodes.size := by
  rcases List.mem_append.mp hv with hv | hv
  · exact h.inputs id n hn v hv
  · exact h.controlNodes id n hn v hv

/-- Only the order within a block can be wrong with a graph that is closed. -/
theorem Closed.flaw_eq (h : g.Closed) (hbroken : g.Broken f) :
    (∃ id used, f = .useBeforeDefinition id used) ∨ ∃ id name, f = .terminatorNotLast id name := by
  cases hbroken with
  | successor hblock hc hge => exact absurd (h.successors _ _ ⟨_, hblock, hc⟩) (Nat.not_lt.mpr hge)
  | terminator => exact .inr ⟨_, _, rfl⟩
  | undefined hn hused hge => exact absurd (h.references hn hused) (Nat.not_lt.mpr hge)
  | early => exact .inl ⟨_, _, rfl⟩
  | control hn hc hge => exact absurd (h.controlBlocks _ _ hn _ hc) (Nat.not_lt.mpr hge)

theorem Listed.lt (h : g.Listed b) : b < g.blocks.size := by
  obtain ⟨block, hblock, -⟩ := h
  exact (Array.getElem?_eq_some_iff.mp hblock).1

namespace Legible

variable (h : g.Legible)

include h

theorem closed : g.Closed where
  inputs id n hn v hv := by
    obtain ⟨b, hb⟩ := node?_eq_some.mp hn
    exact h.inputs _ (Array.mem_of_getElem? hb) v hv
  controlNodes id n hn v hv := by
    obtain ⟨b, hb⟩ := node?_eq_some.mp hn
    obtain ⟨c, hc, hnode⟩ := List.mem_filterMap.mp hv
    have hnameable := h.control _ (Array.mem_of_getElem? hb) c hc
    cases c with
    | block c => exact absurd hnode (by simp [Control.node?])
    | node w =>
        obtain rfl := Option.some.inj hnode
        exact hnameable
  controlBlocks id n hn c hc := by
    obtain ⟨b, hb⟩ := node?_eq_some.mp hn
    obtain ⟨x, hx, hblock⟩ := List.mem_filterMap.mp hc
    have hnameable := h.control _ (Array.mem_of_getElem? hb) x hx
    cases x with
    | block x =>
        obtain rfl := Option.some.inj hblock
        exact Listed.lt hnameable
    | node w => exact absurd hblock (by simp [Control.block?])
  successors b c hedge := by
    obtain ⟨block, hblock, hc⟩ := hedge
    exact (h.successors block (Array.mem_of_getElem? hblock) c hc).lt

/-- The line of a node begins with its number. -/
theorem renderNode?_numbered (hid : id < g.nodes.size) :
    ∃ rest, g.renderNode? id = some (s!"    i{id} = " ++ rest) := by
  obtain ⟨ss, hss, -⟩ := h.operands?_eq (Array.getElem_mem hid)
  have hname : g.nodeName? id = some s!"i{id}" := by rw [nodeName?, h.number?_eq hid]; rfl
  refine ⟨g.nodes[id].node.op.name ++
    (if ss.isEmpty then "" else " " ++ ", ".intercalate ss) ++ "\n", ?_⟩
  rw [renderNode?, node?, Array.getElem?_eq_getElem hid]
  simp only [Option.map_some, hname, hss, Option.bind_eq_bind, Option.bind_some, Option.pure_def]
  congr 1
  simp only [ToString.toString, String.append_assoc, show "    i" = "    " ++ "i" from rfl]

end Legible

/-- A graph that comes from a text is densely numbered and closed. -/
theorem parse_dense {text : String} (h : parse text = .ok g) :
    g.entries.map Prod.fst = List.range g.nodes.size ∧
    (∀ id < g.nodes.size, ∃ b, g.blockOf? id = some b ∧ b < g.blocks.size ∧ id ∈ g.members b) ∧
    g.Closed ∧
    (∀ id < g.nodes.size, g.nodeName? id = some s!"i{id}" ∧
      ∃ rest, g.renderNode? id = some (s!"    i{id} = " ++ rest)) ∧
    (∃ s, g.render? = some s) ∧
    ∀ f, g.flaw? = some f → g.Broken f ∧
      ((∃ id used, f = .useBeforeDefinition id used) ∨ ∃ id name, f = .terminatorNotLast id name) := by
  have hlegible := legible_of_parse h
  refine ⟨?_, fun id hid => ?_, hlegible.closed, fun id hid => ⟨?_, hlegible.renderNode?_numbered hid⟩,
    ?_, fun f hf => ?_⟩
  · rw [entries_map_fst, hlegible.layout_eq]
  · have hb : g.blockOf? id = some g.nodes[id].block := by
      rw [blockOf?, Array.getElem?_eq_getElem hid, Option.map_some]
    exact ⟨_, hb, blockOf?_lt hb, mem_members.mpr hb⟩
  · rw [nodeName?, hlegible.number?_eq hid]
    rfl
  · obtain ⟨s, hs, -⟩ := hlegible.render?_eq
    exact ⟨s, hs⟩
  · have hbroken := broken_of_flaw? hf
    exact ⟨hbroken, hlegible.closed.flaw_eq hbroken⟩

/-- A text with names of its own. The first node uses the second one, and the last is called as if
it were the first. -/
def tangled : String :=
  "pipeline \x7b\n entry \x7b\n x = i32.wrap y\n y = i64.const 7\n z = jump ^end\n \x7d\n" ++
    " entry -> end\n end \x7b\n i0 = i64.ret y\n \x7d\n\x7d"

theorem parse_dense_tangled : ∃ g, parse tangled = .ok g ∧ g.entries.map Prod.fst = [0, 1, 2, 3] ∧
    (∃ rest, g.renderNode? 3 = some ("    i3 = " ++ rest)) ∧
    g.flaw? = some (.useBeforeDefinition 0 1) ∧ g.Broken (.useBeforeDefinition 0 1) := by
  have htangled : (parse tangled).toOption.map (fun g => (g.nodes.size, g.flaw?))
      = some (4, some (.useBeforeDefinition 0 1)) := by
    decide +kernel
  obtain ⟨g, hg, hfacts⟩ := Option.map_eq_some_iff.mp htangled
  obtain ⟨hsize, hflaw⟩ := Prod.mk.inj hfacts
  have hparse := toOption_eq_some.mp hg
  obtain ⟨hentries, -, -, hnumbered, -, hflaws⟩ := parse_dense hparse
  rw [hsize] at hentries hnumbered
  exact ⟨g, hparse, hentries, (hnumbered 3 (by decide)).2, hflaw, (hflaws _ hflaw).1⟩

end Isel.Graph
