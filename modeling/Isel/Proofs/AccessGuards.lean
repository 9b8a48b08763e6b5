import Isel.Proofs.AccessOrder
import Isel.Proofs.Sharing

/-! The nodes that guard an access to memory. However helper nodes are shared, a selected load or store
reads the start of memory and a checked address that were made for its own state, address and width, in
its own block and before it. -/

namespace Isel

/-- The bytes of a part of an integer. -/
def Narrow.bytes : Narrow → Nat
  | i32of8 | i64of8 => 1
  | i32of16 | i64of16 => 2
  | i64of32 => 4

def Load.bytes : Load → Nat
  | full ty => ty.bits / 8
  | narrow n _ => n.bytes

def Store.bytes : Store → Nat
  | full ty => ty.bits / 8
  | narrow n => n.bytes

/-- The target loads as many bytes. -/
theorem Load.bytes_access (op : Load) : op.access.bytes = op.bytes := by
  rcases op with ((_ | _) | (_ | _)) | ⟨_ | _ | _ | _ | _, _ | _⟩ <;> rfl

theorem Store.bytes_access (op : Store) : op.access.bytes = op.bytes := by
  rcases op with ((_ | _) | (_ | _)) | (_ | _ | _ | _ | _) <;> rfl

namespace Graph

open Schedule

/-- The helper nodes of an access `i` of `bytes` bytes in block `b`, all of which come before it in the
block: the start of memory, and the address checked against the size of memory. -/
structure GuardsAccess (g : Graph) (b i bytes state address space checked : Nat) : Prop where
  space_node : g.nodes[space]? = some ⟨b, .target .memorySpace, [], [], [state]⟩
  space_before : Before (g.members b) space i
  checked_before : Before (g.members b) checked i
  checked_node : ∃ size, Before (g.members b) size i ∧
    g.nodes[size]? = some ⟨b, .target .memorySize, [], [], [state]⟩ ∧
    g.nodes[checked]?
      = some ⟨b, .target .boundsCheck, [], [.int (BitVec.ofNat 64 bytes)], [state, address, size]⟩

/-- Of two nodes of a block the one with the smaller number comes first. -/
theorem before_of_lt {g : Graph} {b i j : Nat} (hi : g.blockOf? i = some b) (hj : g.blockOf? j = some b)
    (hlt : i < j) : Before (g.members b) i j := by
  have hsorted := g.members_sorted b
  have hmem := mem_members.mpr hi
  obtain ⟨front, back, hmembers⟩ := List.append_of_mem (mem_members.mpr hj)
  refine ⟨front, back, hmembers, ?_⟩
  rw [hmembers] at hsorted hmem
  rcases List.mem_append.mp hmem with hfront | hback
  · exact hfront
  · obtain ⟨-, hafter, -⟩ := List.pairwise_append.mp hsorted
    rcases List.mem_cons.mp hback with rfl | hback
    · exact absurd hlt (Nat.lt_irrefl i)
    · exact absurd ((List.pairwise_cons.mp hafter).1 i hback) (by omega)

end Graph

namespace Lowering

open Select Schedule

variable {g : Graph} {config : Config} {l : Lowering} {b y y' : Nat} {n : Node}

theorem Guards.mono {l' : Lowering} {bytes state address space checked : Nat}
    (h : Guards l b bytes state address space checked) (hkeeps : Keeps l l') :
    Guards l' b bytes state address space checked := by
  obtain ⟨hspace, size, hsize, hchecked⟩ := h
  exact ⟨hkeeps.nodes hspace, size, hkeeps.nodes hsize, hkeeps.nodes hchecked⟩

/-- A load is lowered to the load of the target, behind its guards. -/
theorem Successor.load {op : Load} (h : Successor g config l y y') (hn : g.nodes[y]? = some ⟨b, n⟩)
    (hop : n.op = .load op) : ∃ s a state address space checked control,
      n.inputs[0]? = some s ∧ n.inputs[1]? = some a ∧ l.lowered.get? s = some state ∧
      l.lowered.get? a = some address ∧ Guards l b op.bytes state address space checked ∧
      l.nodes[y']? = some ⟨b, .target (.load op.access), control, [], [state, space, checked]⟩ := by
  obtain ⟨l₁, m, hkeeps, hform, hnew⟩ := h.form hn (show n.op.access? = some _ by rw [hop]; rfl)
  obtain ⟨s, a, state, address, space, checked, control, hs, ha, hstate, haddress, hguards, rfl⟩ :=
    hform.of_load hop
  rw [op.bytes_access] at hguards
  exact ⟨s, a, state, address, space, checked, control, hs, ha, hkeeps.lowered hstate,
    hkeeps.lowered haddress, hguards.mono hkeeps, hnew⟩

/-- A store is lowered to the store of the target, behind its guards. -/
theorem Successor.store {op : Store} (h : Successor g config l y y') (hn : g.nodes[y]? = some ⟨b, n⟩)
    (hop : n.op = .store op) : ∃ s a v state address value space checked control,
      n.inputs[0]? = some s ∧ n.inputs[1]? = some a ∧ n.inputs[2]? = some v ∧
      l.lowered.get? s = some state ∧ l.lowered.get? a = some address ∧
      l.lowered.get? v = some value ∧ Guards l b op.bytes state address space checked ∧
      l.nodes[y']?
        = some ⟨b, .target (.store op.access), control, [], [state, space, checked, value]⟩ := by
  obtain ⟨l₁, m, hkeeps, hform, hnew⟩ := h.form hn (show n.op.access? = some _ by rw [hop]; rfl)
  obtain ⟨s, a, v, state, address, value, space, checked, control, hs, ha, hv, hstate, haddress, hvalue,
    hguards, rfl⟩ := hform.of_store hop
  rw [op.bytes_access] at hguards
  exact ⟨s, a, v, state, address, value, space, checked, control, hs, ha, hv, hkeeps.lowered hstate,
    hkeeps.lowered haddress, hkeeps.lowered hvalue, hguards.mono hkeeps, hnew⟩

/-- The guards of an access are in its block and before it. -/
theorem Steps.guardsAccess (h : Steps g config {} l) {bytes state address space checked i : Nat}
    (hguards : Guards l b bytes state address space checked) (hi : l.nodes[i]? = some ⟨b, n⟩)
    (hspace : space ∈ n.inputs) (hchecked : checked ∈ n.inputs) :
    (schedule g.blocks l.nodes).GuardsAccess b (place g.blocks l.nodes i) bytes
      (place g.blocks l.nodes state) (place g.blocks l.nodes address) (place g.blocks l.nodes space)
      (place g.blocks l.nodes checked) := by
  obtain ⟨hspaceNode, size, hsizeNode, hcheckNode⟩ := hguards
  have hblock {j : Nat} {m : Node} (hj : l.nodes[j]? = some ⟨b, m⟩) :
      (schedule g.blocks l.nodes).blockOf? (place g.blocks l.nodes j) = some b := by
    rw [Graph.blockOf?, schedule_node h.grounded h.housed hj]
    rfl
  have hbefore {j : Nat} {m : Node} (hj : l.nodes[j]? = some ⟨b, m⟩)
      (hlt : place g.blocks l.nodes j < place g.blocks l.nodes i) :=
    Graph.before_of_lt (hblock hj) (hblock hi) hlt
  have hcheck := h.place_lt hcheckNode hi (.inl (List.mem_append_left _ hchecked))
  have hsize := h.place_lt hsizeNode hcheckNode (.inl (by simp [Node.references, checkNode]))
  exact {
    space_node := schedule_node h.grounded h.housed hspaceNode
    space_before := hbefore hspaceNode (h.place_lt hspaceNode hi (.inl (List.mem_append_left _ hspace)))
    checked_before := hbefore hcheckNode hcheck
    checked_node := ⟨place g.blocks l.nodes size, hbefore hsizeNode (hsize.trans hcheck),
      schedule_node h.grounded h.housed hsizeNode, schedule_node h.grounded h.housed hcheckNode⟩ }

end Lowering

/-- A successful selection has lowered every node that no branch takes over. -/
theorem select_lowered {g g' : Graph} {config : Config} {stats : Stats} {id b : Nat} {n : Node}
    (hacyclic : g.Acyclic) (hselect : select g config = .ok (g', stats))
    (hn : g.nodes[id]? = some ⟨b, n⟩) (hfree : Select.absorbs g config id = false) :
    ∃ l i, g' = schedule g.blocks l.nodes ∧ Lowering.Steps g config {} l ∧
      l.lowered.get? id = some i ∧
      ∀ {y y' : Nat}, l.lowered.get? y = some y' →
        selectedNode? g config y = some (Schedule.place g.blocks l.nodes y') := by
  obtain ⟨l, hlower, rfl⟩ := select_ok hselect
  have hclosed : g.isClosed = true := by
    cases hclosed : g.isClosed with
    | true => rfl
    | false => rw [select_of_not_closed config hclosed] at hselect; contradiction
  obtain ⟨hsteps, hall⟩ := (Lowering.lowerAll_meets config hclosed hacyclic).of_ok hlower
  obtain ⟨i, hi⟩ := hall id (Array.getElem?_eq_some_iff.mp hn).1 hfree
  refine ⟨l, i, rfl, hsteps, hi, fun hy => ?_⟩
  rw [selectedNode?, hlower]
  exact congrArg (Option.map (Schedule.place g.blocks l.nodes)) hy

/-- Every load and store of a graph is selected as the load or store of as many bytes, on the state and
the value it has in the graph, behind a check of its own address for its own width. -/
theorem select_guards_accesses {g g' : Graph} {config : Config} {stats : Stats} {id b : Nat} {n : Node}
    (hacyclic : g.Acyclic) (hselect : select g config = .ok (g', stats))
    (hn : g.nodes[id]? = some ⟨b, n⟩) :
    (∀ op, n.op = .load op → ∃ s a i state address space checked control,
      n.inputs[0]? = some s ∧ n.inputs[1]? = some a ∧ selectedNode? g config id = some i ∧
      selectedNode? g config s = some state ∧ selectedNode? g config a = some address ∧
      op.access.bytes = op.bytes ∧
      g'.nodes[i]? = some ⟨b, .target (.load op.access), control, [], [state, space, checked]⟩ ∧
      g'.GuardsAccess b i op.bytes state address space checked) ∧
    (∀ op, n.op = .store op → ∃ s a v i state address value space checked control,
      n.inputs[0]? = some s ∧ n.inputs[1]? = some a ∧ n.inputs[2]? = some v ∧
      selectedNode? g config id = some i ∧ selectedNode? g config s = some state ∧
      selectedNode? g config a = some address ∧ selectedNode? g config v = some value ∧
      op.access.bytes = op.bytes ∧
      g'.nodes[i]?
        = some ⟨b, .target (.store op.access), control, [], [state, space, checked, value]⟩ ∧
      g'.GuardsAccess b i op.bytes state address space checked) := by
  constructor
  · intro op hop
    obtain ⟨l, i, rfl, hsteps, hi, hselected⟩ := select_lowered hacyclic hselect hn
      (Lowering.absorbs_of_access hn (show n.op.access? = some _ by rw [hop]; rfl))
    obtain ⟨s, a, state, address, space, checked, control, hs, ha, hstate, haddress, hguards, hnode⟩ :=
      (hsteps.successor hi).load hn hop
    exact ⟨s, a, _, _, _, _, _, _, hs, ha, hselected hi, hselected hstate, hselected haddress,
      op.bytes_access, Schedule.schedule_node hsteps.grounded hsteps.housed hnode,
      hsteps.guardsAccess hguards hnode (by simp) (by simp)⟩
  · intro op hop
    obtain ⟨l, i, rfl, hsteps, hi, hselected⟩ := select_lowered hacyclic hselect hn
      (Lowering.absorbs_of_access hn (show n.op.access? = some _ by rw [hop]; rfl))
    obtain ⟨s, a, v, state, address, value, space, checked, control, hs, ha, hv, hstate, haddress,
      hvalue, hguards, hnode⟩ := (hsteps.successor hi).store hn hop
    exact ⟨s, a, v, _, _, _, _, _, _, _, hs, ha, hv, hselected hi, hselected hstate,
      hselected haddress, hselected hvalue, op.bytes_access,
      Schedule.schedule_node hsteps.grounded hsteps.housed hnode,
      hsteps.guardsAccess hguards hnode (by simp) (by simp)⟩

/-- Three accesses of three widths at one address, the last of them in a block of its own. -/
def widths : Graph :=
  .ofParts #[⟨"entry", [1]⟩, ⟨"exit", []⟩]
    #[⟨0, .state, [], [], []⟩, ⟨0, .const .i64, [], [.int 8], []⟩,
      ⟨0, .load (.narrow .i32of16 true), [], [], [0, 1]⟩,
      ⟨0, .store (.full .i32), [], [], [0, 1, 2]⟩, ⟨0, .jump, [.block 0, .node 3], [], []⟩,
      ⟨1, .load (.full .i64), [], [], [0, 1]⟩, ⟨1, .typedRet .i64, [.block 1], [], [5]⟩]

/-- The store finds the two nodes of the load before it that do not depend on the width, and has a check
of its own; the load of the second block has three nodes of its own. -/
theorem select_guards_accesses_widths : ∃ g' stats, select widths {} = .ok (g', stats) ∧
    stats.shared = 2 ∧
    (∃ i state address value space checked control, selectedNode? widths {} 3 = some i ∧
      selectedNode? widths {} 1 = some address ∧
      g'.nodes[i]?
        = some ⟨0, .target (.store (.int .s32)), control, [], [state, space, checked, value]⟩ ∧
      g'.GuardsAccess 0 i 4 state address space checked) ∧
    ∃ i state address space checked control, selectedNode? widths {} 5 = some i ∧
      selectedNode? widths {} 1 = some address ∧
      g'.nodes[i]? = some ⟨1, .target (.load (.word .w64)), control, [], [state, space, checked]⟩ ∧
      g'.GuardsAccess 1 i 8 state address space checked := by
  have hacyclic : widths.Acyclic := Graph.acyclic_of_rank id (by decide)
  have hshared : (select widths {}).toOption.map (fun r => r.2.shared) = some 2 := by decide +kernel
  cases hselect : select widths {} with
  | error e =>
      rw [hselect] at hshared
      exact absurd hshared (by simp [Except.toOption])
  | ok r =>
      rw [hselect] at hshared
      obtain ⟨s, a, v, i, state, address, value, space, checked, control, -, ha, -, hi, -, haddress, -, -,
        hnode, hguards⟩ := (select_guards_accesses hacyclic hselect
          (show widths.nodes[3]? = some ⟨0, _⟩ from rfl)).2 _ rfl
      obtain ⟨s', a', j, state', address', space', checked', control', -, ha', hj, -, haddress', -, hnode',
        hguards'⟩ := (select_guards_accesses hacyclic hselect
          (show widths.nodes[5]? = some ⟨1, _⟩ from rfl)).1 _ rfl
      obtain rfl := Option.some.inj ha
      obtain rfl := Option.some.inj ha'
      exact ⟨r.1, r.2, rfl, Option.some.inj hshared,
        ⟨i, state, address, value, space, checked, control, hi, haddress, hnode, hguards⟩,
        ⟨j, state', address', space', checked', control', hj, haddress', hnode', hguards'⟩⟩

end Isel
