import Isel.Proofs.AccessOrder
import Isel.Proofs.Compilation

/-! Code for a single block. The code of the block runs its selected nodes in the order of the schedule,
so if it traps, then memory is as some first part of the schedule leaves it. Edges play no part in this: a
block that ends in a return may list successors, but nothing goes there. -/

namespace Isel

namespace Graph

variable {g : Graph} {b id r : Nat} {n : Node}

/-- One block of generic operators on integers, memory and control, that ends in a return. -/
structure StraightProgram (g : Graph) : Prop where
  flawless : g.flaw? = none
  typed : g.WellTyped
  integer : g.IsInteger
  single : g.blocks.size = 1
  returns : ∃ id n, (g.members 0).getLast? = some id ∧ g.node? id = some n ∧
    (n.op = .ret ∨ ∃ ty, n.op = .typedRet ty)

namespace StraightProgram

theorem blockOf? (hg : g.StraightProgram) (h : g.blockOf? id = some b) : b = 0 := by
  have hlt := blockOf?_lt h
  have hsingle := hg.single
  omega

theorem blockOf?_of_node? (hg : g.StraightProgram) (hn : g.node? id = some n) :
    g.blockOf? id = some 0 := by
  obtain ⟨b, hb⟩ := node?_eq_some.mp hn
  have hblock := blockOf?_eq_some.mpr ⟨n, hb⟩
  rw [hblock, hg.blockOf? hblock]

/-- What a node refers to stands before it. -/
theorem reference (hg : g.StraightProgram) (hn : g.node? id = some n) (hr : r ∈ n.references) :
    g.blockOf? r = some 0 ∧ r < id := by
  obtain ⟨b, hb⟩ := node?_eq_some.mp hn
  obtain ⟨c, hc, hlt⟩ := reference_lt hg.flawless hb hr
  obtain rfl := hg.blockOf? hc
  exact ⟨hc, hlt (hg.blockOf? (blockOf?_eq_some.mpr ⟨n, hb⟩)).symm⟩

theorem inScope (hg : g.StraightProgram) : g.Scoped := by
  intro id n b hn r hr
  obtain ⟨hblock, hlt⟩ := hg.reference (node?_eq_some.mpr ⟨b, hn⟩) hr
  have hid := blockOf?_eq_some.mpr ⟨n, hn⟩
  obtain rfl := hg.blockOf? hid
  exact ⟨precedes_of_lt hblock hid hlt, 0, hblock, .refl g 0⟩

theorem terminated (hg : g.StraightProgram) : g.Terminated := by
  intro b hb
  obtain rfl : b = 0 := by
    have hsingle := hg.single
    omega
  obtain ⟨id, n, hlast, hn, hop⟩ := hg.returns
  refine ⟨id, n, hlast, hn, ?_⟩
  rcases hop with hop | ⟨ty, hop⟩ <;> rw [hop] <;> rfl

theorem generic (hg : g.StraightProgram) : g.Generic := hg.typed.generic hg.inScope

theorem arrangeable (hg : g.StraightProgram) : g.Arrangeable :=
  arrangeable_of_scoped hg.flawless hg.generic hg.inScope

/-- Nothing in the block goes to another one. -/
theorem successorCount (hg : g.StraightProgram) (hn : g.node? id = some n) :
    n.op.successorCount = 0 := by
  cases hterm : n.op.isTerminator with
  | false =>
      cases hop : n.op with
      | branch | jump => rw [hop] at hterm; exact absurd hterm (by decide)
      | target t => exact absurd hop (hg.generic.op_ne_target hn t)
      | _ => rfl
  | true =>
      obtain ⟨b, hb⟩ := node?_eq_some.mp hn
      have hlast := getLast?_of_isTerminator hg.flawless hb hterm
      obtain rfl := hg.blockOf? (blockOf?_eq_some.mpr ⟨n, hb⟩)
      obtain ⟨last, m, hlast', hm, hop⟩ := hg.returns
      obtain rfl := Option.some.inj (hlast.symm.trans hlast')
      obtain rfl := Option.some.inj (hn.symm.trans hm)
      rcases hop with hop | ⟨ty, hop⟩ <;> rw [hop] <;> rfl

end StraightProgram

/-- The same nodes in blocks without successors. -/
def withoutEdges (g : Graph) : Graph where
  blocks := g.blocks.map fun block => { block with successors := [] }
  nodes := g.nodes
  block_lt p hp := by
    rw [Array.size_map]
    exact g.block_lt p hp

@[simp] theorem size_withoutEdges (g : Graph) : g.withoutEdges.blocks.size = g.blocks.size :=
  Array.size_map

theorem not_edge_withoutEdges (g : Graph) (b c : Nat) : ¬g.withoutEdges.Edge b c := by
  rintro ⟨block, hblock, hc⟩
  rw [block?, withoutEdges, Array.getElem?_map, Option.map_eq_some_iff] at hblock
  obtain ⟨block', -, rfl⟩ := hblock
  exact absurd hc List.not_mem_nil

theorem layout_withoutEdges (g : Graph) : g.withoutEdges.layout = g.layout := by
  rw [layout, size_withoutEdges]
  rfl

theorem entries_withoutEdges (g : Graph) : g.withoutEdges.entries = g.entries := by
  rw [entries, layout_withoutEdges]
  rfl

theorem allocate_withoutEdges (forced : List (Nat × Reg)) (g : Graph) :
    Pool.allocate forced g.withoutEdges = Pool.allocate forced g := by
  simp only [Pool.allocate, Pool.items, entries_withoutEdges]

theorem flaw?_withoutEdges (h : g.flaw? = none) : g.withoutEdges.flaw? = none := by
  refine flaw?_eq_none (fun b block hblock c hc => ?_) (fun id b n hn => ?_) (fun id b n hn r => ?_)
    (fun id n hn c hc => ?_)
  · exact absurd ⟨block, hblock, hc⟩ (not_edge_withoutEdges g b c)
  · exact getLast?_of_isTerminator (g := g) h hn
  · exact reference_lt (g := g) h hn
  · obtain ⟨b, hb⟩ := node?_eq_some.mp hn
    rw [size_withoutEdges]
    exact controlBlock_lt h hb hc

end Graph

namespace Emission

variable {g : Graph} {a : Allocation} {config : Config} {b id : Nat} {n : Node} {block : Block}
  {is : List Inst} {code : Code}

/-- Only branches and jumps look at the successors of a block. -/
theorem emit_of_successors {f : Family} {op : Operator} (hf : op.family? = some f)
    (hop : op.successorCount = 0) (s : Site) (successors : List Nat) :
    f.emit { s with successors } = f.emit s := by
  have hfamily := (Operator.of_family? hf).2
  cases f with
  | branch => rw [hfamily] at hop; exact absurd hop (by decide)
  | jump => rw [hfamily] at hop; exact absurd hop (by decide)
  | branchOn =>
      obtain ⟨c, rfl⟩ := hfamily
      exact absurd hop (by simp [Operator.successorCount])
  | _ => rfl

theorem emitNode_withoutEdges (hop : n.op.successorCount = 0)
    (h : emitNode g a config b block id n = .ok is) :
    emitNode g.withoutEdges a config b { block with successors := [] } id n = .ok is := by
  obtain ⟨d, hd, h⟩ := bind_eq_ok.mp h
  obtain ⟨u, hfeatures, h⟩ := bind_eq_ok.mp h
  obtain ⟨x, hx, h⟩ := bind_eq_ok.mp h
  obtain ⟨u', hcheck, h⟩ := bind_eq_ok.mp h
  refine bind_eq_ok.mpr ⟨d, hd, bind_eq_ok.mpr ⟨u, hfeatures, bind_eq_ok.mpr ⟨x, hx,
    bind_eq_ok.mpr ⟨u', hcheck, ?_⟩⟩⟩⟩
  split at h
  · exact absurd h (by simp)
  · simp only [List.any_nil, Bool.false_eq_true, if_false, Graph.size_withoutEdges]
    rw [mapError_eq_ok] at h ⊢
    rw [← h]
    exact (emit_of_successors (require_ok (mapError_eq_ok.mp hd)) hop (siteOf g b block n x) [])

theorem emit_withoutEdges (hops : ∀ id n, g.node? id = some n → n.op.successorCount = 0)
    (h : emit g a config = .ok code) : emit g.withoutEdges a config = .ok code := by
  obtain ⟨parts, hparts, hlink⟩ := bind_eq_ok.mp h
  refine bind_eq_ok.mpr ⟨parts, ?_, hlink⟩
  rw [mapM_eq_ok] at hparts ⊢
  rw [Graph.withoutEdges, Array.toList_map, List.zipIdx_map, List.forall₂_map_left_iff]
  refine hparts.imp fun entry part hpart => ?_
  obtain ⟨chunks, hchunks, hflatten⟩ := bind_eq_ok.mp hpart
  refine bind_eq_ok.mpr ⟨chunks, ?_, hflatten⟩
  rw [mapM_eq_ok] at hchunks ⊢
  refine hchunks.imp fun id chunk hchunk => ?_
  obtain ⟨n, hn, hemit⟩ := bind_eq_ok.mp hchunk
  exact bind_eq_ok.mpr ⟨n, hn, emitNode_withoutEdges (hops id n (orDangling_eq_ok.mp hn)) hemit⟩

end Emission

namespace Lowering

variable {g : Graph} {config : Config} {l : Lowering} {i : Nat} {p : Placed}

/-- What is made for a single block works on words, and stays in its block. -/
theorem Steps.of_straight (h : Steps g config {} l) (hg : g.StraightProgram) (hi : l.nodes[i]? = some p) :
    p.node.op.onWords = true ∧ p.node.op.successorCount = 0 := by
  refine ⟨h.onWords hg.integer hi, ?_⟩
  obtain ⟨l₁, id, n, -, -, -, hn, haid | ⟨hform, -⟩⟩ := h.origin hi
  · exact (haid.of_integer (hg.integer id n (Graph.node?_eq_some.mpr ⟨_, hn⟩))).2
  · have hn := Graph.node?_eq_some.mpr ⟨_, hn⟩
    rw [(hform.of_integer (hg.integer id n hn)).2, hg.successorCount hn]

end Lowering

/-! ### Where the code traps -/

namespace Words

variable {node? : Nat → Option Node} {e e' : Env Word} {n : Node}

/-- When a block traps, it has come to a node that cannot be computed, and memory is as the nodes before it
leave it. -/
theorem execBody_of_trapped {ids : List Nat} {t : Trap} {memory : Array Byte}
    (h : (meaning .heap).execNodes node? ids e = .error (.trapped t memory)) :
    ∃ done id rest e' n xs, ids = done ++ id :: rest ∧ (meaning .heap).execBody node? done e = .ok e' ∧
      e'.memory = memory ∧ node? id = some n ∧ n.op.isTerminator = false ∧ e'.operands n = .ok xs ∧
      compute .heap n xs memory = .error (.trapped t memory) := by
  induction ids generalizing e with
  | nil => exact absurd h (by simp [Meaning.execNodes])
  | cons id ids ih =>
      unfold Meaning.execNodes at h
      split at h
      · exact absurd h (by simp)
      next n hn =>
      have hoperands := operands_ne_trapped e n t memory
      split at h
      · refine absurd h (bind_ne_trapped hoperands fun xs _ => ?_)
        exact bind_ne_trapped (exit_ne_trapped n xs t memory) fun _ _ => by simp [pure, Except.pure]
      next hplain =>
      cases hxs : e.operands n with
      | error halt =>
          rw [Meaning.execNode, hxs] at h
          exact absurd (hxs.trans (congrArg Except.error (Except.error.inj h))) hoperands
      | ok xs =>
          rw [Meaning.execNode_of_operands hxs] at h
          change ((compute .heap n xs e.memory).map _ >>= _) = _ at h
          cases hcompute : compute .heap n xs e.memory with
          | error halt =>
              rw [hcompute] at h
              obtain rfl : halt = .trapped t memory := Except.error.inj h
              obtain ⟨-, rfl⟩ := TrapsAsProgram.compute n xs e.memory t memory hcompute
              exact ⟨[], id, ids, e, n, xs, rfl, rfl, rfl, hn, Bool.eq_false_of_not_eq_true hplain, hxs,
                hcompute⟩
          | ok r =>
              rw [hcompute] at h
              obtain ⟨done, j, rest, e', m, ys, rfl, hdone, hlast⟩ := ih h
              have hstep : (meaning .heap).execNode e id n = .ok (e.set id r.1 r.2) :=
                Meaning.execNode_eq_ok.mpr ⟨xs, r.1, r.2, hxs, hcompute, rfl⟩
              exact ⟨id :: done, j, rest, e', m, ys, rfl,
                Meaning.execBody_cons_eq_ok.mpr ⟨n, _, hn, hstep, hdone⟩, hlast⟩

/-- The values of nodes under other numbers. -/
def along (f : Nat → Nat) (e : Env Word) : Env Word := { e with values := fun i => e.values (f i) }

theorem operands_along (f : Nat → Nat) (e : Env Word) (n : Node) :
    (along f e).operands n = e.operands (Schedule.renumber f n) := by
  simp only [Env.operands, Schedule.renumber, List.mapM_map]
  rfl

/-- Nodes that run under new numbers run alike under their old ones. -/
theorem execBody_along {L : MemoryLayout} {new? : Nat → Option Node} {f : Nat → Nat} {ids : List Nat}
    (hf : ∀ i ∈ ids, ∀ j, f j = f i → j = i)
    (hnew : ∀ i ∈ ids, ∃ n, node? i = some n ∧ new? (f i) = some (Schedule.renumber f n))
    (h : (meaning L).execBody new? (ids.map f) e = .ok e') :
    (meaning L).execBody node? ids (along f e) = .ok (along f e') := by
  induction ids generalizing e with
  | nil => rw [← Except.ok.inj h]; rfl
  | cons i ids ih =>
      obtain ⟨n, hn, hn'⟩ := hnew i List.mem_cons_self
      obtain ⟨n', e₁, hnode, hfirst, hrest⟩ := Meaning.execBody_cons_eq_ok.mp h
      obtain rfl := Option.some.inj (hn'.symm.trans hnode)
      obtain ⟨ws, v, memory, hws, hcompute, rfl⟩ := Meaning.execNode_eq_ok.mp hfirst
      have hset : along f (e.set (f i) v memory) = (along f e).set i v memory := by
        have hvalues (j : Nat) : (if f j = f i then v else e.values (f j))
            = if j = i then v else e.values (f j) := by
          by_cases hj : j = i
          · rw [if_pos hj, if_pos (congrArg f hj)]
          · rw [if_neg hj, if_neg fun heq => hj (hf i List.mem_cons_self j heq)]
        simp only [along, Env.set, hvalues]
      have hstep : (meaning L).execNode (along f e) i n = .ok ((along f e).set i v memory) := by
        refine Meaning.execNode_eq_ok.mpr ⟨ws, v, memory, ?_, hcompute, rfl⟩
        rw [operands_along, hws]
      refine Meaning.execBody_cons_eq_ok.mpr ⟨n, _, hn, hstep, ?_⟩
      rw [← hset]
      exact ih (fun j hj => hf j (List.mem_cons_of_mem i hj))
        (fun j hj => hnew j (List.mem_cons_of_mem i hj)) hrest

end Words

/-- A run of one block traps where its nodes do. -/
theorem Meaning.execNodes_of_trapped {α : Type} {M : Meaning α} {g : Graph} {t : Trap}
    {memory memory' : Array Byte} (h : (M.run g 1 memory).2 = .halted (.trapped t memory')) :
    M.execNodes g.node? (g.members 0) (.start memory) = .error (.trapped t memory') := by
  rw [run, runFrom_succ] at h
  generalize M.execNodes g.node? (g.members 0) (.start memory) = r at h ⊢
  rcases r with halt | ⟨e, k | v⟩
  · rw [Outcome.halted.inj h]
  · simp only [depart] at h
    split at h
    · exact absurd (Outcome.halted.inj h) (by simp)
    · exact absurd h (by simp [runFrom])
  · exact absurd h (by simp [depart])

/-- A selected block comes to a stop: the nodes before one have run, and that one cannot be computed. -/
structure Lowering.Stops (l : Lowering) (memory : Array Byte) (ran : List Nat) (i : Nat) (f : Env Word) :
    Prop where
  order : ran ++ [i] <+: Schedule.blockOrder l.nodes 0
  exec : (Words.meaning .linear).execBody l.node? ran (.start memory) = .ok f
  blocked : ∃ n ws, l.node? i = some n ∧ n.op.isTerminator = false ∧ f.operands n = .ok ws ∧
    ∀ r, Words.compute .linear n ws f.memory ≠ .ok r

namespace Graph.StraightProgram

open Schedule

variable {g g' : Graph} {config config' : Config} {stats : Stats} {l : Lowering} {a : Allocation}
  {code : Code} {memory : Array Byte}

theorem op_schedule (hg : g.StraightProgram) (hsteps : Lowering.Steps g config {} l) {id : Nat} {n : Node}
    (hn : (schedule g.blocks l.nodes).node? id = some n) :
    n.op.onWords = true ∧ n.op.successorCount = 0 := by
  obtain ⟨b, hb⟩ := node?_eq_some.mp hn
  obtain ⟨i, p, hi, -, heq⟩ := exists_of_schedule_node hsteps.grounded hsteps.housed hb
  rw [(Placed.mk.inj heq).2]
  exact hsteps.of_straight hg hi

/-- Registers and code for the selected block are such for the block without its successors. -/
theorem compiled (hg : g.StraightProgram) (hsteps : Lowering.Steps g config {} l)
    (hall : ∀ id < g.nodes.size, Select.absorbs g config id = false →
      ∃ new, l.lowered.get? id = some new)
    (hallocate : Pool.allocate [] (schedule g.blocks l.nodes) = .ok a)
    (hemit : emit (schedule g.blocks l.nodes) a config' = .ok code) :
    Emission.Compiled (schedule g.blocks l.nodes).withoutEdges [] a config' code where
  flawless := flaw?_withoutEdges (hsteps.flaw?_schedule hg.arrangeable)
  terminated b hb := by
    rw [size_withoutEdges] at hb
    exact hsteps.terminated_schedule hg.arrangeable hall hg.terminated b hb
  forward b c hedge := absurd hedge (not_edge_withoutEdges _ b c)
  inScope id n b hn r hr := by
    obtain ⟨hprecedes, c, hc, -⟩ := hsteps.scoped_schedule hg.inScope id n b hn r hr
    obtain rfl : c = 0 := by
      have hlt := blockOf?_lt hc
      rw [schedule_blocks, hg.single] at hlt
      omega
    refine ⟨?_, 0, hc, dominates_first _ b⟩
    rwa [Precedes, layout_withoutEdges]
  nonempty := by
    rw [size_withoutEdges, schedule_blocks, hg.single]
    exact Nat.one_pos
  unforced p hp := absurd hp List.not_mem_nil
  allocated := by rwa [allocate_withoutEdges]
  emitted := Emission.emit_withoutEdges (fun id n hn => (hg.op_schedule hsteps hn).2) hemit

/-- The code of a single block ends as the selected block does. -/
theorem endsAs (hg : g.StraightProgram) (hselect : select g config = .ok (g', stats))
    (hallocate : Pool.allocate [] g' = .ok a) (hemit : emit g' a config' = .ok code)
    (hsize : code.insts.size ≤ Machine.stepLimit) (memory : Array Byte) :
    Machine.EndsAs ((Words.meaning .heap).run g'.withoutEdges 1 (Machine.heapOf memory)).2
      (Machine.run code (Machine.withMemory memory)) := by
  obtain ⟨l, hsteps, rfl, hall⟩ := exists_steps hg.arrangeable hselect
  have hfuel : (schedule g.blocks l.nodes).withoutEdges.blocks.size ≤ 1 := by
    rw [size_withoutEdges, schedule_blocks, hg.single]
  exact (hg.compiled hsteps hall hallocate hemit).endsAs (m := Machine.withMemory memory)
    (fun id n hn => (hg.op_schedule hsteps hn).1) hsize hfuel rfl

/-- Where the code of a single block traps, the selected block comes to a stop, with memory as it is at the
trap. -/
theorem exists_stops (hg : g.StraightProgram) (hselect : select g config = .ok (g', stats))
    (hallocate : Pool.allocate [] g' = .ok a) (hemit : emit g' a config' = .ok code)
    (hsize : code.insts.size ≤ Machine.stepLimit) (hm : Addressable memory) {t : Trap} {m : Machine}
    (hrun : Machine.run code (Machine.withMemory memory) = (.error t, m)) :
    ∃ l ran i f, Select.lowerAll g config {} = .ok ((), l) ∧ l.Stops memory ran i f ∧
      m.memory = f.memory := by
  have hends := hg.endsAs hselect hallocate hemit hsize memory
  rw [hrun] at hends
  generalize hout : (Meaning.run _ _ _ _).2 = out at hends
  cases hends
  obtain ⟨done, id, rest, e, n, ws, hmembers, hexec, hmemory, hn, hplain, hws, hcompute⟩ :=
    Words.execBody_of_trapped (Meaning.execNodes_of_trapped hout)
  obtain ⟨l, hlower, rfl⟩ := select_ok hselect
  obtain ⟨hsteps, -⟩ :=
    (Lowering.lowerAll_meets config hg.arrangeable.closed hg.arrangeable.acyclic).of_ok hlower
  have hground := hsteps.grounded
  have hhoused := hsteps.housed
  -- back to the numbers that the nodes had before they were scheduled
  have hplaces := schedule_members hground hhoused (hg.single ▸ Nat.one_pos : 0 < g.blocks.size)
  obtain ⟨ran, rest, horder, rfl, hrest⟩ := List.map_eq_append_iff.mp (hplaces.symm.trans hmembers)
  obtain ⟨i, rest, rfl, rfl, rfl⟩ := List.map_eq_cons_iff.mp hrest
  have hmem {j : Nat} (hj : j ∈ ran ++ i :: rest) : ∃ p, l.nodes[j]? = some p := by
    obtain ⟨p, hp⟩ := Schedule.blockOf?_eq_some.mp ((mem_blockOrder hground).mp (horder ▸ hj))
    exact ⟨_, hp⟩
  have halong : (Words.meaning .heap).execBody l.node? ran _ = .ok _ := Words.execBody_along
    (fun i hi j hj => by
      obtain ⟨p, hp⟩ := hmem (List.mem_append_left _ hi)
      exact place_inj hground hhoused (Array.getElem?_eq_some_iff.mp hp).1 hj)
    (fun i hi => by
      obtain ⟨p, hp⟩ := hmem (List.mem_append_left _ hi)
      exact ⟨p.node, Lowering.node?_of_placed hp,
        node?_eq_some.mpr ⟨_, schedule_node hground hhoused hp⟩⟩) hexec
  obtain ⟨p, hp⟩ := hmem (List.mem_append_right ran List.mem_cons_self)
  have hnode := Lowering.node?_of_placed hp
  obtain rfl := Option.some.inj
    ((node?_eq_some.mpr ⟨_, schedule_node hground hhoused hp⟩).symm.trans hn)
  rw [← Words.operands_along] at hws
  -- and to linear memory without a context in front of it
  have hguarded := hsteps.guarded hg.generic
  have hstart : (Env.start memory).Reliable l.node? := .start hm
  obtain ⟨f, hf, heq⟩ := onHeap_eq_ok.mp ((hguarded.execBody_onHeap hstart).symm.trans halong)
  have hreliable := hguarded.reliable_of_execBody hstart hf
  have hheap : Machine.heapOf f.memory = e.memory := congrArg Env.memory heq
  rw [← heq] at hws
  refine ⟨l, ran, i, f, hlower, ⟨⟨rest, ?_⟩, hf, p.node, ws, hnode, hplain, hws, fun r hr => ?_⟩, ?_⟩
  · rw [horder, List.append_assoc]
    rfl
  · have hgoes := hguarded.compute_heapOf hreliable.addressable hnode (hreliable.operands hws)
    rw [hr, hheap, hmemory] at hgoes
    exact absurd (hgoes.symm.trans hcompute) (by simp [onHeap])
  · exact Machine.memory_of_heapOf (hmemory.symm.trans hheap.symm)

end Graph.StraightProgram

/-- The trap at which a run has stopped, and memory at it. -/
def Outcome.trap? {α : Type} : Outcome α → Option (Trap × Array Byte)
  | .halted (.trapped t memory) => some (t, memory)
  | _ => none

theorem Machine.EndsAs.exists_trapped {out : Outcome Word} {r : Except Trap Unit × Machine} {t : Trap}
    {heap : Array Byte} (h : EndsAs out r) (htrap : out.trap? = some (t, heap)) :
    ∃ m, r = (.error t, m) ∧ m.heap = heap := by
  cases h with
  | returned => exact absurd htrap (by simp [Outcome.trap?])
  | trapped =>
      obtain ⟨rfl, rfl⟩ := Prod.mk.inj (Option.some.inj htrap)
      exact ⟨_, rfl, rfl⟩

/-- A single block that traps once it is selected has code that traps. -/
theorem Graph.StraightProgram.exists_trapped {g : Graph} {config config' : Config}
    {memory memory' : Array Byte} {t : Trap} (hg : g.StraightProgram)
    (h : ((select g config).toOption.bind fun r => (Pool.allocate [] r.1).toOption.bind fun a =>
      (emit r.1 a config').toOption.map fun code => (decide (code.insts.size ≤ Machine.stepLimit),
        ((Words.meaning .heap).run r.1.withoutEdges 1 (Machine.heapOf memory)).2.trap?))
      = some (true, some (t, Machine.heapOf memory'))) :
    ∃ g' stats a code m, select g config = .ok (g', stats) ∧ Pool.allocate [] g' = .ok a ∧
      emit g' a config' = .ok code ∧ code.insts.size ≤ Machine.stepLimit ∧
      Machine.run code (Machine.withMemory memory) = (.error t, m) ∧ m.memory = memory' := by
  obtain ⟨⟨g', stats⟩, hselect, h⟩ := Option.bind_eq_some_iff.mp h
  obtain ⟨a, hallocate, h⟩ := Option.bind_eq_some_iff.mp h
  obtain ⟨code, hemit, h⟩ := Option.map_eq_some_iff.mp h
  rw [toOption_eq_some] at hselect hallocate hemit
  obtain ⟨hsize, htrap⟩ := Prod.mk.inj h
  have hsize := of_decide_eq_true hsize
  obtain ⟨m, hrun, hheap⟩ :=
    (hg.endsAs hselect hallocate hemit hsize memory).exists_trapped htrap
  exact ⟨g', stats, a, code, m, hselect, hallocate, hemit, hsize, hrun, Machine.memory_of_heapOf hheap⟩

end Isel
