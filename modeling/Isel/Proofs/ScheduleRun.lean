import Isel.Proofs.Reorder

/-! A scheduled graph runs like the graph in the order in which its nodes arose: it enters the same
blocks, and comes to the same end. Nodes of a block change places, so where several nodes of a block
would trap, another one can be the first to do so. -/

namespace Isel

namespace Words

variable {n : Node} {xs : List Word} {memory memory₁ : Array Byte} {v : Option Word}

theorem bind_ne_stuck {α β : Type} {x : Except Halt α} {f : α → Except Halt β}
    (hx : x ≠ .error .stuck) (hf : ∀ a, x = .ok a → f a ≠ .error .stuck) :
    (x >>= f) ≠ .error .stuck := by
  cases x with
  | error h => exact fun heq => hx (Except.error.inj heq ▸ rfl)
  | ok a => exact hf a rfl

theorem binary_ne_stuck (w : IntWidth) (op : IntBinary) (x y : Word) (memory : Array Byte) :
    binary w op x y memory ≠ .error .stuck := by
  unfold binary
  split <;> simp

/-- A place that linear memory has for an access holds its bytes. -/
theorem linear_place_eq_ok {k start : Nat} {p : Word}
    (h : MemoryLayout.linear.place memory k p = .ok start) :
    Machine.memoryStart ≤ p.toNat ∧ start = p.toNat - Machine.memoryStart ∧
      start + k ≤ memory.size := by
  simp only [MemoryLayout.linear] at h
  split at h
  · next hin =>
      have := Except.ok.inj h
      refine ⟨hin.1, this.symm, ?_⟩
      omega
  · exact absurd h (by simp)

theorem linear_place_ne_stuck {k : Nat} {p : Word} :
    MemoryLayout.linear.place memory k p ≠ .error .stuck := by
  simp only [MemoryLayout.linear]
  split <;> simp

theorem load_ne_stuck {a : TargetLoad} (hxs : xs.length = 3) :
    load .linear a xs memory ≠ .error .stuck := by
  obtain ⟨state, space, checked, rfl⟩ := List.length_eq_three.mp hxs
  refine bind_ne_stuck linear_place_ne_stuck fun start hstart => ?_
  have hread : readBytes? memory start a.bytes ≠ none := by
    simp [readBytes?, (linear_place_eq_ok hstart).2.2]
  refine bind_ne_stuck ?_ fun x _ => by simp [pure, Except.pure]
  cases hr : readBytes? memory start a.bytes with
  | none => exact absurd hr hread
  | some x => simp [orStuck]

theorem store_ne_stuck {a : TargetStore} (hxs : xs.length = 4) :
    store .linear a xs memory ≠ .error .stuck := by
  match xs, hxs with
  | [state, space, checked, x], _ =>
    refine bind_ne_stuck linear_place_ne_stuck fun start hstart => ?_
    simp [replaceBytes?, (linear_place_eq_ok hstart).2.2, orStuck]

theorem map_ne_stuck {α β : Type} {x : Except Halt α} {f : α → β} (hx : x ≠ .error .stuck) :
    (do return f (← x)) ≠ (.error .stuck : Except Halt β) :=
  bind_ne_stuck hx fun _ _ => by simp [pure, Except.pure]

/-- A node with the operands that it computes with has a result, or traps. -/
theorem compute_ne_stuck (hn : computes n = true) (hxs : xs.length = n.inputs.length) :
    compute .linear n xs memory ≠ .error .stuck := by
  obtain ⟨op, control, literals, inputs⟩ := n
  obtain ⟨hcount, hliteral⟩ := Bool.and_eq_true_iff.mp hn
  rw [beq_iff_eq] at hcount
  simp only at hcount hxs hliteral
  rw [← hxs] at hcount
  unfold operandCount? at hcount
  split at hcount <;> simp only [Option.some.injEq, reduceCtorEq] at hcount
  · -- state
    simp [compute, value, pure?, orStuck, bind, Except.bind, pure, Except.pure]
  · obtain ⟨l, hl⟩ : ∃ l, literals.head? = some l := by
      cases literals <;> simp_all
    simp [compute, value, pure?, hl, orStuck, bind, Except.bind, pure, Except.pure]
  · obtain ⟨x, rfl⟩ := List.length_eq_one_iff.mp hcount.symm
    simp [compute, value, pure?, orStuck, bind, Except.bind, pure, Except.pure]
  · obtain ⟨x, rfl⟩ := List.length_eq_one_iff.mp hcount.symm
    simp [compute, value, pure?, orStuck, bind, Except.bind, pure, Except.pure]
  · obtain ⟨x, rfl⟩ := List.length_eq_one_iff.mp hcount.symm
    simp [compute, value, pure?, orStuck, bind, Except.bind, pure, Except.pure]
  · obtain ⟨x, y, rfl⟩ := List.length_eq_two.mp hcount.symm
    simp [compute, value, pure?, orStuck, bind, Except.bind, pure, Except.pure]
  · obtain ⟨x, y, rfl⟩ := List.length_eq_two.mp hcount.symm
    exact map_ne_stuck (binary_ne_stuck _ _ x y memory)
  · obtain ⟨x, rfl⟩ := List.length_eq_one_iff.mp hcount.symm
    simp [compute, value, pure?, orStuck, bind, Except.bind, pure, Except.pure]
  · obtain ⟨x, rfl⟩ := List.length_eq_one_iff.mp hcount.symm
    simp [compute, value, MemoryLayout.linear, bind, Except.bind, pure, Except.pure]
  · obtain ⟨x, rfl⟩ := List.length_eq_one_iff.mp hcount.symm
    simp [compute, value, MemoryLayout.linear, bind, Except.bind, pure, Except.pure]
  · obtain ⟨x, y, rfl⟩ := List.length_eq_two.mp hcount.symm
    exact map_ne_stuck (binary_ne_stuck _ _ x y memory)
  · obtain ⟨state, addr, size, rfl⟩ := List.length_eq_three.mp hcount.symm
    obtain ⟨l, hl⟩ : ∃ l, literals.head? = some l := by
      cases literals <;> simp_all
    refine map_ne_stuck ?_
    simp only [value, hl, orStuck, bind, Except.bind, checkBounds]
    split <;> simp
  · exact map_ne_stuck (load_ne_stuck hcount.symm)
  · exact map_ne_stuck (store_ne_stuck hcount.symm)

/-- All but stores give a value. -/
theorem isSome_of_compute {L : MemoryLayout} (hstore : n.op.isTargetStore = false)
    (h : compute L n xs memory = .ok (v, memory₁)) : v.isSome = true := by
  unfold compute at h
  split at h
  · obtain ⟨x, -, heq⟩ := bind_eq_ok.mp h
    obtain ⟨rfl, -⟩ := Prod.mk.inj (Except.ok.inj heq)
    rfl
  · next heq => simp [heq, Operator.isTargetStore] at hstore
  · obtain ⟨x, -, heq⟩ := bind_eq_ok.mp h
    obtain ⟨rfl, -⟩ := Prod.mk.inj (Except.ok.inj heq)
    rfl

end Words

open Words

variable {node? : Nat → Option Node} {e e' : Env Word} {ids : List Nat} {i : Nat}

/-- A node that gives a value to those that refer to it. -/
def Gives (node? : Nat → Option Node) (i : Nat) : Prop :=
  ∃ n, node? i = some n ∧ n.op.isTargetStore = false ∧ n.op.isTerminator = false

theorem isSome_of_execBody (hnodup : ids.Nodup)
    (h : (meaning .linear).execBody node? ids e = .ok e') (hi : i ∈ ids) (hgives : Gives node? i) :
    (e'.values i).isSome = true := by
  induction ids generalizing e with
  | nil => exact absurd hi List.not_mem_nil
  | cons id ids ih =>
      obtain ⟨n, e₁, hn, hfirst, hrest⟩ := Meaning.execBody_cons_eq_ok.mp h
      obtain ⟨hnot, hnodup⟩ := List.nodup_cons.mp hnodup
      rcases List.mem_cons.mp hi with rfl | hi
      · obtain ⟨m, hm, hstore, -⟩ := hgives
        obtain rfl : n = m := Option.some.inj (hn.symm.trans hm)
        obtain ⟨xs, v, memory, -, hcompute, rfl⟩ := Meaning.execNode_eq_ok.mp hfirst
        rw [Meaning.values_of_execBody hrest hnot, Env.set_values_self]
        exact isSome_of_compute hstore hcompute
      · exact ih hnodup hrest hi

theorem operands_of_isSome {n : Node} (h : ∀ r ∈ n.inputs, (e.values r).isSome = true) :
    ∃ xs, e.operands n = .ok xs ∧ xs.length = n.inputs.length := by
  have hforall : ∀ ids : List Nat, (∀ r ∈ ids, (e.values r).isSome = true) →
      ∃ xs, List.Forall₂ (fun r x => e.values r = some x) ids xs := by
    intro ids hids
    induction ids with
    | nil => exact ⟨[], .nil⟩
    | cons r ids ih =>
        obtain ⟨x, hx⟩ := Option.isSome_iff_exists.mp (hids r List.mem_cons_self)
        obtain ⟨xs, hxs⟩ := ih fun r hr => hids r (List.mem_cons_of_mem _ hr)
        exact ⟨x :: xs, .cons hx hxs⟩
  obtain ⟨xs, hxs⟩ := hforall n.inputs h
  exact ⟨xs, Env.operands_eq_ok.mpr hxs, hxs.length_eq.symm⟩

/-- Nodes whose operands have values, or get them before, run to their end or trap. -/
theorem execBody_ne_stuck (hnodup : ids.Nodup)
    (hids : ∀ front i back, ids = front ++ i :: back → ∃ n, node? i = some n ∧
      computes n = true ∧ ∀ r ∈ n.inputs, r ∈ front ∧ Gives node? r ∨
        r ∉ ids ∧ (e.values r).isSome = true) :
    (meaning .linear).execBody node? ids e ≠ .error .stuck := by
  induction ids generalizing e with
  | nil => simp [Meaning.execBody]
  | cons id ids ih =>
      obtain ⟨hnot, hnodup'⟩ := List.nodup_cons.mp hnodup
      obtain ⟨n, hn, hcomputes, hinputs⟩ := hids [] id ids rfl
      obtain ⟨xs, hxs, hlength⟩ := operands_of_isSome (e := e) (n := n) fun r hr => by
        rcases hinputs r hr with ⟨hmem, -⟩ | ⟨-, hsome⟩
        · exact absurd hmem List.not_mem_nil
        · exact hsome
      rw [Meaning.execBody, hn]
      change (_ >>= (meaning .linear).execBody node? ids) ≠ _
      refine bind_ne_stuck ?_ fun e₁ hfirst => ih hnodup' fun front i back hsplit => ?_
      · rw [Meaning.execNode_of_operands hxs]
        have hcompute : compute .linear n xs e.memory ≠ .error .stuck :=
          compute_ne_stuck hcomputes hlength
        cases hr : (meaning .linear).compute n xs e.memory with
        | ok r => simp [Except.map]
        | error h => exact fun heq => hcompute (hr.trans (Except.error.inj heq ▸ rfl))
      obtain ⟨m, hm, hcomputes, hinputs⟩ := hids (id :: front) i back (by rw [hsplit]; rfl)
      obtain ⟨ys, v, memory, -, hcompute, rfl⟩ := Meaning.execNode_eq_ok.mp hfirst
      refine ⟨m, hm, hcomputes, fun r hr => ?_⟩
      rcases hinputs r hr with ⟨hmem, hgives⟩ | ⟨hmem, hsome⟩
      · rcases List.mem_cons.mp hmem with rfl | hmem
        · obtain ⟨k, hk, hstore, -⟩ := hgives
          obtain rfl : n = k := Option.some.inj (hn.symm.trans hk)
          exact .inr ⟨hnot, by rw [Env.set_values_self]; exact isSome_of_compute hstore hcompute⟩
        · exact .inl ⟨hmem, hgives⟩
      · obtain ⟨hne, hmem⟩ := not_or.mp (List.mem_cons.not.mp hmem)
        exact .inr ⟨hmem, by rwa [Env.set_values_of_ne e hne]⟩

/-- A graph in words that cannot get stuck: every block is computations and a terminator at its end,
every node refers to earlier nodes that give a value and lie in dominating blocks, and has as many
operands as its operator asks for. -/
structure Graph.Runnable (g : Graph) : Prop where
  grounded : Schedule.Grounded g.nodes
  blocks : ∀ b, b < g.blocks.size → ∃ body t n, g.members b = body ++ [t] ∧
    g.nodes[t]? = some ⟨b, n⟩ ∧ n.op.isTerminator = true ∧
    ∀ i ∈ body, ∃ m, g.nodes[i]? = some ⟨b, m⟩ ∧ m.op.isTerminator = false
  inputs : ∀ (i b : Nat) (n : Node), g.nodes[i]? = some ⟨b, n⟩ → ∀ r ∈ n.inputs,
    Gives g.node? r ∧ ∃ c, g.blockOf? r = some c ∧ g.Dominates c b
  computes : ∀ (i b : Nat) (n : Node), g.nodes[i]? = some ⟨b, n⟩ → n.op.isTerminator = false →
    Words.computes n = true
  exits : ∀ (i b : Nat) (n : Node), g.nodes[i]? = some ⟨b, n⟩ → n.op.isTerminator = true →
    ∀ xs, xs.length = n.inputs.length → ∃ out, Words.exit n xs = .ok out ∧
      ∀ k, out = .goto k → ∃ c, (g.block? b).bind (·.successors[k]?) = some c ∧ c < g.blocks.size

namespace Graph.Runnable

variable {g : Graph} {b : Nat} {f f' : Env Word} {fuel : Nat} {bs : List Nat}

theorem housed (g : Graph) : Schedule.Housed g.blocks g.nodes :=
  fun _ _ hp => g.block_lt _ (Array.mem_of_getElem? hp)

theorem members_eq (g : Graph) (b : Nat) : Schedule.members g.nodes b = g.members b := by
  refine List.filter_congr fun id _ => ?_
  rw [Bool.eq_iff_iff, Schedule.isIn_eq_true, beq_iff_eq, blockOf?_eq_some]
  simp

/-- At a block, the nodes of the blocks that strictly dominate it have their values. -/
def Known (g : Graph) (b : Nat) (f : Env Word) : Prop :=
  ∀ i c, g.blockOf? i = some c → Gives g.node? i → c ≠ b → g.Dominates c b →
    (f.values i).isSome = true

/-- The same values, each at the place of its node in the scheduled graph. -/
structure Moved (g : Graph) (f f' : Env Word) : Prop where
  memory : f'.memory = f.memory
  values : ∀ i, i < g.nodes.size → f'.values (Schedule.place g.blocks g.nodes i) = f.values i

theorem Moved.operands (hg : g.Runnable) (h : Moved g f f') {i : Nat} {p : Placed}
    (hp : g.nodes[i]? = some p) :
    f'.operands (Schedule.renumber (Schedule.place g.blocks g.nodes) p.node)
      = f.operands p.node := by
  simp only [Env.operands, Schedule.renumber, List.mapM_map]
  refine mapM_congr fun r hr => ?_
  have hlt := hg.grounded i p hp r (List.mem_append_left _ hr)
  have hi := (Array.getElem?_eq_some_iff.mp hp).1
  rw [Function.comp_apply, h.values r (by omega)]

theorem node?_schedule (hg : g.Runnable) {i : Nat} {p : Placed} (hp : g.nodes[i]? = some p) :
    (schedule g.blocks g.nodes).node? (Schedule.place g.blocks g.nodes i)
      = some (Schedule.renumber (Schedule.place g.blocks g.nodes) p.node) := by
  rw [node?, Schedule.schedule_node hg.grounded (housed g) hp]
  rfl

theorem Moved.set (hg : g.Runnable) (h : Moved g f f') {i : Nat} (hi : i < g.nodes.size)
    (v : Option Word) (memory : Array Byte) :
    Moved g (f.set i v memory) (f'.set (Schedule.place g.blocks g.nodes i) v memory) := by
  refine ⟨rfl, fun j hj => ?_⟩
  by_cases hji : j = i
  · subst hji
    rw [Env.set_values_self, Env.set_values_self]
  · have hne : Schedule.place g.blocks g.nodes j ≠ Schedule.place g.blocks g.nodes i :=
      fun heq => hji (Schedule.place_inj hg.grounded (housed g) hi heq)
    rw [Env.set_values_of_ne f hji, Env.set_values_of_ne f' hne, h.values j hj]

/-- Nodes run at their places like before. -/
theorem execBody_place (hg : g.Runnable) (h : Moved g f f') {ids : List Nat}
    (hids : ∀ i ∈ ids, i < g.nodes.size) :
    (∀ f₁, (meaning .linear).execBody g.node? ids f = .ok f₁ →
      ∃ f₁', (meaning .linear).execBody (schedule g.blocks g.nodes).node?
        (ids.map (Schedule.place g.blocks g.nodes)) f' = .ok f₁' ∧ Moved g f₁ f₁') ∧
    ∀ e, (meaning .linear).execBody g.node? ids f = .error e →
      (meaning .linear).execBody (schedule g.blocks g.nodes).node?
        (ids.map (Schedule.place g.blocks g.nodes)) f' = .error e := by
  induction ids generalizing f f' with
  | nil =>
      refine ⟨fun f₁ hrun => ⟨f', rfl, Except.ok.inj hrun ▸ h⟩, fun e hrun => ?_⟩
      exact absurd hrun (by simp [Meaning.execBody])
  | cons i ids ih =>
      have hi := hids i List.mem_cons_self
      have hp := Array.getElem?_eq_getElem hi
      have hn : g.node? i = some g.nodes[i].node := by rw [node?, hp]; rfl
      have hids' : ∀ j ∈ ids, j < g.nodes.size := fun j hj => hids j (List.mem_cons_of_mem i hj)
      rw [List.map_cons, Meaning.execBody, Meaning.execBody, hn, node?_schedule hg hp]
      cases hxs : f.operands g.nodes[i].node with
      | error e =>
          have hxs' := (h.operands hg hp).trans hxs
          simp only [orStuck, Meaning.execNode, hxs, hxs', bind, Except.bind]
          exact ⟨fun f₁ hrun => absurd hrun (by simp), fun _ hrun => hrun⟩
      | ok xs =>
          have hxs' := (h.operands hg hp).trans hxs
          have hcompute : (meaning .linear).compute
              (Schedule.renumber (Schedule.place g.blocks g.nodes) g.nodes[i].node) xs f.memory
                = (meaning .linear).compute g.nodes[i].node xs f.memory := rfl
          simp only [orStuck, bind, Except.bind, Meaning.execNode_of_operands hxs,
            Meaning.execNode_of_operands hxs', h.memory, hcompute]
          cases (meaning .linear).compute g.nodes[i].node xs f.memory with
          | error e => exact ⟨fun f₁ hrun => absurd hrun (by simp [Except.map]), fun _ hrun => hrun⟩
          | ok r => exact ih (h.set hg hi r.1 r.2) hids'

theorem members_keep (hg : g.Runnable) (b : Nat) :
    (g.members b).Pairwise fun i j => ¬Reorder.MustPrecede g.node? j i := by
  refine (g.members_sorted b).imp fun {i j} hlt => ?_
  rintro ⟨m, n, -, hn, hinput | ⟨-, hgt⟩⟩
  · obtain ⟨c, hc⟩ := node?_eq_some.mp hn
    have := hg.grounded i _ hc j (List.mem_append_left _ hinput)
    omega
  · omega

theorem blockOrder_keep (hg : g.Runnable) (b : Nat) :
    (Schedule.blockOrder g.nodes b).Pairwise fun i j => ¬Reorder.MustPrecede g.node? j i := by
  have hsettled := Schedule.blockOrder_settled hg.grounded b
  rw [List.pairwise_iff_getElem]
  intro p q hp hq hlt hmust
  obtain ⟨m, n, hm, hn, hcase⟩ := hmust
  have hplaced {k : Nat} {x : Node} (hk : k ∈ Schedule.blockOrder g.nodes b)
      (hx : g.node? k = some x) : g.nodes[k]? = some ⟨b, x⟩ := by
    obtain ⟨y, hy⟩ := Schedule.blockOf?_eq_some.mp ((Schedule.mem_blockOrder hg.grounded).mp hk)
    obtain ⟨c, hc⟩ := node?_eq_some.mp hx
    rw [hy] at hc
    obtain ⟨rfl, rfl⟩ : b = c ∧ y = x := by simpa using hc
    exact hy
  have hi := hplaced (List.getElem_mem hp) hn
  have hj := hplaced (List.getElem_mem hq) hm
  have hbefore : Schedule.Before (Schedule.blockOrder g.nodes b)
      (Schedule.blockOrder g.nodes b)[q] (Schedule.blockOrder g.nodes b)[p] := by
    rcases hcase with hinput | ⟨hconflict, hlt'⟩
    · refine hsettled.before (List.getElem_mem hp) (Schedule.mem_dependencies.mpr ⟨_, hi, ?_, ?_⟩)
      · exact .inl (List.mem_append_left _ hinput)
      · exact Schedule.blockOf?_eq_some.mpr ⟨m, hj⟩
    · exact hsettled.before_of_conflicts hj hi hlt' hconflict (List.getElem_mem hp)
  have hidx := hbefore.idxOf_lt hsettled.nodup
  rw [hsettled.nodup.idxOf_getElem, hsettled.nodup.idxOf_getElem] at hidx
  omega

/-- A node that gives a value is not the terminator of its block. -/
theorem mem_body_of_gives {body : List Nat} {t : Nat} {n : Node} (hmembers : g.members b = body ++ [t])
    (ht : g.node? t = some n) (hterm : n.op.isTerminator = true) {i : Nat}
    (hi : g.blockOf? i = some b) (hgives : Gives g.node? i) : i ∈ body := by
  have hmem := mem_members.mpr hi
  rw [hmembers] at hmem
  rcases List.mem_append.mp hmem with hmem | hmem
  · exact hmem
  · obtain rfl := List.mem_singleton.mp hmem
    obtain ⟨k, hk, -, hnot⟩ := hgives
    obtain rfl : n = k := Option.some.inj (ht.symm.trans hk)
    simp [hterm] at hnot

/-- An order of the computations of a block that keeps what has to be kept finds all operands. -/
theorem fed (hg : g.Runnable) (hknown : Known g b f) {body ids : List Nat} {t : Nat} {n : Node}
    (hmembers : g.members b = body ++ [t]) (ht : g.node? t = some n)
    (hterm : n.op.isTerminator = true)
    (hbody : ∀ i ∈ body, ∃ m, g.nodes[i]? = some ⟨b, m⟩ ∧ m.op.isTerminator = false)
    (hperm : ids.Perm body) (hkeep : ids.Pairwise fun i j => ¬Reorder.MustPrecede g.node? j i)
    (front : List Nat) (i : Nat) (back : List Nat) (hids : ids = front ++ i :: back) :
    ∃ n, g.node? i = some n ∧ Words.computes n = true ∧ ∀ r ∈ n.inputs,
      r ∈ front ∧ Gives g.node? r ∨ r ∉ ids ∧ (f.values r).isSome = true := by
  have hmem : i ∈ body := hperm.mem_iff.mp (hids ▸ List.mem_append_right _ List.mem_cons_self)
  obtain ⟨m, hm, hplain⟩ := hbody i hmem
  have hnode : g.node? i = some m := node?_eq_some.mpr ⟨b, hm⟩
  refine ⟨m, hnode, hg.computes i b m hm hplain, fun r hr => ?_⟩
  obtain ⟨hgives, c, hc, hdom⟩ := hg.inputs i b m hm r hr
  by_cases hcb : c = b
  · subst hcb
    refine .inl ⟨?_, hgives⟩
    have hin := hperm.mem_iff.mpr (mem_body_of_gives hmembers ht hterm hc hgives)
    obtain ⟨k, hk, -⟩ := hgives
    rw [hids] at hin hkeep
    rcases List.mem_append.mp hin with h | h
    · exact h
    -- `r` does not come after `i`: it has to precede it
    rcases List.mem_cons.mp h with rfl | h
    · have := hg.grounded r ⟨c, m⟩ hm r (List.mem_append_left _ hr)
      omega
    · have hlater := (List.pairwise_cons.mp (List.pairwise_append.mp hkeep).2.1).1 r h
      exact absurd ⟨k, m, hk, hnode, .inl hr⟩ hlater
  · refine .inr ⟨fun hin => hcb ?_, hknown r c hc hgives hcb hdom⟩
    obtain ⟨k, hk, -⟩ := hbody r (hperm.mem_iff.mp hin)
    exact Option.some.inj (hc.symm.trans (blockOf?_eq_some.mpr ⟨k, hk⟩))

/-- The terminator that ends a block comes last in the new order too. -/
theorem blockOrder_eq (hg : g.Runnable) {body : List Nat} {t : Nat} {n : Node}
    (hmembers : g.members b = body ++ [t]) (ht : g.nodes[t]? = some ⟨b, n⟩)
    (hterm : n.op.isTerminator = true)
    (hbody : ∀ i ∈ body, ∃ m, g.nodes[i]? = some ⟨b, m⟩ ∧ m.op.isTerminator = false) :
    ∃ body', Schedule.blockOrder g.nodes b = body' ++ [t] ∧ body'.Perm body := by
  have hin {i : Nat} (hi : g.blockOf? i = some b) : i ∈ body ∨ i = t := by
    have h := mem_members.mpr hi
    rw [hmembers] at h
    exact (List.mem_append.mp h).imp_right List.mem_singleton.mp
  have hfree : t ∉ Schedule.consumed g.nodes := by
    intro hmem
    obtain ⟨user, huser⟩ := Schedule.mem_consumed.mp hmem
    have hlt := Schedule.dependencies_lt hg.grounded huser
    have hblock : g.blockOf? user = some b :=
      (Schedule.blockOf?_dependency huser).symm.trans (blockOf?_eq_some.mpr ⟨n, ht⟩)
    rcases hin hblock with hmem | rfl
    · have hsorted := g.members_sorted b
      rw [hmembers] at hsorted
      have := (List.pairwise_append.mp hsorted).2.2 user hmem t (List.mem_singleton_self t)
      omega
    · omega
  have honly : ∀ i m, g.nodes[i]? = some ⟨b, m⟩ → m.op.isTerminator = true → i = t := by
    intro i m hm hkind
    rcases hin (blockOf?_eq_some.mpr ⟨m, hm⟩) with hmem | heq
    · obtain ⟨k, hk, hplain⟩ := hbody i hmem
      obtain rfl : m = k := by simpa using hm.symm.trans hk
      simp [hkind] at hplain
    · exact heq
  obtain ⟨body', hbody'⟩ := Schedule.blockOrder_eq_append hg.grounded ht hterm hfree honly
  refine ⟨body', hbody', ?_⟩
  have hperm := Schedule.blockOrder_perm hg.grounded b
  rw [hbody', members_eq, hmembers] at hperm
  exact (List.perm_append_right_iff [t]).mp hperm

/-- How a block ends, in both orders of its nodes: both leave it the same way with the same values,
or both trap. -/
inductive BlockEnds (g : Graph) (b : Nat) (f f' : Env Word) : Prop
  | exits {f₁ f₁' : Env Word} {out : Exit Word}
      (run : (meaning .linear).execNodes g.node? (g.members b) f = .ok (f₁, out))
      (run' : (meaning .linear).execNodes (schedule g.blocks g.nodes).node?
        ((schedule g.blocks g.nodes).members b) f' = .ok (f₁', out))
      (moved : Moved g f₁ f₁')
      (known : ∀ i c, g.blockOf? i = some c → Gives g.node? i → g.Dominates c b →
        (f₁.values i).isSome = true)
      (next : ∀ k, out = .goto k → ∃ c, (g.block? b).bind (·.successors[k]?) = some c ∧
        c < g.blocks.size)
  | traps {t u : Trap} {memory₁ memory₂ : Array Byte}
      (run : (meaning .linear).execNodes g.node? (g.members b) f = .error (.trapped t memory₁))
      (run' : (meaning .linear).execNodes (schedule g.blocks g.nodes).node?
        ((schedule g.blocks g.nodes).members b) f' = .error (.trapped u memory₂))

theorem trapped_of_ne_stuck {α : Type} {x : Except Halt α} {h : Halt} (hx : x = .error h)
    (hstuck : x ≠ .error .stuck) : ∃ t memory, x = .error (.trapped t memory) := by
  cases h with
  | trapped t memory => exact ⟨t, memory, hx⟩
  | stuck => exact absurd hx hstuck

theorem blockEnds (hg : g.Runnable) (hb : b < g.blocks.size) (hknown : Known g b f)
    (hmoved : Moved g f f') : BlockEnds g b f f' := by
  obtain ⟨body, t, n, hmembers, ht, hterm, hbody⟩ := hg.blocks b hb
  obtain ⟨body', horder, hperm⟩ := blockOrder_eq hg hmembers ht hterm hbody
  have hnode : g.node? t = some n := node?_eq_some.mpr ⟨b, ht⟩
  have hkeep := hg.members_keep b
  have hkeep' := hg.blockOrder_keep b
  rw [hmembers] at hkeep
  rw [horder] at hkeep'
  replace hkeep := (List.pairwise_append.mp hkeep).1
  replace hkeep' := (List.pairwise_append.mp hkeep').1
  have hnodup : body.Nodup := by
    have := g.members_nodup b
    rw [hmembers] at this
    exact (List.nodup_append.mp this).1
  have hnodup' : body'.Nodup := hperm.nodup_iff.mpr hnodup
  have hplain : ∀ i ∈ body, ∃ m, g.node? i = some m ∧ m.op.isTerminator = false := by
    intro i hi
    obtain ⟨m, hm, hplain⟩ := hbody i hi
    exact ⟨m, node?_eq_some.mpr ⟨b, hm⟩, hplain⟩
  have hlt : ∀ i ∈ body', i < g.nodes.size := by
    intro i hi
    obtain ⟨m, hm, -⟩ := hbody i (hperm.mem_iff.mp hi)
    exact (Array.getElem?_eq_some_iff.mp hm).1
  -- both graphs run the block as its computations and then the terminator
  have hrun : (meaning .linear).execNodes g.node? (g.members b) f = do
      let f ← (meaning .linear).execBody g.node? body f
      let xs ← f.operands n
      return (f, ← Words.exit n xs) := by
    rw [hmembers]
    exact Meaning.execNodes_append hplain hnode hterm
  have hrun' : (meaning .linear).execNodes (schedule g.blocks g.nodes).node?
      ((schedule g.blocks g.nodes).members b) f' = do
      let f ← (meaning .linear).execBody (schedule g.blocks g.nodes).node?
        (body'.map (Schedule.place g.blocks g.nodes)) f'
      let xs ← f.operands (Schedule.renumber (Schedule.place g.blocks g.nodes) n)
      return (f, ← Words.exit n xs) := by
    rw [Schedule.schedule_members hg.grounded (housed g) hb, horder, List.map_append]
    refine Meaning.execNodes_append ?_ (node?_schedule hg ht) hterm
    intro j hj
    obtain ⟨i, hi, rfl⟩ := List.mem_map.mp hj
    obtain ⟨m, hm, hplain⟩ := hbody i (hperm.mem_iff.mp hi)
    exact ⟨_, node?_schedule hg hm, hplain⟩
  obtain ⟨hok, herr⟩ := execBody_place hg hmoved hlt
  cases hres : (meaning .linear).execBody g.node? body f with
  | ok f₁ =>
      have hres' := Reorder.execBody_of_perm hperm.symm hnodup hkeep hkeep' hres
      obtain ⟨f₁', hrun₁, hmoved₁⟩ := hok f₁ hres'
      have hknown₁ : ∀ i c, g.blockOf? i = some c → Gives g.node? i → g.Dominates c b →
          (f₁.values i).isSome = true := by
        intro i c hc hgives hdom
        by_cases hi : i ∈ body
        · exact isSome_of_execBody hnodup hres hi hgives
        rw [Meaning.values_of_execBody hres hi]
        refine hknown i c hc hgives ?_ hdom
        rintro rfl
        exact hi (mem_body_of_gives hmembers hnode hterm hc hgives)
      obtain ⟨xs, hxs, hlength⟩ := operands_of_isSome (e := f₁) (n := n) fun r hr => by
        obtain ⟨hgives, c, hc, hdom⟩ := hg.inputs t b n ht r hr
        exact hknown₁ r c hc hgives hdom
      obtain ⟨out, hout, hnext⟩ := hg.exits t b n ht hterm xs hlength
      refine .exits ?_ ?_ hmoved₁ hknown₁ hnext
      · rw [hrun, hres]
        simp only [bind, Except.bind, hxs, hout]
        rfl
      · rw [hrun', hrun₁]
        simp only [bind, Except.bind, hmoved₁.operands hg ht, hxs, hout]
        rfl
  | error h =>
      obtain ⟨u, memory₁, htrap⟩ := trapped_of_ne_stuck hres
        (execBody_ne_stuck hnodup (fed hg hknown hmembers hnode hterm hbody (.refl body) hkeep))
      obtain ⟨h', hres'⟩ := Reorder.execBody_error_of_perm hperm.symm hnodup hkeep hkeep' hres
      obtain ⟨u', memory₂, htrap'⟩ := trapped_of_ne_stuck hres'
        (execBody_ne_stuck hnodup' (fed hg hknown hmembers hnode hterm hbody hperm hkeep'))
      rw [htrap] at hrun
      rw [herr _ htrap'] at hrun'
      exact .traps hrun hrun'

theorem runFrom_schedule (hg : g.Runnable) (hb : b < g.blocks.size) (hknown : Known g b f)
    (hmoved : Moved g f f') :
    ((meaning .linear).runFrom (schedule g.blocks g.nodes) fuel b f').1
        = ((meaning .linear).runFrom g fuel b f).1 ∧
      Outcome.Agrees (· = ·) id ((meaning .linear).runFrom g fuel b f).2
        ((meaning .linear).runFrom (schedule g.blocks g.nodes) fuel b f').2 := by
  induction fuel generalizing b f f' with
  | zero => exact ⟨rfl, .running hmoved.memory⟩
  | succ fuel ih =>
      cases blockEnds hg hb hknown hmoved with
      | traps hrun hrun' =>
          rw [Meaning.runFrom_error hrun, Meaning.runFrom_error hrun']
          exact ⟨rfl, .trapped⟩
      | @exits f₁ f₁' out hrun hrun' hmoved₁ hknown₁ hnext =>
          cases out with
          | leave v =>
              rw [Meaning.runFrom_leave hrun, Meaning.runFrom_leave hrun', hmoved₁.memory]
              refine ⟨rfl, .returned ?_⟩
              cases v with
              | none => exact .none
              | some x => exact .some rfl
          | goto k =>
              obtain ⟨c, hc, hlt⟩ := hnext k rfl
              obtain ⟨block, hblock, hsucc⟩ := Option.bind_eq_some_iff.mp hc
              have hedge : g.Edge b c := ⟨block, hblock, List.mem_of_getElem? hsucc⟩
              have hknown' : Known g c f₁ := fun i d hd hgives hne hdom =>
                hknown₁ i d hd hgives (hdom.of_edge hedge hne)
              obtain ⟨hblocks, hagrees⟩ := ih hlt hknown' hmoved₁
              rw [Meaning.runFrom_goto hrun hc, Meaning.runFrom_goto hrun' hc]
              exact ⟨congrArg (b :: ·) hblocks, hagrees⟩

end Graph.Runnable

open Graph.Runnable in
/-- A scheduled graph enters the same blocks as before and comes to the same end. -/
theorem run_schedule {g : Graph} (hg : g.Runnable) (hblocks : 0 < g.blocks.size) (fuel : Nat)
    (memory : Array Byte) :
    ((meaning .linear).run (schedule g.blocks g.nodes) fuel memory).1
        = ((meaning .linear).run g fuel memory).1 ∧
      Outcome.Agrees (· = ·) id ((meaning .linear).run g fuel memory).2
        ((meaning .linear).run (schedule g.blocks g.nodes) fuel memory).2 := by
  refine runFrom_schedule hg hblocks ?_ ⟨rfl, fun _ _ => rfl⟩
  intro i c _ _ hne hdom
  -- nothing else than the first block dominates it
  exact absurd (List.mem_singleton.mp (hdom [0] .start)) hne

end Isel
