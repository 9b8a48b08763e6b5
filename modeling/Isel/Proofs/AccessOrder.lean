import Isel.Proofs.Linearization

/-! The order of accesses to memory. Accesses of a block that do not commute are written in the order in
which they were lowered. That is their order in the source, unless something earlier in the layout leads
to the later one of them. -/

namespace Isel

/-- What the target does for a load or a store. -/
def Operator.access? : Operator → Option Operator
  | load op => some (target (.load op.access))
  | store op => some (target (.store op.access))
  | _ => none

namespace Lowering

open Select Relation

variable {g : Graph} {config : Config} {l l' : Lowering} {b id : Nat} {n m : Node}

theorem Keeps.size_le (h : Keeps l l') : l.nodes.size ≤ l'.nodes.size := by
  by_contra hlt
  have hsome := h.nodes (Array.getElem?_eq_getElem (Nat.lt_of_not_le hlt))
  exact absurd (Array.getElem?_eq_some_iff.mp hsome).1 (Nat.lt_irrefl _)

theorem Elided.access?_eq_none (h : Elided g config id n) : n.op.access? = none := by
  rcases h with hop | hop | ⟨hop, -⟩ <;> rw [hop] <;> rfl

theorem absorbs_of_access {op : Operator} (hn : g.nodes[id]? = some ⟨b, n⟩)
    (hop : n.op.access? = some op) : absorbs g config id = false := by
  refine absorbs_eq_false (Graph.node?_eq_some.mpr ⟨b, hn⟩) fun w c hcompare => ?_
  rw [hcompare] at hop
  exact absurd hop (by simp [Operator.access?])

theorem Form.access {op : Operator} (h : Form g config l b id n m) (hop : n.op.access? = some op) :
    m.op = op := by
  cases h with
  | loaded hload =>
      rw [hload] at hop
      exact Option.some.inj hop
  | stored hstore =>
      rw [hstore] at hop
      exact Option.some.inj hop
  | copied hcopied =>
      cases hn : n.op with
      | load | store => rw [hn] at hcopied; exact absurd hcopied (by simp [Operator.copied?])
      | _ => rw [hn] at hop; exact absurd hop (by simp [Operator.access?])
  | compared hn | signed hn | fused hn | branched hn | branched32 hn =>
      rw [hn] at hop
      exact absurd hop (by simp [Operator.access?])

/-- The load of the target for a load. -/
theorem Form.of_load {op : Load} (h : Form g config l b id n m) (hop : n.op = .load op) :
    ∃ s a state address space checked control, n.inputs[0]? = some s ∧ n.inputs[1]? = some a ∧
      l.lowered.get? s = some state ∧ l.lowered.get? a = some address ∧
      Guards l b op.access.bytes state address space checked ∧
      m = ⟨.target (.load op.access), control, [], [state, space, checked]⟩ := by
  cases h with
  | loaded hop' _ hs ha hstate haddress hguards =>
      obtain rfl := Operator.load.inj (hop'.symm.trans hop)
      exact ⟨_, _, _, _, _, _, _, hs, ha, hstate, haddress, hguards, rfl⟩
  | copied hcopied =>
      rw [hop] at hcopied
      exact absurd hcopied (by simp [Operator.copied?])
  | stored hop' | compared hop' | signed hop' | fused hop' | branched hop' | branched32 hop' =>
      exact absurd (hop.symm.trans hop') (by simp)

/-- The store of the target for a store. -/
theorem Form.of_store {op : Store} (h : Form g config l b id n m) (hop : n.op = .store op) :
    ∃ s a v state address value space checked control, n.inputs[0]? = some s ∧
      n.inputs[1]? = some a ∧ n.inputs[2]? = some v ∧ l.lowered.get? s = some state ∧
      l.lowered.get? a = some address ∧ l.lowered.get? v = some value ∧
      Guards l b op.access.bytes state address space checked ∧
      m = ⟨.target (.store op.access), control, [], [state, space, checked, value]⟩ := by
  cases h with
  | stored hop' _ hs ha hv hstate haddress hvalue hguards =>
      obtain rfl := Operator.store.inj (hop'.symm.trans hop)
      exact ⟨_, _, _, _, _, _, _, _, _, hs, ha, hv, hstate, haddress, hvalue, hguards, rfl⟩
  | copied hcopied =>
      rw [hop] at hcopied
      exact absurd hcopied (by simp [Operator.copied?])
  | loaded hop' | compared hop' | signed hop' | fused hop' | branched hop' | branched32 hop' =>
      exact absurd (hop.symm.trans hop') (by simp)

/-- A node that is not elided does not stand for another node. -/
theorem Successor.form_of_kept {y y' : Nat} (h : Successor g config l y y')
    (hn : g.nodes[y]? = some ⟨b, n⟩) (hkept : ¬Elided g config y n) :
    ∃ l₁ m, Keeps l₁ l ∧ Form g config l₁ b y n m ∧ l.nodes[y']? = some ⟨b, m⟩ := by
  cases h with
  | stands hn' _ helided =>
      obtain ⟨rfl, rfl⟩ := Placed.mk.inj (Option.some.inj (hn'.symm.trans hn))
      exact absurd helided hkept
  | records hn' _ _ hkeeps hform hnew =>
      obtain ⟨rfl, rfl⟩ := Placed.mk.inj (Option.some.inj (hn'.symm.trans hn))
      exact ⟨_, _, hkeeps, hform, hnew⟩

/-- An access does not stand for another node. -/
theorem Successor.form {y y' : Nat} {op : Operator} (h : Successor g config l y y')
    (hn : g.nodes[y]? = some ⟨b, n⟩) (hop : n.op.access? = some op) :
    ∃ l₁ m, Keeps l₁ l ∧ Form g config l₁ b y n m ∧ l.nodes[y']? = some ⟨b, m⟩ :=
  h.form_of_kept hn fun helided => absurd (hop.symm.trans helided.access?_eq_none) (by simp)

/-- An access is lowered to the access of the target, in its block. -/
theorem Successor.access {y y' : Nat} {op : Operator} (h : Successor g config l y y')
    (hn : g.nodes[y]? = some ⟨b, n⟩) (hop : n.op.access? = some op) :
    ∃ m, l.nodes[y']? = some ⟨b, m⟩ ∧ m.op = op := by
  obtain ⟨l₁, m, -, hform, hnew⟩ := h.form hn hop
  exact ⟨m, hnew, hform.access hop⟩

/-- A node that is lowered later gets a later number, unless it stands for another. -/
theorem Steps.size_le_of_new {y y' : Nat} (h : Steps g config l l')
    (hn : g.nodes[y]? = some ⟨b, n⟩) (hkept : ¬Elided g config y n)
    (hnone : l.lowered.get? y = none) (hy : l'.lowered.get? y = some y') : l.nodes.size ≤ y' := by
  induction h with
  | refl => exact absurd (hnone.symm.trans hy) (by simp)
  | @tail l₁ l' hsteps hstep ih =>
      cases hstep with
      | tables _ hlowered => exact ih (hlowered ▸ hy)
      | aid _ _ _ hlowered => exact ih (hlowered ▸ hy)
      | record _ _ _ _ _ hlowered =>
          rw [hlowered, Table.get?_set] at hy
          split at hy
          · rw [← Option.some.inj hy]
            exact (Steps.keeps hsteps).size_le
          · exact ih hy
      | stand hn' _ _ hstands _ hlowered =>
          rw [hlowered, Table.get?_set] at hy
          split at hy
          · next heq =>
              obtain rfl := heq
              obtain ⟨-, rfl⟩ := Placed.mk.inj (Option.some.inj (hn'.symm.trans hn))
              obtain ⟨helided, -, -⟩ := hstands
              exact absurd helided hkept
          · exact ih hy

/-- Of two accesses the one is lowered first to which the layout comes before anything leads to the
other. -/
theorem lowered_lt {x y i j : Nat} {op : Operator} (hclosed : g.isClosed = true)
    (hlower : lowerAll g config {} = .ok ((), l)) (hx : x < g.nodes.size)
    (hfree : absorbs g config x = false) (hn : g.nodes[y]? = some ⟨b, n⟩)
    (hop : n.op.access? = some op)
    (hnone : ∀ z, z = x ∨ g.Precedes z x → ¬ReflTransGen g.Refers z y)
    (hi : l.lowered.get? x = some i) (hj : l.lowered.get? y = some j) : i < j := by
  have hmem : x ∈ g.layout := by
    rw [Graph.mem_layout, Graph.blockOf?, Array.getElem?_eq_getElem hx]
    exact ⟨_, rfl⟩
  obtain ⟨front, back, hlayout⟩ := List.append_of_mem hmem
  have hsplit : g.layout = (front ++ [x]) ++ back := by simp [hlayout]
  have hlt : ∀ z ∈ front ++ [x], z < g.nodes.size := fun z hz =>
    lt_of_mem_layout (hsplit ▸ List.mem_append_left back hz)
  rw [lowerAll_eq, hsplit, forM_append_ok] at hlower
  obtain ⟨l₁, hfront, hback⟩ := hlower
  obtain ⟨hreaches, hall⟩ := (forM_meets config hclosed hlt settled_empty).of_ok hfront
  obtain ⟨hreaches', -⟩ := (forM_meets config hclosed
    (fun z hz => lt_of_mem_layout (hsplit ▸ List.mem_append_right _ hz)) hreaches.settled).of_ok hback
  obtain ⟨i', hi'⟩ := hall x (by simp) hfree
  obtain rfl := Option.some.inj ((hreaches'.lowered hi').symm.trans hi)
  have hynone : l₁.lowered.get? y = none := by
    by_contra hsome
    obtain ⟨z, hz, hchain⟩ := hreaches.new y rfl hsome
    refine hnone z ?_ (ReflTransGen.mono (fun _ _ => Graph.Follows.refers) z y hchain)
    rcases List.mem_append.mp hz with hz | hz
    · exact .inr (Schedule.Before.idxOf_lt g.layout_nodup ⟨front, back, hlayout, hz⟩)
    · exact .inl (List.mem_singleton.mp hz)
  have hkept : ¬Elided g config y n := fun helided =>
    absurd (hop.symm.trans helided.access?_eq_none) (by simp)
  calc i' < l₁.nodes.size := (hreaches.steps.successor hi').lt
    _ ≤ j := hreaches'.steps.size_le_of_new hn hkept hynone hj

end Lowering

open Schedule in
/-- Accesses of a block that do not commute keep their order, if nothing that the layout comes to
before or with the first one leads to the second one. -/
theorem select_keeps_access_order {g g' : Graph} {config : Config} {stats : Stats} {a b c : Nat}
    {n m : Node} {x y : Operator} (hclosed : g.isClosed = true) (hacyclic : g.Acyclic)
    (hselect : select g config = .ok (g', stats)) (ha : g.nodes[a]? = some ⟨c, n⟩)
    (hb : g.nodes[b]? = some ⟨c, m⟩) (hx : n.op.access? = some x) (hy : m.op.access? = some y)
    (hconflicts : x.conflicts y = true)
    (hfree : ∀ i, i = a ∨ g.Precedes i a → ¬Relation.ReflTransGen g.Refers i b) :
    ∃ l a' b', Select.lowerAll g config {} = .ok ((), l) ∧ l.lowered.get? a = some a' ∧
      l.lowered.get? b = some b' ∧
      ((g'.op? (place g.blocks l.nodes a') = some x ∧
        g'.blockOf? (place g.blocks l.nodes a') = some c) ∧
      g'.op? (place g.blocks l.nodes b') = some y ∧
        g'.blockOf? (place g.blocks l.nodes b') = some c) ∧
      place g.blocks l.nodes a' < place g.blocks l.nodes b' := by
  obtain ⟨l, hlower, rfl⟩ := select_ok hselect
  obtain ⟨hsteps, hall⟩ := (Lowering.lowerAll_meets config hclosed hacyclic).of_ok hlower
  have hground := hsteps.grounded
  have hhoused := hsteps.housed
  have hlt {i : Nat} {p : Placed} (hp : g.nodes[i]? = some p) : i < g.nodes.size :=
    (Array.getElem?_eq_some_iff.mp hp).1
  have hafree : Select.absorbs g config a = false := Lowering.absorbs_of_access ha hx
  obtain ⟨a', ha'⟩ := hall a (hlt ha) hafree
  obtain ⟨b', hb'⟩ := hall b (hlt hb) (Lowering.absorbs_of_access hb hy)
  obtain ⟨p, hp, rfl⟩ := (hsteps.successor ha').access ha hx
  obtain ⟨q, hq, rfl⟩ := (hsteps.successor hb').access hb hy
  have horder : a' < b' :=
    Lowering.lowered_lt hclosed hlower (hlt ha) hafree hb hy hfree ha' hb'
  have hfound {i : Nat} {k : Node} (hi : l.nodes[i]? = some ⟨c, k⟩) :
      (schedule g.blocks l.nodes).op? (place g.blocks l.nodes i) = some k.op ∧
      (schedule g.blocks l.nodes).blockOf? (place g.blocks l.nodes i) = some c := by
    rw [Graph.op?, Graph.node?, Graph.blockOf?, schedule_node hground hhoused hi]
    exact ⟨rfl, rfl⟩
  have hmem : b' ∈ blockOrder l.nodes c :=
    (mem_blockOrder hground).mpr (blockOf?_eq_some.mpr ⟨q, hq⟩)
  refine ⟨l, a', b', hlower, ha', hb', ⟨hfound hp, hfound hq⟩, ?_⟩
  exact place_lt_of_before hground hhoused (hhoused b' _ hq)
    ((blockOrder_settled hground c).before_of_conflicts hp hq horder hconflicts hmem)

/-- In a loop that counts down, the number is read before it is written. -/
theorem select_keeps_access_order_countdown :
    ∃ g' stats, select countdown {} = .ok (g', stats) ∧ ∃ i j, i < j ∧
      (g'.op? i = some (.target (.load (.word .w32))) ∧ g'.blockOf? i = some 1) ∧
      g'.op? j = some (.target (.store (.int .s32))) ∧ g'.blockOf? j = some 1 := by
  have hok : (select countdown {}).toOption.isSome = true := by decide +kernel
  cases hselect : select countdown {} with
  | error e =>
      rw [hselect] at hok
      exact absurd hok (by simp [Except.toOption])
  | ok r =>
      have hunused : ∀ i < countdown.nodes.size, ∀ n ∈ countdown.node? i, 6 ∉ n.references := by
        decide
      have hfree : ∀ i, i = 4 ∨ countdown.Precedes i 4 →
          ¬Relation.ReflTransGen countdown.Refers i 6 := by
        intro i hi hchain
        rcases Relation.ReflTransGen.cases_tail hchain with rfl | ⟨j, -, n, hn, hmem⟩
        · exact absurd hi (by decide)
        · exact Graph.forall_node?.mp hunused j n hn hmem
      obtain ⟨l, a', b', -, -, -, hfound, hlt⟩ := select_keeps_access_order (by decide +kernel)
        (Graph.acyclic_of_rank id (by decide)) hselect (show countdown.nodes[4]? = some ⟨1, _⟩ from rfl)
        (show countdown.nodes[6]? = some ⟨1, _⟩ from rfl) rfl rfl rfl hfree
      exact ⟨r.1, r.2, rfl, _, _, hlt, hfound⟩

/-- The second block is laid out before the third, but comes after it and returns what it loads. -/
def crossing : Graph :=
  .ofParts #[⟨"b0", [2]⟩, ⟨"b1", []⟩, ⟨"b2", [1]⟩]
    #[⟨0, .state, [], [], []⟩, ⟨0, .const .i64, [], [.int 0], []⟩, ⟨0, .const .i64, [], [.int 7], []⟩,
      ⟨0, .jump, [.block 0], [], []⟩, ⟨1, .typedRet .i64, [.block 1], [], [6]⟩,
      ⟨2, .store (.full .i64), [], [], [0, 1, 2]⟩, ⟨2, .load (.full .i64), [], [], [0, 1]⟩,
      ⟨2, .jump, [.block 2], [], []⟩]

/-- Where something earlier in the layout leads to an access, the access can change places with a store
before it: the load of the third block is lowered for the return, and then comes first. -/
theorem select_swaps_crossing : crossing.flaw? = none ∧ crossing.Acyclic ∧
    (crossing.members 2).filterMap crossing.op?
      = [.store (.full .i64), .load (.full .i64), .jump] ∧
    ∃ g' stats, select crossing {} = .ok (g', stats) ∧
      (g'.members 2).filterMap g'.op? = [.target .memorySpace, .target .memorySize,
        .target .boundsCheck, .target (.load (.word .w64)), .target (.store (.int .s64)), .jump] := by
  refine ⟨by decide, Graph.acyclic_of_rank (fun id => if id = 4 then 7 else id) (by decide),
    by decide, ?_⟩
  have hops : (select crossing {}).toOption.map (fun r => (r.1.members 2).filterMap r.1.op?)
      = some [.target .memorySpace, .target .memorySize, .target .boundsCheck,
        .target (.load (.word .w64)), .target (.store (.int .s64)), .jump] := by
    decide +kernel
  cases hselect : select crossing {} with
  | error e =>
      rw [hselect] at hops
      exact absurd hops (by simp [Except.toOption])
  | ok r =>
      rw [hselect] at hops
      exact ⟨r.1, r.2, rfl, Option.some.inj hops⟩

end Isel
