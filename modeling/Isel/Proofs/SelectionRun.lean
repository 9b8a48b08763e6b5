import Isel.Proofs.Availability
import Isel.Proofs.LayoutLowering
import Isel.Selection
import Mathlib.Data.List.Sort

/-! Selection preserves what a program does. While the old and the new graph run side by side, each
value that is still needed has its word at the node that stands for it. A compare that a branch takes
over has none, but the branch finds the operands of the compare unchanged. -/

namespace Isel

namespace Lowering

open Select

variable {g : Graph} {config : Config} {last l l₁ l' : Lowering} {b c id new y : Nat} {n m : Node}
  {done ids rest back bs : List Nat} {node? : Nat → Option Node} {e e' : Env Value} {f f' : Env Word}

/-- The same values on both sides, for all that is available. -/
structure Matches (g : Graph) (config : Config) (last : Lowering) (b : Nat) (done : List Nat)
    (e : Env Value) (f : Env Word) : Prop where
  values : ∀ y k, g.kindOf? y = some k → g.Available b done y →
    ∃ x, e.values y = some x ∧ x.kind = k ∧ Reads last f y x
  absorbed : ∀ y p, g.node? y = some p → absorbs g config y = true → g.Available b done y →
    ∃ ys x, e.operands p = .ok ys ∧ Values.pure? p ys = some x ∧ e.values y = some x

/-- The layout comes to a node: the states before and after it is lowered, on the way to the last
one. -/
structure Turn (g : Graph) (config : Config) (last : Lowering) (b : Nat) (done : List Nat) (id : Nat)
    (n : Node) (l l' : Lowering) : Prop where
  members : ∃ rest, g.members b = done ++ id :: rest
  node : g.nodes[id]? = some ⟨b, n⟩
  progress : Progress g config ((List.range b).flatMap g.members ++ done) l
  next : lowerNext g config id l = .ok ((), l')
  advances : Advances g [id] l l'
  later : ∃ ids, Advances g ids l' last
  finished : Progress g config g.layout last

/-- What stands for an available value was not made just now. -/
theorem Turn.notMem_segment (h : Turn g config last b done id n l l') (hwalk : g.Walk bs b) {k : Kind}
    (hk : g.kindOf? y = some k) (hy : g.Available b done y) {y' : Nat}
    (hy' : last.lowered.get? y = some y') : y' ∉ segment l l' := by
  have hfree := (h.finished.lowered y y' hy').2
  obtain ⟨ids, hlater⟩ := h.later
  intro hmem
  obtain ⟨hle, hlt⟩ := mem_segment.mp hmem
  rcases hy with hy | ⟨c, hc, hne, hdom⟩
  · obtain ⟨z, hz⟩ := h.progress.complete y (List.mem_append_right _ hy) hfree
    have hz' := hlater.lowered y z (h.advances.lowered y z hz)
    obtain rfl := Option.some.inj (hz'.symm.trans hy')
    have hbound := (h.progress.sound.lowered y z hz).1
    omega
  · obtain ⟨d, p, hp, -, -, hdc⟩ := (h.finished.sound.lowered y y' hy').2 k c hk hc
    have hsome := Array.getElem?_eq_getElem hlt
    have hplaced := Option.some.inj (hp.symm.trans (hlater.nodes y' _ hsome))
    obtain ⟨z, hz, q, hq, -⟩ := h.advances.block y' _ hsome hle
    obtain rfl := List.mem_singleton.mp hz
    rw [h.node, ← hplaced, Option.some.injEq, Placed.mk.injEq] at hq
    obtain rfl := hq.1
    exact hne (hdom.antisymm hdc hwalk)

/-- Running what is made at a turn keeps the values that were there. -/
theorem Matches.frame (h : Matches g config last b done e f)
    (hturn : Turn g config last b done id n l l') (hwalk : g.Walk bs b)
    (hvalues : ∀ i, i ∉ segment l l' → f'.values i = f.values i) :
    Matches g config last b done e f' where
  values y k hk hy := by
    obtain ⟨x, hx, hkind, hreads⟩ := h.values y k hk hy
    refine ⟨x, hx, hkind, fun y' hy' => ?_⟩
    rw [hvalues y' (hturn.notMem_segment hwalk hk hy hy')]
    exact hreads y' hy'
  absorbed := h.absorbed

/-- A node is available from its turn on. -/
theorem Turn.not_available (h : Turn g config last b done id n l l') : ¬ g.Available b done id := by
  obtain ⟨rest, hmembers⟩ := h.members
  exact Graph.not_available_next hmembers h.node

/-- The next node gets its value on the old side, after what stands for it got its word. -/
theorem Matches.set (h : Matches g config last b done e f)
    (hturn : Turn g config last b done id n l l') (hscoped : g.Scoped) (hwalk : g.Walk bs b)
    {v : Option Value} (hkind : v.map Value.kind = n.op.kind?)
    (hvalue : ∀ x, v = some x → Reads last f id x)
    (habsorbed : absorbs g config id = true →
      ∃ ys x, e.operands n = .ok ys ∧ Values.pure? n ys = some x ∧ v = some x)
    (memory : Array Byte) : Matches g config last b (done ++ [id]) (e.set id v memory) f := by
  have hold {y : Nat} (hy : g.Available b done y) :
      (e.set id v memory).values y = e.values y :=
    Env.set_values_of_ne e (fun heq : y = id => hturn.not_available (heq ▸ hy)) v memory
  have hnode : g.node? id = some n := Graph.node?_eq_some.mpr ⟨b, hturn.node⟩
  obtain ⟨rest, hmembers⟩ := hturn.members
  refine ⟨fun y k hk hy => ?_, fun y p hp hfused hy => ?_⟩
  · rcases hy.of_append with hy | rfl
    · rw [hold hy]
      exact h.values y k hk hy
    · rw [Graph.kindOf?, hnode, Option.bind_some, ← hkind, Option.map_eq_some_iff] at hk
      obtain ⟨x, hx, hxk⟩ := hk
      exact ⟨x, by rw [Env.set_values_self, hx], hxk, hvalue x hx⟩
  · rcases hy.of_append with hy | rfl
    · have hnot : id ∉ p.inputs := fun hmem => hturn.not_available
        (hy.reference hscoped hwalk hmembers hp (List.mem_append_left _ hmem))
      rw [Env.operands_set_of_notMem hnot, hold hy]
      exact h.absorbed y p hp hfused hy
    · obtain rfl := Option.some.inj (hnode.symm.trans hp)
      have hnot : y ∉ n.inputs := fun hmem => hturn.not_available
        (Graph.available_of_reference hscoped hmembers hturn.node (List.mem_append_left _ hmem))
      rw [Env.operands_set_of_notMem hnot, Env.set_values_self]
      exact habsorbed hfused

/-- The values of available nodes of given kinds. -/
theorem Matches.operands (h : Matches g config last b done e f) {vs : List Nat} {ks : List Kind}
    (hkinds : List.Forall₂ (fun v k => g.kindOf? v = some k) vs ks)
    (havailable : ∀ v ∈ vs, g.Available b done v) :
    ∃ xs, List.Forall₂ (fun v x => e.values v = some x) vs xs ∧
      List.Forall₂ (fun (x : Value) k => x.kind = k) xs ks ∧ List.Forall₂ (Reads last f) vs xs := by
  induction hkinds with
  | nil => exact ⟨[], .nil, .nil, .nil⟩
  | @cons v k vs ks hk _ ih =>
      obtain ⟨x, hx, hkind, hreads⟩ := h.values v k hk (havailable v List.mem_cons_self)
      obtain ⟨xs, hxs, hkinds, hreadss⟩ := ih fun w hw => havailable w (List.mem_cons_of_mem v hw)
      exact ⟨x :: xs, .cons hx hxs, .cons hkind hkinds, .cons hreads hreadss⟩

/-- At its turn a node finds operands of the kinds that it takes. -/
theorem Turn.operands (hturn : Turn g config last b done id n l l') (hg : g.IntegerProgram)
    (h : Matches g config last b done e f) :
    ∃ ks xs, List.Forall₂ (fun v k => g.kindOf? v = some k) n.inputs ks ∧ n.op.accepts ks ∧
      e.operands n = .ok xs ∧ List.Forall₂ (fun (x : Value) k => x.kind = k) xs ks ∧
      List.Forall₂ (Reads l f) n.inputs xs := by
  obtain ⟨rest, hmembers⟩ := hturn.members
  obtain ⟨ids, hlater⟩ := hturn.later
  obtain ⟨⟨ks, hkinds, haccepts⟩, -⟩ := hg.typed id n (Graph.node?_eq_some.mpr ⟨b, hturn.node⟩)
  obtain ⟨xs, hxs, hxk, hreads⟩ := h.operands hkinds fun v hv =>
    Graph.available_of_reference hg.inScope hmembers hturn.node (List.mem_append_left _ hv)
  refine ⟨ks, xs, hkinds, haccepts, Env.operands_eq_ok.mpr hxs, hxk, hreads.imp ?_⟩
  exact fun v x hread v' hv' => hread v' (hlater.lowered v v' (hturn.advances.lowered v v' hv'))

/-- Both sides go on, and what they have come to is in relation, or both trap. -/
inductive Ends {α β : Type} (R : α → β → Prop) : Except Halt α → Except Halt β → Prop
  | ok {a : α} {b : β} (h : R a b) : Ends R (.ok a) (.ok b)
  | trapped {t u : Trap} {memory₁ memory₂ : Array Byte} :
      Ends R (.error (.trapped t memory₁)) (.error (.trapped u memory₂))

/-- A compare of numbers of one width has a value. -/
theorem compare_value {w : IntWidth} {c : Comparison} {xs : List Value} (hop : n.op = .compare w c)
    (hkinds : List.Forall₂ (fun (x : Value) k => x.kind = k) xs
      [.number (.int w), .number (.int w)]) :
    ∃ x, Values.pure? n xs = some x ∧ x.kind = .number (.int w) ∧
      ∀ memory, Values.compute n xs memory = .ok (some x, memory) := by
  obtain ⟨x, y, rfl⟩ := List.length_eq_two.mp hkinds.length_eq
  simp only [List.forall₂_cons, List.Forall₂.nil, and_true] at hkinds
  obtain ⟨u, rfl⟩ := Value.kind_eq_number.mp hkinds.1
  obtain ⟨v, rfl⟩ := Value.kind_eq_number.mp hkinds.2
  have hpure : Values.pure? n [.int w u, .int w v] = some (Values.ofBool w (c.holds u v)) := by
    simp only [Values.pure?, hop, Value.int?_int]
    rfl
  refine ⟨_, hpure, Value.kind_int _, fun memory => ?_⟩
  simp only [Values.compute, Values.value, hop, hpure, orStuck]
  rfl

/-- At its turn a node gets its value, and what is made for it then follows. -/
theorem Turn.node_ends (hturn : Turn g config last b done id n l l') (hg : g.IntegerProgram)
    (hbools : config.eliminateReturnBools = false) (hwalk : g.Walk bs b)
    (hplain : n.op.isTerminator = false) (hshows : Shows node? last)
    (h : Matches g config last b done e f) (hmemory : f.memory = e.memory)
    (hm : Addressable f.memory) (hcurrent : Current b l f) :
    Ends (fun e' f' => Matches g config last b (done ++ [id]) e' f' ∧ f'.memory = e'.memory ∧
      Current b l' f') (Values.meaning.execNode e id n) (runs node? l l' f) := by
  obtain ⟨rest, hmembers⟩ := hturn.members
  obtain ⟨ids, hlater⟩ := hturn.later
  obtain ⟨ks, xs, hkindsOf, haccepts, hoperands, hkinds, hreads⟩ := hturn.operands hg h
  have hnode : g.node? id = some n := Graph.node?_eq_some.mpr ⟨b, hturn.node⟩
  obtain ⟨after, hlayout⟩ := Graph.layout_split (Graph.blockOf?_lt
    (Graph.blockOf?_eq_some.mpr ⟨n, hturn.node⟩))
  rw [hmembers, List.append_assoc, ← List.append_assoc] at hlayout
  have hsound := hturn.progress.sound
  rw [Meaning.execNode_of_operands hoperands]
  change Ends _ ((Values.compute n xs e.memory).map _) _
  rcases hturn.progress.lowerNext_cases hg hbools hlayout hturn.node hturn.next with
    ⟨habsorbs, rfl⟩ | ⟨habsorbs, new, l₁, hcases, rfl⟩
  · -- a compare that is taken over gets its value on the old side only
    obtain ⟨w, c, hop⟩ := Graph.op_of_isFusable (isFusable_of_absorbs habsorbs)
    rw [Graph.op?, hnode] at hop
    replace hop : n.op = .compare w c := Option.some.inj hop
    rw [hop] at haccepts
    obtain ⟨x, hpure, hkind, hcompute⟩ := compare_value hop (haccepts ▸ hkinds)
    rw [hcompute, runs_of_size_eq rfl]
    refine .ok ⟨h.set hturn hg.inScope hwalk ?_ ?_ ?_ _, hmemory, hcurrent⟩
    · rw [hop]
      exact congrArg some hkind
    · intro y hy id' hid'
      have hfree := (hturn.finished.lowered id id' hid').2
      exact absurd (habsorbs.symm.trans hfree) (by simp)
    · exact fun _ => ⟨xs, x, hoperands, hpure, rfl⟩
  · have hnew : last.lowered.get? id = some new := hlater.lowered id new (Table.get?_set_self ..)
    have hshows₁ : Shows node? l₁ := fun i p hp => hshows i p (hlater.nodes i p hp)
    have htracks : Tracks b l₁ new n.op.kind? (Values.compute n xs f.memory) (runs node? l l₁ f) := by
      rcases hcases with hreplaced | ⟨l₂, m, s, hmade, rfl, rfl⟩
      · exact hreplaced.tracks hcurrent hkinds haccepts hreads
      · exact hmade.tracks hplain hm hcurrent hsound
          (Graph.blockOf?_lt (Graph.blockOf?_eq_some.mpr ⟨n, hturn.node⟩)) (hg.integer id n hnode)
          (fun v hv v' hv' => hsound.usable_input hg hturn.node hv hv') hkinds haccepts
          (hg.typed id n hnode).2 hreads hshows₁
    rw [hmemory] at htracks
    change Ends _ _ (runs node? l l₁ f)
    generalize hcompute : Values.compute n xs e.memory = r at htracks
    generalize hruns : runs node? l l₁ f = r' at htracks
    cases htracks with
    | trapped => exact .trapped
    | @ok v memory f' hmemory' hcurrent' hkind hvalue =>
        have hframe : Matches g config last b done e f' := h.frame hturn hwalk fun i hi =>
          Meaning.values_of_execBody hruns hi
        refine .ok ⟨hframe.set hturn hg.inScope hwalk hkind ?_ ?_ _, hmemory', ?_⟩
        · intro x hx id' hid'
          obtain rfl := Option.some.inj (hnew.symm.trans hid')
          exact hvalue x hx
        · exact fun hfused => absurd (habsorbs.symm.trans hfused) (by simp)
        · exact hcurrent'.of_tables rfl rfl

theorem Ends.bind {α β α' β' : Type} {R : α → β → Prop} {S : α' → β' → Prop} {x : Except Halt α}
    {y : Except Halt β} {k : α → Except Halt α'} {k' : β → Except Halt β'} (h : Ends R x y)
    (hk : ∀ a b, R a b → y = .ok b → Ends S (k a) (k' b)) : Ends S (x >>= k) (y >>= k') := by
  cases h with
  | ok hab => exact hk _ _ hab rfl
  | trapped => exact .trapped

/-- The computations of a block, from any of them on. -/
theorem body_ends (hg : g.IntegerProgram) (hbools : config.eliminateReturnBools = false)
    (hwalk : g.Walk bs b) (hmembers : g.members b = done ++ (ids ++ rest))
    (hbody : ∀ i ∈ ids, ∃ m, g.nodes[i]? = some ⟨b, m⟩ ∧ m.op.isTerminator = false)
    (hprogress : Progress g config ((List.range b).flatMap g.members ++ done) l)
    (hrun : ids.forM (lowerNext g config) l = .ok ((), l')) (hlater : Advances g back l' last)
    (hfinished : Progress g config g.layout last) (hshows : Shows node? last)
    (h : Matches g config last b done e f) (hmemory : f.memory = e.memory)
    (hm : Addressable f.memory) (hcurrent : Current b l f) :
    Ends (fun e' f' => Matches g config last b (done ++ ids) e' f' ∧ f'.memory = e'.memory ∧
      Current b l' f') (Values.meaning.execBody g.node? ids e) (runs node? l l' f) := by
  induction ids generalizing done l e f with
  | nil =>
      obtain ⟨-, rfl⟩ := Prod.mk.inj (pure_ok.mp hrun)
      rw [runs_of_size_eq rfl, List.append_nil]
      exact .ok ⟨h, hmemory, hcurrent⟩
  | cons id ids ih =>
      obtain ⟨l₁, hnext, hrest⟩ := forM_cons_ok.mp hrun
      obtain ⟨n, hn, hplain⟩ := hbody id List.mem_cons_self
      obtain ⟨after, hlayout⟩ := Graph.layout_split (Graph.blockOf?_lt
        (Graph.blockOf?_eq_some.mpr ⟨n, hn⟩))
      have hsplit : g.layout = ((List.range b).flatMap g.members ++ done)
          ++ id :: (ids ++ (rest ++ after)) := by
        rw [hlayout, hmembers]
        simp
      obtain ⟨hprogress₁, hadvances₁⟩ := hprogress.next hg hbools hsplit hnext
      have hsplit₁ : g.layout = (((List.range b).flatMap g.members ++ done) ++ [id])
          ++ (ids ++ (rest ++ after)) := by
        rw [hsplit]
        simp
      obtain ⟨-, hadvances⟩ := hprogress₁.forM hg hbools hsplit₁ hrest
      have hturn : Turn g config last b done id n l l₁ :=
        ⟨⟨ids ++ rest, hmembers⟩, hn, hprogress, hnext, hadvances₁, ⟨_, hadvances.trans hlater⟩,
          hfinished⟩
      rw [runs_trans hadvances₁.size hadvances.size, Meaning.execBody,
        Graph.node?_eq_some.mpr ⟨b, hn⟩]
      change Ends _ (Values.meaning.execNode e id n >>= _) _
      refine (hturn.node_ends hg hbools hwalk hplain hshows h hmemory hm hcurrent).bind ?_
      rintro e₁ f₁ ⟨h₁, hmemory₁, hcurrent₁⟩ hruns
      have hsize : f₁.memory.size = f.memory.size := size_of_execBody hruns
      have happend : done ++ id :: ids = (done ++ [id]) ++ ids := by simp
      rw [happend]
      refine ih ?_ (fun i hi => hbody i (List.mem_cons_of_mem id hi)) ?_ hrest h₁ hmemory₁ ?_ hcurrent₁
      · rw [hmembers]
        simp
      · rw [← List.append_assoc]
        exact hprogress₁
      · rw [Addressable, hsize]
        exact hm

/-- A terminator is recorded behind the nodes that it needs. -/
theorem Turn.made (hturn : Turn g config last b done id n l l') (hg : g.IntegerProgram)
    (hbools : config.eliminateReturnBools = false) (hterm : n.op.isTerminator = true) :
    ∃ l₁ m, Made g config l b n l₁ m ∧ l'.nodes = l₁.nodes.push ⟨b, m⟩ := by
  obtain ⟨rest, hmembers⟩ := hturn.members
  obtain ⟨after, hlayout⟩ := Graph.layout_split (Graph.blockOf?_lt
    (Graph.blockOf?_eq_some.mpr ⟨n, hturn.node⟩))
  rw [hmembers, List.append_assoc, ← List.append_assoc] at hlayout
  rcases hturn.progress.lowerNext_cases hg hbools hlayout hturn.node hturn.next with
    ⟨habsorbs, rfl⟩ | ⟨-, new, l₁, hreplaced | ⟨l₂, m, s, hmade, rfl, rfl⟩, rfl⟩
  · obtain ⟨w, c, hop⟩ := Graph.op_of_isFusable (isFusable_of_absorbs habsorbs)
    rw [Graph.op?, Graph.node?_eq_some.mpr ⟨b, hturn.node⟩] at hop
    rw [show n.op = .compare w c from Option.some.inj hop] at hterm
    exact absurd hterm (by simp [Operator.isTerminator])
  · obtain ⟨hop | hop, -⟩ := hreplaced
    all_goals
      rw [hop] at hterm
      exact absurd hterm (by simp [Operator.isTerminator])
  · exact ⟨l₂, m, hmade, rfl⟩

/-- A branch finds the operands of the compare that it takes over, and the compare is its only
input. -/
theorem Turn.compared (hturn : Turn g config last b done id n l l') (hg : g.IntegerProgram)
    (hwalk : g.Walk bs b) (h : Matches g config last b done e f) {xs : List Value}
    (hoperands : e.operands n = .ok xs) {v : Nat} {p : Node} (hv : v ∈ n.inputs)
    (habsorbs : absorbs g config v = true) (hp : g.node? v = some p) :
    ∃ ks ys x, List.Forall₂ (fun (x : Value) k => x.kind = k) ys ks ∧ p.op.accepts ks ∧
      List.Forall₂ (Reads l f) p.inputs ys ∧ Values.pure? p ys = some x ∧ xs = [x] := by
  obtain ⟨rest, hmembers⟩ := hturn.members
  obtain ⟨ids, hlater⟩ := hturn.later
  have hnode : g.node? id = some n := Graph.node?_eq_some.mpr ⟨b, hturn.node⟩
  have havailable := Graph.available_of_reference hg.inScope hmembers hturn.node
    (List.mem_append_left _ hv)
  obtain ⟨ys, x, hys, hpure, hx⟩ := h.absorbed v p hp habsorbs havailable
  obtain ⟨⟨ks, hkinds, haccepts⟩, -⟩ := hg.typed v p hp
  obtain ⟨zs, hzs, hzk, hreads⟩ := h.operands hkinds fun r hr =>
    havailable.reference hg.inScope hwalk hmembers hp (List.mem_append_left _ hr)
  obtain rfl := Except.ok.inj (hys.symm.trans (Env.operands_eq_ok.mpr hzs))
  refine ⟨ks, ys, x, hzk, haccepts, hreads.imp fun r z hread r' hr' =>
    hread r' (hlater.lowered r r' (hturn.advances.lowered r r' hr')), hpure, ?_⟩
  obtain ⟨i, hi⟩ := List.mem_iff_getElem?.mp hv
  have huse := (Graph.use_of_isFusable (isFusable_of_absorbs habsorbs)
    (Graph.mem_usesOf_of_input hnode hi)).2
  rw [Graph.op?, hnode] at huse
  obtain ⟨⟨ks', hkinds', haccepts'⟩, -⟩ := hg.typed id n hnode
  rw [show n.op = .branch from Option.some.inj huse] at haccepts'
  obtain ⟨w, rfl⟩ := haccepts'
  obtain ⟨v', hinputs⟩ := List.length_eq_one_iff.mp hkinds'.length_eq
  rw [hinputs, List.mem_singleton] at hv
  have hvalues := Env.operands_eq_ok.mp hoperands
  rw [hinputs, ← hv] at hvalues
  obtain ⟨x', xs', hx', hxs', rfl⟩ := List.forall₂_cons_left_iff.mp hvalues
  obtain rfl := List.forall₂_nil_left_iff.mp hxs'
  rw [Option.some.inj (hx'.symm.trans hx)]

/-- The terminator of a block leads both sides to the same. -/
theorem Turn.exits (hturn : Turn g config last b done id n l l') (hg : g.IntegerProgram)
    (hwalk : g.Walk bs b) (hterm : n.op.isTerminator = true) (hmade : Made g config l b n l₁ m)
    (hnodes : l'.nodes = l₁.nodes.push ⟨b, m⟩) (hshows : Shows node? last)
    (h : Matches g config last b done e f) (hcurrent : Current b l f) :
    ∃ f₁ xs ws out out', runs node? l l₁ f = .ok f₁ ∧ f₁.memory = f.memory ∧
      Matches g config last b done e f₁ ∧ e.operands n = .ok xs ∧ f₁.operands m = .ok ws ∧
      Values.exit n xs = .ok out ∧ Words.exit m ws = .ok out' ∧ SameExit out out' := by
  obtain ⟨ids, hlater⟩ := hturn.later
  obtain ⟨ks, xs, hkindsOf, haccepts, hoperands, hkinds, hreads⟩ := hturn.operands hg h
  have hsound := hturn.progress.sound
  have hshows₁ : Shows node? l₁ := fun i p hp =>
    hshows i p (hlater.nodes i p (hnodes ▸ getElem?_push_of_some hp))
  obtain ⟨f₁, ws, out, out', hruns, hmemory, hws, hout, hout', hsame⟩ := hmade.exits hterm hcurrent
    hsound
    (fun v hv habsorbs p hp =>
      ⟨fun x hx x' hx' => hsound.usable_compared hg hturn.node hv hp hx hx',
        hturn.compared hg hwalk h hoperands hv habsorbs hp⟩)
    hkindsOf hkinds haccepts hreads hshows₁
  refine ⟨f₁, xs, ws, out, out', hruns, hmemory, h.frame hturn hwalk fun i hi => ?_, hoperands,
    hws, hout, hout', hsame⟩
  refine Meaning.values_of_execBody hruns fun hmem => hi ?_
  have hsize : l'.nodes.size = l₁.nodes.size + 1 := by rw [hnodes, Array.size_push]
  rw [mem_segment] at hmem ⊢
  omega

/-! ### Blocks -/

/-- The lowering of a block: its computations, and then its terminator `n`, which is recorded as `m`
behind the nodes that it needs. -/
structure Stages (g : Graph) (config : Config) (last : Lowering) (b : Nat) (body : List Nat) (id : Nat)
    (n m : Node) (l l₁ l₂ l' : Lowering) : Prop where
  members : g.members b = body ++ [id]
  computations : ∀ i ∈ body, ∃ m, g.nodes[i]? = some ⟨b, m⟩ ∧ m.op.isTerminator = false
  terminator : n.op.isTerminator = true
  before : Advances g ((List.range b).flatMap g.members) {} l
  progress : Progress g config ((List.range b).flatMap g.members) l
  run : body.forM (lowerNext g config) l = .ok ((), l₁)
  advances : Advances g body l l₁
  turn : Turn g config last b body id n l₁ l'
  made : Made g config l₁ b n l₂ m
  nodes : l'.nodes = l₂.nodes.push ⟨b, m⟩
  after : ∃ ids, Advances g ids l' last ∧ ∀ y ∈ ids, g.blockOf? y ≠ some b

theorem exists_stages (hg : g.IntegerProgram) (hbools : config.eliminateReturnBools = false)
    (hrun : lowerAll g config {} = .ok ((), last)) (hb : b < g.blocks.size) :
    ∃ body id n m l l₁ l₂ l', Stages g config last b body id n m l l₁ l₂ l' := by
  obtain ⟨body, id, n, hmembers, hn, hterm, hbody⟩ :=
    Graph.members_eq_append hg.flawless hg.terminated hb
  obtain ⟨after, hlayout⟩ := Graph.layout_split hb
  have hall : g.layout = [] ++ (g.layout ++ []) := by simp
  obtain ⟨hfinished, -⟩ := (progress_empty g config).forM hg hbools hall hrun
  rw [lowerAll_eq, hlayout, forM_append_ok] at hrun
  obtain ⟨l, hbefore, hrun⟩ := hrun
  rw [hmembers, List.append_assoc, forM_append_ok] at hrun
  obtain ⟨l₁, hforM, hrun⟩ := hrun
  obtain ⟨l', hnext, hafter⟩ := forM_cons_ok.mp hrun
  obtain ⟨h₀, hadvances₀⟩ := (progress_empty g config).forM hg hbools hlayout hbefore
  have hlayout₁ : g.layout = (List.range b).flatMap g.members ++ (body ++ (id :: after)) := by
    rw [hlayout, hmembers]
    simp
  obtain ⟨h₁, hadvances₁⟩ := h₀.forM hg hbools hlayout₁ hforM
  have hlayout₂ : g.layout = ((List.range b).flatMap g.members ++ body) ++ id :: after := by
    rw [hlayout₁]
    simp
  obtain ⟨h₂, hadvances₂⟩ := h₁.next hg hbools hlayout₂ hnext
  have hlayout₃ : g.layout = (((List.range b).flatMap g.members ++ body) ++ [id]) ++ (after ++ []) := by
    rw [hlayout₂]
    simp
  obtain ⟨-, hadvances₃⟩ := h₂.forM hg hbools hlayout₃ hafter
  have hturn : Turn g config last b body id n l₁ l' :=
    ⟨⟨[], hmembers⟩, hn, h₁, hnext, hadvances₂, ⟨after, hadvances₃⟩, hfinished⟩
  obtain ⟨l₂, m, hmade, hnodes⟩ := hturn.made hg hbools hterm
  refine ⟨body, id, n, m, l, l₁, l₂, l', hmembers, hbody, hterm, hadvances₀, h₀, hforM, hadvances₁,
    hturn, hmade, hnodes, after, hadvances₃, fun y hy hblock => ?_⟩
  have hnodup := hlayout ▸ g.layout_nodup
  exact List.disjoint_of_nodup_append (List.nodup_append.mp hnodup).2.1
    (Graph.mem_members.mpr hblock) hy

/-- The lowered nodes as a graph, in the order in which they were made. -/
def unscheduled (g : Graph) (last : Lowering) : Graph := .ofParts g.blocks last.nodes

theorem unscheduled_nodes (h : last.Sound g) : (unscheduled g last).nodes = last.nodes := by
  refine Array.filter_eq_self.mpr fun p hp => ?_
  obtain ⟨i, hi⟩ := Array.mem_iff_getElem?.mp hp
  exact decide_eq_true (h.block i p hi)

theorem unscheduled_shows (h : last.Sound g) : Shows (unscheduled g last).node? last := by
  intro i p hp
  rw [Graph.node?, unscheduled_nodes h, hp]
  rfl

variable {body : List Nat}

/-- All that is made at the stages of a block is in it. -/
theorem Stages.placed (h : Stages g config last b body id n m l l₁ l₂ l') (hg : g.IntegerProgram)
    {i : Nat} (hi : i ∈ segment l l₂) :
    ∃ p, last.nodes[i]? = some ⟨b, p⟩ ∧ p.op.isTerminator = false := by
  obtain ⟨ids, hafter, -⟩ := h.after
  have hgrows := (h.made.sound_of_program h.turn.progress.sound hg h.turn.node).2.1
  obtain ⟨hle, hlt⟩ := mem_segment.mp hi
  have hlast {p : Placed} (hp : l₂.nodes[i]? = some p) : last.nodes[i]? = some p :=
    hafter.nodes i p (h.nodes ▸ getElem?_push_of_some hp)
  by_cases hi₁ : l₁.nodes.size ≤ i
  · obtain ⟨⟨c, p⟩, hp⟩ : ∃ p, l₂.nodes[i]? = some p := ⟨_, Array.getElem?_eq_getElem hlt⟩
    obtain ⟨rfl, hplain⟩ := hgrows.block i _ hp hi₁
    exact ⟨p, hlast hp, hplain⟩
  · obtain ⟨⟨c, p⟩, hp⟩ : ∃ p, l₁.nodes[i]? = some p :=
      ⟨_, Array.getElem?_eq_getElem (Nat.lt_of_not_le hi₁)⟩
    obtain ⟨y, hy, q, hq, hterm⟩ := h.advances.block i _ hp hle
    obtain ⟨q', hq', hplain⟩ := h.computations y hy
    rw [hq, Option.some.injEq, Placed.mk.injEq] at hq'
    obtain ⟨rfl, rfl⟩ := hq'
    refine ⟨p, hlast (hgrows.nodes i _ hp), ?_⟩
    by_contra hne
    exact absurd (hplain.symm.trans (hterm (by simpa using hne))) (by simp)

theorem Stages.terminator_placed (h : Stages g config last b body id n m l l₁ l₂ l') :
    last.nodes[l₂.nodes.size]? = some ⟨b, m⟩ := by
  obtain ⟨ids, hafter, -⟩ := h.after
  refine hafter.nodes _ _ ?_
  rw [h.nodes, Array.getElem?_push_size]

/-- The nodes made for a block follow one another, and no others are in it. -/
theorem Stages.members_unscheduled (h : Stages g config last b body id n m l l₁ l₂ l')
    (hg : g.IntegerProgram) :
    (unscheduled g last).members b = segment l l₂ ++ [l₂.nodes.size] := by
  have hsound := h.turn.finished.sound
  have hgrows := (h.made.sound_of_program h.turn.progress.sound hg h.turn.node).2.1
  have hsize := Nat.le_trans h.advances.size hgrows.size
  have hsegment : segment l l₂ ++ [l₂.nodes.size]
      = List.range' l.nodes.size (l₂.nodes.size - l.nodes.size + 1) := by
    rw [List.range'_concat, segment]
    congr 2
    omega
  refine List.Pairwise.eq_of_mem_iff (Graph.members_sorted _ b) ?_ ?_
  · rw [hsegment]
    exact List.pairwise_lt_range'
  · intro i
    rw [Graph.mem_members, Graph.blockOf?_eq_some, unscheduled_nodes hsound, List.mem_append,
      List.mem_singleton]
    constructor
    · rintro ⟨p, hp⟩
      by_contra hnot
      obtain ⟨ids, hafter, hids⟩ := h.after
      have hl' : l'.nodes.size = l₂.nodes.size + 1 := by rw [h.nodes, Array.size_push]
      rw [mem_segment] at hnot
      by_cases hlt : i < l.nodes.size
      · -- made for an earlier block
        have hsome := Array.getElem?_eq_getElem hlt
        have hlater := hafter.nodes i _ (h.turn.advances.nodes i _ (h.advances.nodes i _ hsome))
        rw [← hlater, hp] at hsome
        obtain ⟨y, hy, q, hq, -⟩ := h.before.block i _ hsome (Nat.zero_le i)
        exact Graph.blockOf?_of_mem_before hy (Graph.blockOf?_eq_some.mpr ⟨q, hq⟩)
      · obtain ⟨y, hy, q, hq, -⟩ := hafter.block i _ hp (by omega)
        exact hids y hy (Graph.blockOf?_eq_some.mpr ⟨q, hq⟩)
    · rintro (hi | rfl)
      · obtain ⟨p, hp, -⟩ := h.placed hg hi
        exact ⟨p, hp⟩
      · exact ⟨m, h.terminator_placed⟩

/-- The lowered nodes can be run. -/
theorem unscheduled_runnable (hg : g.IntegerProgram) (hbools : config.eliminateReturnBools = false)
    (hrun : lowerAll g config {} = .ok ((), last)) (hsound : last.Sound g) :
    (unscheduled g last).Runnable where
  grounded := by
    rw [unscheduled_nodes hsound]
    exact hsound.grounded
  blocks b hb := by
    obtain ⟨body, id, n, m, l, l₁, l₂, l', h⟩ := exists_stages hg hbools hrun hb
    refine ⟨segment l l₂, l₂.nodes.size, m, h.members_unscheduled hg, ?_, ?_, fun i hi => ?_⟩
    · rw [unscheduled_nodes hsound]
      exact h.terminator_placed
    · rw [h.made.isTerminator.1]
      exact h.terminator
    · rw [unscheduled_nodes hsound]
      exact h.placed hg hi
  inputs i b n hn r hr := by
    rw [unscheduled_nodes hsound] at hn
    obtain ⟨c, p, hp, hstore, hterm, hdom⟩ := hsound.inputs i _ hn r hr
    refine ⟨⟨p, ?_, hstore, hterm⟩, c, ?_, hdom.of_blocks rfl⟩
    · exact unscheduled_shows hsound r _ hp
    · rw [Graph.blockOf?_eq_some, unscheduled_nodes hsound]
      exact ⟨p, hp⟩
  computes i b n hn hplain := by
    rw [unscheduled_nodes hsound] at hn
    exact hsound.computes i _ hn hplain
  exits i b n hn hterm := by
    rw [unscheduled_nodes hsound] at hn
    exact hsound.departs i _ hn hterm

/-- Nothing is shared in a block before it is lowered. -/
theorem Stages.current (h : Stages g config last b body id n m l l₁ l₂ l') (f : Env Word) :
    Current b l f where
  contexts s context hcontext := by
    rcases h.before.contexts _ _ hcontext with hempty | ⟨y, hy, hblock⟩
    · exact absurd hempty (by simp)
    · exact absurd hblock (Graph.blockOf?_of_mem_before hy)
  checks key checked hkey hb := by
    rcases h.before.checks _ _ hkey with hempty | ⟨y, hy, hblock⟩
    · exact absurd hempty (by simp)
    · exact absurd (hb ▸ hblock) (Graph.blockOf?_of_mem_before hy)

/-- What is available in front of the next block was available at the end of the one before. -/
theorem Matches.next (h : Matches g config last b body e f) (hmembers : g.members b = body ++ [id])
    (hn : g.nodes[id]? = some ⟨b, n⟩) (hterm : n.op.isTerminator = true) (hedge : g.Edge b c) :
    Matches g config last c [] e f := by
  have hold {y : Nat} {p : Node} (hp : g.node? y = some p) (hplain : p.op.isTerminator = false)
      (hy : g.Available c [] y) : g.Available b body y := by
    refine (hmembers ▸ hy.of_edge hedge).of_append.resolve_right fun heq => ?_
    rw [heq, Graph.node?_eq_some.mpr ⟨b, hn⟩] at hp
    obtain rfl := Option.some.inj hp
    exact absurd (hterm.symm.trans hplain) (by simp)
  refine ⟨fun y k hk hy => ?_, fun y p hp habsorbs hy => ?_⟩
  · obtain ⟨p, hp, hkind⟩ := Option.bind_eq_some_iff.mp hk
    exact h.values y k hk (hold hp (Operator.isTerminator_of_kind? hkind) hy)
  · obtain ⟨w, c, hop⟩ := Graph.op_of_isFusable (isFusable_of_absorbs habsorbs)
    rw [Graph.op?, hp] at hop
    have hplain : p.op.isTerminator = false := by
      rw [show p.op = .compare w c from Option.some.inj hop]
      rfl
    exact h.absorbed y p hp habsorbs (hold hp hplain hy)

/-- Both sides leave a block the same way. -/
theorem Stages.ends (h : Stages g config last b body id n m l l₁ l₂ l') (hg : g.IntegerProgram)
    (hbools : config.eliminateReturnBools = false) (hwalk : g.Walk bs b)
    (hmatches : Matches g config last b [] e f) (hmemory : f.memory = e.memory)
    (hm : Addressable f.memory) :
    Ends (fun r r' => SameExit r.2 r'.2 ∧ r'.1.memory = r.1.memory ∧ Addressable r'.1.memory ∧
        (∀ c, g.Edge b c → Matches g config last c [] r.1 r'.1) ∧
        ∀ k, r'.2 = .goto k → ∃ c, (g.block? b).bind (·.successors[k]?) = some c ∧
          c < g.blocks.size)
      (Values.meaning.execNodes g.node? (g.members b) e)
      ((Words.meaning .linear).execNodes (unscheduled g last).node?
        ((unscheduled g last).members b) f) := by
  have hsound := h.turn.finished.sound
  have hshows := unscheduled_shows hsound
  have hgrows := (h.made.sound_of_program h.turn.progress.sound hg h.turn.node).2.1
  obtain ⟨ids, hafter, -⟩ := h.after
  have hplain : ∀ i ∈ body, ∃ q, g.node? i = some q ∧ q.op.isTerminator = false := by
    intro i hi
    obtain ⟨q, hq, hterm⟩ := h.computations i hi
    exact ⟨q, Graph.node?_eq_some.mpr ⟨b, hq⟩, hterm⟩
  have hplain' : ∀ i ∈ segment l l₂, ∃ q, (unscheduled g last).node? i = some q ∧
      q.op.isTerminator = false := by
    intro i hi
    obtain ⟨q, hq, hterm⟩ := h.placed hg hi
    exact ⟨q, hshows i _ hq, hterm⟩
  have hterm : m.op.isTerminator = true := by
    rw [h.made.isTerminator.1]
    exact h.terminator
  rw [h.members, h.members_unscheduled hg,
    Meaning.execNodes_append hplain (Graph.node?_eq_some.mpr ⟨b, h.turn.node⟩) h.terminator,
    Meaning.execNodes_append hplain' (hshows _ _ h.terminator_placed) hterm]
  change Ends _ _ (runs _ l l₂ f >>= _)
  rw [runs_trans h.advances.size hgrows.size, bind_assoc]
  have hmembers : g.members b = [] ++ (body ++ [id]) := h.members
  have hprogress : Progress g config ((List.range b).flatMap g.members ++ []) l := by
    rw [List.append_nil]
    exact h.progress
  have hbody := body_ends hg hbools hwalk hmembers h.computations hprogress h.run
    (h.turn.advances.trans hafter) h.turn.finished hshows hmatches hmemory hm (h.current f)
  refine hbody.bind ?_
  rintro e₁ f₁ ⟨hmatches₁, hmemory₁, hcurrent₁⟩ hruns
  obtain ⟨f₂, xs, ws, out, out', hruns₂, hmemory₂, hmatches₂, hxs, hws, hout, hout', hsame⟩ :=
    h.turn.exits hg hwalk h.terminator h.made h.nodes hshows hmatches₁ hcurrent₁
  have hsize : f₁.memory.size = f.memory.size := size_of_execBody hruns
  rw [hruns₂, hxs]
  change Ends _ (Values.exit n xs >>= _) (f₂.operands m >>= _)
  rw [hws, hout]
  change Ends _ _ (Words.exit m ws >>= _)
  rw [hout']
  refine .ok ⟨hsame, hmemory₂.trans hmemory₁, ?_, fun c hc => ?_, fun k hk => ?_⟩
  · rw [Addressable, hmemory₂, hsize]
    exact hm
  · exact hmatches₂.next h.members h.turn.node h.terminator hc
  · obtain ⟨out₁, hout₁, hnext⟩ := hsound.departs _ _ h.terminator_placed hterm ws
      (Env.operands_eq_ok.mp hws).length_eq.symm
    obtain rfl := Except.ok.inj (hout'.symm.trans hout₁)
    exact hnext k hk

end Lowering

open Lowering Select in
/-- Before they are scheduled, the lowered nodes enter the same blocks as the program and come to the
same end. -/
theorem runFrom_unscheduled {g : Graph} {config : Config} {last : Lowering} {b : Nat} {bs : List Nat}
    {e : Env Value} {f : Env Word} (hg : g.IntegerProgram) (hbools : config.eliminateReturnBools = false)
    (hrun : lowerAll g config {} = .ok ((), last)) (hb : b < g.blocks.size) (hwalk : g.Walk bs b)
    (hmatches : Matches g config last b [] e f) (hmemory : f.memory = e.memory)
    (hm : Addressable f.memory) (fuel : Nat) :
    ((Words.meaning .linear).runFrom (unscheduled g last) fuel b f).1
        = (Values.meaning.runFrom g fuel b e).1 ∧
      Outcome.Agrees Value.Represents id (Values.meaning.runFrom g fuel b e).2
        ((Words.meaning .linear).runFrom (unscheduled g last) fuel b f).2 := by
  induction fuel generalizing b bs e f with
  | zero => exact ⟨rfl, .running hmemory⟩
  | succ fuel ih =>
      obtain ⟨body, id, n, m, l, l₁, l₂, l', h⟩ := exists_stages hg hbools hrun hb
      have hends := h.ends hg hbools hwalk hmatches hmemory hm
      generalize hold : Values.meaning.execNodes g.node? (g.members b) e = r at hends
      generalize hnew : (Words.meaning .linear).execNodes (unscheduled g last).node?
        ((unscheduled g last).members b) f = r' at hends
      cases hends with
      | trapped =>
          rw [Meaning.runFrom_error hold, Meaning.runFrom_error hnew]
          exact ⟨rfl, .trapped⟩
      | @ok a a' hends =>
          obtain ⟨e₁, out⟩ := a
          obtain ⟨f₁, out'⟩ := a'
          obtain ⟨hsame, hmemory₁, hm₁, hnext, hdeparts⟩ := hends
          cases hsame with
          | leave hvalue =>
              rw [Meaning.runFrom_leave hold, Meaning.runFrom_leave hnew, show f₁.memory = e₁.memory
                from hmemory₁]
              exact ⟨rfl, .returned hvalue⟩
          | goto k =>
              obtain ⟨c, hc, hlt⟩ := hdeparts k rfl
              obtain ⟨block, hblock, hsucc⟩ := Option.bind_eq_some_iff.mp hc
              have hedge : g.Edge b c := ⟨block, hblock, List.mem_of_getElem? hsucc⟩
              obtain ⟨hblocks, hagrees⟩ := ih hlt (hwalk.step hedge) (hnext c hedge) hmemory₁ hm₁
              rw [Meaning.runFrom_goto hold hc, Meaning.runFrom_goto hnew hc]
              exact ⟨congrArg (b :: ·) hblocks, hagrees⟩

theorem select_ok {g g' : Graph} {config : Config} {stats : Stats}
    (h : select g config = .ok (g', stats)) :
    ∃ l, Select.lowerAll g config {} = .ok ((), l) ∧ g' = schedule g.blocks l.nodes := by
  unfold select at h
  cases hclosed : g.isClosed with
  | false =>
      rw [hclosed] at h
      exact absurd h (by simp [bind, Except.bind, throw, throwThe, MonadExceptOf.throw])
  | true =>
      simp only [hclosed, Bool.not_true, Bool.false_eq_true, if_false] at h
      obtain ⟨r, hlower, hrest⟩ := bind_eq_ok.mp h
      obtain ⟨u, -, hpure⟩ := bind_eq_ok.mp hrest
      exact ⟨r.2, hlower, congrArg Prod.fst (Except.ok.inj hpure).symm⟩

open Lowering in
/-- On linear memory alone, the selected graph of a program on integers enters the same blocks as the
program and comes to the same end, after any number of blocks. -/
theorem select_run_linear {g g' : Graph} {config : Config} {stats : Stats} (hg : g.IntegerProgram)
    (hblocks : 0 < g.blocks.size) (hbools : config.eliminateReturnBools = false)
    (hselect : select g config = .ok (g', stats)) {memory : Array Byte} (hm : Addressable memory)
    (fuel : Nat) :
    ((Words.meaning .linear).run g' fuel memory).1 = (Values.meaning.run g fuel memory).1 ∧
      Outcome.Agrees Value.Represents id (Values.meaning.run g fuel memory).2
        ((Words.meaning .linear).run g' fuel memory).2 := by
  obtain ⟨last, hrun, rfl⟩ := select_ok hselect
  have hall : g.layout = [] ++ (g.layout ++ []) := by simp
  obtain ⟨hfinished, -⟩ := (progress_empty g config).forM hg hbools hall hrun
  have hstart : Matches g config last 0 [] (.start memory) (.start memory) :=
    ⟨fun _ _ _ hy => absurd hy Graph.not_available_start,
      fun _ _ _ _ hy => absurd hy Graph.not_available_start⟩
  obtain ⟨hblocks₁, hagrees₁⟩ := runFrom_unscheduled hg hbools hrun hblocks .start hstart rfl hm fuel
  have hrunnable := unscheduled_runnable hg hbools hrun hfinished.sound
  obtain ⟨hblocks₂, hagrees₂⟩ := run_schedule hrunnable hblocks fuel memory
  rw [show (unscheduled g last).blocks = g.blocks from rfl, unscheduled_nodes hfinished.sound]
    at hblocks₂ hagrees₂
  exact ⟨hblocks₂.trans hblocks₁, hagrees₁.trans_eq hagrees₂⟩

/-- Counts a number in memory down to zero, and returns it. -/
def countdown : Graph :=
  .ofParts #[⟨"entry", [1]⟩, ⟨"loop", [1, 2]⟩, ⟨"done", []⟩]
    #[⟨0, .state, [], [], []⟩, ⟨0, .const .i64, [], [.int 0], []⟩, ⟨0, .const .i32, [], [.int 1], []⟩,
      ⟨0, .jump, [], [], []⟩,
      ⟨1, .load (.full .i32), [], [], [0, 1]⟩, ⟨1, .intBinary .w32 (.arith .sub), [], [], [4, 2]⟩,
      ⟨1, .store (.full .i32), [], [], [0, 1, 5]⟩, ⟨1, .compare .w32 .geS, [], [], [5, 2]⟩,
      ⟨1, .branch, [], [], [7]⟩,
      ⟨2, .load (.full .i32), [], [], [0, 1]⟩, ⟨2, .typedRet .i32, [], [], [9]⟩]

theorem countdown_program : countdown.IntegerProgram where
  flawless := by decide
  integer := by decide
  typed := by decide
  terminated := by decide
  supplied := by decide
  inScope := Graph.scoped_of_near (by decide)

end Isel
