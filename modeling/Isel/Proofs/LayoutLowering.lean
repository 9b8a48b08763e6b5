import Isel.Proofs.LoweringRun

/-! Lowering along the layout. In a graph whose nodes refer to earlier ones, each node is lowered when
the layout comes to it, once all that it refers to has been. The nodes made for a block therefore
follow one another. -/

namespace Isel

namespace Graph

variable {g : Graph} {id v : Nat} {n : Node}

theorem mem_usesOf_of_input (hn : g.node? id = some n) {k : Nat} (hk : n.inputs[k]? = some v) :
    ⟨id, .input k⟩ ∈ g.usesOf v := by
  obtain ⟨b, hb⟩ := node?_eq_some.mp hn
  refine List.mem_flatMap.mpr ⟨(id, n), ?_, ?_⟩
  · refine List.mem_filterMap.mpr ⟨id, mem_layout.mpr ⟨b, blockOf?_eq_some.mpr ⟨n, hb⟩⟩, ?_⟩
    rw [hn]
    rfl
  · refine List.mem_map.mpr ⟨.input k, List.mem_append_left _ (List.mem_map.mpr ⟨(v, k), ?_, rfl⟩), rfl⟩
    refine List.mem_filter.mpr ⟨?_, by simp⟩
    exact List.mem_iff_getElem?.mpr ⟨k, by simp [hk]⟩

theorem mem_usesOf_of_control (hn : g.node? id = some n) (hv : v ∈ n.controlNodes) :
    ⟨id, .control⟩ ∈ g.usesOf v := by
  obtain ⟨b, hb⟩ := node?_eq_some.mp hn
  refine List.mem_flatMap.mpr ⟨(id, n), ?_, ?_⟩
  · refine List.mem_filterMap.mpr ⟨id, mem_layout.mpr ⟨b, blockOf?_eq_some.mpr ⟨n, hb⟩⟩, ?_⟩
    rw [hn]
    rfl
  · refine List.mem_map.mpr ⟨.control, List.mem_append_right _ (List.mem_map.mpr ⟨v, ?_, rfl⟩), rfl⟩
    exact List.mem_filter.mpr ⟨hv, by simp⟩

theorem usesOf_of_singleUse? {use : Use} (h : g.singleUse? v = some use) : g.usesOf v = [use] := by
  unfold singleUse? at h
  split at h
  · next only huses => rw [huses, Option.some.inj h]
  · exact absurd h (by simp)

theorem mem_usesOf_of_singleUse? {use : Use} (h : g.singleUse? v = some use) : use ∈ g.usesOf v := by
  rw [usesOf_of_singleUse? h]
  exact List.mem_singleton_self use

theorem eq_of_singleUse? {use other : Use} (h : g.singleUse? v = some use)
    (hother : other ∈ g.usesOf v) : other = use := by
  rw [usesOf_of_singleUse? h] at hother
  exact List.mem_singleton.mp hother

/-- What a branch takes over is used by a branch only, and as its predicate. -/
theorem use_of_isFusable (h : g.isFusable v = true) {slot : Slot} (huse : ⟨id, slot⟩ ∈ g.usesOf v) :
    slot = .input 0 ∧ g.op? id = some .branch := by
  obtain ⟨w, c, user, -, hsingle, huser⟩ := isFusable_eq_true.mp h
  obtain ⟨rfl, rfl⟩ := Use.mk.inj (eq_of_singleUse? hsingle huse)
  exact ⟨rfl, huser⟩

/-- A program on integers that keeps the rules under which each of its values is there when it is
needed. -/
structure IntegerProgram (g : Graph) : Prop where
  flawless : g.flaw? = none
  integer : g.IsInteger
  typed : g.WellTyped
  terminated : g.Terminated
  supplied : g.Supplied
  inScope : g.Scoped

end Graph

namespace Lowering

open Select

variable {g : Graph} {config : Config} {l l₁ l' : Lowering} {b id new fuel : Nat} {n : Node}
  {front ids ids' back : List Nat}

theorem isFusable_of_absorbs {v : Nat} (h : absorbs g config v = true) : g.isFusable v = true :=
  (Bool.and_eq_true_iff.mp h).2

/-- Only comparisons are taken over. -/
theorem absorbs_eq_false {v : Nat} (hn : g.node? v = some n) (hop : ∀ w c, n.op ≠ .compare w c) :
    absorbs g config v = false := by
  by_contra hne
  obtain ⟨w, c, hcompare⟩ := Graph.op_of_isFusable (isFusable_of_absorbs (Bool.not_eq_false _ ▸ hne))
  rw [Graph.op?, hn, Option.map_some, Option.some.injEq] at hcompare
  exact hop w c hcompare

/-- The layout has come past some nodes: those that no branch takes over are lowered, and the nodes
made for them can be run. -/
structure Progress (g : Graph) (config : Config) (front : List Nat) (l : Lowering) : Prop where
  sound : l.Sound g
  lowered : ∀ y y', l.lowered.get? y = some y' → y ∈ front ∧ absorbs g config y = false
  complete : ∀ y ∈ front, absorbs g config y = false → ∃ y', l.lowered.get? y = some y'

/-- All that the next node of the layout refers to is lowered, and so is what a compare needs that it
takes over. -/
theorem Progress.awaits (h : Progress g config front l) (hscoped : g.Scoped)
    (hlayout : g.layout = front ++ id :: back) (hn : g.nodes[id]? = some ⟨b, n⟩)
    (hfuel : g.nodes.size = fuel + 1) : Awaits g config (lower g config fuel) l n := by
  have hnode : g.node? id = some n := Graph.node?_eq_some.mpr ⟨b, hn⟩
  have hlt := Graph.id_lt_of_blockOf? (Graph.blockOf?_eq_some.mpr ⟨n, hn⟩)
  have hfinds {v : Nat} (hv : g.Precedes v id) (habsorbs : absorbs g config v = false) :
      ∃ v', l.lowered.get? v = some v' ∧
        ∀ l₁ : Lowering, l₁.lowered = l.lowered → lower g config fuel v l₁ = .ok (v', l₁) := by
    have hfront := hv.mem_front hlayout
    obtain ⟨v', hv'⟩ := h.complete v hfront habsorbs
    refine ⟨v', hv', fun l₁ hl₁ => ?_⟩
    -- two nodes take two steps of fuel
    have hne : v ≠ id := fun heq => Nat.lt_irrefl _ (heq ▸ hv)
    obtain ⟨c, hc⟩ := Graph.mem_layout.mp (hlayout ▸ List.mem_append_left _ hfront)
    have hvlt := Graph.id_lt_of_blockOf? hc
    obtain ⟨fuel', rfl⟩ : ∃ fuel', fuel = fuel' + 1 := ⟨fuel - 1, by omega⟩
    exact lower_found (hl₁ ▸ hv')
  have hprecedes {v : Nat} (hv : v ∈ n.references) : g.Precedes v id := (hscoped id n b hn v hv).1
  refine ⟨fun v hv => ?_, fun v hv habsorbs v' hv' => ?_, fun v hv habsorbs => ?_⟩
  · refine hfinds (hprecedes (List.mem_append_right _ hv)) ?_
    by_contra hne
    have huse := Graph.use_of_isFusable (isFusable_of_absorbs (by simpa using hne))
      (Graph.mem_usesOf_of_control hnode hv)
    exact absurd huse.1 (by simp)
  · obtain rfl := List.mem_singleton.mp hv'
    exact hfinds (hprecedes (List.mem_append_left _ hv)) habsorbs
  · obtain ⟨k, hk⟩ := List.mem_iff_getElem?.mp hv
    have hfusable := isFusable_of_absorbs habsorbs
    have huse := Graph.use_of_isFusable hfusable (Graph.mem_usesOf_of_input hnode hk)
    rw [Graph.op?, hnode] at huse
    refine ⟨Option.some.inj huse.2, fun p hp x hx => ?_⟩
    obtain ⟨c, hc⟩ := Graph.node?_eq_some.mp hp
    have hxv := (hscoped v p c hc x (List.mem_append_left _ hx)).1
    refine hfinds (Nat.lt_trans hxv (hprecedes (List.mem_append_left _ hv))) ?_
    -- a compare is no branch, so nothing that it uses is taken over
    by_contra hne
    obtain ⟨j, hj⟩ := List.mem_iff_getElem?.mp hx
    have hbranch := (Graph.use_of_isFusable (isFusable_of_absorbs (by simpa using hne))
      (Graph.mem_usesOf_of_input hp hj)).2
    obtain ⟨w, c, hcompare⟩ := Graph.op_of_isFusable hfusable
    exact absurd (hbranch.symm.trans hcompare) (by simp)

/-- What becomes of the next node of the layout. -/
theorem Progress.lowerNext_cases (h : Progress g config front l) (hg : g.IntegerProgram)
    (hbools : config.eliminateReturnBools = false) (hlayout : g.layout = front ++ id :: back)
    (hn : g.nodes[id]? = some ⟨b, n⟩) (hnext : lowerNext g config id l = .ok ((), l')) :
    (absorbs g config id = true ∧ l' = l) ∨
    (absorbs g config id = false ∧ ∃ new l₁,
      (Replaced l n new l₁ ∨ Recorded g config l b n new l₁) ∧
      l' = { l₁ with lowered := l₁.lowered.set id new }) := by
  rcases lowerNext_ok hnext with habsorbs | ⟨habsorbs, new, hlower⟩
  · exact .inl habsorbs
  · refine .inr ⟨habsorbs, ?_⟩
    have hlt := Graph.id_lt_of_blockOf? (Graph.blockOf?_eq_some.mpr ⟨n, hn⟩)
    obtain ⟨fuel, hfuel⟩ : ∃ fuel, g.nodes.size = fuel + 1 := ⟨g.nodes.size - 1, by omega⟩
    have hnone : l.lowered.get? id = none := by
      refine Option.eq_none_iff_forall_ne_some.mpr fun y' hy' => ?_
      have hnodup := hlayout ▸ g.layout_nodup
      exact List.disjoint_of_nodup_append hnodup (h.lowered id y' hy').1 List.mem_cons_self
    rw [hfuel] at hlower
    obtain ⟨p, l₁, hp, hnode, rfl⟩ := lower_ok hnone hlower
    obtain rfl := Option.some.inj (hn.symm.trans hp)
    have hint := hg.integer id n (Graph.node?_eq_some.mpr ⟨b, hn⟩)
    exact ⟨new, l₁, node_cases hint hbools (h.awaits hg.inScope hlayout hn hfuel) hnode, rfl⟩

/-- What stands for an input of a node can be used in the node's block. -/
theorem Sound.usable_input (h : l.Sound g) (hg : g.IntegerProgram)
    (hn : g.nodes[id]? = some ⟨b, n⟩) {v v' : Nat} (hv : v ∈ n.inputs)
    (hv' : l.lowered.get? v = some v') : l.Usable g b v' := by
  obtain ⟨⟨ks, hkinds, -⟩, -⟩ := hg.typed id n (Graph.node?_eq_some.mpr ⟨b, hn⟩)
  obtain ⟨i, hi⟩ := List.mem_iff_getElem?.mp hv
  obtain ⟨k, -, hk⟩ := forall₂_getElem? hkinds hi
  obtain ⟨-, c, hc, hdom⟩ := hg.inScope id n b hn v (List.mem_append_left _ hv)
  exact ((h.lowered v v' hv').2 k c hk hc).of_dominates hdom

/-- What stands for an input of a compare can be used where the compare can. -/
theorem Sound.usable_compared (h : l.Sound g) (hg : g.IntegerProgram)
    (hn : g.nodes[id]? = some ⟨b, n⟩) {v : Nat} {p : Node} (hv : v ∈ n.inputs)
    (hp : g.node? v = some p) {x x' : Nat} (hx : x ∈ p.inputs)
    (hx' : l.lowered.get? x = some x') : l.Usable g b x' := by
  obtain ⟨-, c, hc, hdom⟩ := hg.inScope id n b hn v (List.mem_append_left _ hv)
  obtain ⟨q, hq⟩ := Graph.blockOf?_eq_some.mp hc
  obtain rfl : p = q := by
    rw [Graph.node?_eq_some.mpr ⟨c, hq⟩] at hp
    exact (Option.some.inj hp).symm
  exact (h.usable_input hg hq hx hx').of_dominates hdom

theorem Made.sound_of_program {m : Node} (hmade : Made g config l b n l₁ m) (h : l.Sound g)
    (hg : g.IntegerProgram) (hn : g.nodes[id]? = some ⟨b, n⟩) :
    l₁.Sound g ∧ Grows b l l₁ ∧ l₁.Fits g b m := by
  obtain ⟨⟨ks, hkinds, haccepts⟩, hliteral⟩ := hg.typed id n (Graph.node?_eq_some.mpr ⟨b, hn⟩)
  exact hmade.sound h (Graph.blockOf?_lt (Graph.blockOf?_eq_some.mpr ⟨n, hn⟩))
    (fun v hv v' hv' => h.usable_input hg hn hv hv')
    (fun v hv _ p hp x hx x' hx' => h.usable_compared hg hn hv hp hx hx')
    hkinds.length_eq haccepts hliteral
    (fun k hk => Graph.exists_successor hg.flawless hg.supplied hn hk)

/-- A state and a later one, with the nodes `ids` lowered in between. What is new was made for one of
them, in its block, and ends the block only if that node does. -/
structure Advances (g : Graph) (ids : List Nat) (l l' : Lowering) : Prop where
  lowered : ∀ y y', l.lowered.get? y = some y' → l'.lowered.get? y = some y'
  nodes : ∀ (i : Nat) (p : Placed), l.nodes[i]? = some p → l'.nodes[i]? = some p
  size : l.nodes.size ≤ l'.nodes.size
  block : ∀ (i : Nat) (p : Placed), l'.nodes[i]? = some p → l.nodes.size ≤ i →
    ∃ y ∈ ids, ∃ n, g.nodes[y]? = some ⟨p.block, n⟩ ∧
      (p.node.op.isTerminator = true → n.op.isTerminator = true)
  contexts : ∀ key context, l'.contexts.get? key = some context →
    l.contexts.get? key = some context ∨ ∃ y ∈ ids, g.blockOf? y = some key.1
  checks : ∀ key checked, l'.checks.get? key = some checked →
    l.checks.get? key = some checked ∨ ∃ y ∈ ids, g.blockOf? y = some key.block

theorem Advances.refl (g : Graph) (ids : List Nat) (l : Lowering) : Advances g ids l l where
  lowered _ _ h := h
  nodes _ _ h := h
  size := Nat.le_refl _
  block _ _ h hle := absurd (Array.getElem?_eq_some_iff.mp h).1 (Nat.not_lt.mpr hle)
  contexts _ _ h := .inl h
  checks _ _ h := .inl h

theorem Advances.trans (h : Advances g ids l l₁) (h' : Advances g ids' l₁ l') :
    Advances g (ids ++ ids') l l' where
  lowered y y' hy := h'.lowered y y' (h.lowered y y' hy)
  nodes i p hp := h'.nodes i p (h.nodes i p hp)
  size := Nat.le_trans h.size h'.size
  block i p hp hle := by
    by_cases hi : l₁.nodes.size ≤ i
    · obtain ⟨y, hy, hmade⟩ := h'.block i p hp hi
      exact ⟨y, List.mem_append_right _ hy, hmade⟩
    · have hsome := Array.getElem?_eq_getElem (Nat.lt_of_not_le hi)
      obtain rfl := Option.some.inj (hp.symm.trans (h'.nodes i _ hsome))
      obtain ⟨y, hy, hmade⟩ := h.block i _ hsome hle
      exact ⟨y, List.mem_append_left _ hy, hmade⟩
  contexts key context hkey := by
    rcases h'.contexts key context hkey with hkey | ⟨y, hy, hblock⟩
    · refine (h.contexts key context hkey).imp_right ?_
      exact fun ⟨y, hy, hblock⟩ => ⟨y, List.mem_append_left _ hy, hblock⟩
    · exact .inr ⟨y, List.mem_append_right _ hy, hblock⟩
  checks key checked hkey := by
    rcases h'.checks key checked hkey with hkey | ⟨y, hy, hblock⟩
    · refine (h.checks key checked hkey).imp_right ?_
      exact fun ⟨y, hy, hblock⟩ => ⟨y, List.mem_append_left _ hy, hblock⟩
    · exact .inr ⟨y, List.mem_append_right _ hy, hblock⟩

theorem Advances.of_grows (hgrows : Grows b l l') (hn : g.nodes[id]? = some ⟨b, n⟩) :
    Advances g [id] l l' where
  lowered _ _ h := hgrows.lowered ▸ h
  nodes := hgrows.nodes
  size := hgrows.size
  block i p hp hle := by
    obtain ⟨rfl, hterm⟩ := hgrows.block i p hp hle
    exact ⟨id, List.mem_singleton_self id, n, hn, fun h => absurd h (by simp [hterm])⟩
  contexts key context hkey := (hgrows.contexts key context hkey).imp_right fun hb : key.1 = b =>
    ⟨id, List.mem_singleton_self id, Graph.blockOf?_eq_some.mpr ⟨n, hb ▸ hn⟩⟩
  checks key checked hkey := (hgrows.checks key checked hkey).imp_right fun hb : key.block = b =>
    ⟨id, List.mem_singleton_self id, Graph.blockOf?_eq_some.mpr ⟨n, hb ▸ hn⟩⟩

theorem Advances.recorded (h : Advances g [id] l l₁) (hn : g.nodes[id]? = some ⟨b, n⟩) {m : Node}
    (hterm : m.op.isTerminator = n.op.isTerminator) (s : Stats) :
    Advances g [id] l (l₁.recorded b m s) :=
  { h with
    nodes := fun i p hp => getElem?_push_of_some (h.nodes i p hp)
    size := Nat.le_trans h.size (by simp [Lowering.recorded])
    block := fun i p hp hle => by
      rcases getElem?_push_cases hp with hp | ⟨-, rfl⟩
      · exact h.block i p hp hle
      · exact ⟨id, List.mem_singleton_self id, n, hn, fun ht => hterm ▸ ht⟩ }

theorem Advances.setLowered (h : Advances g ids l l₁) (hnone : l.lowered.get? id = none)
    (new : Nat) : Advances g ids l { l₁ with lowered := l₁.lowered.set id new } :=
  { h with
    lowered := fun y y' hy => by
      have hne : y ≠ id := by
        rintro rfl
        exact absurd (hnone.symm.trans hy) (by simp)
      rw [Table.get?_set, if_neg hne]
      exact h.lowered y y' hy }

/-- A node that is lowered to one that can be used where the old one can. -/
theorem lowered_usable (h : l.Sound g) (hg : g.IntegerProgram) (hn : g.nodes[id]? = some ⟨b, n⟩)
    (hcases : Replaced l n new l₁ ∨ Recorded g config l b n new l₁) :
    l₁.Sound g ∧ Advances g [id] l l₁ ∧ l₁.lowered = l.lowered ∧ new < l₁.nodes.size ∧
      ∀ k c, g.kindOf? id = some k → g.blockOf? id = some c → l₁.Usable g c new := by
  have hblock {c : Nat} (hc : g.blockOf? id = some c) : c = b := by
    rw [Graph.blockOf?_eq_some.mpr ⟨n, hn⟩] at hc
    exact (Option.some.inj hc).symm
  rcases hcases with ⟨-, x, s, hx, hnew, rfl⟩ | ⟨l₂, m, s, hmade, rfl, rfl⟩
  · have huse := h.usable_input hg hn (List.mem_of_getElem? hx) hnew
    refine ⟨h.setStats s, .of_grows (.of_stats b l s) hn, rfl, huse.lt, fun k c _ hc => ?_⟩
    obtain rfl := hblock hc
    exact huse.mono fun _ _ hp => hp
  · obtain ⟨hsound, hgrows, hfits⟩ := hmade.sound_of_program h hg hn
    obtain ⟨hterm, hstore⟩ := hmade.isTerminator
    refine ⟨hsound.push hfits s, (Advances.of_grows hgrows hn).recorded hn hterm s, hgrows.lowered,
      by simp, fun k c hk hc => ?_⟩
    obtain rfl := hblock hc
    have hkind : n.op.kind? = some k := by
      rw [Graph.kindOf?, Graph.node?_eq_some.mpr ⟨_, hn⟩] at hk
      exact hk
    refine usable_push ?_ ?_ s
    · by_contra hne
      exact absurd (hkind.symm.trans (hstore (by simpa using hne))) (by simp)
    · rw [hterm]
      exact Operator.isTerminator_of_kind? hkind

/-- One step along the layout. -/
theorem Progress.next (h : Progress g config front l) (hg : g.IntegerProgram)
    (hbools : config.eliminateReturnBools = false) (hlayout : g.layout = front ++ id :: back)
    (hnext : lowerNext g config id l = .ok ((), l')) :
    Progress g config (front ++ [id]) l' ∧ Advances g [id] l l' := by
  obtain ⟨b, hb⟩ : ∃ b, g.blockOf? id = some b :=
    Graph.mem_layout.mp (hlayout ▸ List.mem_append_right _ List.mem_cons_self)
  obtain ⟨n, hn⟩ := Graph.blockOf?_eq_some.mp hb
  rcases h.lowerNext_cases hg hbools hlayout hn hnext with
    ⟨habsorbs, rfl⟩ | ⟨habsorbs, new, l₁, hcases, rfl⟩
  · refine ⟨⟨h.sound, fun y y' hy => ?_, fun y hy hfree => ?_⟩, .refl g [id] l'⟩
    · exact (h.lowered y y' hy).imp_left (List.mem_append_left _)
    · rcases List.mem_append.mp hy with hy | hy
      · exact h.complete y hy hfree
      · rw [List.mem_singleton.mp hy, habsorbs] at hfree
        exact absurd hfree (by simp)
  · obtain ⟨hsound, hadvances, hlowered, hlt, huse⟩ := lowered_usable h.sound hg hn hcases
    have hnone : l.lowered.get? id = none := by
      refine Option.eq_none_iff_forall_ne_some.mpr fun y' hy' => ?_
      have hnodup := hlayout ▸ g.layout_nodup
      exact List.disjoint_of_nodup_append hnodup (h.lowered id y' hy').1 List.mem_cons_self
    refine ⟨⟨hsound.setLowered hlt huse, fun y y' hy => ?_, fun y hy hfree => ?_⟩,
      hadvances.setLowered hnone new⟩
    · rw [Table.get?_set] at hy
      split at hy
      · next heq =>
          subst heq
          exact ⟨List.mem_append_right _ (List.mem_singleton_self y), habsorbs⟩
      · exact (h.lowered y y' (hlowered ▸ hy)).imp_left (List.mem_append_left _)
    · rw [Table.get?_set]
      split
      · exact ⟨new, rfl⟩
      · next hne =>
          rw [hlowered]
          refine h.complete y ((List.mem_append.mp hy).resolve_right fun heq => ?_) hfree
          exact hne (List.mem_singleton.mp heq)

/-- A walk along a part of the layout. -/
theorem Progress.forM (h : Progress g config front l) (hg : g.IntegerProgram)
    (hbools : config.eliminateReturnBools = false) (hlayout : g.layout = front ++ (ids ++ back))
    (hrun : ids.forM (lowerNext g config) l = .ok ((), l')) :
    Progress g config (front ++ ids) l' ∧ Advances g ids l l' := by
  induction ids generalizing front l with
  | nil =>
      obtain ⟨-, rfl⟩ := Prod.mk.inj (pure_ok.mp hrun)
      exact ⟨(List.append_nil front).symm ▸ h, .refl g [] l'⟩
  | cons id ids ih =>
      obtain ⟨l₁, hnext, hrest⟩ := forM_cons_ok.mp hrun
      obtain ⟨h₁, hadvances₁⟩ := h.next hg hbools hlayout hnext
      have hlayout₁ : g.layout = (front ++ [id]) ++ (ids ++ back) := by simp [hlayout]
      obtain ⟨h₂, hadvances₂⟩ := ih h₁ hlayout₁ hrest
      rw [List.append_assoc] at h₂
      exact ⟨h₂, hadvances₁.trans hadvances₂⟩

theorem progress_empty (g : Graph) (config : Config) : Progress g config [] {} where
  sound := sound_empty g
  lowered y y' h := absurd h (by simp [Table.get?_empty])
  complete y h := absurd h (by simp)

end Lowering

end Isel
