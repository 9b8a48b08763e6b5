import Isel.Selection.Schedule
import Isel.Proofs.Layout

/-! Scheduling is a linearization. The order of a block holds each node of the block once, every
node after those that it depends on, and accesses to memory that do not commute in the order in which
they arose. If nothing waits for the only terminator of a block, it comes last. -/

namespace Isel

namespace Operator

/-- Two accesses to memory that do not commute: one of them is a store. -/
def conflicts (x y : Operator) : Bool :=
  x.isTargetStore && (y.isTargetStore || y.isTargetLoad) || x.isTargetLoad && y.isTargetStore

end Operator

namespace Schedule

/-- Every node refers to nodes that arose before it. -/
def Grounded (nodes : Array Placed) : Prop :=
  ∀ (i : Nat) (p : Placed), nodes[i]? = some p → ∀ r ∈ p.node.references, r < i

variable {nodes : Array Placed} {b d i j id : Nat} {w : List Nat}

theorem isIn_eq_true {kind : Operator → Bool} :
    isIn nodes b kind id = true ↔ ∃ n, nodes[id]? = some ⟨b, n⟩ ∧ kind n.op = true := by
  simp only [isIn, Option.any_eq_true, Bool.and_eq_true, beq_iff_eq]
  constructor
  · rintro ⟨⟨c, n⟩, hp, rfl, hkind⟩
    exact ⟨n, hp, hkind⟩
  · rintro ⟨n, hp, hkind⟩
    exact ⟨_, hp, rfl, hkind⟩

theorem blockOf?_eq_some {nodes : Array Placed} {b id : Nat} :
    blockOf? nodes id = some b ↔ ∃ n, nodes[id]? = some ⟨b, n⟩ := by
  simp only [blockOf?, Option.map_eq_some_iff]
  constructor
  · rintro ⟨⟨c, n⟩, hp, rfl⟩
    exact ⟨n, hp⟩
  · rintro ⟨n, hp⟩
    exact ⟨_, hp, rfl⟩

@[simp] theorem mem_members : id ∈ members nodes b ↔ blockOf? nodes id = some b := by
  rw [members, List.mem_filter, List.mem_range, isIn_eq_true, blockOf?_eq_some]
  constructor
  · rintro ⟨-, n, hp, -⟩
    exact ⟨n, hp⟩
  · rintro ⟨n, hp⟩
    exact ⟨(Array.getElem?_eq_some_iff.mp hp).1, n, hp, rfl⟩

theorem members_sorted (nodes : Array Placed) (b : Nat) : (members nodes b).Pairwise (· < ·) :=
  List.pairwise_lt_range.filter _

/-! ### What a node waits for -/

theorem mem_lastStore? (h : lastStore? nodes b id = some i) :
    i < id ∧ isIn nodes b Operator.isTargetStore i = true := by
  have hmem := List.mem_of_getLast? h
  rwa [List.mem_filter, List.mem_range] at hmem

/-- The last store is not before any other store. -/
theorem le_lastStore? (h : lastStore? nodes b id = some j) (hi : i < id)
    (hstore : isIn nodes b Operator.isTargetStore i = true) : i ≤ j := by
  have hsorted : ((List.range id).filter (isIn nodes b Operator.isTargetStore)).Pairwise (· < ·) :=
    List.pairwise_lt_range.filter _
  obtain ⟨front, hfront⟩ := List.getLast?_eq_some_iff.mp h
  have hmem : i ∈ (List.range id).filter (isIn nodes b Operator.isTargetStore) :=
    List.mem_filter.mpr ⟨List.mem_range.mpr hi, hstore⟩
  rw [hfront] at hsorted hmem
  rcases List.mem_append.mp hmem with hmem | hmem
  · exact Nat.le_of_lt ((List.pairwise_append.mp hsorted).2.2 i hmem j (List.mem_singleton_self j))
  · exact Nat.le_of_eq (List.mem_singleton.mp hmem)

theorem exists_lastStore? (hi : i < id) (hstore : isIn nodes b Operator.isTargetStore i = true) :
    ∃ j, lastStore? nodes b id = some j ∧ i ≤ j := by
  cases hlast : lastStore? nodes b id with
  | none =>
      have hmem : i ∈ (List.range id).filter (isIn nodes b Operator.isTargetStore) :=
        List.mem_filter.mpr ⟨List.mem_range.mpr hi, hstore⟩
      rw [List.getLast?_eq_none_iff.mp hlast] at hmem
      exact absurd hmem List.not_mem_nil
  | some j => exact ⟨j, rfl, le_lastStore? hlast hi hstore⟩

/-- The order of accesses makes a node wait for earlier accesses of its block. -/
theorem access_of_memoryOrder {p : Placed} (h : d ∈ memoryOrder nodes id p) :
    d < id ∧ ∃ n, nodes[d]? = some ⟨p.block, n⟩ ∧
      (n.op.isTargetStore = true ∨ n.op.isTargetLoad = true) := by
  have hlast (hd : d ∈ (lastStore? nodes p.block id).toList) : d < id ∧ ∃ n,
      nodes[d]? = some ⟨p.block, n⟩ ∧ (n.op.isTargetStore = true ∨ n.op.isTargetLoad = true) := by
    obtain ⟨hlt, hin⟩ := mem_lastStore? (Option.mem_toList.mp hd)
    obtain ⟨n, hn, hstore⟩ := isIn_eq_true.mp hin
    exact ⟨hlt, n, hn, .inl hstore⟩
  unfold memoryOrder at h
  split at h
  · rcases List.mem_append.mp h with h | h
    · obtain ⟨hlt, hin⟩ := List.mem_filter.mp h
      obtain ⟨n, hn, hload⟩ := isIn_eq_true.mp (Bool.and_eq_true_iff.mp hin).1
      exact ⟨List.mem_range.mp hlt, n, hn, .inr hload⟩
    · exact hlast h
  · split at h
    · exact hlast h
    · exact absurd h List.not_mem_nil

theorem mem_memoryOrder {p : Placed} (h : d ∈ memoryOrder nodes id p) :
    d < id ∧ blockOf? nodes d = some p.block := by
  obtain ⟨hlt, n, hn, -⟩ := access_of_memoryOrder h
  exact ⟨hlt, blockOf?_eq_some.mpr ⟨n, hn⟩⟩

theorem mem_dependencies : d ∈ dependencies nodes id ↔ ∃ p, nodes[id]? = some p ∧
    (d ∈ p.node.references ∨ d ∈ memoryOrder nodes id p) ∧ blockOf? nodes d = some p.block := by
  unfold dependencies
  cases hp : nodes[id]? with
  | none => simp
  | some p =>
      simp only [List.mem_filter, List.mem_append, beq_iff_eq, Node.references, Option.some.injEq,
        exists_eq_left']
      tauto

theorem dependencies_lt (hg : Grounded nodes) (h : d ∈ dependencies nodes id) : d < id := by
  obtain ⟨p, hp, href | hmem, -⟩ := mem_dependencies.mp h
  · exact hg id p hp d href
  · exact (mem_memoryOrder hmem).1

theorem blockOf?_dependency (h : d ∈ dependencies nodes id) :
    blockOf? nodes d = blockOf? nodes id := by
  obtain ⟨p, hp, -, hd⟩ := mem_dependencies.mp h
  rw [hd, blockOf?, hp, Option.map_some]

theorem mem_consumed : d ∈ consumed nodes ↔ ∃ id, d ∈ dependencies nodes id := by
  simp only [consumed, List.mem_flatMap, List.mem_range]
  refine ⟨fun ⟨id, _, h⟩ => ⟨id, h⟩, fun ⟨id, h⟩ => ⟨id, ?_, h⟩⟩
  obtain ⟨p, hp, -⟩ := mem_dependencies.mp h
  exact (Array.getElem?_eq_some_iff.mp hp).1

/-! ### Settled lists -/

/-- A list in which each node is new and comes after all that it depends on. -/
inductive Settled (nodes : Array Placed) : List Nat → Prop
  | nil : Settled nodes []
  | snoc {w : List Nat} {id : Nat} (hw : Settled nodes w) (hnew : id ∉ w)
      (hdeps : ∀ d ∈ dependencies nodes id, d ∈ w) : Settled nodes (w ++ [id])

/-- The list comes to `i` before it comes to `j`. -/
def Before (w : List Nat) (i j : Nat) : Prop := ∃ front back, w = front ++ j :: back ∧ i ∈ front

theorem Before.append (h : Before w i j) (v : List Nat) : Before (w ++ v) i j := by
  obtain ⟨front, back, rfl, hi⟩ := h
  exact ⟨front, back ++ v, by rw [List.append_assoc, List.cons_append], hi⟩

theorem Settled.nodup (h : Settled nodes w) : w.Nodup := by
  induction h with
  | nil => exact List.nodup_nil
  | snoc _ hnew _ ih => exact List.nodup_append_comm.mp (List.nodup_cons.mpr ⟨hnew, ih⟩)

theorem Settled.before (h : Settled nodes w) (hj : j ∈ w) (hi : i ∈ dependencies nodes j) :
    Before w i j := by
  induction h with
  | nil => exact absurd hj List.not_mem_nil
  | @snoc w id _ _ hdeps ih =>
      rcases List.mem_append.mp hj with hj | hj
      · exact (ih hj).append [id]
      · obtain rfl := List.mem_singleton.mp hj
        exact ⟨w, [], rfl, hdeps i hi⟩

theorem Before.mem_left (h : Before w i j) : i ∈ w := by
  obtain ⟨front, back, rfl, hi⟩ := h
  exact List.mem_append_left _ hi

theorem Before.trans {k : Nat} (hw : w.Nodup) (hij : Before w i j) (hjk : Before w j k) :
    Before w i k := by
  obtain ⟨front, back, hfront, hj⟩ := hjk
  obtain ⟨first, mid, rfl⟩ := List.append_of_mem hj
  obtain ⟨front', back', hfront', hi⟩ := hij
  -- `j` occurs once, so both splittings at `j` are the same
  have hsame : first = front' := by
    rw [hfront', List.append_assoc, List.cons_append] at hfront
    rw [hfront'] at hw
    have hnot : j ∉ front' := fun h =>
      List.disjoint_of_nodup_append hw h List.mem_cons_self
    have hnot' : j ∉ first := by
      rw [hfront] at hw
      exact fun h => List.disjoint_of_nodup_append hw h List.mem_cons_self
    have hidx := congrArg (List.idxOf j) hfront
    rw [List.idxOf_append_of_notMem hnot, List.idxOf_append_of_notMem hnot', List.idxOf_cons_self,
      List.idxOf_cons_self] at hidx
    exact (List.append_inj hfront (by omega)).1.symm
  exact ⟨first ++ j :: mid, back, hfront, List.mem_append_left _ (hsame ▸ hi)⟩

theorem Before.idxOf_lt (hw : w.Nodup) (h : Before w i j) : w.idxOf i < w.idxOf j := by
  obtain ⟨front, back, rfl, hi⟩ := h
  have hnot : j ∉ front := fun hmem => List.disjoint_of_nodup_append hw hmem List.mem_cons_self
  rw [List.idxOf_append_of_mem hi, List.idxOf_append_of_notMem hnot, List.idxOf_cons_self]
  have := List.idxOf_lt_length_of_mem hi
  omega

/-- Accesses that do not commute are settled in the order in which they arose. -/
theorem Settled.before_of_conflicts (h : Settled nodes w) {m n : Node}
    (hi : nodes[i]? = some ⟨b, m⟩) (hj : nodes[j]? = some ⟨b, n⟩) (hlt : i < j)
    (hconflict : m.op.conflicts n.op = true) (hmem : j ∈ w) : Before w i j := by
  induction hn : j using Nat.strongRecOn generalizing j n with
  | ind k ih =>
      subst hn
      have hdep {s : Nat} (hs : s ∈ memoryOrder nodes j ⟨b, n⟩) : Before w s j :=
        h.before hmem (mem_dependencies.mpr ⟨_, hj, .inr hs, (mem_memoryOrder hs).2⟩)
      -- through the last store `s` before `j`, which is not before `i`
      have hstep {s : Nat} (hs : lastStore? nodes b j = some s) (hle : i ≤ s)
          (horder : s ∈ memoryOrder nodes j ⟨b, n⟩)
          (haccess : m.op.isTargetStore = true ∨ m.op.isTargetLoad = true) : Before w i j := by
        obtain ⟨hslt, hin⟩ := mem_lastStore? hs
        obtain ⟨k, hk, hstore⟩ := isIn_eq_true.mp hin
        rcases Nat.eq_or_lt_of_le hle with rfl | hlt'
        · exact hdep horder
        · have hconflict' : m.op.conflicts k.op = true := by
            rcases haccess with haccess | haccess <;>
              simp [Operator.conflicts, haccess, hstore]
          exact (ih s hslt hk hlt' hconflict' (hdep horder).mem_left rfl).trans h.nodup (hdep horder)
      cases hstore : n.op.isTargetStore with
      | true =>
          have horder : memoryOrder nodes j ⟨b, n⟩
              = pendingLoads nodes b j ++ (lastStore? nodes b j).toList := if_pos hstore
          cases hload : m.op.isTargetStore with
          | true =>
              obtain ⟨s, hs, hle⟩ := exists_lastStore? hlt (isIn_eq_true.mpr ⟨m, hi, hload⟩)
              exact hstep hs hle (by rw [horder, hs]; simp) (.inl hload)
          | false =>
              have hm : m.op.isTargetLoad = true := by
                simpa [Operator.conflicts, hload] using (Bool.and_eq_true_iff.mp (by
                  simpa [Operator.conflicts, hload] using hconflict)).1
              by_cases hpending : ∃ s, lastStore? nodes b j = some s ∧ i ≤ s
              · obtain ⟨s, hs, hle⟩ := hpending
                exact hstep hs hle (by rw [horder, hs]; simp) (.inr hm)
              · refine hdep ?_
                rw [horder]
                refine List.mem_append_left _ (List.mem_filter.mpr ⟨List.mem_range.mpr hlt, ?_⟩)
                rw [Bool.and_eq_true]
                refine ⟨isIn_eq_true.mpr ⟨m, hi, hm⟩, ?_⟩
                rw [Option.all_eq_true]
                intro s hs
                have : ¬ i ≤ s := fun hle => hpending ⟨s, hs, hle⟩
                simpa using this
      | false =>
          have hm : m.op.isTargetStore = true ∧ n.op.isTargetLoad = true := by
            simpa [Operator.conflicts, hstore] using hconflict
          have horder : memoryOrder nodes j ⟨b, n⟩ = (lastStore? nodes b j).toList := by
            simp [memoryOrder, hstore, hm.2]
          obtain ⟨s, hs, hle⟩ := exists_lastStore? hlt (isIn_eq_true.mpr ⟨m, hi, hm.1⟩)
          exact hstep hs hle (by rw [horder, hs]; simp) (.inl hm.1)

/-! ### The order of a block -/

/-- What visiting nodes adds to a settled list: the nodes themselves and earlier ones that something
waits for, all of them in the block of a visited node. -/
structure Extends (nodes : Array Placed) (w ids w' : List Nat) : Prop where
  settled : Settled nodes w'
  added : ∃ new, w' = w ++ new ∧ ∀ i ∈ new, ∃ id ∈ ids, i ≤ id ∧
    (i = id ∨ i ∈ consumed nodes) ∧ blockOf? nodes i = blockOf? nodes id
  mem : ∀ id ∈ ids, id ∈ w'

theorem foldl_extends {visit : List Nat → Nat → List Nat} {ids : List Nat}
    (hvisit : ∀ id ∈ ids, ∀ v, Settled nodes v → Extends nodes v [id] (visit v id))
    (hw : Settled nodes w) : Extends nodes w ids (ids.foldl visit w) := by
  induction ids generalizing w with
  | nil => exact ⟨hw, ⟨[], by simp, by simp⟩, by simp⟩
  | cons id ids ih =>
      have hfirst := hvisit id List.mem_cons_self w hw
      have hrest := ih (fun i hi => hvisit i (List.mem_cons_of_mem id hi)) hfirst.settled
      obtain ⟨new, hnew, hprops⟩ := hfirst.added
      obtain ⟨new', hnew', hprops'⟩ := hrest.added
      rw [List.foldl_cons]
      refine ⟨hrest.settled, ⟨new ++ new', by rw [hnew', hnew, List.append_assoc], ?_⟩, ?_⟩
      · intro i hi
        rcases List.mem_append.mp hi with hi | hi
        · obtain ⟨d, hd, hi⟩ := hprops i hi
          exact ⟨d, List.mem_cons.mpr (.inl (List.mem_singleton.mp hd)), hi⟩
        · obtain ⟨d, hd, hi⟩ := hprops' i hi
          exact ⟨d, List.mem_cons_of_mem id hd, hi⟩
      · intro i hi
        rcases List.mem_cons.mp hi with rfl | hi
        · rw [hnew']
          exact List.mem_append_left _ (hfirst.mem i (List.mem_singleton_self i))
        · exact hrest.mem i hi

theorem visit_extends (hg : Grounded nodes) {fuel : Nat} (hfuel : id < fuel)
    (hw : Settled nodes w) : Extends nodes w [id] (visit nodes fuel w id) := by
  induction fuel generalizing id w with
  | zero => exact absurd hfuel (Nat.not_lt_zero id)
  | succ fuel ih =>
      rw [visit]
      by_cases hid : id ∈ w
      · rw [if_pos (List.contains_iff_mem.mpr hid)]
        exact ⟨hw, ⟨[], by simp, by simp⟩, by simpa using hid⟩
      rw [if_neg (by simpa using hid)]
      have hvisit : ∀ d ∈ dependencies nodes id, ∀ v, Settled nodes v →
          Extends nodes v [d] (visit nodes fuel v d) := fun d hd v hv =>
        ih (by have := dependencies_lt hg hd; omega) hv
      have hdeps := foldl_extends hvisit hw
      obtain ⟨new, hnew, hprops⟩ := hdeps.added
      have hbelow : ∀ i ∈ new, i < id ∧ i ∈ consumed nodes ∧
          blockOf? nodes i = blockOf? nodes id := by
        intro i hi
        obtain ⟨d, hd, hle, hcons, hblock⟩ := hprops i hi
        have hlt := dependencies_lt hg hd
        refine ⟨by omega, ?_, hblock.trans (blockOf?_dependency hd)⟩
        rcases hcons with rfl | hcons
        · exact mem_consumed.mpr ⟨id, hd⟩
        · exact hcons
      have hnot : id ∉ (dependencies nodes id).foldl (visit nodes fuel) w := by
        rw [hnew, List.mem_append]
        rintro (h | h)
        · exact hid h
        · exact Nat.lt_irrefl id (hbelow id h).1
      refine ⟨hdeps.settled.snoc hnot hdeps.mem,
        ⟨new ++ [id], by rw [hnew, List.append_assoc], ?_⟩, by simp⟩
      intro i hi
      refine ⟨id, List.mem_singleton_self id, ?_⟩
      rcases List.mem_append.mp hi with hi | hi
      · obtain ⟨hlt, hcons, hblock⟩ := hbelow i hi
        exact ⟨Nat.le_of_lt hlt, .inr hcons, hblock⟩
      · obtain rfl := List.mem_singleton.mp hi
        exact ⟨Nat.le_refl i, .inl rfl, rfl⟩

theorem mem_roots : id ∈ roots nodes b ↔ blockOf? nodes id = some b ∧ id ∉ consumed nodes := by
  simp only [roots, List.mem_append, List.mem_filter, mem_members, Bool.not_eq_true',
    List.contains_eq_mem, decide_eq_false_iff_not]
  by_cases hterm : isIn nodes b Operator.isTerminator id = true <;> simp [hterm]

theorem lt_size_of_blockOf? (h : blockOf? nodes id = some b) : id < nodes.size := by
  obtain ⟨n, hn⟩ := blockOf?_eq_some.mp h
  exact (Array.getElem?_eq_some_iff.mp hn).1

theorem foldl_visit_extends (hg : Grounded nodes) {ids : List Nat}
    (hids : ∀ id ∈ ids, blockOf? nodes id = some b) (hw : Settled nodes w) :
    Extends nodes w ids (ids.foldl (visit nodes nodes.size) w) :=
  foldl_extends (fun id hid _ hv => visit_extends hg (lt_size_of_blockOf? (hids id hid)) hv) hw

theorem blockOrder_extends (hg : Grounded nodes) (b : Nat) :
    Extends nodes [] (roots nodes b) (blockOrder nodes b) :=
  foldl_visit_extends hg (fun _ hid => (mem_roots.mp hid).1) .nil

theorem blockOrder_settled (hg : Grounded nodes) (b : Nat) : Settled nodes (blockOrder nodes b) :=
  (blockOrder_extends hg b).settled

/-- The order of a block holds the nodes of the block. -/
theorem mem_blockOrder (hg : Grounded nodes) :
    id ∈ blockOrder nodes b ↔ blockOf? nodes id = some b := by
  have hext := blockOrder_extends hg b
  constructor
  · intro hid
    obtain ⟨new, hnew, hprops⟩ := hext.added
    rw [hnew, List.nil_append] at hid
    obtain ⟨r, hr, -, -, hblock⟩ := hprops id hid
    rw [hblock, (mem_roots.mp hr).1]
  · -- downwards: a node that is no root is waited for by a later node of its block
    intro hid
    induction hk : nodes.size - id using Nat.strongRecOn generalizing id with
    | ind k ih =>
        by_cases hcons : id ∈ consumed nodes
        · obtain ⟨user, huser⟩ := mem_consumed.mp hcons
          have hblock := (blockOf?_dependency huser).symm.trans hid
          have hlt := dependencies_lt hg huser
          have hsize := lt_size_of_blockOf? hblock
          have hmem := ih (nodes.size - user) (by omega) hblock rfl
          exact (hext.settled.before hmem huser).mem_left
        · exact hext.mem id (mem_roots.mpr ⟨hid, hcons⟩)

theorem blockOrder_perm (hg : Grounded nodes) (b : Nat) :
    (blockOrder nodes b).Perm (members nodes b) := by
  refine (List.perm_ext_iff_of_nodup (blockOrder_settled hg b).nodup ?_).mpr fun id => ?_
  · exact (members_sorted nodes b).imp Nat.ne_of_lt
  · rw [mem_blockOrder hg, mem_members]

theorem eq_singleton_of_nodup {l : List Nat} {t : Nat} (hnodup : l.Nodup) (ht : t ∈ l)
    (honly : ∀ i ∈ l, i = t) : l = [t] := by
  cases l with
  | nil => exact absurd ht List.not_mem_nil
  | cons i l =>
      obtain rfl := honly i List.mem_cons_self
      have hrest : l = [] := List.eq_nil_iff_forall_not_mem.mpr fun j hj => by
        obtain rfl := honly j (List.mem_cons_of_mem i hj)
        exact (List.nodup_cons.mp hnodup).1 hj
      rw [hrest]

/-- The only terminator of a block is its last root, if nothing waits for it. -/
theorem roots_eq_append {t : Nat} {n : Node} (ht : nodes[t]? = some ⟨b, n⟩)
    (hterm : n.op.isTerminator = true) (hfree : t ∉ consumed nodes)
    (honly : ∀ i m, nodes[i]? = some ⟨b, m⟩ → m.op.isTerminator = true → i = t) :
    ∃ first, roots nodes b = first ++ [t] ∧ ∀ i ∈ first, i ≠ t ∧ blockOf? nodes i = some b := by
  have hin : isIn nodes b Operator.isTerminator t = true := isIn_eq_true.mpr ⟨n, ht, hterm⟩
  have hnodup : (members nodes b).Nodup := (members_sorted nodes b).imp Nat.ne_of_lt
  have hlast : ((members nodes b).filter (!(consumed nodes).contains ·)).filter
      (isIn nodes b Operator.isTerminator ·) = [t] := by
    refine eq_singleton_of_nodup ((hnodup.filter _).filter _) ?_ fun i hi => ?_
    · refine List.mem_filter.mpr ⟨List.mem_filter.mpr ⟨?_, by simpa using hfree⟩, hin⟩
      exact mem_members.mpr (blockOf?_eq_some.mpr ⟨n, ht⟩)
    · obtain ⟨m, hm, hkind⟩ := isIn_eq_true.mp (List.mem_filter.mp hi).2
      exact honly i m hm hkind
  refine ⟨_, congrArg _ hlast, fun i hi => ?_⟩
  obtain ⟨hi, hkind⟩ := List.mem_filter.mp hi
  refine ⟨?_, mem_members.mp (List.mem_filter.mp hi).1⟩
  rintro rfl
  simp [hin] at hkind

/-- The only terminator of a block comes last, if nothing waits for it. -/
theorem blockOrder_eq_append (hg : Grounded nodes) {t : Nat} {n : Node}
    (ht : nodes[t]? = some ⟨b, n⟩) (hterm : n.op.isTerminator = true) (hfree : t ∉ consumed nodes)
    (honly : ∀ i m, nodes[i]? = some ⟨b, m⟩ → m.op.isTerminator = true → i = t) :
    ∃ body, blockOrder nodes b = body ++ [t] := by
  have hblock : blockOf? nodes t = some b := blockOf?_eq_some.mpr ⟨n, ht⟩
  obtain ⟨first, hroots, hfirst⟩ := roots_eq_append ht hterm hfree honly
  rw [blockOrder, hroots, List.foldl_append, List.foldl_cons, List.foldl_nil]
  have hext := foldl_visit_extends hg (fun i hi => (hfirst i hi).2) .nil
  have hnot : t ∉ first.foldl (visit nodes nodes.size) [] := by
    obtain ⟨new, hnew, hprops⟩ := hext.added
    rw [hnew, List.nil_append]
    intro hmem
    obtain ⟨r, hr, -, heq | hcons, -⟩ := hprops t hmem
    · exact (hfirst r hr).1 heq.symm
    · exact hfree hcons
  obtain ⟨fuel, hfuel⟩ : ∃ fuel, nodes.size = fuel + 1 :=
    ⟨nodes.size - 1, by have := lt_size_of_blockOf? hblock; omega⟩
  generalize first.foldl (visit nodes nodes.size) [] = w at hnot
  rw [hfuel, visit, if_neg (by simpa using hnot)]
  exact ⟨_, rfl⟩

/-! ### The scheduled graph -/

section

variable {blocks : Array Block}

/-- Every node lies in an existing block. -/
def Housed (blocks : Array Block) (nodes : Array Placed) : Prop :=
  ∀ (i : Nat) (p : Placed), nodes[i]? = some p → p.block < blocks.size

theorem mem_order (hg : Grounded nodes) (hh : Housed blocks nodes) :
    id ∈ order blocks.size nodes ↔ id < nodes.size := by
  simp only [order, List.mem_flatMap, List.mem_range, mem_blockOrder hg]
  constructor
  · rintro ⟨b, -, hb⟩
    exact lt_size_of_blockOf? hb
  · intro hlt
    exact ⟨nodes[id].block, hh id _ (Array.getElem?_eq_getElem hlt),
      blockOf?_eq_some.mpr ⟨nodes[id].node, Array.getElem?_eq_getElem hlt⟩⟩

theorem order_nodup (hg : Grounded nodes) (count : Nat) : (order count nodes).Nodup := by
  refine List.nodup_flatMap.mpr ⟨fun b _ => (blockOrder_settled hg b).nodup, ?_⟩
  refine List.nodup_range.imp fun {b c} hne => ?_
  intro id hb hc
  rw [mem_blockOrder hg] at hb hc
  exact hne (Option.some.inj (hb.symm.trans hc))

/-- The nodes of a block follow one another in the whole order. -/
theorem filter_order (hg : Grounded nodes) (hb : b < blocks.size) :
    (order blocks.size nodes).filter (blockOf? nodes · == some b) = blockOrder nodes b := by
  have hfilter (c : Nat) : (blockOrder nodes c).filter (blockOf? nodes · == some b)
      = if c = b then blockOrder nodes b else [] := by
    split
    · next heq =>
        subst heq
        exact List.filter_eq_self.mpr fun id hid => by simpa using (mem_blockOrder hg).mp hid
    · next hne =>
        refine List.filter_eq_nil_iff.mpr fun id hid => ?_
        rw [(mem_blockOrder hg).mp hid]
        simpa using hne
  have hnone {cs : List Nat} (hcs : ∀ c ∈ cs, c ≠ b) :
      cs.flatMap (fun c => (blockOrder nodes c).filter (blockOf? nodes · == some b)) = [] := by
    refine List.flatMap_eq_nil_iff.mpr fun c hc => ?_
    rw [hfilter, if_neg (hcs c hc)]
  rw [order, List.filter_flatMap, Graph.range_split hb, List.flatMap_append, List.flatMap_cons,
    hnone fun c hc => Nat.ne_of_lt (List.mem_range.mp hc),
    hnone fun c hc => by have := (List.mem_range'_1.mp hc).1; omega, hfilter, if_pos rfl,
    List.nil_append, List.append_nil]

/-- The place of a node in the new graph. -/
def place (blocks : Array Block) (nodes : Array Placed) (id : Nat) : Nat :=
  (order blocks.size nodes).idxOf id

theorem place_inj (hg : Grounded nodes) (hh : Housed blocks nodes) (hi : i < nodes.size)
    (h : place blocks nodes j = place blocks nodes i) : j = i := by
  have hmem := (mem_order hg hh).mpr hi
  exact ((List.idxOf_inj hmem).mp h.symm).symm

@[simp] theorem schedule_blocks : (schedule blocks nodes).blocks = blocks := rfl

/-- The node at an index of the order, with its references changed. -/
def movedNode (blocks : Array Block) (nodes : Array Placed) (id : Nat) : Option Placed :=
  nodes[id]?.map fun p => { p with node := renumber (place blocks nodes) p.node }

theorem schedule_nodes (hg : Grounded nodes) (hh : Housed blocks nodes) :
    (schedule blocks nodes).nodes.toList.map some
      = (order blocks.size nodes).map (movedNode blocks nodes) := by
  have hall : ∀ id ∈ order blocks.size nodes, (movedNode blocks nodes id).isSome := by
    intro id hid
    rw [movedNode, Array.getElem?_eq_getElem ((mem_order hg hh).mp hid)]
    rfl
  have hhoused : ∀ p ∈ (order blocks.size nodes).filterMap (movedNode blocks nodes),
      p.block < blocks.size := by
    intro p hp
    obtain ⟨id, -, hid⟩ := List.mem_filterMap.mp hp
    obtain ⟨q, hq, rfl⟩ := Option.map_eq_some_iff.mp hid
    exact hh id q hq
  have hnodes : (schedule blocks nodes).nodes.toList
      = (order blocks.size nodes).filterMap (movedNode blocks nodes) := by
    change (Array.filter _ _).toList = _
    rw [Array.toList_filter]
    exact List.filter_eq_self.mpr fun p hp => decide_eq_true (hhoused p hp)
  rw [hnodes]
  generalize order blocks.size nodes = ids at hall
  induction ids with
  | nil => rfl
  | cons id ids ih =>
      obtain ⟨p, hp⟩ := Option.isSome_iff_exists.mp (hall id List.mem_cons_self)
      rw [List.filterMap_cons_some hp, List.map_cons, List.map_cons, hp,
        ih fun i hi => hall i (List.mem_cons_of_mem id hi)]

theorem schedule_nodes_size (hg : Grounded nodes) (hh : Housed blocks nodes) :
    (schedule blocks nodes).nodes.size = (order blocks.size nodes).length := by
  have h := congrArg List.length (schedule_nodes hg hh)
  simpa using h

/-- Every node is found at its place. -/
theorem schedule_node (hg : Grounded nodes) (hh : Housed blocks nodes) {p : Placed}
    (hp : nodes[id]? = some p) : (schedule blocks nodes).nodes[place blocks nodes id]?
      = some ⟨p.block, renumber (place blocks nodes) p.node⟩ := by
  have hmem : id ∈ order blocks.size nodes :=
    (mem_order hg hh).mpr (Array.getElem?_eq_some_iff.mp hp).1
  have h := congrArg (·[place blocks nodes id]?) (schedule_nodes hg hh)
  simp only [List.getElem?_map, place, List.getElem?_idxOf hmem, Option.map_some] at h
  rw [movedNode, hp, Option.map_some, Option.map_eq_some_iff] at h
  obtain ⟨q, hq, hsome⟩ := h
  rw [← Array.getElem?_toList]
  exact hq.trans hsome

theorem range_eq_places (hg : Grounded nodes) : List.range (order blocks.size nodes).length
    = (order blocks.size nodes).map (place blocks nodes) := by
  refine List.ext_getElem (by simp) fun k hk hk' => ?_
  rw [List.getElem_range, List.getElem_map, place, (order_nodup hg _).idxOf_getElem]

/-- The nodes of a block of the new graph are the places of the order of the block. -/
theorem schedule_members (hg : Grounded nodes) (hh : Housed blocks nodes) (hb : b < blocks.size) :
    (schedule blocks nodes).members b = (blockOrder nodes b).map (place blocks nodes) := by
  rw [Graph.members, schedule_nodes_size hg hh, range_eq_places hg, List.filter_map, ← filter_order hg hb]
  refine congrArg _ (List.filter_congr fun id hid => ?_)
  have hlt := (mem_order hg hh).mp hid
  have hp := Array.getElem?_eq_getElem hlt
  rw [Function.comp_apply, Graph.blockOf?, schedule_node hg hh hp, blockOf?, hp]
  rfl

end

end Schedule

end Isel
