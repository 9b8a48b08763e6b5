import Isel.Proofs.Linearization
import Isel.Proofs.Liveness

/-! Selection keeps scopes. In a program whose values are in scope and whose edges go forward, what a new
node refers to is made in a block that dominates its own, and so the selected graph is one for which
registers and code can be found. -/

namespace Isel

/-- A state of memory: where it arrives, or an update of one. -/
inductive IsState (node? : Nat → Option Node) : Nat → Prop
  | arrives {i : Nat} {n : Node} (node : node? i = some n) (op : n.op = .state) : IsState node? i
  | updates {i v : Nat} {n : Node} (node : node? i = some n) (op : n.op = .updateState)
      (input : n.inputs[0]? = some v) (rest : IsState node? v) : IsState node? i

namespace Operator

/-- Operators that every target has. -/
def isGeneric : Operator → Bool
  | target _ => false
  | _ => true

theorem isTerminator_of_resultType {op : Operator} (h : op.resultType.isSome = true) :
    op.isTerminator = false := by
  cases op with
  | target op => cases op <;> first | rfl | exact absurd h (by simp [resultType])
  | _ => first | rfl | exact absurd h (by simp [resultType])

theorem isSome_resultType {op : Operator} {k : Kind} (h : op.kind? = some k) :
    op.resultType.isSome = true := by
  unfold kind? at h
  split at h
  · rfl
  · rfl
  · obtain ⟨ty, hty, -⟩ := Option.map_eq_some_iff.mp h
    rw [hty]
    rfl

theorem eq_state_of_kind? {op : Operator} (h : op.kind? = some .state) :
    op = .state ∨ op = .updateState := by
  cases op with
  | state => exact .inl rfl
  | updateState => exact .inr rfl
  | _ => exact absurd h (by simp [kind?])

end Operator

namespace Graph

variable {g : Graph} {b c id r s : Nat} {n : Node}

/-- Generic operators, each of them on nodes that have values. Loads and stores take states of memory;
everywhere else a state can be used as the number that it is. -/
structure Generic (g : Graph) : Prop where
  operators : ∀ id n, g.node? id = some n → n.op.isGeneric = true
  inputs : ∀ id n, g.node? id = some n → ∀ v ∈ n.inputs, ∃ m ∈ g.node? v,
    m.op.resultType.isSome = true
  states : ∀ id n, g.node? id = some n → n.op.isAccess = true →
    ∃ s, n.inputs[0]? = some s ∧ IsState g.node? s

theorem Generic.op_ne_target (hg : g.Generic) (hn : g.node? id = some n) (t : Target) :
    n.op ≠ .target t := by
  intro hop
  have hgeneric := hg.operators id n hn
  rw [hop] at hgeneric
  exact absurd hgeneric Bool.false_ne_true

namespace WellTyped

theorem isState (hg : g.WellTyped) (hscoped : g.Scoped) (hs : g.kindOf? s = some .state) :
    IsState g.node? s := by
  -- what a node refers to comes before it in the layout, so a chain of updates ends
  induction hidx : g.layout.idxOf s using Nat.strongRecOn generalizing s with
  | ind i ih =>
  obtain ⟨n, hn, hkind⟩ := Option.bind_eq_some_iff.mp hs
  rcases Operator.eq_state_of_kind? hkind with hop | hop
  · exact .arrives hn hop
  · obtain ⟨⟨ks, hks, haccepts⟩, -⟩ := hg s n hn
    rw [hop] at haccepts
    obtain rfl : ks = [.state] := haccepts
    obtain ⟨v, hinputs⟩ := List.length_eq_one_iff.mp hks.length_eq
    obtain ⟨b, hb⟩ := node?_eq_some.mp hn
    have hv : v ∈ n.references := List.mem_append_left _ (by simp [hinputs])
    obtain ⟨hprecedes, -⟩ := hscoped s n b hb v hv
    rw [hinputs] at hks
    exact .updates hn hop (by simp [hinputs])
      (ih _ (hidx ▸ hprecedes) (List.forall₂_cons.mp hks).1 rfl)

/-- The first operand of an access is a state. -/
theorem exists_state (hg : g.WellTyped) (hn : g.node? id = some n) (haccess : n.op.isAccess = true) :
    ∃ s, n.inputs[0]? = some s ∧ g.kindOf? s = some .state := by
  obtain ⟨⟨ks, hkinds, haccepts⟩, -⟩ := hg id n hn
  have hhead : ∃ ks', ks = .state :: ks' := by
    cases hop : n.op with
    | load op | store op =>
        rw [hop] at haccepts
        exact ⟨_, haccepts⟩
    | _ => rw [hop] at haccess; exact absurd haccess Bool.false_ne_true
  obtain ⟨ks', rfl⟩ := hhead
  obtain ⟨s, vs, hs, -, heq⟩ := List.forall₂_cons_right_iff.mp hkinds
  exact ⟨s, by rw [heq]; rfl, hs⟩

/-- Where states are kept apart from numbers, accesses take states. -/
theorem generic (hg : g.WellTyped) (hscoped : g.Scoped) : g.Generic where
  operators id n hn := by
    obtain ⟨⟨ks, -, haccepts⟩, -⟩ := hg id n hn
    cases hop : n.op with
    | target t =>
        rw [hop] at haccepts
        exact haccepts.elim
    | _ => rfl
  inputs id n hn v hv := by
    obtain ⟨⟨ks, hks, -⟩, -⟩ := hg id n hn
    obtain ⟨k, -, hk⟩ := exists_of_forall₂_right hks.flip hv
    obtain ⟨m, hm, hkind⟩ := Option.bind_eq_some_iff.mp hk
    exact ⟨m, hm, Operator.isSome_resultType hkind⟩
  states id n hn haccess := by
    obtain ⟨s, hs, hkind⟩ := hg.exists_state hn haccess
    exact ⟨s, hs, hg.isState hscoped hkind⟩

end WellTyped

/-- A program of generic operators that keeps the rules under which each of its values is there when it
is needed, and without loops. -/
structure ForwardProgram (g : Graph) : Prop where
  flawless : g.flaw? = none
  generic : g.Generic
  terminated : g.Terminated
  forward : g.Forward
  inScope : g.Scoped

theorem precedes_of_block_lt (hr : g.blockOf? r = some c) (hid : g.blockOf? id = some b) (h : c < b) :
    g.Precedes r id := by
  obtain ⟨done, rest, hmembers⟩ := List.append_of_mem (mem_members.mpr hid)
  obtain ⟨back, hlayout⟩ := layout_at (blockOf?_lt hid) hmembers
  refine precedes_of_passed hlayout (List.mem_append_left _ (List.mem_flatMap.mpr ⟨c, ?_⟩))
  exact ⟨List.mem_range.mpr h, mem_members.mpr hr⟩

theorem precedes_of_lt (hr : g.blockOf? r = some b) (hid : g.blockOf? id = some b) (h : r < id) :
    g.Precedes r id := by
  obtain ⟨done, rest, hmembers⟩ := List.append_of_mem (mem_members.mpr hid)
  obtain ⟨back, hlayout⟩ := layout_at (blockOf?_lt hid) hmembers
  have hmem := mem_members.mpr hr
  have hsorted := g.members_sorted b
  rw [hmembers] at hmem hsorted
  refine precedes_of_passed hlayout (List.mem_append_right _ ?_)
  rcases List.mem_append.mp hmem with hr | hr
  · exact hr
  · have hle : id ≤ r := by
      rcases List.mem_cons.mp hr with rfl | hr
      · exact Nat.le_refl _
      · exact Nat.le_of_lt ((List.pairwise_cons.mp (List.pairwise_append.mp hsorted).2.1).1 r hr)
    omega

theorem block_le_of_precedes (hr : g.blockOf? r = some c) (hid : g.blockOf? id = some b)
    (h : g.Precedes r id) : c ≤ b := by
  by_contra hlt
  exact Nat.lt_asymm h (precedes_of_block_lt hid hr (by omega))

/-- A generic graph without flaws whose values are in scope can be put in order. -/
theorem arrangeable_of_scoped (hflaw : g.flaw? = none) (hgeneric : g.Generic) (hscoped : g.Scoped) :
    g.Arrangeable where
  closed := by
    refine Array.all_eq_true_iff_forall_mem.mpr fun p hp => List.all_eq_true.mpr fun r hr => ?_
    obtain ⟨id, hlt, rfl⟩ := Array.mem_iff_getElem.mp hp
    obtain ⟨-, c, hc, -⟩ := hscoped id _ _ (Array.getElem?_eq_getElem hlt) r hr
    simpa using id_lt_of_blockOf? hc
  acyclic := acyclic_of_rank g.layout.idxOf fun id _ p hp r hr => (hscoped id _ _ hp r hr).1
  control id n hn c hc := by
    obtain ⟨b, hb⟩ := node?_eq_some.mp hn
    exact controlBlock_lt hflaw hb hc
  successors b block hblock c hc := Edge.lt ⟨block, hblock, hc⟩ hflaw
  single b i j n m hi hj hn hm := by
    have hi' := getLast?_of_isTerminator hflaw hi hn
    rw [getLast?_of_isTerminator hflaw hj hm] at hi'
    exact (Option.some.inj hi').symm
  inputs id n hn v hv m hm := by
    obtain ⟨m', hm', hresult⟩ := hgeneric.inputs id n hn v hv
    obtain rfl := Option.some.inj (hm'.symm.trans hm)
    exact Operator.isTerminator_of_resultType hresult
  waits id b n m hn v hv hm := by
    obtain ⟨hprecedes, -⟩ := hscoped id n b hn v (List.mem_append_right _ hv)
    by_contra hterm
    obtain ⟨done, rest, hmembers⟩ := List.append_of_mem
      (mem_members.mpr (blockOf?_eq_some.mpr ⟨m, hm⟩))
    obtain rfl := rest_eq_nil hflaw hmembers hm (by simpa using hterm)
    obtain ⟨back, hlayout⟩ := layout_at (blockOf?_lt (blockOf?_eq_some.mpr ⟨m, hm⟩)) hmembers
    have hid := mem_members.mpr (blockOf?_eq_some.mpr ⟨n, hn⟩)
    rw [hmembers] at hid
    rcases List.mem_append.mp hid with hid | hid
    · exact Nat.lt_asymm hprecedes (precedes_of_passed hlayout (List.mem_append_right _ hid))
    · rw [List.mem_singleton.mp hid] at hprecedes
      exact Nat.lt_irrefl _ hprecedes

theorem ForwardProgram.arrangeable (hg : g.ForwardProgram) : g.Arrangeable :=
  arrangeable_of_scoped hg.flawless hg.generic hg.inScope

end Graph

namespace Lowering

open Select Schedule

variable {g : Graph} {config : Config} {l : Lowering} {b c i r : Nat} {n : Node}

/-- What stands for a node is in a block that dominates that of the node. -/
theorem Successor.scoped {y y' : Nat} (h : Successor g config l y y') (hg : g.Scoped)
    (hy : g.blockOf? y = some c) :
    ∃ d m, l.nodes[y']? = some ⟨d, m⟩ ∧ d ≤ c ∧ g.Dominates d c := by
  induction h generalizing c with
  | @stands y y' b x n hn _ _ hx _ _ ih =>
      obtain rfl := Option.some.inj ((Graph.blockOf?_eq_some.mpr ⟨n, hn⟩).symm.trans hy)
      obtain ⟨hprecedes, a, ha, hdom⟩ := hg y n b hn x (mem_references_of_input hx)
      obtain ⟨d, m, hm, hle, hda⟩ := ih ha
      have hab := Graph.block_le_of_precedes ha hy hprecedes
      exact ⟨d, m, hm, Nat.le_trans hle hab, hda.trans hdom⟩
  | @records l₁ y b n m hn _ _ _ _ hnew =>
      obtain rfl := Option.some.inj ((Graph.blockOf?_eq_some.mpr ⟨n, hn⟩).symm.trans hy)
      exact ⟨b, m, hnew, Nat.le_refl _, .refl g b⟩

theorem Referred.scoped (h : Referred g l b r) (hsteps : Steps g config {} l) (hg : g.Scoped) :
    ∃ d m, l.nodes[r]? = some ⟨d, m⟩ ∧ d ≤ b ∧ g.Dominates d b := by
  have hreference {id v a : Nat} {n : Node} (hn : g.nodes[id]? = some ⟨a, n⟩) (ha : a ≤ b)
      (hdom : g.Dominates a b) (hv : v ∈ n.references) (hlowered : l.lowered.get? v = some r) :
      ∃ d m, l.nodes[r]? = some ⟨d, m⟩ ∧ d ≤ b ∧ g.Dominates d b := by
    obtain ⟨hprecedes, c, hc, hca⟩ := hg id n a hn v hv
    obtain ⟨d, m, hm, hle, hdc⟩ := (hsteps.successor hlowered).scoped hg hc
    have hcle := Graph.block_le_of_precedes hc (Graph.blockOf?_eq_some.mpr ⟨n, hn⟩) hprecedes
    exact ⟨d, m, hm, by omega, hdc.trans (hca.trans hdom)⟩
  cases h with
  | input hn hv hlowered =>
      exact hreference hn (Nat.le_refl _) (.refl g b) (List.mem_append_left _ hv) hlowered
  | control hn hv hlowered =>
      exact hreference hn (Nat.le_refl _) (.refl g b) (List.mem_append_right _ hv) hlowered
  | @compared id c v n p hn hc hp hv hlowered =>
      obtain ⟨a, ha⟩ := Graph.node?_eq_some.mp hp
      have hblock := Graph.blockOf?_eq_some.mpr ⟨p, ha⟩
      obtain ⟨hprecedes, a', ha', hdom⟩ := hg id n b hn c (List.mem_append_left _ hc)
      obtain rfl := Option.some.inj (hblock.symm.trans ha')
      have hle := Graph.block_le_of_precedes hblock (Graph.blockOf?_eq_some.mpr ⟨n, hn⟩) hprecedes
      exact hreference ha hle hdom (List.mem_append_left _ hv) hlowered
  | helper hq => exact ⟨b, _, hq, Nat.le_refl _, .refl g b⟩

/-- The new nodes in order are in scope. -/
theorem Steps.scoped_schedule (h : Steps g config {} l) (hg : g.Scoped) :
    (schedule g.blocks l.nodes).Scoped := by
  have hground := h.grounded
  have hhoused := h.housed
  intro id n b hn r hr
  obtain ⟨i, ⟨b', m⟩, hi, rfl, heq⟩ := exists_of_schedule_node hground hhoused hn
  obtain ⟨rfl, rfl⟩ := Placed.mk.inj heq
  rw [references_renumber] at hr
  obtain ⟨r, href, rfl⟩ := List.mem_map.mp hr
  obtain ⟨l₁, hsteps, hkeeps, -, hreferred⟩ := h.referred hi href
  obtain ⟨d, q, hq₁, hle, hdom⟩ := hreferred.scoped hsteps hg
  have hq := hkeeps.nodes hq₁
  have hblock : (schedule g.blocks l.nodes).blockOf? (place g.blocks l.nodes r) = some d :=
    Graph.blockOf?_eq_some.mpr ⟨_, schedule_node hground hhoused hq⟩
  have hid : (schedule g.blocks l.nodes).blockOf? (place g.blocks l.nodes i) = some b :=
    Graph.blockOf?_eq_some.mpr ⟨_, hn⟩
  refine ⟨?_, d, hblock, hdom.of_blocks rfl⟩
  rcases Nat.lt_or_eq_of_le hle with hlt | rfl
  · exact Graph.precedes_of_block_lt hblock hid hlt
  · exact Graph.precedes_of_lt hblock hid (h.place_lt hq hi (.inl href))

/-- A terminator is lowered to one, and every block keeps it. -/
theorem Steps.terminated_schedule (h : Steps g config {} l) (hg : g.Arrangeable)
    (hall : ∀ id < g.nodes.size, absorbs g config id = false → ∃ new, l.lowered.get? id = some new)
    (hterminated : g.Terminated) : (schedule g.blocks l.nodes).Terminated := by
  intro b hb
  obtain ⟨id, n, hlast, hnode, hterm⟩ := hterminated b hb
  obtain ⟨m, hm⟩ := Graph.blockOf?_eq_some.mp (Graph.mem_members.mp (List.mem_of_getLast? hlast))
  obtain rfl := Option.some.inj ((Graph.node?_eq_some.mpr ⟨b, hm⟩).symm.trans hnode)
  have hfree : absorbs g config id = false := by
    refine absorbs_eq_false hnode fun w c hop => ?_
    rw [hop] at hterm
    exact absurd hterm Bool.false_ne_true
  obtain ⟨new, hnew⟩ := hall id (Array.getElem?_eq_some_iff.mp hm).1 hfree
  obtain ⟨q, hq, hqterm⟩ := (h.successor hnew).block_of_terminator hm hterm
  refine ⟨_, renumber (place g.blocks l.nodes) q, h.getLast?_members hg hq hqterm, ?_, hqterm⟩
  exact Graph.node?_eq_some.mpr ⟨b, schedule_node h.grounded h.housed hq⟩

end Lowering

section Select

variable {g g' : Graph} {config config' : Config} {stats : Stats}

/-- A selected graph is what the steps of lowering lead to, in order. -/
theorem exists_steps (hg : g.Arrangeable) (hselect : select g config = .ok (g', stats)) :
    ∃ l, Lowering.Steps g config {} l ∧ g' = schedule g.blocks l.nodes ∧
      ∀ id < g.nodes.size, Select.absorbs g config id = false → ∃ new, l.lowered.get? id = some new := by
  obtain ⟨l, hlower, rfl⟩ := select_ok hselect
  obtain ⟨hsteps, hall⟩ := (Lowering.lowerAll_meets config hg.closed hg.acyclic).of_ok hlower
  exact ⟨l, hsteps, rfl, hall⟩

/-- Registers and code for a selected program. -/
theorem Graph.ForwardProgram.compiled (hg : g.ForwardProgram) (hblocks : 0 < g.blocks.size)
    (hselect : select g config = .ok (g', stats)) {forced : List (Nat × Reg)}
    (hforced : ∀ p ∈ forced, p.2 ≠ .gpr Gpr.state) {a : Allocation} {code : Code}
    (hallocate : Pool.allocate forced g' = .ok a) (hemit : emit g' a config' = .ok code) :
    Emission.Compiled g' forced a config' code := by
  obtain ⟨l, hsteps, rfl, hall⟩ := exists_steps hg.arrangeable hselect
  exact
    { flawless := hsteps.flaw?_schedule hg.arrangeable
      terminated := hsteps.terminated_schedule hg.arrangeable hall hg.terminated
      forward := hg.forward
      inScope := hsteps.scoped_schedule hg.inScope
      nonempty := hblocks
      unforced := hforced
      allocated := hallocate
      emitted := hemit }

end Select

end Isel
