import Isel.Proofs.LoweringSteps
import Isel.Proofs.SelectionRun

/-! Selection writes the nodes of a graph in an order in which it can be read. However references lead
through the source, every lowered node is found once in its block, after the nodes of the block that
it depends on, and a terminator is the last of its block. -/

namespace Isel

/-- A copy ends a block if the node does. -/
theorem Operator.isTerminator_of_copied? {op op' : Operator} (h : op.copied? = some op') :
    op'.isTerminator = op.isTerminator := by
  cases op with
  | intBinary w op =>
      cases w with
      | w32 =>
          cases h
          rfl
      | w64 =>
          simp only [copied?] at h
          split at h <;> cases h <;> rfl
  | compare w c | address w =>
      cases w with
      | w32 => cases h <;> rfl
      | w64 => cases h <;> rfl
  | floatBinary w op =>
      cases op with
      | arith op =>
          cases h
          rfl
      | copysign => cases h
  | typedRet ty =>
      obtain rfl := Option.some.inj h
      cases ty <;> rfl
  | _ => cases h <;> rfl

theorem Operator.isTerminator_of_access {op : Operator}
    (h : op.isTargetStore = true ∨ op.isTargetLoad = true) : op.isTerminator = false := by
  cases op with
  | target op => cases op <;> simp_all [isTargetStore, isTargetLoad, isTerminator]
  | _ => simp [isTargetStore, isTargetLoad] at h

namespace Lowering

open Select

variable {g : Graph} {config : Config} {l l₁ : Lowering} {b id r : Nat} {n m : Node}

theorem Aid.isTerminator (h : Aid g config l b n m) : m.op.isTerminator = false := by
  cases h <;> rfl

theorem Form.isTerminator (h : Form g config l b id n m) :
    m.op.isTerminator = n.op.isTerminator := by
  cases h with
  | copied hop => exact Operator.isTerminator_of_copied? hop
  | signed => rfl
  | compared hop | loaded hop | stored hop => exact (congrArg Operator.isTerminator hop).symm
  | fused hop | branched hop | branched32 hop => exact (congrArg Operator.isTerminator hop).symm

/-! ### What new nodes refer to -/

/-- A new node that one of block `b` refers to: what stands for something that a node of the block
refers to, or for an operand of the comparison that a branch takes over, or a helper. -/
inductive Referred (g : Graph) (l : Lowering) (b r : Nat) : Prop
  | input {id v : Nat} {n : Node} (node : g.nodes[id]? = some ⟨b, n⟩) (input : v ∈ n.inputs)
      (lowered : l.lowered.get? v = some r)
  | compared {id c v : Nat} {n p : Node} (node : g.nodes[id]? = some ⟨b, n⟩) (input : c ∈ n.inputs)
      (comparison : g.node? c = some p) (operand : v ∈ p.inputs) (lowered : l.lowered.get? v = some r)
  | control {id v : Nat} {n : Node} (node : g.nodes[id]? = some ⟨b, n⟩) (control : v ∈ n.controlNodes)
      (lowered : l.lowered.get? v = some r)
  | helper {q : Node} (node : l.nodes[r]? = some ⟨b, q⟩) (plain : q.op.isTerminator = false)

theorem Referred.of_input (hn : g.nodes[id]? = some ⟨b, n⟩) {index v : Nat}
    (hv : n.inputs[index]? = some v) (hr : l.lowered.get? v = some r) : Referred g l b r :=
  .input hn (List.mem_of_getElem? hv) hr

theorem Referred.of_operand (hn : g.nodes[id]? = some ⟨b, n⟩) {v : Nat} (hv : Operand g config n v)
    (hr : l.lowered.get? v = some r) : Referred g l b r := by
  rcases hv with hv | ⟨c, p, -, hc, -, hp, hv⟩
  · exact .input hn hv hr
  · exact .compared hn (List.mem_of_mem_head? hc) hp hv hr

theorem Referred.of_controls (hn : g.nodes[id]? = some ⟨b, n⟩) {control : List Control}
    (h : List.Forall₂ (Controls l) n.control control) (hr : r ∈ control.filterMap Control.node?) :
    Referred g l b r := by
  obtain ⟨c', hc', hnode⟩ := List.mem_filterMap.mp hr
  obtain ⟨c, hc, hcontrols⟩ := exists_of_forall₂_right h hc'
  cases hcontrols with
  | block => exact absurd hnode (by simp [Control.node?])
  | @node v v' hlowered =>
      obtain rfl : v' = r := by simpa [Control.node?] using hnode
      exact .control hn (List.mem_filterMap.mpr ⟨.node v, hc, rfl⟩) hlowered

theorem Compared.referred {p : Node} {w : IntWidth} {c : Comparison} {inputs : List Nat}
    (h : Compared l b p w c inputs)
    (hp : ∀ v v', v ∈ p.inputs → l.lowered.get? v = some v' → Referred g l b v') (hr : r ∈ inputs) :
    Referred g l b r := by
  cases h with
  | same hx hy hx' hy' =>
      rcases List.mem_pair.mp hr with rfl | rfl
      · exact hp _ _ (List.mem_of_getElem? hx) hx'
      · exact hp _ _ (List.mem_of_getElem? hy) hy'
  | widened _ _ _ _ hu hv =>
      rcases List.mem_pair.mp hr with rfl | rfl
      · exact .helper hu rfl
      · exact .helper hv rfl

theorem Guards.referred {bytes state address space checked : Nat}
    (h : Guards l b bytes state address space checked) (hr : r = space ∨ r = checked) :
    Referred g l b r := by
  rcases hr with rfl | rfl
  · exact .helper h.space rfl
  · obtain ⟨size, -, hchecked⟩ := h.checked
    exact .helper hchecked rfl

theorem Aid.referred (h : Aid g config l b n m) (hn : g.nodes[id]? = some ⟨b, n⟩)
    (hr : r ∈ m.references) : Referred g l b r := by
  cases h with
  | @extension v v' signed hoperand hlowered =>
      obtain rfl := List.mem_singleton.mp (show r ∈ [v'] from hr)
      exact .of_operand hn hoperand hlowered
  | @magnitude w v v' _ hinput hlowered =>
      obtain rfl := List.mem_singleton.mp (show r ∈ [v'] from hr)
      exact .of_input hn hinput hlowered
  | @space s s' _ hinput hlowered =>
      obtain rfl := List.mem_singleton.mp (show r ∈ [s'] from hr)
      exact .of_input hn hinput hlowered
  | @size s s' _ hinput hlowered =>
      obtain rfl := List.mem_singleton.mp (show r ∈ [s'] from hr)
      exact .of_input hn hinput hlowered
  | @check s a s' a' size bytes _ hs ha hs' ha' hsize =>
      rcases List.mem_cons.mp (show r ∈ [s', a', size] from hr) with rfl | hr
      · exact .of_input hn hs hs'
      · rcases List.mem_pair.mp hr with rfl | rfl
        · exact .of_input hn ha ha'
        · exact .helper hsize rfl

theorem Form.referred (h : Form g config l b id n m) (hn : g.nodes[id]? = some ⟨b, n⟩)
    (hr : r ∈ m.references) : Referred g l b r := by
  cases h with
  | copied _ _ hcontrol hinputs =>
      rcases List.mem_append.mp hr with hr | hr
      · obtain ⟨v, hv, hlowered⟩ := exists_of_forall₂_right hinputs hr
        exact .input hn hv hlowered
      · exact .of_controls hn hcontrol hr
  | compared _ hoperands =>
      rw [Node.references, Node.controlNodes, List.filterMap_nil, List.append_nil] at hr
      exact hoperands.referred (fun _ _ hv hv' => .input hn hv hv') hr
  | signed _ _ hy _ hy' hu =>
      rw [Node.references, Node.controlNodes, List.filterMap_nil, List.append_nil] at hr
      rcases List.mem_pair.mp hr with rfl | rfl
      · exact .helper hu rfl
      · exact .of_input hn hy hy'
  | loaded _ hcontrol hs _ hs' _ hguards =>
      rcases List.mem_append.mp hr with hr | hr
      · rcases List.mem_cons.mp hr with rfl | hr
        · exact .of_input hn hs hs'
        · exact hguards.referred (List.mem_pair.mp hr)
      · exact .of_controls hn hcontrol hr
  | @stored op s a v state address value space checked _ _ hcontrol hs _ hv hs' _ hv' hguards =>
      rcases List.mem_append.mp hr with hr | hr
      · rcases List.mem_append.mp (show r ∈ [state, space, checked] ++ [value] from hr) with hr | hr
        · rcases List.mem_cons.mp hr with rfl | hr
          · exact .of_input hn hs hs'
          · exact hguards.referred (List.mem_pair.mp hr)
        · obtain rfl := List.mem_singleton.mp hr
          exact .of_input hn hv hv'
      · exact .of_controls hn hcontrol hr
  | fused _ hcontrol hhead _ hp _ hoperands =>
      rcases List.mem_append.mp hr with hr | hr
      · exact hoperands.referred
          (fun _ _ hv hv' => .compared hn (List.mem_of_mem_head? hhead) hp hv hv') hr
      · exact .of_controls hn hcontrol hr
  | branched _ hcontrol hhead hv =>
      rcases List.mem_append.mp hr with hr | hr
      · obtain rfl := List.mem_singleton.mp hr
        exact .input hn (List.mem_of_mem_head? hhead) hv
      · exact .of_controls hn hcontrol hr
  | branched32 _ hcontrol _ _ hu =>
      rcases List.mem_append.mp hr with hr | hr
      · obtain rfl := List.mem_singleton.mp hr
        exact .helper hu rfl
      · exact .of_controls hn hcontrol hr

theorem Form.controlBlocks (h : Form g config l b id n m) {c : Nat} (hc : c ∈ m.controlBlocks) :
    c ∈ n.controlBlocks := by
  have hlowered {control : List Control} (h : List.Forall₂ (Controls l) n.control control)
      (hc : c ∈ control.filterMap Control.block?) : c ∈ n.controlBlocks := by
    obtain ⟨c', hc', hblock⟩ := List.mem_filterMap.mp hc
    obtain ⟨c₀, hc₀, hcontrols⟩ := exists_of_forall₂_right h hc'
    cases hcontrols with
    | block => exact List.mem_filterMap.mpr ⟨_, hc₀, hblock⟩
    | node => exact absurd hblock (by simp [Control.block?])
  cases h with
  | copied _ _ hcontrol => exact hlowered hcontrol hc
  | compared | signed => exact absurd hc (by simp [Node.controlBlocks])
  | loaded _ hcontrol | stored _ hcontrol => exact hlowered hcontrol hc
  | fused _ hcontrol | branched _ hcontrol | branched32 _ hcontrol => exact hlowered hcontrol hc

theorem Aid.controlBlocks (h : Aid g config l b n m) : m.controlBlocks = [] := by
  cases h <;> rfl

theorem Successor.lt {y y' : Nat} (h : Successor g config l y y') : y' < l.nodes.size := by
  induction h with
  | stands _ _ _ _ _ _ ih => exact ih
  | records _ _ _ _ _ hnew => exact (Array.getElem?_eq_some_iff.mp hnew).1

theorem Referred.lt (h : Referred g l b r) (hsteps : Steps g config {} l) : r < l.nodes.size := by
  cases h with
  | input _ _ hlowered | control _ _ hlowered => exact (hsteps.successor hlowered).lt
  | compared _ _ _ _ hlowered => exact (hsteps.successor hlowered).lt
  | helper hq => exact (Array.getElem?_eq_some_iff.mp hq).1

/-- What a new node refers to was there when it was made. -/
theorem Steps.referred (h : Steps g config {} l) {i : Nat} {p : Placed} (hi : l.nodes[i]? = some p)
    (hr : r ∈ p.node.references) :
    ∃ l₁, Steps g config {} l₁ ∧ Keeps l₁ l ∧ i = l₁.nodes.size ∧ Referred g l₁ p.block r := by
  obtain ⟨l₁, id, n, hsteps, hkeeps, hsize, hn, haid | ⟨hform, -⟩⟩ := h.origin hi
  · exact ⟨l₁, hsteps, hkeeps, hsize, haid.referred hn hr⟩
  · exact ⟨l₁, hsteps, hkeeps, hsize, hform.referred hn hr⟩

/-- New nodes refer to earlier ones. -/
theorem Steps.grounded (h : Steps g config {} l) : Schedule.Grounded l.nodes := by
  intro i p hi r hr
  obtain ⟨l₁, hsteps, -, rfl, hreferred⟩ := h.referred hi hr
  exact hreferred.lt hsteps

theorem Steps.housed (h : Steps g config {} l) : Schedule.Housed g.blocks l.nodes := by
  intro i p hi
  obtain ⟨l₁, id, n, -, -, -, hn, -⟩ := h.origin hi
  exact g.block_lt ⟨p.block, n⟩ (Array.mem_of_getElem? hn)

end Lowering

/-! ### Graphs that can be put in order -/

namespace Graph

theorem forall_block? {g : Graph} {P : Nat → Block → Prop}
    (h : ∀ b < g.blocks.size, ∀ block ∈ g.block? b, P b block) (b : Nat) (block : Block)
    (hb : g.block? b = some block) : P b block :=
  h b (Array.getElem?_eq_some_iff.mp hb).1 block hb

/-- References lead to existing nodes and blocks without cycles, and no block has two terminators. -/
structure Coherent (g : Graph) : Prop where
  closed : g.isClosed = true
  acyclic : g.Acyclic
  control : ∀ id n, g.node? id = some n → ∀ c ∈ n.controlBlocks, c < g.blocks.size
  successors : ∀ b block, g.block? b = some block → ∀ c ∈ block.successors, c < g.blocks.size
  single : ∀ (b i j : Nat) (n m : Node), g.nodes[i]? = some ⟨b, n⟩ → g.nodes[j]? = some ⟨b, m⟩ →
    n.op.isTerminator = true → m.op.isTerminator = true → i = j

/-- No node refers to a terminator. -/
structure Orderly (g : Graph) : Prop extends g.Coherent where
  unreferred : ∀ id r n, g.Refers id r → g.node? r = some n → n.op.isTerminator = false

/-- No terminator is an input, but a node may wait for the terminator of another block. -/
structure Arrangeable (g : Graph) : Prop extends g.Coherent where
  inputs : ∀ id n, g.node? id = some n → ∀ v ∈ n.inputs, ∀ m, g.node? v = some m →
    m.op.isTerminator = false
  waits : ∀ (id b : Nat) (n m : Node), g.nodes[id]? = some ⟨b, n⟩ → ∀ v ∈ n.controlNodes,
    g.nodes[v]? = some ⟨b, m⟩ → m.op.isTerminator = false

variable {g : Graph}

theorem Orderly.arrangeable (h : g.Orderly) : g.Arrangeable where
  toCoherent := h.toCoherent
  inputs id n hn v hv m hm := h.unreferred id v m ⟨n, hn, List.mem_append_left _ hv⟩ hm
  waits id b n m hn v hv hm := by
    have hrefers : g.Refers id v :=
      ⟨n, node?_eq_some.mpr ⟨b, hn⟩, List.mem_append_right _ hv⟩
    exact h.unreferred id v m hrefers (node?_eq_some.mpr ⟨b, hm⟩)

theorem flaw?_eq_none
    (hsuccessors : ∀ b block, g.block? b = some block → ∀ c ∈ block.successors, c < g.blocks.size)
    (hlast : ∀ id b n, g.nodes[id]? = some ⟨b, n⟩ → n.op.isTerminator = true →
      (g.members b).getLast? = some id)
    (hreferences : ∀ id b n, g.nodes[id]? = some ⟨b, n⟩ → ∀ r ∈ n.references,
      ∃ c, g.blockOf? r = some c ∧ (c = b → r < id))
    (hcontrol : ∀ id n, g.node? id = some n → ∀ c ∈ n.controlBlocks, c < g.blocks.size) :
    g.flaw? = none := by
  refine List.findSome?_eq_none_iff.mpr fun b _ => ?_
  cases hblock : g.block? b with
  | none => rfl
  | some block =>
      rw [Option.bind_some, blockFlaw?, Option.or_eq_none_iff]
      refine ⟨List.findSome?_eq_none_iff.mpr fun c hc => if_pos (hsuccessors b block hblock c hc),
        List.findSome?_eq_none_iff.mpr fun id hid => ?_⟩
      obtain ⟨n, hn⟩ := blockOf?_eq_some.mp (mem_members.mp hid)
      have hnode := node?_eq_some.mpr ⟨b, hn⟩
      rw [hnode, Option.bind_some, nodeFlaw?]
      have hplain : (n.op.isTerminator && (g.members b).getLast? != some id) = false := by
        by_contra hne
        obtain ⟨hterm, hne⟩ := Bool.and_eq_true_iff.mp (Bool.not_eq_false _ ▸ hne)
        exact absurd (hlast id b n hn hterm) (by simpa using hne)
      rw [if_neg (by rw [hplain]; exact Bool.false_ne_true), Option.or_eq_none_iff]
      refine ⟨List.findSome?_eq_none_iff.mpr fun r hr => ?_,
        List.findSome?_eq_none_iff.mpr fun c hc => if_pos (hcontrol id n hnode c hc)⟩
      obtain ⟨c, hc, hlt⟩ := hreferences id b n hn r hr
      rw [referenceFlaw?, hc]
      refine if_neg ?_
      rintro ⟨heq, hle⟩
      have := hlt heq
      omega

end Graph

namespace Lowering

open Select

variable {g : Graph} {config : Config} {l l₁ : Lowering} {b id r : Nat} {n m : Node}

/-- What stands for a node that does not end a block does not end one. -/
theorem Successor.plain {y y' : Nat} (h : Successor g config l y y') (hg : g.Arrangeable)
    (hplain : ∀ n, g.node? y = some n → n.op.isTerminator = false) :
    ∃ p, l.nodes[y']? = some p ∧ p.node.op.isTerminator = false := by
  induction h with
  | stands hn _ _ hx _ _ ih =>
      exact ih (hg.inputs _ _ (Graph.node?_eq_some.mpr ⟨_, hn⟩) _ (List.mem_of_getElem? hx))
  | records hn _ _ _ hform hnew =>
      exact ⟨_, hnew, hform.isTerminator.trans (hplain _ (Graph.node?_eq_some.mpr ⟨_, hn⟩))⟩

/-- What stands for a node that ends a block is in that block. -/
theorem Successor.block_of_terminator {y y' : Nat} (h : Successor g config l y y')
    (hn : g.nodes[y]? = some ⟨b, n⟩) (hterm : n.op.isTerminator = true) :
    ∃ m, l.nodes[y']? = some ⟨b, m⟩ ∧ m.op.isTerminator = true := by
  cases h with
  | stands hn' _ helided =>
      obtain ⟨-, rfl⟩ := Placed.mk.inj (Option.some.inj (hn.symm.trans hn'))
      rcases helided with hop | hop | ⟨hop, -⟩ <;> rw [hop] at hterm <;> exact absurd hterm (by decide)
  | records hn' _ _ _ hform hnew =>
      obtain ⟨rfl, rfl⟩ := Placed.mk.inj (Option.some.inj (hn.symm.trans hn'))
      exact ⟨_, hnew, hform.isTerminator.trans hterm⟩

/-- Nothing in a block refers to what ends it. -/
theorem Referred.plain (h : Referred g l b r) (hsteps : Steps g config {} l) (hg : g.Arrangeable)
    {q : Node} (hq : l.nodes[r]? = some ⟨b, q⟩) : q.op.isTerminator = false := by
  have hresult {p : Placed} (hp : l.nodes[r]? = some p) (hplain : p.node.op.isTerminator = false) :
      q.op.isTerminator = false := by
    obtain rfl := Option.some.inj (hp.symm.trans hq)
    exact hplain
  have hinput {y v : Nat} {n : Node} (hn : g.node? y = some n) (hv : v ∈ n.inputs)
      (hlowered : l.lowered.get? v = some r) : q.op.isTerminator = false := by
    obtain ⟨p, hp, hplain⟩ := (hsteps.successor hlowered).plain hg (hg.inputs y n hn v hv)
    exact hresult hp hplain
  cases h with
  | input hn hv hlowered => exact hinput (Graph.node?_eq_some.mpr ⟨_, hn⟩) hv hlowered
  | compared _ _ hp hv hlowered => exact hinput hp hv hlowered
  | helper hq' hplain => exact hresult hq' hplain
  | @control id v n hn hv hlowered =>
      have hsuccessor := hsteps.successor hlowered
      by_cases hplain : ∀ m, g.node? v = some m → m.op.isTerminator = false
      · obtain ⟨p, hp, hplain⟩ := hsuccessor.plain hg hplain
        exact hresult hp hplain
      · push Not at hplain
        obtain ⟨m, hm, hterm⟩ := hplain
        obtain ⟨c, hc⟩ := Graph.node?_eq_some.mp hm
        obtain ⟨q', hq', -⟩ := hsuccessor.block_of_terminator hc (by simpa using hterm)
        obtain ⟨rfl, rfl⟩ := Placed.mk.inj (Option.some.inj (hq'.symm.trans hq))
        exact absurd (hg.waits id _ n m hn v hv hc) hterm

/-- No new node refers to one that ends its block. -/
theorem Steps.unreferred (h : Steps g config {} l) (hg : g.Arrangeable) {i : Nat} {q : Node}
    (hi : l.nodes[i]? = some ⟨b, n⟩) (hr : r ∈ n.references) (hq : l.nodes[r]? = some ⟨b, q⟩) :
    q.op.isTerminator = false := by
  obtain ⟨l₁, hsteps, hkeeps, -, hreferred⟩ := h.referred hi hr
  have hlt := hreferred.lt hsteps
  have hq₁ := Array.getElem?_eq_getElem hlt
  have hq' := hkeeps.nodes hq₁
  refine hreferred.plain hsteps hg (hq₁.trans ?_)
  rw [← hq', hq]

/-- A block has one new terminator at most, for it has one terminator at most. -/
theorem Steps.single (h : Steps g config {} l) (hg : g.Arrangeable) {i j : Nat}
    (hi : l.nodes[i]? = some ⟨b, n⟩) (hj : l.nodes[j]? = some ⟨b, m⟩)
    (hn : n.op.isTerminator = true) (hm : m.op.isTerminator = true) : i = j := by
  have hsource {i : Nat} {n : Node} (hi : l.nodes[i]? = some ⟨b, n⟩)
      (hn : n.op.isTerminator = true) : ∃ id k, g.nodes[id]? = some ⟨b, k⟩ ∧
        k.op.isTerminator = true ∧ l.lowered.get? id = some i := by
    obtain ⟨l₁, id, k, -, -, -, hk, haid | ⟨hform, hlowered⟩⟩ := h.origin hi
    · exact absurd (haid.isTerminator.symm.trans hn) (by simp)
    · exact ⟨id, k, hk, hform.isTerminator.symm.trans hn, hlowered⟩
  obtain ⟨y, k, hk, hkterm, hy⟩ := hsource hi hn
  obtain ⟨z, k', hk', hkterm', hz⟩ := hsource hj hm
  obtain rfl := hg.single b y z k k' hk hk' hkterm hkterm'
  exact Option.some.inj (hy.symm.trans hz)

theorem Steps.controlBlocks (h : Steps g config {} l) (hg : g.Arrangeable) {i : Nat} {p : Placed}
    (hi : l.nodes[i]? = some p) : ∀ c ∈ p.node.controlBlocks, c < g.blocks.size := by
  intro c hc
  obtain ⟨l₁, id, n, -, -, -, hn, haid | ⟨hform, -⟩⟩ := h.origin hi
  · rw [haid.controlBlocks] at hc
    exact absurd hc List.not_mem_nil
  · exact hg.control id n (Graph.node?_eq_some.mpr ⟨_, hn⟩) c (hform.controlBlocks hc)

/-- The new terminator of a block is the last of its block. -/
theorem Steps.blockOrder_eq_append (h : Steps g config {} l) (hg : g.Arrangeable) {t : Nat}
    (ht : l.nodes[t]? = some ⟨b, n⟩) (hterm : n.op.isTerminator = true) :
    ∃ body, Schedule.blockOrder l.nodes b = body ++ [t] := by
  refine Schedule.blockOrder_eq_append h.grounded ht hterm ?_ fun i m hi hm =>
    h.single hg hi ht hm hterm
  intro hconsumed
  obtain ⟨user, huser⟩ := Schedule.mem_consumed.mp hconsumed
  obtain ⟨⟨c, m⟩, hp, href | horder, hblock⟩ := Schedule.mem_dependencies.mp huser
  · obtain ⟨n', hn'⟩ := Schedule.blockOf?_eq_some.mp hblock
    obtain ⟨rfl, rfl⟩ := Placed.mk.inj (Option.some.inj (ht.symm.trans hn'))
    exact absurd (h.unreferred hg hp href ht) (by simp [hterm])
  · obtain ⟨-, m, hm, haccess⟩ := Schedule.access_of_memoryOrder horder
    obtain ⟨-, rfl⟩ := Placed.mk.inj (Option.some.inj (hm.symm.trans ht))
    exact absurd hterm (Bool.eq_false_iff.mp (Operator.isTerminator_of_access haccess))

end Lowering

/-! ### The places of new nodes -/

namespace Schedule

variable {nodes : Array Placed} {blocks : Array Block} {b i j k : Nat}

theorem references_renumber (f : Nat → Nat) (n : Node) :
    (renumber f n).references = n.references.map f := by
  simp only [Node.references, Node.controlNodes, renumber, List.map_append, List.filterMap_map,
    List.map_filterMap]
  refine congrArg _ (List.filterMap_congr fun c _ => ?_)
  cases c <;> rfl

theorem controlBlocks_renumber (f : Nat → Nat) (n : Node) :
    (renumber f n).controlBlocks = n.controlBlocks := by
  simp only [Node.controlBlocks, renumber, List.filterMap_map]
  refine List.filterMap_congr fun c _ => ?_
  cases c <;> rfl

/-- The places are the numbers of the new graph, each taken once. -/
theorem places_perm (hg : Grounded nodes) (hh : Housed blocks nodes) :
    ((List.range nodes.size).map (place blocks nodes)).Perm
      (List.range (schedule blocks nodes).nodes.size) := by
  have horder : (List.range nodes.size).Perm (order blocks.size nodes) := by
    refine (List.perm_ext_iff_of_nodup List.nodup_range (order_nodup hg _)).mpr fun id => ?_
    rw [List.mem_range, mem_order hg hh]
  rw [schedule_nodes_size hg hh, range_eq_places hg]
  exact horder.map _

theorem exists_of_schedule_node (hg : Grounded nodes) (hh : Housed blocks nodes) {q : Placed}
    (hq : (schedule blocks nodes).nodes[k]? = some q) :
    ∃ (i : Nat) (p : Placed), nodes[i]? = some p ∧ k = place blocks nodes i ∧
      q = ⟨p.block, renumber (place blocks nodes) p.node⟩ := by
  have hlt := (Array.getElem?_eq_some_iff.mp hq).1
  obtain ⟨i, hi, rfl⟩ := List.mem_map.mp ((places_perm hg hh).mem_iff.mpr (List.mem_range.mpr hlt))
  have hp := Array.getElem?_eq_getElem (List.mem_range.mp hi)
  exact ⟨i, _, hp, rfl, Option.some.inj (hq.symm.trans (schedule_node hg hh hp))⟩

theorem place_lt_of_before (hg : Grounded nodes) (hh : Housed blocks nodes) (hb : b < blocks.size)
    (h : Before (blockOrder nodes b) i j) : place blocks nodes i < place blocks nodes j := by
  obtain ⟨front, back, heq, hi⟩ := h
  have hsorted := Graph.members_sorted (schedule blocks nodes) b
  rw [schedule_members hg hh hb, heq, List.map_append, List.map_cons] at hsorted
  exact (List.pairwise_append.mp hsorted).2.2 _ (List.mem_map_of_mem hi) _ List.mem_cons_self

end Schedule

namespace Lowering

open Schedule

variable {g : Graph} {config : Config} {l : Lowering} {b i : Nat} {n : Node}

/-- A new node stands after the nodes of its block that it refers to, and after earlier accesses with
which it does not commute. -/
theorem Steps.place_lt (h : Steps g config {} l) {j : Nat} {m : Node}
    (hi : l.nodes[i]? = some ⟨b, m⟩) (hj : l.nodes[j]? = some ⟨b, n⟩)
    (hdepends : i ∈ n.references ∨ (i < j ∧ m.op.conflicts n.op = true)) :
    place g.blocks l.nodes i < place g.blocks l.nodes j := by
  have hground := h.grounded
  have hhoused := h.housed
  have hmem : j ∈ blockOrder l.nodes b :=
    (mem_blockOrder hground).mpr (blockOf?_eq_some.mpr ⟨n, hj⟩)
  refine place_lt_of_before hground hhoused (hhoused j _ hj) ?_
  rcases hdepends with href | ⟨hlt, hconflicts⟩
  · exact (blockOrder_settled hground b).before hmem
      (mem_dependencies.mpr ⟨_, hj, .inl href, blockOf?_eq_some.mpr ⟨m, hi⟩⟩)
  · exact (blockOrder_settled hground b).before_of_conflicts hi hj hlt hconflicts hmem

/-- A new terminator is the last node of its block. -/
theorem Steps.getLast?_members (h : Steps g config {} l) (hg : g.Arrangeable)
    (hi : l.nodes[i]? = some ⟨b, n⟩) (hterm : n.op.isTerminator = true) :
    ((schedule g.blocks l.nodes).members b).getLast? = some (place g.blocks l.nodes i) := by
  obtain ⟨body, hbody⟩ := h.blockOrder_eq_append hg hi hterm
  rw [schedule_members h.grounded h.housed (h.housed i _ hi), hbody, List.map_append]
  simp

/-- The new nodes in order have no flaw. -/
theorem Steps.flaw?_schedule (h : Steps g config {} l) (hg : g.Arrangeable) :
    (schedule g.blocks l.nodes).flaw? = none := by
  have hground := h.grounded
  have hhoused := h.housed
  refine Graph.flaw?_eq_none hg.successors ?_ ?_ ?_
  · intro id b n hn hterm
    obtain ⟨i, ⟨c, m⟩, hi, rfl, heq⟩ := exists_of_schedule_node hground hhoused hn
    obtain ⟨rfl, rfl⟩ := Placed.mk.inj heq
    exact h.getLast?_members hg hi hterm
  · intro id b n hn r hr
    obtain ⟨i, ⟨c, m⟩, hi, rfl, heq⟩ := exists_of_schedule_node hground hhoused hn
    obtain ⟨rfl, rfl⟩ := Placed.mk.inj heq
    rw [references_renumber] at hr
    obtain ⟨r, href, rfl⟩ := List.mem_map.mp hr
    have hlt : r < l.nodes.size :=
      (hground i _ hi r href).trans (Array.getElem?_eq_some_iff.mp hi).1
    obtain ⟨⟨c, k⟩, hk⟩ : ∃ p, l.nodes[r]? = some p := ⟨_, Array.getElem?_eq_getElem hlt⟩
    refine ⟨c, ?_, ?_⟩
    · rw [Graph.blockOf?, schedule_node hground hhoused hk, Option.map_some]
    · rintro rfl
      exact h.place_lt hk hi (.inl href)
  · intro id n hn c hc
    obtain ⟨b, hb⟩ := Graph.node?_eq_some.mp hn
    obtain ⟨i, ⟨d, m⟩, hi, rfl, heq⟩ := exists_of_schedule_node hground hhoused hb
    obtain ⟨rfl, rfl⟩ := Placed.mk.inj heq
    rw [controlBlocks_renumber] at hc
    exact h.controlBlocks hg hi c hc

end Lowering

open Schedule in
/-- Selection puts the nodes of a graph in order. Every node that lowering makes is found once in the
selected graph, in the block that it was made for and with its references changed to the new places;
it stands after the nodes of its block that it refers to, and after earlier accesses to memory with
which it does not commute. A terminator is the last node of its block, and so the selected graph has no
flaw, even if the nodes of the source are not in order. -/
theorem select_linearizes {g g' : Graph} {config : Config} {stats : Stats} (hg : g.Orderly)
    (hselect : select g config = .ok (g', stats)) :
    ∃ l, Select.lowerAll g config {} = .ok ((), l) ∧ g'.blocks = g.blocks ∧
      ((List.range l.nodes.size).map (place g.blocks l.nodes)).Perm (List.range g'.nodes.size) ∧
      (∀ i b n, l.nodes[i]? = some ⟨b, n⟩ → g'.nodes[place g.blocks l.nodes i]?
        = some ⟨b, renumber (place g.blocks l.nodes) n⟩) ∧
      (∀ i j b m n, l.nodes[i]? = some ⟨b, m⟩ → l.nodes[j]? = some ⟨b, n⟩ →
        i ∈ n.references ∨ (i < j ∧ m.op.conflicts n.op = true) →
        place g.blocks l.nodes i < place g.blocks l.nodes j) ∧
      (∀ i b n, l.nodes[i]? = some ⟨b, n⟩ → n.op.isTerminator = true →
        (g'.members b).getLast? = some (place g.blocks l.nodes i)) ∧
      g'.flaw? = none := by
  obtain ⟨l, hlower, rfl⟩ := select_ok hselect
  obtain ⟨hsteps, -⟩ := (Lowering.lowerAll_meets config hg.closed hg.acyclic).of_ok hlower
  have harrangeable := hg.arrangeable
  refine ⟨l, hlower, rfl, places_perm hsteps.grounded hsteps.housed, ?_, ?_, ?_,
    hsteps.flaw?_schedule harrangeable⟩
  · exact fun i b n hi => schedule_node hsteps.grounded hsteps.housed hi
  · exact fun i j b m n hi hj hdepends => hsteps.place_lt hi hj hdepends
  · exact fun i b n hi hterm => hsteps.getLast?_members harrangeable hi hterm

/-- Two blocks whose nodes stand in no order: the terminator comes first, and waits for a store. -/
def tangled : Graph :=
  .ofParts #[⟨"entry", [1]⟩, ⟨"exit", []⟩]
    #[⟨0, .jump, [.node 3], [], []⟩, ⟨1, .load (.full .i64), [], [], [2, 4]⟩, ⟨0, .state, [], [], []⟩,
      ⟨0, .store (.full .i64), [], [], [2, 4, 4]⟩, ⟨0, .const .i64, [], [.int 0], []⟩,
      ⟨1, .ret, [.block 0], [], [1]⟩]

theorem tangled_orderly : tangled.Orderly where
  closed := by decide +kernel
  acyclic := Graph.acyclic_of_rank (fun id => if id = 0 ∨ id = 5 then 2 else id % 2) (by decide)
  control := Graph.forall_node?.mp (by decide)
  successors := Graph.forall_block? (by decide)
  single b i j n m hi hj hn hm := by
    have hall : ∀ i < tangled.nodes.size, ∀ p ∈ tangled.nodes[i]?, p.node.op.isTerminator = true →
        i = if p.block = 0 then 0 else 5 := by decide
    have hlt {k : Nat} {p : Placed} (hk : tangled.nodes[k]? = some p) : k < tangled.nodes.size :=
      (Array.getElem?_eq_some_iff.mp hk).1
    exact (hall i (hlt hi) _ hi hn).trans (hall j (hlt hj) _ hj hm).symm
  unreferred id r n hrefers hr := by
    have hall : ∀ id < tangled.nodes.size, ∀ k ∈ tangled.node? id, ∀ r ∈ k.references,
        ∀ n ∈ tangled.node? r, n.op.isTerminator = false := by decide
    obtain ⟨k, hk, hmem⟩ := hrefers
    exact Graph.forall_node?.mp hall id k hk r hmem n hr

/-- Its nodes are put in order. -/
theorem select_linearizes_tangled : tangled.flaw? ≠ none ∧
    ∃ g' stats, select tangled {} = .ok (g', stats) ∧ g'.flaw? = none := by
  refine ⟨by decide, ?_⟩
  have hok : (select tangled {}).toOption.isSome = true := by decide +kernel
  cases hselect : select tangled {} with
  | error e =>
      rw [hselect] at hok
      exact absurd hok (by simp [Except.toOption])
  | ok r =>
      obtain ⟨l, -, -, -, -, -, -, hflaw⟩ := select_linearizes tangled_orderly hselect
      exact ⟨r.1, r.2, rfl, hflaw⟩

end Isel
