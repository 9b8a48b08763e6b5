import Isel.Proofs.LayoutLowering
import Mathlib.Logic.Relation
import Mathlib.Order.WellFounded

/-! Lowering as a relation. Whatever the order in which references lead through a graph, a step of
lowering either makes a helper node, or records what a node is lowered to once all that it needs is
lowered, or lets a node stand for its first input. What is lowered by such steps therefore leads to no
cycle along the references that lowering follows. -/

namespace Isel

def Operator.isConversion : Operator → Bool
  | convert _ => true
  | _ => false

/-- The operator with which a node is copied, for those that are. -/
def Operator.copied? : Operator → Option Operator
  | wrap | address .w64 | floatBinary _ .copysign | compare .w32 _ | branch | load _ | store _
  | convert _ => none
  | extend signed => some (target (.extend32 signed))
  | address .w32 => some (target (.extend32 false))
  | intBinary .w64 op =>
    match op.fused? with
    | some op => some (target (.int op))
    | none => some (intBinary .w64 op)
  | typedRet ty => some (target (if ty.isFloat then .floatRet else .intRet))
  | op => some op

/-- Generic loads and stores. -/
def Operator.isAccess : Operator → Bool
  | load _ | store _ => true
  | _ => false

/-- The number of bytes that a generic load or store reads or writes. -/
def Operator.accessBytes? : Operator → Option Nat
  | load op => some op.access.bytes
  | store op => some op.access.bytes
  | _ => none

theorem Operator.isAccess_of_accessBytes? {op : Operator} {bytes : Nat}
    (h : op.accessBytes? = some bytes) : op.isAccess = true := by
  cases op with
  | load | store => rfl
  | _ => exact absurd h (by simp [accessBytes?])

namespace Graph

variable {g : Graph} {config : Config} {id r : Nat} {n : Node}

/-- A node refers to another, as an input or for control. -/
def Refers (g : Graph) (id r : Nat) : Prop := ∃ n, g.node? id = some n ∧ r ∈ n.references

/-- No chain of references comes back to where it starts. -/
def Acyclic (g : Graph) : Prop := ∀ id, ¬Relation.TransGen g.Refers id id

/-- References that lead down a rank have no cycle. -/
theorem acyclic_of_rank (rank : Nat → Nat) (h : ∀ id < g.nodes.size, ∀ p ∈ g.nodes[id]?,
    ∀ r ∈ p.node.references, rank r < rank id) : g.Acyclic := by
  have hdown {id r : Nat} (hrefers : g.Refers id r) : rank r < rank id := by
    obtain ⟨n, hn, hr⟩ := hrefers
    obtain ⟨b, hb⟩ := node?_eq_some.mp hn
    exact h id (Array.getElem?_eq_some_iff.mp hb).1 _ hb r hr
  intro id hcycle
  have hlt {r : Nat} (hchain : Relation.TransGen g.Refers id r) : rank r < rank id := by
    induction hchain with
    | single hrefers => exact hdown hrefers
    | tail _ hrefers ih => exact Nat.lt_trans (hdown hrefers) ih
  exact Nat.lt_irrefl _ (hlt hcycle)

theorem lt_of_isClosed (h : g.isClosed = true) (hn : g.node? id = some n) (hr : r ∈ n.references) :
    r < g.nodes.size := by
  obtain ⟨p, hp, rfl⟩ := Option.map_eq_some_iff.mp hn
  have hall := Array.all_eq_true_iff_forall_mem.mp h p (Array.mem_of_getElem? hp)
  simpa using List.all_eq_true.mp hall r hr

/-- Whether a truth value is dropped if it is one of 64 bits. -/
def drops (g : Graph) (config : Config) (id : Nat) : Bool :=
  config.eliminateReturnBools && g.isOnlyReturned id

/-- The number of inputs that lowering a node takes one by one. A comparison that a branch takes over
has both its operands taken. -/
def required (g : Graph) (config : Config) (id : Nat) (n : Node) : Nat :=
  match n.op with
  | .wrap | .address .w64 | .branch => 1
  | .bool (.int .w64) => if g.drops config id then 1 else 0
  | .floatBinary _ .copysign | .compare .w32 _ | .load _ => 2
  | .compare .w64 _ => if Select.absorbs g config id then 2 else 0
  | .store _ => 3
  | _ => 0

/-- The references of a node that lowering it follows: all that it has, or the inputs that are taken
one by one, and for an access or a branch what it waits for. -/
def followed (g : Graph) (config : Config) (id : Nat) (n : Node) : List Nat :=
  match g.required config id n with
  | 0 => n.references
  | k + 1 =>
    n.inputs.take (k + 1) ++ if n.op.isAccess || n.op == .branch then n.controlNodes else []

def Follows (g : Graph) (config : Config) (id r : Nat) : Prop :=
  ∃ n, g.node? id = some n ∧ r ∈ g.followed config id n

/-- Lowering a node leads to another one. -/
abbrev Needs (g : Graph) (config : Config) : Nat → Nat → Prop := Relation.TransGen (g.Follows config)

/-- Every chain of references that lowering a node follows comes to an end. -/
def Founded (g : Graph) (config : Config) (id : Nat) : Prop :=
  Acc (fun r id => g.Follows config id r) id

theorem mem_followed_of_input {index : Nat} (hindex : index < g.required config id n)
    (hr : n.inputs[index]? = some r) : r ∈ g.followed config id n := by
  obtain ⟨k, hk⟩ : ∃ k, g.required config id n = k + 1 := ⟨_, (Nat.succ_pred (by omega)).symm⟩
  simp only [followed, hk]
  refine List.mem_append_left _ (List.mem_iff_getElem?.mpr ⟨index, ?_⟩)
  rw [List.getElem?_take_of_lt (hk ▸ hindex), hr]

theorem followed_of_required (h : g.required config id n = 0) :
    g.followed config id n = n.references := by
  simp [followed, h]

theorem mem_followed_of_control (h : n.op.isAccess = true ∨ n.op = .branch)
    (hr : r ∈ n.controlNodes) : r ∈ g.followed config id n := by
  unfold followed
  split
  · exact List.mem_append_right _ hr
  · refine List.mem_append_right _ ?_
    rcases h with h | h <;> simpa [h] using hr

/-- What lowering follows is an input that it takes, or what an access or a branch waits for. -/
theorem cases_of_mem_followed {k : Nat} (hk : g.required config id n = k + 1)
    (hr : r ∈ g.followed config id n) : (∃ index ≤ k, n.inputs[index]? = some r) ∨
      (n.op.isAccess = true ∨ n.op = .branch) ∧ r ∈ n.controlNodes := by
  simp only [followed, hk] at hr
  rcases List.mem_append.mp hr with hr | hr
  · obtain ⟨index, hlt, hindex⟩ := List.mem_take_iff_getElem.mp hr
    exact .inl ⟨index, by omega, List.getElem?_eq_some_iff.mpr ⟨by omega, hindex⟩⟩
  · split at hr
    · next hop => exact .inr ⟨by simpa using hop, hr⟩
    · exact absurd hr List.not_mem_nil

/-- Lowering follows no more than a node refers to. -/
theorem Follows.refers (h : g.Follows config id r) : g.Refers id r := by
  obtain ⟨n, hn, hr⟩ := h
  refine ⟨n, hn, ?_⟩
  unfold followed at hr
  split at hr
  · exact hr
  · rcases List.mem_append.mp hr with hr | hr
    · exact List.mem_append_left _ (List.mem_of_mem_take hr)
    · split at hr
      · exact List.mem_append_right _ hr
      · exact absurd hr List.not_mem_nil

/-- A node whose chains come to an end is on no cycle. -/
theorem Founded.not_needs (h : g.Founded config id) : ¬g.Needs config id id := by
  intro hcycle
  have hacc := Acc.transGen h
  induction hacc with
  | intro id _ ih => exact ih id (Relation.transGen_swap.mpr hcycle) h hcycle

/-- Every operation is one that the target has, and every node has the inputs that lowering takes. -/
def Complete (g : Graph) (config : Config) : Prop :=
  ∀ id n, g.node? id = some n →
    n.op.isConversion = false ∧ g.required config id n ≤ n.inputs.length

instance (g : Graph) (config : Config) : Decidable (g.Complete config) :=
  decidable_of_iff (∀ id < g.nodes.size, ∀ n ∈ g.node? id,
    n.op.isConversion = false ∧ g.required config id n ≤ n.inputs.length) forall_node?

end Graph

namespace Lowering

open Select

section

variable (g : Graph) (config : Config) (l : Lowering) (b id : Nat) (n : Node)

/-- The node that clears the sign of a number. -/
def magnitude (w : FloatWidth) (v : Nat) : Node := { op := .floatUnary w .abs, inputs := [v] }

/-- An input of a node, or of the comparison that a branch takes over. -/
def Operand (v : Nat) : Prop :=
  v ∈ n.inputs ∨ ∃ c p, n.op = .branch ∧ n.inputs.head? = some c ∧ absorbs g config c = true ∧
    g.node? c = some p ∧ v ∈ p.inputs

/-- The helper nodes that are made for a node of block `b`. -/
inductive Aid : Node → Prop
  | extension {v v' : Nat} (signed : Bool) (operand : Operand g config n v)
      (lowered : l.lowered.get? v = some v') : Aid (extension signed v')
  | magnitude {w : FloatWidth} {v v' : Nat} (op : n.op = .floatBinary w .copysign)
      (input : n.inputs[0]? = some v) (lowered : l.lowered.get? v = some v') : Aid (magnitude w v')
  | space {s s' : Nat} (access : n.op.isAccess = true) (input : n.inputs[0]? = some s)
      (lowered : l.lowered.get? s = some s') : Aid (spaceNode s')
  | size {s s' : Nat} (access : n.op.isAccess = true) (input : n.inputs[0]? = some s)
      (lowered : l.lowered.get? s = some s') : Aid (sizeNode s')
  | check {s a s' a' size bytes : Nat} (width : n.op.accessBytes? = some bytes)
      (state : n.inputs[0]? = some s) (address : n.inputs[1]? = some a)
      (state_lowered : l.lowered.get? s = some s') (address_lowered : l.lowered.get? a = some a')
      (size_node : l.nodes[size]? = some ⟨b, sizeNode s'⟩) :
      Aid (checkNode ⟨b, s', a', bytes⟩ size)

/-- What a node waits for besides its inputs, and what stands for it. -/
inductive Controls : Control → Control → Prop
  | block (c : Nat) : Controls (.block c) (.block c)
  | node {v v' : Nat} (lowered : l.lowered.get? v = some v') : Controls (.node v) (.node v')

/-- The operands of a comparison `p` as words, for a node of block `b`. -/
inductive Compared (p : Node) : IntWidth → Comparison → List Nat → Prop
  | same {c : Comparison} {x y x' y' : Nat} (x_input : p.inputs[0]? = some x)
      (y_input : p.inputs[1]? = some y) (x_lowered : l.lowered.get? x = some x')
      (y_lowered : l.lowered.get? y = some y') : Compared p .w64 c [x', y']
  | widened {c : Comparison} {x y x' y' u v : Nat} (x_input : p.inputs[0]? = some x)
      (y_input : p.inputs[1]? = some y) (x_lowered : l.lowered.get? x = some x')
      (y_lowered : l.lowered.get? y = some y')
      (u_node : l.nodes[u]? = some ⟨b, extension c.isSigned x'⟩)
      (v_node : l.nodes[v]? = some ⟨b, extension c.isSigned y'⟩) : Compared p .w32 c [u, v]

/-- The nodes that guard an access of `bytes` bytes in block `b`. -/
structure Guards (bytes state address space checked : Nat) : Prop where
  space : l.nodes[space]? = some ⟨b, spaceNode state⟩
  checked : ∃ size, l.nodes[size]? = some ⟨b, sizeNode state⟩ ∧
    l.nodes[checked]? = some ⟨b, checkNode ⟨b, state, address, bytes⟩ size⟩

/-- What a node of block `b` is lowered to once all that it needs is there. -/
inductive Form : Node → Prop
  | copied {op' : Operator} {control : List Control} {inputs : List Nat} (op : n.op.copied? = some op')
      (kept : n.op = .bool .i64 → g.drops config id = false)
      (control_lowered : List.Forall₂ (Controls l) n.control control)
      (inputs_lowered : List.Forall₂ (fun v v' => l.lowered.get? v = some v') n.inputs inputs) :
      Form ⟨op', control, n.literals, inputs⟩
  | compared {c : Comparison} {inputs : List Nat} (op : n.op = .compare .w32 c)
      (operands : Compared l b n .w32 c inputs) : Form { op := .compare .w64 c, inputs }
  | signed {w : FloatWidth} {x y x' y' u : Nat} (op : n.op = .floatBinary w .copysign)
      (x_input : n.inputs[0]? = some x) (y_input : n.inputs[1]? = some y)
      (x_lowered : l.lowered.get? x = some x') (y_lowered : l.lowered.get? y = some y')
      (u_node : l.nodes[u]? = some ⟨b, magnitude w x'⟩) : Form { op := n.op, inputs := [u, y'] }
  | loaded {op : Load} {s a state address space checked : Nat} {control : List Control}
      (op_eq : n.op = .load op) (control_lowered : List.Forall₂ (Controls l) n.control control)
      (state_input : n.inputs[0]? = some s) (address_input : n.inputs[1]? = some a)
      (state_lowered : l.lowered.get? s = some state)
      (address_lowered : l.lowered.get? a = some address)
      (guards : Guards l b op.access.bytes state address space checked) :
      Form { op := .target (.load op.access), control, inputs := [state, space, checked] }
  | stored {op : Store} {s a v state address value space checked : Nat} {control : List Control}
      (op_eq : n.op = .store op) (control_lowered : List.Forall₂ (Controls l) n.control control)
      (state_input : n.inputs[0]? = some s) (address_input : n.inputs[1]? = some a)
      (value_input : n.inputs[2]? = some v) (state_lowered : l.lowered.get? s = some state)
      (address_lowered : l.lowered.get? a = some address)
      (value_lowered : l.lowered.get? v = some value)
      (guards : Guards l b op.access.bytes state address space checked) :
      Form { op := .target (.store op.access), control, inputs := [state, space, checked, value] }
  | fused {w : IntWidth} {c : Comparison} {predicate : Nat} {p : Node} {control : List Control}
      {inputs : List Nat} (op : n.op = .branch)
      (control_lowered : List.Forall₂ (Controls l) n.control control)
      (predicate_input : n.inputs.head? = some predicate)
      (absorbed : absorbs g config predicate = true) (p_node : g.node? predicate = some p)
      (p_op : p.op = .compare w c) (operands : Compared l b p w c inputs) :
      Form { op := .target (.branchOn c), control, inputs }
  | branched {predicate v : Nat} {control : List Control} (op : n.op = .branch)
      (control_lowered : List.Forall₂ (Controls l) n.control control)
      (predicate_input : n.inputs.head? = some predicate)
      (v_lowered : l.lowered.get? predicate = some v) :
      Form { op := .branch, control, inputs := [v] }
  | branched32 {predicate v u : Nat} {control : List Control} (op : n.op = .branch)
      (control_lowered : List.Forall₂ (Controls l) n.control control)
      (predicate_input : n.inputs.head? = some predicate)
      (v_lowered : l.lowered.get? predicate = some v)
      (u_node : l.nodes[u]? = some ⟨b, extension false v⟩) :
      Form { op := .branch, control, inputs := [u] }

/-- The nodes that stand for their first input: what that is lowered to is what they are lowered to. -/
def Elided : Prop :=
  n.op = .wrap ∨ n.op = .address .w64 ∨ (n.op = .bool .i64 ∧ g.drops config id = true)

/-- What an elided node is lowered to. -/
inductive Stands (new : Nat) : Prop
  | intro {x : Nat} (elided : Elided g config id n) (x_input : n.inputs[0]? = some x)
      (x_lowered : l.lowered.get? x = some new)

end

/-- One step of lowering. -/
inductive Step (g : Graph) (config : Config) : Lowering → Lowering → Prop
  | tables {l l' : Lowering} (nodes : l'.nodes = l.nodes) (lowered : l'.lowered = l.lowered) :
      Step g config l l'
  | aid {l l' : Lowering} {id b : Nat} {n h : Node} (node : g.nodes[id]? = some ⟨b, n⟩)
      (aid : Aid g config l b n h) (nodes : l'.nodes = l.nodes.push ⟨b, h⟩)
      (lowered : l'.lowered = l.lowered) : Step g config l l'
  | record {l l' : Lowering} {id b : Nat} {n m : Node} (node : g.nodes[id]? = some ⟨b, n⟩)
      (new : l.lowered.get? id = none) (free : absorbs g config id = false)
      (form : Form g config l b id n m) (nodes : l'.nodes = l.nodes.push ⟨b, m⟩)
      (lowered : l'.lowered = l.lowered.set id l.nodes.size) : Step g config l l'
  | stand {l l' : Lowering} {id b v : Nat} {n : Node} (node : g.nodes[id]? = some ⟨b, n⟩)
      (new : l.lowered.get? id = none) (free : absorbs g config id = false)
      (stands : Stands g config l id n v) (nodes : l'.nodes = l.nodes)
      (lowered : l'.lowered = l.lowered.set id v) : Step g config l l'

/-- A sequence of steps. -/
abbrev Steps (g : Graph) (config : Config) : Lowering → Lowering → Prop :=
  Relation.ReflTransGen (Step g config)

/-- Entries of the table and nodes are still there later. -/
structure Keeps (l l' : Lowering) : Prop where
  lowered : ∀ {y y' : Nat}, l.lowered.get? y = some y' → l'.lowered.get? y = some y'
  nodes : ∀ {i : Nat} {p : Placed}, l.nodes[i]? = some p → l'.nodes[i]? = some p

variable {g : Graph} {config : Config} {l l₁ l' : Lowering} {b id : Nat} {n : Node}

theorem Keeps.refl (l : Lowering) : Keeps l l := ⟨id, id⟩

theorem Keeps.trans (h : Keeps l l₁) (h' : Keeps l₁ l') : Keeps l l' :=
  ⟨fun hy => h'.lowered (h.lowered hy), fun hi => h'.nodes (h.nodes hi)⟩

theorem get?_set_of_new {t : Table Nat Nat} {y y' v : Nat} (hnew : t.get? id = none)
    (hy : t.get? y = some y') : (t.set id v).get? y = some y' := by
  have hne : y ≠ id := by
    rintro rfl
    exact absurd (hnew.symm.trans hy) (by simp)
  rw [Table.get?_set, if_neg hne, hy]

theorem Step.keeps (h : Step g config l l') : Keeps l l' := by
  cases h with
  | tables hnodes hlowered => exact ⟨fun hy => hlowered ▸ hy, fun hi => hnodes ▸ hi⟩
  | aid _ _ hnodes hlowered =>
      exact ⟨fun hy => hlowered ▸ hy, fun hi => hnodes ▸ getElem?_push_of_some hi⟩
  | record _ hnew _ _ hnodes hlowered =>
      exact ⟨fun hy => hlowered ▸ get?_set_of_new hnew hy, fun hi => hnodes ▸ getElem?_push_of_some hi⟩
  | stand _ hnew _ _ hnodes hlowered =>
      exact ⟨fun hy => hlowered ▸ get?_set_of_new hnew hy, fun hi => hnodes ▸ hi⟩

theorem Steps.keeps (h : Steps g config l l') : Keeps l l' := by
  induction h with
  | refl => exact .refl l
  | tail _ hstep ih => exact ih.trans hstep.keeps

/-- Where a new node comes from: it was made to help with a node, or is what a node is lowered to. -/
def Origin (g : Graph) (config : Config) (l : Lowering) (i : Nat) (p : Placed) : Prop :=
  ∃ l₁ id n, Steps g config {} l₁ ∧ Keeps l₁ l ∧ i = l₁.nodes.size ∧
    g.nodes[id]? = some ⟨p.block, n⟩ ∧ (Aid g config l₁ p.block n p.node ∨
      Form g config l₁ p.block id n p.node ∧ l.lowered.get? id = some i)

theorem Origin.mono {i : Nat} {p : Placed} (h : Origin g config l i p) (hkeeps : Keeps l l') :
    Origin g config l' i p := by
  obtain ⟨l₁, id, n, hsteps, hkeeps₁, hsize, hn, hcases⟩ := h
  exact ⟨l₁, id, n, hsteps, hkeeps₁.trans hkeeps, hsize, hn,
    hcases.imp_right fun ⟨hform, hlowered⟩ => ⟨hform, hkeeps.lowered hlowered⟩⟩

theorem Steps.origin (h : Steps g config {} l) {i : Nat} {p : Placed} (hi : l.nodes[i]? = some p) :
    Origin g config l i p := by
  induction h with
  | refl => exact absurd hi (by simp)
  | @tail l₁ l' hsteps hstep ih =>
      have hkeeps := hstep.keeps
      cases hstep with
      | tables hnodes _ => exact (ih (hnodes ▸ hi)).mono hkeeps
      | stand _ _ _ _ hnodes _ => exact (ih (hnodes ▸ hi)).mono hkeeps
      | @aid id b n m hn haid hnodes hlowered =>
          rcases getElem?_push_cases (hnodes ▸ hi) with hi | ⟨rfl, rfl⟩
          · exact (ih hi).mono hkeeps
          · exact ⟨l₁, id, n, hsteps, hkeeps, rfl, hn, .inl haid⟩
      | @record id b n m hn hnew hfree hform hnodes hlowered =>
          rcases getElem?_push_cases (hnodes ▸ hi) with hi | ⟨rfl, rfl⟩
          · exact (ih hi).mono hkeeps
          · refine ⟨l₁, id, n, hsteps, hkeeps, rfl, hn, .inr ⟨hform, ?_⟩⟩
            rw [hlowered, Table.get?_set_self]

/-- What a node is lowered to: what its first input is, or a node of its own. -/
inductive Successor (g : Graph) (config : Config) (l : Lowering) : Nat → Nat → Prop
  | stands {y y' b x : Nat} {n : Node} (node : g.nodes[y]? = some ⟨b, n⟩)
      (free : absorbs g config y = false) (elided : Elided g config y n)
      (x_input : n.inputs[0]? = some x) (x_lowered : l.lowered.get? x = some y')
      (rest : Successor g config l x y') : Successor g config l y y'
  | records {l₁ : Lowering} {y b : Nat} {n m : Node} (node : g.nodes[y]? = some ⟨b, n⟩)
      (free : absorbs g config y = false) (steps : Steps g config {} l₁) (keeps : Keeps l₁ l)
      (form : Form g config l₁ b y n m) (new : l.nodes[l₁.nodes.size]? = some ⟨b, m⟩) :
      Successor g config l y l₁.nodes.size

theorem Successor.mono {y y' : Nat} (h : Successor g config l y y') (hkeeps : Keeps l l') :
    Successor g config l' y y' := by
  induction h with
  | stands hn hfree helided hx hx' _ ih =>
      exact .stands hn hfree helided hx (hkeeps.lowered hx') ih
  | records hn hfree hsteps hkeeps₁ hform hnew =>
      exact .records hn hfree hsteps (hkeeps₁.trans hkeeps) hform (hkeeps.nodes hnew)

theorem Steps.successor (h : Steps g config {} l) {y y' : Nat}
    (hy : l.lowered.get? y = some y') : Successor g config l y y' := by
  induction h generalizing y y' with
  | refl => exact absurd hy (by simp)
  | @tail l₁ l' hsteps hstep ih =>
      have hkeeps := hstep.keeps
      cases hstep with
      | tables _ hlowered => exact (ih (hlowered ▸ hy)).mono hkeeps
      | aid _ _ _ hlowered => exact (ih (hlowered ▸ hy)).mono hkeeps
      | @record id b n m hn hnew hfree hform hnodes hlowered =>
          rw [hlowered, Table.get?_set] at hy
          split at hy
          · next heq =>
              obtain rfl := heq
              obtain rfl := Option.some.inj hy
              refine .records hn hfree hsteps hkeeps hform ?_
              rw [hnodes, Array.getElem?_push_size]
          · exact (ih hy).mono hkeeps
      | @stand id b v n hn hnew hfree hstands hnodes hlowered =>
          rw [hlowered, Table.get?_set] at hy
          split at hy
          · next heq =>
              obtain rfl := heq
              obtain rfl := Option.some.inj hy
              obtain ⟨helided, hx, hx'⟩ := hstands
              exact .stands hn hfree helided hx (hkeeps.lowered hx') ((ih hx').mono hkeeps)
          · exact (ih hy).mono hkeeps

/-! ### What is lowered leads to no cycle -/

theorem Elided.required_eq (h : Elided g config id n) : g.required config id n = 1 := by
  rcases h with hop | hop | ⟨hop, hdrops⟩
  · simp [Graph.required, hop]
  · simp [Graph.required, hop]
  · simp [Graph.required, hop, ValueType.i64, hdrops]

theorem required_of_copied? {op' : Operator} (hop : n.op.copied? = some op')
    (hkept : n.op = .bool .i64 → g.drops config id = false) (hfree : absorbs g config id = false) :
    g.required config id n = 0 := by
  unfold Graph.required
  split
  case h_4 h => rw [hkept h]; rfl
  case h_8 => rw [hfree]; rfl
  case h_10 => rfl
  -- None of the others is copied.
  all_goals
    next h =>
      rw [h] at hop
      exact absurd hop (by simp [Operator.copied?])

/-- A node that has a node of its own does not stand for its first input. -/
theorem Form.not_elided {m : Node} (h : Form g config l b id n m) : ¬Elided g config id n := by
  intro helided
  cases h with
  | copied hop hkept =>
      rcases helided with heq | heq | ⟨heq, hdrops⟩
      · rw [heq] at hop
        exact absurd hop (by simp [Operator.copied?])
      · rw [heq] at hop
        exact absurd hop (by simp [Operator.copied?])
      · exact absurd ((hkept heq).symm.trans hdrops) (by simp)
  | compared hop | signed hop | loaded hop | stored hop | fused hop | branched hop | branched32 hop =>
      rcases helided with heq | heq | ⟨heq, -⟩ <;> exact absurd (hop.symm.trans heq) (by simp)

theorem exists_lowered_of_inputs {inputs inputs' : List Nat} {v : Nat}
    (h : List.Forall₂ (fun v v' => l.lowered.get? v = some v') inputs inputs') (hv : v ∈ inputs) :
    ∃ v', l.lowered.get? v = some v' := by
  obtain ⟨index, hindex⟩ := List.mem_iff_getElem?.mp hv
  obtain ⟨v', -, hv'⟩ := forall₂_getElem? h hindex
  exact ⟨v', hv'⟩

theorem exists_lowered_of_control {control : List Control} {v : Nat}
    (h : List.Forall₂ (Controls l) n.control control) (hv : v ∈ n.controlNodes) :
    ∃ v', l.lowered.get? v = some v' := by
  obtain ⟨c, hc, hnode⟩ := List.mem_filterMap.mp hv
  obtain ⟨index, hindex⟩ := List.mem_iff_getElem?.mp hc
  obtain ⟨c', -, hcontrols⟩ := forall₂_getElem? h hindex
  cases hcontrols with
  | block => exact absurd hnode (by simp [Control.node?])
  | node hlowered =>
      obtain rfl := Option.some.inj hnode
      exact ⟨_, hlowered⟩

theorem exists_lowered_of_two {p : Node} {x y x' y' index v : Nat} (hx : p.inputs[0]? = some x)
    (hy : p.inputs[1]? = some y) (hx' : l.lowered.get? x = some x') (hy' : l.lowered.get? y = some y')
    (hindex : index ≤ 1) (hv : p.inputs[index]? = some v) : ∃ v', l.lowered.get? v = some v' := by
  obtain rfl | rfl : index = 0 ∨ index = 1 := by omega
  · exact ⟨_, Option.some.inj (hx.symm.trans hv) ▸ hx'⟩
  · exact ⟨_, Option.some.inj (hy.symm.trans hv) ▸ hy'⟩

theorem Compared.exists_lowered {p : Node} {w : IntWidth} {c : Comparison} {inputs : List Nat}
    {index v : Nat} (h : Compared l b p w c inputs) (hindex : index ≤ 1)
    (hv : p.inputs[index]? = some v) : ∃ v', l.lowered.get? v = some v' := by
  cases h with
  | same hx hy hx' hy' => exact exists_lowered_of_two hx hy hx' hy' hindex hv
  | widened hx hy hx' hy' => exact exists_lowered_of_two hx hy hx' hy' hindex hv

/-- All that lowering a node follows is lowered, but for a comparison that is taken over; for it the
operands are. -/
theorem Form.exists_lowered {m : Node} {r : Nat} (h : Form g config l b id n m)
    (hfree : absorbs g config id = false) (hr : r ∈ g.followed config id n) :
    (∃ r', l.lowered.get? r = some r') ∨
      ∀ v, g.Follows config r v → ∃ v', l.lowered.get? v = some v' := by
  cases h with
  | copied hop hkept hcontrol hinputs =>
      rw [Graph.followed_of_required (required_of_copied? hop hkept hfree)] at hr
      rcases List.mem_append.mp hr with hr | hr
      · exact .inl (exists_lowered_of_inputs hinputs hr)
      · exact .inl (exists_lowered_of_control hcontrol hr)
  | compared hop hoperands =>
      have hk : g.required config id n = 1 + 1 := by simp [Graph.required, hop]
      rcases Graph.cases_of_mem_followed hk hr with ⟨index, hle, hindex⟩ | ⟨hnot, -⟩
      · exact .inl (hoperands.exists_lowered hle hindex)
      · simp [hop, Operator.isAccess] at hnot
  | signed hop hx hy hx' hy' =>
      have hk : g.required config id n = 1 + 1 := by simp [Graph.required, hop]
      rcases Graph.cases_of_mem_followed hk hr with ⟨index, hle, hindex⟩ | ⟨hnot, -⟩
      · exact .inl (exists_lowered_of_two hx hy hx' hy' hle hindex)
      · simp [hop, Operator.isAccess] at hnot
  | loaded hop hcontrol hs ha hs' ha' =>
      have hk : g.required config id n = 1 + 1 := by simp [Graph.required, hop]
      rcases Graph.cases_of_mem_followed hk hr with ⟨index, hle, hindex⟩ | ⟨-, hr⟩
      · exact .inl (exists_lowered_of_two hs ha hs' ha' hle hindex)
      · exact .inl (exists_lowered_of_control hcontrol hr)
  | stored hop hcontrol hs ha hv hs' ha' hv' =>
      have hk : g.required config id n = 2 + 1 := by simp [Graph.required, hop]
      rcases Graph.cases_of_mem_followed hk hr with ⟨index, hle, hindex⟩ | ⟨-, hr⟩
      · obtain hle | rfl : index ≤ 1 ∨ index = 2 := by omega
        · exact .inl (exists_lowered_of_two hs ha hs' ha' hle hindex)
        · exact .inl ⟨_, Option.some.inj (hv.symm.trans hindex) ▸ hv'⟩
      · exact .inl (exists_lowered_of_control hcontrol hr)
  | @fused w c predicate p _ _ hop hcontrol hhead habsorbed hp hpop hoperands =>
      have hk : g.required config id n = 0 + 1 := by simp [Graph.required, hop]
      rcases Graph.cases_of_mem_followed hk hr with ⟨index, hle, hindex⟩ | ⟨-, hr⟩
      · obtain rfl : index = 0 := by omega
        rw [List.head?_eq_getElem?] at hhead
        obtain rfl := Option.some.inj (hhead.symm.trans hindex)
        refine .inr fun v ⟨p', hp', hv⟩ => ?_
        obtain rfl := Option.some.inj (hp.symm.trans hp')
        have hk : g.required config predicate p = 1 + 1 := by
          cases w <;> simp [Graph.required, hpop, habsorbed]
        rcases Graph.cases_of_mem_followed hk hv with ⟨index, hle, hindex⟩ | ⟨hnot, -⟩
        · exact hoperands.exists_lowered hle hindex
        · simp [hpop, Operator.isAccess] at hnot
      · exact .inl (exists_lowered_of_control hcontrol hr)
  | branched hop hcontrol hhead hv | branched32 hop hcontrol hhead hv =>
      have hk : g.required config id n = 0 + 1 := by simp [Graph.required, hop]
      rcases Graph.cases_of_mem_followed hk hr with ⟨index, hle, hindex⟩ | ⟨-, hr⟩
      · obtain rfl : index = 0 := by omega
        rw [List.head?_eq_getElem?] at hhead
        exact .inl ⟨_, Option.some.inj (hhead.symm.trans hindex) ▸ hv⟩
      · exact .inl (exists_lowered_of_control hcontrol hr)

theorem Stands.exists_lowered {new r : Nat} (h : Stands g config l id n new)
    (hr : r ∈ g.followed config id n) : ∃ r', l.lowered.get? r = some r' := by
  obtain ⟨helided, hx, hx'⟩ := h
  rcases Graph.cases_of_mem_followed helided.required_eq hr with ⟨index, hle, hindex⟩ | ⟨hnot, -⟩
  · obtain rfl : index = 0 := by omega
    exact ⟨_, Option.some.inj (hx.symm.trans hindex) ▸ hx'⟩
  · rcases helided with hop | hop | ⟨hop, -⟩ <;> simp [hop, Operator.isAccess] at hnot

section

variable (hall : ∀ {y y' : Nat}, l.lowered.get? y = some y' → g.Founded config y)

include hall

theorem Form.founded {m : Node} (h : Form g config l b id n m) (hn : g.node? id = some n)
    (hfree : absorbs g config id = false) : g.Founded config id := by
  refine Acc.intro id fun r ⟨n', hn', hr⟩ => ?_
  obtain rfl := Option.some.inj (hn.symm.trans hn')
  rcases h.exists_lowered hfree hr with ⟨r', hr'⟩ | hoperands
  · exact hall hr'
  · refine Acc.intro r fun v hv => ?_
    obtain ⟨v', hv'⟩ := hoperands v hv
    exact hall hv'

theorem Stands.founded {new : Nat} (h : Stands g config l id n new) (hn : g.node? id = some n) :
    g.Founded config id := by
  refine Acc.intro id fun r ⟨n', hn', hr⟩ => ?_
  obtain rfl := Option.some.inj (hn.symm.trans hn')
  obtain ⟨r', hr'⟩ := h.exists_lowered hr
  exact hall hr'

end

/-- What is lowered by steps is founded, for every step comes after the steps it depends on. -/
theorem Steps.founded (h : Steps g config {} l) {y y' : Nat} (hy : l.lowered.get? y = some y') :
    g.Founded config y := by
  induction h generalizing y y' with
  | refl => exact absurd hy (by simp)
  | @tail l₁ l' hsteps hstep ih =>
      cases hstep with
      | tables _ hlowered => exact ih (hlowered ▸ hy)
      | aid _ _ _ hlowered => exact ih (hlowered ▸ hy)
      | @record id b n m hn hnew hfree hform hnodes hlowered =>
          rw [hlowered, Table.get?_set] at hy
          split at hy
          · next heq => exact heq ▸ hform.founded ih (Graph.node?_eq_some.mpr ⟨b, hn⟩) hfree
          · exact ih hy
      | @stand id b v n hn hnew hfree hstands hnodes hlowered =>
          rw [hlowered, Table.get?_set] at hy
          split at hy
          · next heq => exact heq ▸ hstands.founded ih (Graph.node?_eq_some.mpr ⟨b, hn⟩)
          · exact ih hy

end Lowering

end Isel
