import Isel.Proofs.Lowering
import Isel.Proofs.Representation
import Isel.Proofs.ScheduleRun

/-! Lowering makes nodes that can be run. Each new node refers to earlier ones that give a value and
lie in blocks which dominate its own, and has the operands that its operator computes with. -/

namespace Isel

/-- A terminator on words has somewhere to go. -/
def Departs (g : Graph) (b : Nat) (n : Node) : Prop :=
  ∀ xs : List Word, xs.length = n.inputs.length → ∃ out, Words.exit n xs = .ok out ∧
    ∀ k, out = .goto k → ∃ c, (g.block? b).bind (·.successors[k]?) = some c ∧ c < g.blocks.size

namespace Lowering

variable {g : Graph} {l l' : Lowering} {b c v new : Nat} {n : Node}

/-- A new node that a node of block `b` can have as an input. -/
def Usable (g : Graph) (l : Lowering) (b v : Nat) : Prop :=
  ∃ c n, l.nodes[v]? = some ⟨c, n⟩ ∧ n.op.isTargetStore = false ∧ n.op.isTerminator = false ∧
    g.Dominates c b

theorem Usable.lt (h : l.Usable g b v) : v < l.nodes.size := by
  obtain ⟨c, n, hn, -⟩ := h
  exact (Array.getElem?_eq_some_iff.mp hn).1

theorem Usable.of_dominates (h : l.Usable g c v) (hdom : g.Dominates c b) : l.Usable g b v := by
  obtain ⟨d, n, hn, hstore, hterm, hd⟩ := h
  exact ⟨d, n, hn, hstore, hterm, hd.trans hdom⟩

/-- What a node of block `b` has to be to be recorded. -/
structure Fits (g : Graph) (l : Lowering) (b : Nat) (n : Node) : Prop where
  block : b < g.blocks.size
  references : ∀ r ∈ n.references, r < l.nodes.size
  inputs : ∀ r ∈ n.inputs, l.Usable g b r
  computes : n.op.isTerminator = false → Words.computes n = true
  departs : n.op.isTerminator = true → Departs g b n

/-- The nodes made so far can be run, and the tables lead to nodes that can be used. -/
structure Sound (g : Graph) (l : Lowering) : Prop where
  block : ∀ (i : Nat) (p : Placed), l.nodes[i]? = some p → p.block < g.blocks.size
  grounded : Schedule.Grounded l.nodes
  inputs : ∀ (i : Nat) (p : Placed), l.nodes[i]? = some p → ∀ r ∈ p.node.inputs,
    l.Usable g p.block r
  computes : ∀ (i : Nat) (p : Placed), l.nodes[i]? = some p → p.node.op.isTerminator = false →
    Words.computes p.node = true
  departs : ∀ (i : Nat) (p : Placed), l.nodes[i]? = some p → p.node.op.isTerminator = true →
    Departs g p.block p.node
  lowered : ∀ y y', l.lowered.get? y = some y' → y' < l.nodes.size ∧
    ∀ k c, g.kindOf? y = some k → g.blockOf? y = some c → l.Usable g c y'
  contexts : ∀ b s context, l.contexts.get? (b, s) = some context →
    l.Usable g b context.space ∧ l.Usable g b context.size
  checks : ∀ key checked, l.checks.get? key = some checked →
    l.Usable g key.block checked ∧ key.address < l.nodes.size

theorem sound_empty (g : Graph) : Sound g {} where
  block i p h := absurd h (by simp)
  grounded i p h := absurd h (by simp)
  inputs i p h := absurd h (by simp)
  computes i p h := absurd h (by simp)
  departs i p h := absurd h (by simp)
  lowered y y' h := absurd h (by simp)
  contexts b s context h := absurd h (by simp)
  checks key checked h := absurd h (by simp)

theorem getElem?_push_of_some {nodes : Array Placed} {i : Nat} {p q : Placed}
    (h : nodes[i]? = some p) : (nodes.push q)[i]? = some p := by
  have hlt := (Array.getElem?_eq_some_iff.mp h).1
  rw [Array.getElem?_push_lt hlt, ← h, Array.getElem?_eq_getElem hlt]

theorem getElem?_push_cases {nodes : Array Placed} {i : Nat} {p q : Placed}
    (h : (nodes.push q)[i]? = some p) : nodes[i]? = some p ∨ i = nodes.size ∧ p = q := by
  rw [Array.getElem?_push] at h
  split at h
  · next heq => exact .inr ⟨heq, (Option.some.inj h).symm⟩
  · exact .inl h

/-- A node that can be used stays so when nodes are added. -/
theorem Usable.mono (h : l.Usable g b v)
    (hnodes : ∀ (i : Nat) (p : Placed), l.nodes[i]? = some p → l'.nodes[i]? = some p) :
    l'.Usable g b v := by
  obtain ⟨c, n, hn, hrest⟩ := h
  exact ⟨c, n, hnodes _ _ hn, hrest⟩

theorem Usable.push (h : l.Usable g b v) (p : Placed) (s : Stats) :
    Usable g { l with nodes := l.nodes.push p, stats := s } b v :=
  h.mono fun _ _ => getElem?_push_of_some

/-- The node just recorded can be used in its own block. -/
theorem usable_push (hstore : n.op.isTargetStore = false) (hterm : n.op.isTerminator = false)
    (s : Stats) :
    Usable g { l with nodes := l.nodes.push ⟨b, n⟩, stats := s } b l.nodes.size :=
  ⟨b, n, by simp, hstore, hterm, .refl g b⟩

theorem Sound.push (h : l.Sound g) (hfits : l.Fits g b n) (s : Stats) :
    Sound g { l with nodes := l.nodes.push ⟨b, n⟩, stats := s } where
  block i p hp := by
    rcases getElem?_push_cases hp with hp | ⟨-, rfl⟩
    · exact h.block i p hp
    · exact hfits.block
  grounded i p hp r hr := by
    rcases getElem?_push_cases hp with hp | ⟨rfl, rfl⟩
    · exact h.grounded i p hp r hr
    · exact hfits.references r hr
  inputs i p hp r hr := by
    rcases getElem?_push_cases hp with hp | ⟨-, rfl⟩
    · exact (h.inputs i p hp r hr).push _ s
    · exact (hfits.inputs r hr).push _ s
  computes i p hp hterm := by
    rcases getElem?_push_cases hp with hp | ⟨-, rfl⟩
    · exact h.computes i p hp hterm
    · exact hfits.computes hterm
  departs i p hp hterm := by
    rcases getElem?_push_cases hp with hp | ⟨-, rfl⟩
    · exact h.departs i p hp hterm
    · exact hfits.departs hterm
  lowered y y' hy := by
    obtain ⟨hlt, huse⟩ := h.lowered y y' hy
    refine ⟨?_, fun k c hk hc => (huse k c hk hc).push _ s⟩
    simp only [Array.size_push]
    omega
  contexts c t context hcontext := by
    obtain ⟨hspace, hsize⟩ := h.contexts c t context hcontext
    exact ⟨hspace.push _ s, hsize.push _ s⟩
  checks key checked hkey := by
    obtain ⟨huse, hlt⟩ := h.checks key checked hkey
    refine ⟨huse.push _ s, ?_⟩
    simp only [Array.size_push]
    omega

theorem Sound.setStats (h : l.Sound g) (s : Stats) : Sound g { l with stats := s } :=
  { h with }

theorem Sound.setContext (h : l.Sound g) {t : Nat} {context : MemoryContext}
    (hspace : l.Usable g b context.space) (hsize : l.Usable g b context.size) :
    Sound g { l with contexts := l.contexts.set (b, t) context } :=
  { h with
    contexts := fun c u found hfound => by
      rw [Table.get?_set] at hfound
      split at hfound
      · next heq =>
          obtain ⟨rfl, -⟩ := Prod.mk.inj heq
          obtain rfl := Option.some.inj hfound
          exact ⟨hspace, hsize⟩
      · exact h.contexts c u found hfound }

theorem Sound.setCheck (h : l.Sound g) {key : CheckKey} {checked : Nat}
    (huse : l.Usable g key.block checked) (haddress : key.address < l.nodes.size) :
    Sound g { l with checks := l.checks.set key checked } :=
  { h with
    checks := fun other found hfound => by
      rw [Table.get?_set] at hfound
      split at hfound
      · next heq =>
          subst heq
          obtain rfl := Option.some.inj hfound
          exact ⟨huse, haddress⟩
      · exact h.checks other found hfound }

theorem Sound.setLowered (h : l.Sound g) {y y' : Nat} (hlt : y' < l.nodes.size)
    (huse : ∀ k c, g.kindOf? y = some k → g.blockOf? y = some c → l.Usable g c y') :
    Sound g { l with lowered := l.lowered.set y y' } :=
  { h with
    lowered := fun z z' hz => by
      rw [Table.get?_set] at hz
      split at hz
      · next heq =>
          subst heq
          obtain rfl := Option.some.inj hz
          exact ⟨hlt, huse⟩
      · exact h.lowered z z' hz }

/-! ### Helper nodes -/

/-- A state and a later one, with nodes of block `b` but no terminator made in between. -/
structure Grows (b : Nat) (l l' : Lowering) : Prop where
  lowered : l'.lowered = l.lowered
  nodes : ∀ (i : Nat) (p : Placed), l.nodes[i]? = some p → l'.nodes[i]? = some p
  size : l.nodes.size ≤ l'.nodes.size
  block : ∀ (i : Nat) (p : Placed), l'.nodes[i]? = some p → l.nodes.size ≤ i →
    p.block = b ∧ p.node.op.isTerminator = false
  contexts : ∀ key context, l'.contexts.get? key = some context →
    l.contexts.get? key = some context ∨ key.1 = b
  checks : ∀ key checked, l'.checks.get? key = some checked →
    l.checks.get? key = some checked ∨ key.block = b

theorem Grows.of_stats (b : Nat) (l : Lowering) (s : Stats) : Grows b l { l with stats := s } where
  lowered := rfl
  nodes _ _ h := h
  size := Nat.le_refl _
  block i p h hle := absurd (Array.getElem?_eq_some_iff.mp h).1 (by simpa using hle)
  contexts _ _ h := .inl h
  checks _ _ h := .inl h

theorem Grows.refl (b : Nat) (l : Lowering) : Grows b l l := .of_stats b l l.stats

theorem Grows.trans {l₁ : Lowering} (h : Grows b l l₁) (h' : Grows b l₁ l') : Grows b l l' where
  lowered := h'.lowered.trans h.lowered
  nodes i p hp := h'.nodes i p (h.nodes i p hp)
  size := Nat.le_trans h.size h'.size
  block i p hp hle := by
    by_cases hi : l₁.nodes.size ≤ i
    · exact h'.block i p hp hi
    · have hlt : i < l₁.nodes.size := by omega
      have hsome := Array.getElem?_eq_getElem hlt
      have heq := h'.nodes i _ hsome
      rw [hp] at heq
      obtain rfl := Option.some.inj heq
      exact h.block i _ hsome hle
  contexts key context hkey := by
    rcases h'.contexts key context hkey with hkey | hkey
    · exact h.contexts key context hkey
    · exact .inr hkey
  checks key checked hkey := by
    rcases h'.checks key checked hkey with hkey | hkey
    · exact h.checks key checked hkey
    · exact .inr hkey

theorem Grows.push (b : Nat) (l : Lowering) {n : Node} (hterm : n.op.isTerminator = false)
    (s : Stats) : Grows b l { l with nodes := l.nodes.push ⟨b, n⟩, stats := s } where
  lowered := rfl
  nodes _ _ := getElem?_push_of_some
  size := by simp
  block i p hp hle := by
    rcases getElem?_push_cases hp with hp | ⟨-, rfl⟩
    · exact absurd (Array.getElem?_eq_some_iff.mp hp).1 (by simpa using hle)
    · exact ⟨rfl, hterm⟩
  contexts _ _ h := .inl h
  checks _ _ h := .inl h

theorem Grows.setContext (b : Nat) (l : Lowering) (t : Nat) (context : MemoryContext) :
    Grows b l { l with contexts := l.contexts.set (b, t) context } :=
  { Grows.refl b l with
    contexts := fun key found hfound => by
      rw [Table.get?_set] at hfound
      split at hfound
      · next heq => exact .inr (congrArg Prod.fst heq)
      · exact .inl hfound }

theorem Grows.setCheck (l : Lowering) (key : CheckKey) (checked : Nat) :
    Grows key.block l { l with checks := l.checks.set key checked } :=
  { Grows.refl key.block l with
    checks := fun other found hfound => by
      rw [Table.get?_set] at hfound
      split at hfound
      · next heq => exact .inr (congrArg CheckKey.block heq)
      · exact .inl hfound }

theorem Usable.grows (h : l.Usable g c v) (hgrows : Grows b l l') : l'.Usable g c v :=
  h.mono hgrows.nodes

/-- A helper node: no terminator, no store, and on nodes that can be used. -/
structure Helper (g : Graph) (l : Lowering) (b : Nat) (n : Node) : Prop where
  block : b < g.blocks.size
  control : n.control = []
  inputs : ∀ r ∈ n.inputs, l.Usable g b r
  plain : n.op.isTargetStore = false ∧ n.op.isTerminator = false
  computes : Words.computes n = true

theorem Helper.fits (h : Helper g l b n) : l.Fits g b n where
  block := h.block
  references r hr := by
    have hr' : r ∈ n.inputs := by
      simpa [Node.references, Node.controlNodes, h.control] using hr
    exact (h.inputs r hr').lt
  inputs := h.inputs
  computes _ := h.computes
  departs hterm := by simp [h.plain.2] at hterm

/-- A helper node can be run, and used in its block. -/
theorem Sound.inserted (h : l.Sound g) (hn : Helper g l b n) :
    Sound g (l.inserted b n) ∧ Grows b l (l.inserted b n) ∧
      Usable g (l.inserted b n) b l.nodes.size :=
  ⟨h.push hn.fits _, .push b l hn.plain.2 _, usable_push hn.plain.1 hn.plain.2 _⟩

@[simp] theorem size_inserted (l : Lowering) (b : Nat) (n : Node) :
    (l.inserted b n).nodes.size = l.nodes.size + 1 := Array.size_push ..

/-- A memory context, found or made, can be used in its block. -/
theorem memoryContext_sound (h : l.Sound g) (hb : b < g.blocks.size) {config : Config} {state : Nat}
    (hstate : l.Usable g b state) {context : MemoryContext}
    (hok : Select.memoryContext config b state l = .ok (context, l')) :
    Sound g l' ∧ Grows b l l' ∧ l'.Usable g b context.space ∧ l'.Usable g b context.size := by
  rcases Select.memoryContext_ok hok with ⟨-, hfound, rfl⟩ | ⟨rfl, rfl⟩
  · obtain ⟨hspace, hsize⟩ := h.contexts b state context hfound
    have hgrows := Grows.of_stats b l { l.stats with shared := l.stats.shared + 2 }
    exact ⟨h.setStats _, hgrows, hspace.grows hgrows, hsize.grows hgrows⟩
  · have hspaceNode : Helper g l b (Select.spaceNode state) :=
      ⟨hb, rfl, by simpa [Select.spaceNode] using hstate, ⟨rfl, rfl⟩, rfl⟩
    obtain ⟨h₁, hgrows₁, hspace⟩ := h.inserted hspaceNode
    have hsizeNode : Helper g (l.inserted b (Select.spaceNode state)) b (Select.sizeNode state) :=
      ⟨hb, rfl, by simpa [Select.sizeNode] using hstate.grows hgrows₁, ⟨rfl, rfl⟩, rfl⟩
    obtain ⟨h₂, hgrows₂, hsize⟩ := h₁.inserted hsizeNode
    rw [size_inserted] at hsize
    replace hspace := hspace.grows hgrows₂
    have hgrows := hgrows₁.trans hgrows₂
    simp only [Select.withContext]
    split
    · have hset := Grows.setContext b ((l.inserted b (Select.spaceNode state)).inserted b
        (Select.sizeNode state)) state { space := l.nodes.size, size := l.nodes.size + 1 }
      exact ⟨h₂.setContext hspace hsize, hgrows.trans hset, hspace.grows hset, hsize.grows hset⟩
    · exact ⟨h₂, hgrows, hspace, hsize⟩

/-- A checked address, found or made, can be used in its block. -/
theorem checkedAddress_sound (h : l.Sound g) {key : CheckKey} (hb : key.block < g.blocks.size)
    {config : Config} {size checked : Nat} (hstate : l.Usable g key.block key.state)
    (haddress : l.Usable g key.block key.address) (hsize : l.Usable g key.block size)
    (hok : Select.checkedAddress config key size l = .ok (checked, l')) :
    Sound g l' ∧ Grows key.block l l' ∧ l'.Usable g key.block checked := by
  rcases Select.checkedAddress_ok hok with ⟨-, hfound, rfl⟩ | ⟨rfl, rfl⟩
  · have hgrows := Grows.of_stats key.block l { l.stats with shared := l.stats.shared + 1 }
    exact ⟨h.setStats _, hgrows, (h.checks key checked hfound).1.grows hgrows⟩
  · have hcheckNode : Helper g l key.block (Select.checkNode key size) :=
      ⟨hb, rfl, by simp [Select.checkNode, hstate, haddress, hsize], ⟨rfl, rfl⟩, rfl⟩
    obtain ⟨h₁, hgrows₁, hchecked⟩ := h.inserted hcheckNode
    simp only [Select.withCheck]
    split
    · have hset := Grows.setCheck (l.inserted key.block (Select.checkNode key size)) key l.nodes.size
      exact ⟨h₁.setCheck hchecked (haddress.grows hgrows₁).lt, hgrows₁.trans hset,
        hchecked.grows hset⟩
    · exact ⟨h₁, hgrows₁, hchecked⟩

/-! ### What becomes of a node -/

/-- The operator with which an integer operator is copied. -/
def Copies (op op' : Operator) : Prop :=
  (op.isDirect = true ∧ op' = op.selected) ∨ (op = .jump ∧ op' = .jump) ∨ (op = .ret ∧ op' = .ret) ∨
    ∃ w, op = .typedRet (.int w) ∧ op' = .target .intRet

/-- The new nodes come from references of the old node. -/
def Traced (l : Lowering) (ids new : List Nat) : Prop :=
  ∀ r ∈ new, ∃ v ∈ ids, l.lowered.get? v = some r

/-- What a node of an integer graph is lowered to when all that it refers to has been: the state in
which the helper nodes are there, and the node that is recorded for it then. -/
inductive Made (g : Graph) (config : Config) (l : Lowering) (b : Nat) (n : Node) :
    Lowering → Node → Prop
  | copied {op' : Operator} {control : List Control} {inputs : List Nat} (s : Stats)
      (op : Copies n.op op')
      (control_traced : Traced l n.controlNodes (control.filterMap Control.node?))
      (inputs_lowered : List.Forall₂ (fun v v' => l.lowered.get? v = some v') n.inputs inputs) :
      Made g config l b n { l with stats := s } ⟨op', control, n.literals, inputs⟩
  | compared {c : Comparison} {x y x' y' : Nat} (op : n.op = .compare .w32 c)
      (x_input : n.inputs[0]? = some x) (y_input : n.inputs[1]? = some y)
      (x_lowered : l.lowered.get? x = some x') (y_lowered : l.lowered.get? y = some y') :
      Made g config l b n (Select.widened .w32 b c x' y' l).1
        { op := .compare .w64 c, inputs := (Select.widened .w32 b c x' y' l).2 }
  | loaded {op : Load} {s a state address checked : Nat} {context : MemoryContext}
      {l₁ l₂ : Lowering} {control : List Control} (op_eq : n.op = .load op)
      (control_traced : Traced l n.controlNodes (control.filterMap Control.node?))
      (state_input : n.inputs[0]? = some s) (address_input : n.inputs[1]? = some a)
      (state_lowered : l.lowered.get? s = some state)
      (address_lowered : l.lowered.get? a = some address)
      (context_ok : Select.memoryContext config b state l = .ok (context, l₁))
      (check_ok : Select.checkedAddress config ⟨b, state, address, op.access.bytes⟩ context.size l₁
        = .ok (checked, l₂)) :
      Made g config l b n l₂
        { op := .target (.load op.access), control, inputs := [state, context.space, checked] }
  | stored {op : Store} {s a v state address value checked : Nat} {context : MemoryContext}
      {l₁ l₂ : Lowering} {control : List Control} (op_eq : n.op = .store op)
      (control_traced : Traced l n.controlNodes (control.filterMap Control.node?))
      (state_input : n.inputs[0]? = some s) (address_input : n.inputs[1]? = some a)
      (value_input : n.inputs[2]? = some v) (state_lowered : l.lowered.get? s = some state)
      (address_lowered : l.lowered.get? a = some address)
      (value_lowered : l.lowered.get? v = some value)
      (context_ok : Select.memoryContext config b state l = .ok (context, l₁))
      (check_ok : Select.checkedAddress config ⟨b, state, address, op.access.bytes⟩ context.size l₁
        = .ok (checked, l₂)) :
      Made g config l b n l₂
        { op := .target (.store op.access), control
          inputs := [state, context.space, checked, value] }
  | fused {w : IntWidth} {c : Comparison} {predicate x y x' y' : Nat} {p : Node}
      {control : List Control} (op : n.op = .branch)
      (control_traced : Traced l n.controlNodes (control.filterMap Control.node?))
      (predicate_input : n.inputs.head? = some predicate) (p_node : g.node? predicate = some p)
      (p_op : p.op = .compare w c) (absorbed : Select.absorbs g config predicate = true)
      (x_input : p.inputs[0]? = some x) (y_input : p.inputs[1]? = some y)
      (x_lowered : l.lowered.get? x = some x') (y_lowered : l.lowered.get? y = some y') :
      Made g config l b n (Select.widened w b c x' y' l).1
        { op := .target (.branchOn c), control, inputs := (Select.widened w b c x' y' l).2 }
  | branched {predicate v : Nat} {p : Node} {control : List Control} (op : n.op = .branch)
      (control_traced : Traced l n.controlNodes (control.filterMap Control.node?))
      (predicate_input : n.inputs.head? = some predicate) (p_node : g.node? predicate = some p)
      (v_lowered : l.lowered.get? predicate = some v) (wide : p.op.resultType ≠ some .i32) :
      Made g config l b n l { op := .branch, control, inputs := [v] }
  | branched32 {predicate v : Nat} {p : Node} {control : List Control} (op : n.op = .branch)
      (control_traced : Traced l n.controlNodes (control.filterMap Control.node?))
      (predicate_input : n.inputs.head? = some predicate) (p_node : g.node? predicate = some p)
      (v_lowered : l.lowered.get? predicate = some v) (narrow : p.op.resultType = some .i32) :
      Made g config l b n (l.inserted b (Select.extension false v))
        { op := .branch, control, inputs := [l.nodes.size] }

open Select

variable {config : Config} {recur : Nat → Select Nat} {id : Nat}

/-- The node recorded for a node, and the state with it. -/
def Recorded (g : Graph) (config : Config) (l : Lowering) (b : Nat) (n : Node) (new : Nat)
    (l' : Lowering) : Prop :=
  ∃ l₁ m s, Made g config l b n l₁ m ∧ new = l₁.nodes.size ∧
    l' = { l₁ with nodes := l₁.nodes.push ⟨b, m⟩, stats := s }

theorem recorded_of_copy {op' : Operator} (hop : Copies n.op op') (s : Stats)
    (hfinds : Finds recur l n.references)
    (h : copy recur b n op' { l with stats := s } = .ok (new, l')) :
    Recorded g config l b n new l' := by
  obtain ⟨control, l₁, inputs, l₂, hcontrol, hinputs, hr⟩ := copy_ok.mp h
  obtain ⟨rfl, htraced⟩ := hfinds.control (fun v hv => List.mem_append_right _ hv) hcontrol rfl
  obtain ⟨rfl, hlowered⟩ := hfinds.mapM (fun v hv => List.mem_append_left _ hv) hinputs rfl
  obtain ⟨rfl, rfl⟩ := Prod.mk.inj hr
  exact ⟨_, _, _, .copied s hop htraced hlowered, rfl, rfl⟩

theorem mem_references_of_input {index v : Nat} (hv : n.inputs[index]? = some v) :
    v ∈ n.references := List.mem_append_left _ (List.mem_of_getElem? hv)

theorem recorded_of_load {op : Load} (hop : n.op = .load op) (hfinds : Finds recur l n.references)
    (h : load recur config b id n op l = .ok (new, l')) : Recorded g config l b n new l' := by
  obtain ⟨s, a, state, l₁, address, l₂, hs, hstate, ha, haddress, haccess⟩ := load_ok.mp h
  obtain ⟨rfl, hstate'⟩ := hfinds.of_ok (mem_references_of_input hs) hstate rfl
  obtain ⟨rfl, haddress'⟩ := hfinds.of_ok (mem_references_of_input ha) haddress rfl
  obtain ⟨context, l₃, checked, l₄, control, l₅, hcontext, hcheck, hcontrol, hr⟩ :=
    access_ok.mp haccess
  have hl : l₄.lowered = l₂.lowered :=
    (lowered_of_checkedAddress hcheck).trans (lowered_of_memoryContext hcontext)
  obtain ⟨rfl, htraced⟩ := hfinds.control (fun v hv => List.mem_append_right _ hv) hcontrol hl
  obtain ⟨rfl, rfl⟩ := Prod.mk.inj hr
  exact ⟨_, _, _, .loaded hop htraced hs ha hstate' haddress' hcontext hcheck, rfl, rfl⟩

theorem recorded_of_store {op : Store} (hop : n.op = .store op)
    (hfinds : Finds recur l n.references) (h : store recur config b id n op l = .ok (new, l')) :
    Recorded g config l b n new l' := by
  obtain ⟨s, a, v, state, l₁, address, l₂, value, l₃, hs, hstate, ha, haddress, hv, hvalue,
    haccess⟩ := store_ok.mp h
  obtain ⟨rfl, hstate'⟩ := hfinds.of_ok (mem_references_of_input hs) hstate rfl
  obtain ⟨rfl, haddress'⟩ := hfinds.of_ok (mem_references_of_input ha) haddress rfl
  obtain ⟨rfl, hvalue'⟩ := hfinds.of_ok (mem_references_of_input hv) hvalue rfl
  obtain ⟨context, l₄, checked, l₅, control, l₆, hcontext, hcheck, hcontrol, hr⟩ :=
    access_ok.mp haccess
  have hl : l₅.lowered = l₃.lowered :=
    (lowered_of_checkedAddress hcheck).trans (lowered_of_memoryContext hcontext)
  obtain ⟨rfl, htraced⟩ := hfinds.control (fun v hv => List.mem_append_right _ hv) hcontrol hl
  obtain ⟨rfl, rfl⟩ := Prod.mk.inj hr
  exact ⟨_, _, _, .stored hop htraced hs ha hv hstate' haddress' hvalue' hcontext hcheck, rfl, rfl⟩

/-- What a branch waits for: its predicate, or the operands of a comparison that it takes over. -/
theorem recorded_of_branch (hop : n.op = .branch) (hcontrols : Finds recur l n.controlNodes)
    (hinputs : ∀ v ∈ n.inputs, absorbs g config v = false → Finds recur l [v])
    (habsorbed : ∀ v ∈ n.inputs, absorbs g config v = true → ∀ p, g.node? v = some p →
      Finds recur l p.inputs)
    (h : branch recur g config b id n l = .ok (new, l')) : Recorded g config l b n new l' := by
  obtain ⟨predicate, control, l₁, p, hhead, hcontrol, hp, hcases⟩ := branch_ok h
  have hmem : predicate ∈ n.inputs := List.mem_of_head? hhead
  obtain ⟨rfl, htraced⟩ := hcontrols.control (fun _ hv => hv) hcontrol rfl
  rcases hcases with ⟨w, c, inputs, l₂, hpop, hfused, hcompared, hr⟩ |
    ⟨hfused, v, l₂, v', l₃, hv, hv', hr⟩
  · obtain ⟨x, y, x', y', hx, hy, hx', hy', hwidened⟩ :=
      (habsorbed predicate hmem hfused p hp).compared hcompared rfl
    obtain ⟨rfl, rfl⟩ := Prod.mk.inj hwidened
    obtain ⟨rfl, rfl⟩ := Prod.mk.inj hr
    exact ⟨_, _, _, .fused hop htraced hhead hp hpop hfused hx hy hx' hy', rfl, rfl⟩
  · obtain ⟨rfl, hlowered⟩ := (hinputs predicate hmem hfused).of_ok (List.mem_singleton_self _) hv rfl
    split at hv'
    · next htype =>
        obtain ⟨rfl, rfl⟩ := Prod.mk.inj (insert_ok.mp hv')
        obtain ⟨rfl, rfl⟩ := Prod.mk.inj hr
        exact ⟨_, _, _, .branched32 hop htraced hhead hp hlowered htype, rfl, rfl⟩
    · next htype =>
        obtain ⟨rfl, rfl⟩ := Prod.mk.inj (pure_ok.mp hv')
        obtain ⟨rfl, rfl⟩ := Prod.mk.inj hr
        exact ⟨_, _, _, .branched hop htraced hhead hp hlowered htype, rfl, rfl⟩

/-- A node stands for its first input. -/
def Replaced (l : Lowering) (n : Node) (new : Nat) (l' : Lowering) : Prop :=
  (n.op = .wrap ∨ n.op = .address .w64) ∧ ∃ x s, n.inputs[0]? = some x ∧
    l.lowered.get? x = some new ∧ l' = { l with stats := s }

theorem replaced_of_eliminate (hop : n.op = .wrap ∨ n.op = .address .w64)
    (hfinds : Finds recur l n.references) (h : eliminate recur id n l = .ok (new, l')) :
    Replaced l n new l' := by
  obtain ⟨x, hx, hrecur⟩ := eliminate_ok.mp h
  obtain ⟨rfl, hlowered⟩ := hfinds.of_ok (mem_references_of_input hx) hrecur rfl
  exact ⟨hop, x, _, hx, hlowered, rfl⟩

/-- A branch can have an absorbed input, and no other node can. What is not absorbed is found. -/
structure Awaits (g : Graph) (config : Config) (recur : Nat → Select Nat) (l : Lowering)
    (n : Node) : Prop where
  controls : Finds recur l n.controlNodes
  inputs : ∀ v ∈ n.inputs, absorbs g config v = false → Finds recur l [v]
  absorbed : ∀ v ∈ n.inputs, absorbs g config v = true → n.op = .branch ∧
    ∀ p, g.node? v = some p → Finds recur l p.inputs

theorem Awaits.finds (h : Awaits g config recur l n) (hop : n.op ≠ .branch) :
    Finds recur l n.references := by
  intro v hv
  rcases List.mem_append.mp hv with hv | hv
  · cases habsorbs : absorbs g config v with
    | true => exact absurd (h.absorbed v hv habsorbs).1 hop
    | false => exact h.inputs v hv habsorbs v (List.mem_singleton_self v)
  · exact h.controls v hv

/-- What lowering makes of a node of an integer graph, once all that it refers to is lowered. -/
theorem node_cases (hint : n.op.isInteger = true) (hbools : config.eliminateReturnBools = false)
    (hawaits : Awaits g config recur l n) (h : node recur g config b id n l = .ok (new, l')) :
    Replaced l n new l' ∨ Recorded g config l b n new l' := by
  have hfinds := hawaits.finds
  have hretarget {op' : Target} (hop : Copies n.op (.target op')) (hne : n.op ≠ .branch)
      (h : retarget recur b n op' l = .ok (new, l')) : Recorded g config l b n new l' :=
    recorded_of_copy hop _ (hfinds hne) (retarget_ok.mp h)
  have hcopy {op' : Operator} (hop : Copies n.op op') (hne : n.op ≠ .branch)
      (h : copy recur b n op' l = .ok (new, l')) : Recorded g config l b n new l' :=
    recorded_of_copy hop l.stats (hfinds hne) h
  have hdirect : ∀ op : Operator, n.op = op → op.isDirect = true → op.selected = op →
      copy recur b n op l = .ok (new, l') → Recorded g config l b n new l' := by
    intro op hop hdirect hselected h
    refine hcopy (.inl ?_) ?_ h
    · rw [hop]
      exact ⟨hdirect, hselected.symm⟩
    · rw [hop]
      rintro rfl
      simp [Operator.isDirect] at hdirect
  unfold node at h
  cases hop : n.op with
  | state =>
      simp only [hop] at h
      exact .inr (hdirect _ hop rfl rfl h)
  | updateState =>
      simp only [hop] at h
      exact .inr (hdirect _ hop rfl rfl h)
  | const ty =>
      simp only [hop] at h
      cases ty with
      | int w => exact .inr (hdirect _ hop rfl rfl h)
      | float w => simp [hop, Operator.isInteger, ValueType.isInt] at hint
  | intBinary w op =>
      cases w with
      | w32 =>
          simp only [hop] at h
          exact .inr (hdirect _ hop rfl rfl h)
      | w64 =>
          simp only [hop] at h
          cases hfused : op.fused? with
          | none =>
              rw [hfused] at h
              exact .inr (hdirect _ hop rfl (by simp [Operator.selected, hfused]) h)
          | some op' =>
              rw [hfused] at h
              refine .inr (hretarget (.inl ?_) (by simp [hop]) h)
              simp [hop, Operator.isDirect, Operator.selected, hfused]
  | bitCount w op =>
      simp only [hop] at h
      exact .inr (hdirect _ hop rfl rfl h)
  | compare w c =>
      cases w with
      | w64 =>
          simp only [hop] at h
          exact .inr (hdirect _ hop rfl rfl h)
      | w32 =>
          simp only [hop, bind_ok, countRetargeted, count_ok, add_ok, Prod.mk.injEq] at h
          obtain ⟨inputs, l₁, hcompared, _, _, ⟨-, rfl⟩, rfl, rfl⟩ := h
          have hfinds' : Finds recur l n.inputs := fun v hv =>
            hfinds (by simp [hop]) v (List.mem_append_left _ hv)
          obtain ⟨x, y, x', y', hx, hy, hx', hy', hwidened⟩ := hfinds'.compared hcompared rfl
          obtain ⟨rfl, rfl⟩ := Prod.mk.inj hwidened
          exact .inr ⟨_, _, _, .compared hop hx hy hx' hy', rfl, rfl⟩
  | bool ty =>
      cases ty with
      | float w => simp [hop, Operator.isInteger, ValueType.isInt] at hint
      | int w =>
          cases w with
          | w32 =>
              simp only [hop] at h
              exact .inr (hdirect _ hop rfl rfl h)
          | w64 =>
              simp only [hop, hbools, Bool.false_and, Bool.false_eq_true, if_false] at h
              exact .inr (hdirect _ hop rfl rfl h)
  | extend signed =>
      simp only [hop] at h
      exact .inr (hretarget (.inl (by rw [hop]; exact ⟨rfl, rfl⟩)) (by simp [hop]) h)
  | wrap =>
      simp only [hop] at h
      exact .inl (replaced_of_eliminate (.inl hop) (hfinds (by simp [hop])) h)
  | address w =>
      cases w with
      | w32 =>
          simp only [hop] at h
          exact .inr (hretarget (.inl (by rw [hop]; exact ⟨rfl, rfl⟩)) (by simp [hop]) h)
      | w64 =>
          simp only [hop] at h
          exact .inl (replaced_of_eliminate (.inr hop) (hfinds (by simp [hop])) h)
  | load op =>
      simp only [hop] at h
      exact .inr (recorded_of_load hop (hfinds (by simp [hop])) h)
  | store op =>
      simp only [hop] at h
      exact .inr (recorded_of_store hop (hfinds (by simp [hop])) h)
  | ret =>
      simp only [hop] at h
      exact .inr (hcopy (.inr (.inr (.inl ⟨hop, rfl⟩))) (by simp [hop]) h)
  | typedRet ty =>
      cases ty with
      | float w => simp [hop, Operator.isInteger, ValueType.isInt] at hint
      | int w =>
          simp only [hop] at h
          exact .inr (hretarget (.inr (.inr (.inr ⟨w, hop, rfl⟩))) (by simp [hop]) h)
  | branch =>
      simp only [hop] at h
      exact .inr (recorded_of_branch hop hawaits.controls hawaits.inputs
        (fun v hv habsorbs => (hawaits.absorbed v hv habsorbs).2) h)
  | jump =>
      simp only [hop] at h
      exact .inr (hcopy (.inr (.inl ⟨hop, rfl⟩)) (by simp [hop]) h)
  | _ => simp [hop, Operator.isInteger] at hint

/-! ### The recorded nodes can be run -/

/-- An operator that is selected one for one has on words as many operands as before. -/
theorem computes_selected {ks : List Kind} {op : Operator} {control : List Control}
    {literals : List Literal} {inputs : List Nat} (hdirect : op.isDirect = true)
    (haccepts : op.accepts ks) (hlength : inputs.length = ks.length)
    (hliteral : ∀ ty, op = .const ty → literals ≠ []) :
    Words.computes ⟨op.selected, control, literals, inputs⟩ = true := by
  cases op with
  | state =>
      obtain rfl : ks = [] := haccepts
      simp [Words.computes, Operator.selected, Words.operandCount?, hlength]
  | updateState =>
      obtain rfl : ks = [.state] := haccepts
      simp [Words.computes, Operator.selected, Words.operandCount?, hlength]
  | const ty =>
      obtain rfl : ks = [] := haccepts
      cases ty with
      | float w => simp [Operator.isDirect] at hdirect
      | int w =>
          have := hliteral _ rfl
          simp [Words.computes, Operator.selected, Words.operandCount?, hlength, this]
  | intBinary w op =>
      obtain rfl : ks = [.number (.int w), .number (.int w)] := haccepts
      cases w with
      | w32 => simp [Words.computes, Operator.selected, Words.operandCount?, hlength]
      | w64 =>
          cases hfused : op.fused? <;>
            simp [Words.computes, Operator.selected, Words.operandCount?, hlength, hfused]
  | bitCount w op =>
      obtain rfl : ks = [.number (.int w)] := haccepts
      simp [Words.computes, Operator.selected, Words.operandCount?, hlength]
  | compare w c =>
      obtain rfl : ks = [.number (.int w), .number (.int w)] := haccepts
      cases w with
      | w32 => simp [Operator.isDirect] at hdirect
      | w64 => simp [Words.computes, Operator.selected, Words.operandCount?, hlength]
  | bool ty =>
      obtain rfl : ks = [.number ty] := haccepts
      cases ty with
      | float w => simp [Operator.isDirect] at hdirect
      | int w => simp [Words.computes, Operator.selected, Words.operandCount?, hlength]
  | extend signed =>
      obtain rfl : ks = [.number .i32] := haccepts
      simp [Words.computes, Operator.selected, Words.operandCount?, hlength]
  | address w =>
      obtain rfl : ks = [.number (.int w)] := haccepts
      cases w with
      | w64 => simp [Operator.isDirect] at hdirect
      | w32 => simp [Words.computes, Operator.selected, Words.operandCount?, hlength]
  | _ => simp [Operator.isDirect] at hdirect

theorem isTerminator_selected {op : Operator} (h : op.isDirect = true) :
    op.selected.isTerminator = false ∧ op.isTerminator = false ∧
      op.selected.isTargetStore = false := by
  cases op with
  | state | updateState | const _ | bitCount _ _ | compare _ _ | bool _ | extend _ =>
      exact ⟨rfl, rfl, rfl⟩
  | intBinary w op =>
      cases w with
      | w32 => exact ⟨rfl, rfl, rfl⟩
      | w64 =>
          cases hfused : op.fused? <;>
            simp [Operator.selected, hfused, Operator.isTerminator, Operator.isTargetStore]
  | address w => cases w <;> exact ⟨rfl, rfl, rfl⟩
  | _ => simp [Operator.isDirect] at h

theorem Copies.isTerminator {op op' : Operator} (h : Copies op op') :
    op'.isTerminator = op.isTerminator ∧ op'.isTargetStore = false := by
  rcases h with ⟨hdirect, rfl⟩ | ⟨rfl, rfl⟩ | ⟨rfl, rfl⟩ | ⟨w, rfl, rfl⟩
  · obtain ⟨h₁, h₂, h₃⟩ := isTerminator_selected hdirect
    exact ⟨h₁.trans h₂.symm, h₃⟩
  · exact ⟨rfl, rfl⟩
  · exact ⟨rfl, rfl⟩
  · exact ⟨rfl, rfl⟩

/-- The recorded node ends its block if the old one does, and is a store if the old one is. -/
theorem Made.isTerminator {l₁ : Lowering} {m : Node} (h : Made g config l b n l₁ m) :
    m.op.isTerminator = n.op.isTerminator ∧
      (m.op.isTargetStore = true → n.op.kind? = none) := by
  cases h with
  | copied s hop _ _ => exact ⟨hop.isTerminator.1, by simp [hop.isTerminator.2]⟩
  | compared hop => exact ⟨(congrArg Operator.isTerminator hop).symm, by simp [Operator.isTargetStore]⟩
  | loaded hop => exact ⟨(congrArg Operator.isTerminator hop).symm, by simp [Operator.isTargetStore]⟩
  | stored hop => exact ⟨(congrArg Operator.isTerminator hop).symm, fun _ => congrArg Operator.kind? hop⟩
  | fused hop => exact ⟨(congrArg Operator.isTerminator hop).symm, by simp [Operator.isTargetStore]⟩
  | branched hop => exact ⟨(congrArg Operator.isTerminator hop).symm, by simp [Operator.isTargetStore]⟩
  | branched32 hop => exact ⟨(congrArg Operator.isTerminator hop).symm, by simp [Operator.isTargetStore]⟩

theorem extension_helper (hb : b < g.blocks.size) (hv : l.Usable g b v) (signed : Bool) :
    Helper g l b (extension signed v) :=
  ⟨hb, rfl, by simpa [extension] using hv, ⟨rfl, rfl⟩, rfl⟩

/-- The operands of a comparison can be used as words. -/
theorem widened_sound (h : l.Sound g) (hb : b < g.blocks.size) {x y : Nat} (hx : l.Usable g b x)
    (hy : l.Usable g b y) (w : IntWidth) (c : Comparison) :
    (widened w b c x y l).1.Sound g ∧ Grows b l (widened w b c x y l).1 ∧
      (∀ r ∈ (widened w b c x y l).2, (widened w b c x y l).1.Usable g b r) ∧
      (widened w b c x y l).2.length = 2 := by
  cases w with
  | w64 =>
      refine ⟨h, .refl b l, ?_, rfl⟩
      simpa [widened] using ⟨hx, hy⟩
  | w32 =>
      obtain ⟨h₁, hgrows₁, huse₁⟩ := h.inserted (extension_helper hb hx c.isSigned)
      obtain ⟨h₂, hgrows₂, huse₂⟩ := h₁.inserted (extension_helper hb (hy.grows hgrows₁) c.isSigned)
      refine ⟨h₂, hgrows₁.trans hgrows₂, ?_, rfl⟩
      rw [size_inserted] at huse₂
      simpa [widened] using ⟨huse₁.grows hgrows₂, huse₂⟩

theorem departs_of_goto {k : Nat} (hnext : ∃ c, (g.block? b).bind (·.successors[k]?) = some c ∧
    c < g.blocks.size) : ∀ j, (Exit.goto k : Exit Word) = .goto j →
      ∃ c, (g.block? b).bind (·.successors[j]?) = some c ∧ c < g.blocks.size := by
  rintro j hj
  obtain rfl := Exit.goto.inj hj
  exact hnext

/-- A two-way branch on words has somewhere to go. -/
theorem departs_branch {m : Node} (hnext : ∀ k < 2, ∃ c,
      (g.block? b).bind (·.successors[k]?) = some c ∧ c < g.blocks.size)
    (hexit : ∀ xs : List Word, xs.length = m.inputs.length →
      ∃ taken : Bool, Words.exit m xs = .ok (.goto (if taken then 0 else 1))) : Departs g b m := by
  intro xs hxs
  obtain ⟨taken, hout⟩ := hexit xs hxs
  refine ⟨_, hout, departs_of_goto (hnext _ ?_)⟩
  cases taken <;> decide

/-- References that come from the table lead to nodes that are there. -/
theorem Traced.lt (h : l.Sound g) {ids new : List Nat} (htraced : Traced l ids new) :
    ∀ r ∈ new, r < l.nodes.size := by
  intro r hr
  obtain ⟨v, -, hv⟩ := htraced r hr
  exact (h.lowered v r hv).1

theorem mem_references {m : Node} {r : Nat} :
    r ∈ m.references ↔ r ∈ m.inputs ∨ r ∈ m.control.filterMap Control.node? := List.mem_append

theorem references_lt (h : l.Sound g) {l₁ : Lowering} (hgrows : Grows b l l₁) {m : Node}
    {ids : List Nat} (htraced : Traced l ids (m.control.filterMap Control.node?))
    (huse : ∀ r ∈ m.inputs, l₁.Usable g b r) : ∀ r ∈ m.references, r < l₁.nodes.size := by
  intro r hr
  rcases mem_references.mp hr with hr | hr
  · exact (huse r hr).lt
  · exact Nat.lt_of_lt_of_le (htraced.lt h r hr) hgrows.size

/-- The nodes that guard an access can be used where they are. -/
theorem guard_sound (h : l.Sound g) (hb : b < g.blocks.size) {state address bytes checked : Nat}
    {context : MemoryContext} {l₁ l₂ : Lowering} (hstate : l.Usable g b state)
    (haddress : l.Usable g b address)
    (hcontext : memoryContext config b state l = .ok (context, l₁))
    (hcheck : checkedAddress config ⟨b, state, address, bytes⟩ context.size l₁
      = .ok (checked, l₂)) :
    l₂.Sound g ∧ Grows b l l₂ ∧ l₂.Usable g b context.space ∧ l₂.Usable g b checked := by
  obtain ⟨h₁, hgrows₁, hspace, hsize⟩ := memoryContext_sound h hb hstate hcontext
  obtain ⟨h₂, hgrows₂, hchecked⟩ := checkedAddress_sound h₁ hb (hstate.grows hgrows₁)
    (haddress.grows hgrows₁) hsize hcheck
  exact ⟨h₂, hgrows₁.trans hgrows₂, hspace.grows hgrows₂, hchecked⟩

theorem Made.sound {l₁ : Lowering} {m : Node} (hmade : Made g config l b n l₁ m) (h : l.Sound g)
    (hb : b < g.blocks.size)
    (hinputs : ∀ v ∈ n.inputs, ∀ v', l.lowered.get? v = some v' → l.Usable g b v')
    (habsorbed : ∀ v ∈ n.inputs, absorbs g config v = true → ∀ p, g.node? v = some p →
      ∀ x ∈ p.inputs, ∀ x', l.lowered.get? x = some x' → l.Usable g b x')
    {ks : List Kind} (hlength : n.inputs.length = ks.length) (haccepts : n.op.accepts ks)
    (hliteral : ∀ ty, n.op = .const ty → n.literals ≠ [])
    (hnext : ∀ k < n.op.successorCount, ∃ c,
      (g.block? b).bind (·.successors[k]?) = some c ∧ c < g.blocks.size) :
    l₁.Sound g ∧ Grows b l l₁ ∧ l₁.Fits g b m := by
  have hinput {index v v' : Nat} (hv : n.inputs[index]? = some v)
      (hv' : l.lowered.get? v = some v') : l.Usable g b v' :=
    hinputs v (List.mem_of_getElem? hv) v' hv'
  have hhead {v v' : Nat} (hv : n.inputs.head? = some v) (hv' : l.lowered.get? v = some v') :
      l.Usable g b v' := hinputs v (List.mem_of_head? hv) v' hv'
  cases hmade with
  | @copied op' control inputs s hop htraced hlowered =>
      have huse : ∀ r ∈ inputs, Usable g { l with stats := s } b r := by
        intro r hr
        obtain ⟨v, hv, hget⟩ := exists_of_forall₂_right hlowered hr
        exact hinputs v hv r hget
      have hlength' : inputs.length = ks.length := hlowered.length_eq.symm.trans hlength
      have hgrows := Grows.of_stats b l s
      refine ⟨h.setStats s, hgrows, hb, references_lt h hgrows htraced huse, huse, ?_, ?_⟩
      · intro hterm
        rcases hop with ⟨hdirect, rfl⟩ | ⟨-, rfl⟩ | ⟨-, rfl⟩ | ⟨w, -, rfl⟩
        · exact computes_selected hdirect haccepts hlength' hliteral
        all_goals simp [Operator.isTerminator] at hterm
      · intro hterm
        rcases hop with ⟨hdirect, rfl⟩ | ⟨hop, rfl⟩ | ⟨hop, rfl⟩ | ⟨w, hop, rfl⟩
        · simp [(isTerminator_selected hdirect).1] at hterm
        · rw [hop] at hnext
          exact fun xs _ => ⟨.goto 0, rfl, departs_of_goto (hnext 0 Nat.one_pos)⟩
        · exact fun xs _ => ⟨.leave xs.head?, rfl, fun k hk => by simp at hk⟩
        · rw [hop] at haccepts
          obtain rfl : ks = [.number (.int w)] := haccepts
          intro xs hxs
          obtain ⟨x, rfl⟩ := List.length_eq_one_iff.mp (hxs.trans hlength')
          exact ⟨.leave (some x), rfl, fun k hk => by simp at hk⟩
  | compared hop hx hy hx' hy' =>
      obtain ⟨h₁, hgrows, huse, hlength⟩ :=
        widened_sound h hb (hinput hx hx') (hinput hy hy') .w32 _
      have htraced : Traced l [] [] := fun r hr => absurd hr List.not_mem_nil
      refine ⟨h₁, hgrows, hb, references_lt h hgrows htraced huse, huse, fun _ => rfl, ?_⟩
      exact fun hterm => by simp [Operator.isTerminator] at hterm
  | loaded hop htraced hs ha hstate haddress hcontext hcheck =>
      have huses := hinput hs hstate
      obtain ⟨h₁, hgrows, hspace, hchecked⟩ :=
        guard_sound h hb huses (hinput ha haddress) hcontext hcheck
      have huse : ∀ r ∈ [_, _, _], l₁.Usable g b r :=
        List.forall_mem_cons.mpr ⟨huses.grows hgrows, List.forall_mem_cons.mpr
          ⟨hspace, List.forall_mem_singleton.mpr hchecked⟩⟩
      refine ⟨h₁, hgrows, hb, references_lt h hgrows htraced huse, huse, fun _ => rfl, ?_⟩
      exact fun hterm => by simp [Operator.isTerminator] at hterm
  | stored hop htraced hs ha hv hstate haddress hvalue hcontext hcheck =>
      have huses := hinput hs hstate
      obtain ⟨h₁, hgrows, hspace, hchecked⟩ :=
        guard_sound h hb huses (hinput ha haddress) hcontext hcheck
      have huse : ∀ r ∈ [_, _, _, _], l₁.Usable g b r :=
        List.forall_mem_cons.mpr ⟨huses.grows hgrows, List.forall_mem_cons.mpr
          ⟨hspace, List.forall_mem_cons.mpr
            ⟨hchecked, List.forall_mem_singleton.mpr ((hinput hv hvalue).grows hgrows)⟩⟩⟩
      refine ⟨h₁, hgrows, hb, references_lt h hgrows htraced huse, huse, fun _ => rfl, ?_⟩
      exact fun hterm => by simp [Operator.isTerminator] at hterm
  | @fused w c predicate x y x' y' p control hop htraced hpredicate hp hpop habs hx hy hx' hy' =>
      have hmem : predicate ∈ n.inputs := List.mem_of_head? hpredicate
      have huse' {index v v' : Nat} (hv : p.inputs[index]? = some v)
          (hv' : l.lowered.get? v = some v') : l.Usable g b v' :=
        habsorbed predicate hmem habs p hp v (List.mem_of_getElem? hv) v' hv'
      obtain ⟨h₁, hgrows, huse, hlength⟩ := widened_sound h hb (huse' hx hx') (huse' hy hy') w c
      refine ⟨h₁, hgrows, hb, references_lt h hgrows htraced huse, huse, ?_, ?_⟩
      · exact fun hterm => by simp [Operator.isTerminator] at hterm
      · rw [hop] at hnext
        refine fun _ => departs_branch hnext fun xs hxs => ?_
        obtain ⟨u, v, rfl⟩ := List.length_eq_two.mp (hxs.trans hlength)
        exact ⟨c.holds u v, rfl⟩
  | branched hop htraced hpredicate hp hv hwide =>
      have huse : ∀ r ∈ [_], l.Usable g b r := List.forall_mem_singleton.mpr (hhead hpredicate hv)
      refine ⟨h, .refl b l, hb, references_lt h (.refl b l) htraced huse, huse, ?_, ?_⟩
      · exact fun hterm => by simp [Operator.isTerminator] at hterm
      · rw [hop] at hnext
        refine fun _ => departs_branch hnext fun xs hxs => ?_
        obtain ⟨u, rfl⟩ := List.length_eq_one_iff.mp hxs
        exact ⟨decide (u ≠ 0), by simp [Words.exit]⟩
  | branched32 hop htraced hpredicate hp hv hnarrow =>
      obtain ⟨h₁, hgrows, huse₁⟩ := h.inserted (extension_helper hb (hhead hpredicate hv) false)
      have huse : ∀ r ∈ [_], Usable g _ b r := List.forall_mem_singleton.mpr huse₁
      refine ⟨h₁, hgrows, hb, references_lt h hgrows htraced huse, huse, ?_, ?_⟩
      · exact fun hterm => by simp [Operator.isTerminator] at hterm
      · rw [hop] at hnext
        refine fun _ => departs_branch hnext fun xs hxs => ?_
        obtain ⟨u, rfl⟩ := List.length_eq_one_iff.mp hxs
        exact ⟨decide (u ≠ 0), by simp [Words.exit]⟩

end Lowering

end Isel
