import Isel.Proofs.LoweredNodes

/-! Running the nodes that lowering makes. The helper nodes of an access let it through exactly if it
lies in linear memory, shared ones included: within a run of a block, what a memory context holds and
what a bounds check has found stay true. -/

namespace Isel

namespace Lowering

open Select Words

variable {g : Graph} {config : Config} {l l₁ l₂ l' : Lowering} {b new : Nat} {n m : Node}
  {node? : Nat → Option Node} {f f' : Env Word}

/-- The nodes made between two states. -/
def segment (l l' : Lowering) : List Nat := List.range' l.nodes.size (l'.nodes.size - l.nodes.size)

/-- Runs the nodes made between two states. -/
def runs (node? : Nat → Option Node) (l l' : Lowering) (f : Env Word) : Except Halt (Env Word) :=
  (meaning .linear).execBody node? (segment l l') f

/-- The nodes made so far are found under their numbers. -/
def Shows (node? : Nat → Option Node) (l : Lowering) : Prop :=
  ∀ (i : Nat) (p : Placed), l.nodes[i]? = some p → node? i = some p.node

theorem Shows.grows (h : Shows node? l') (hgrows : Grows b l l') : Shows node? l :=
  fun i p hp => h i p (hgrows.nodes i p hp)

theorem mem_segment {i : Nat} : i ∈ segment l l' ↔ l.nodes.size ≤ i ∧ i < l'.nodes.size := by
  rw [segment, List.mem_range'_1]
  omega

theorem runs_of_size_eq (h : l'.nodes.size = l.nodes.size) : runs node? l l' f = .ok f := by
  rw [runs, segment, h, Nat.sub_self]
  rfl

theorem runs_trans (h₁ : l.nodes.size ≤ l₁.nodes.size) (h₂ : l₁.nodes.size ≤ l₂.nodes.size) :
    runs node? l l₂ f = runs node? l l₁ f >>= runs node? l₁ l₂ := by
  have hsplit : segment l l₂ = segment l l₁ ++ segment l₁ l₂ := by
    have happend := List.range'_append_1 (s := l.nodes.size) (m := l₁.nodes.size - l.nodes.size)
      (n := l₂.nodes.size - l₁.nodes.size)
    rw [show l.nodes.size + (l₁.nodes.size - l.nodes.size) = l₁.nodes.size by omega,
      show l₁.nodes.size - l.nodes.size + (l₂.nodes.size - l₁.nodes.size)
        = l₂.nodes.size - l.nodes.size by omega] at happend
    exact happend.symm
  rw [runs, hsplit, Meaning.execBody_append]
  rfl

theorem runs_push (hsize : l'.nodes.size = l.nodes.size + 1) (hn : node? l.nodes.size = some n) :
    runs node? l l' f = (meaning .linear).execNode f l.nodes.size n := by
  rw [runs, segment, hsize, Nat.add_sub_cancel_left]
  simp only [List.range'_one, Meaning.execBody, hn, orStuck]
  change ((meaning .linear).execNode f l.nodes.size n >>= Except.ok) = _
  cases (meaning .linear).execNode f l.nodes.size n <;> rfl

/-- Runs a node whose operands are known. -/
theorem runs_push_of_operands (hsize : l'.nodes.size = l.nodes.size + 1)
    (hn : node? l.nodes.size = some n) {ws : List Word}
    (hws : List.Forall₂ (fun v w => f.values v = some w) n.inputs ws) :
    runs node? l l' f
      = (compute .linear n ws f.memory).map fun r => f.set l.nodes.size r.1 r.2 := by
  rw [runs_push hsize hn, Meaning.execNode_of_operands (Env.operands_eq_ok.mpr hws)]
  rfl

theorem values_of_runs (h : runs node? l l' f = .ok f') {i : Nat} (hi : i < l.nodes.size) :
    f'.values i = f.values i := by
  refine Meaning.values_of_execBody h fun hmem => ?_
  have := (mem_segment.mp hmem).1
  omega

theorem size_of_execBody {ids : List Nat} (h : (meaning .linear).execBody node? ids f = .ok f') :
    f'.memory.size = f.memory.size := by
  induction ids generalizing f with
  | nil => rw [Except.ok.inj h]
  | cons id ids ih =>
      obtain ⟨n, f₁, -, hfirst, hrest⟩ := Meaning.execBody_cons_eq_ok.mp h
      obtain ⟨xs, v, memory, -, hcompute, rfl⟩ := Meaning.execNode_eq_ok.mp hfirst
      rw [ih hrest, Env.set_memory, size_of_compute hcompute]

/-! ### What shared nodes hold -/

/-- The shared nodes of block `b` hold what they are shared for. -/
structure Current (b : Nat) (l : Lowering) (f : Env Word) : Prop where
  contexts : ∀ s context, l.contexts.get? (b, s) = some context →
    f.values context.space = some (BitVec.ofNat 64 Machine.memoryStart) ∧
    f.values context.size = some (BitVec.ofNat 64 f.memory.size)
  checks : ∀ key checked, l.checks.get? key = some checked → key.block = b →
    ∃ p : Word, f.values key.address = some p ∧ f.values checked = some p ∧
      p.toNat + key.bytes ≤ f.memory.size

/-- Running later nodes changes nothing of what shared nodes hold. -/
theorem Current.frame (h : Current b l f) (hsound : l.Sound g)
    (hvalues : ∀ i < l.nodes.size, f'.values i = f.values i)
    (hsize : f'.memory.size = f.memory.size) : Current b l f' where
  contexts s context hcontext := by
    obtain ⟨hspace, hsz⟩ := hsound.contexts b s context hcontext
    rw [hvalues _ hspace.lt, hvalues _ hsz.lt, hsize]
    exact h.contexts s context hcontext
  checks key checked hkey hb := by
    obtain ⟨hchecked, haddress⟩ := hsound.checks key checked hkey
    rw [hvalues _ hchecked.lt, hvalues _ haddress, hsize]
    exact h.checks key checked hkey hb

theorem Current.of_runs (h : Current b l f) (hsound : l.Sound g)
    (hrun : runs node? l l' f = .ok f') : Current b l f' :=
  h.frame hsound (fun _ hi => values_of_runs hrun hi) (size_of_execBody hrun)

theorem Current.setContext (h : Current b l f) (t : Nat) {space size : Nat}
    (hspace : f.values space = some (BitVec.ofNat 64 Machine.memoryStart))
    (hsize : f.values size = some (BitVec.ofNat 64 f.memory.size)) :
    Current b { l with contexts := l.contexts.set (b, t) { space, size } } f :=
  { h with
    contexts := fun s found hfound => by
      rw [Table.get?_set] at hfound
      split at hfound
      · obtain rfl := Option.some.inj hfound
        exact ⟨hspace, hsize⟩
      · exact h.contexts s found hfound }

theorem Current.setCheck (h : Current b l f) {key : CheckKey} {checked : Nat} {p : Word}
    (haddress : f.values key.address = some p) (hchecked : f.values checked = some p)
    (hin : p.toNat + key.bytes ≤ f.memory.size) :
    Current b { l with checks := l.checks.set key checked } f :=
  { h with
    checks := fun other found hfound hb => by
      rw [Table.get?_set] at hfound
      split at hfound
      · next heq =>
          subst heq
          obtain rfl := Option.some.inj hfound
          exact ⟨p, haddress, hchecked, hin⟩
      · exact h.checks other found hfound hb }

/-- The tables are the same, so they hold the same. -/
theorem Current.of_tables (h : Current b l f) (hcontexts : l'.contexts = l.contexts)
    (hchecks : l'.checks = l.checks) : Current b l' f where
  contexts s context hcontext := h.contexts s context (hcontexts ▸ hcontext)
  checks key checked hkey := h.checks key checked (hchecks ▸ hkey)

theorem forall₂_singleton {v : Nat} {w : Word} (h : f.values v = some w) :
    List.Forall₂ (fun v w => f.values v = some w) [v] [w] := .cons h .nil

/-- A helper node on one operand that has a word for it. -/
theorem runs_inserted {ws : List Word} {w : Word} (hshows : Shows node? (l.inserted b n))
    (hws : List.Forall₂ (fun v w => f.values v = some w) n.inputs ws)
    (hcompute : compute .linear n ws f.memory = .ok (some w, f.memory)) :
    runs node? l (l.inserted b n) f = .ok (f.set l.nodes.size (some w) f.memory) := by
  have hn : node? l.nodes.size = some n := hshows l.nodes.size ⟨b, n⟩ (by simp [inserted])
  rw [runs_push_of_operands (size_inserted l b n) hn hws, hcompute]
  rfl

/-- The nodes of a memory context hold where linear memory starts, and its size. -/
theorem memoryContext_runs (h : Current b l f) (hsound : l.Sound g) {state : Nat} {s : Word}
    (hlt : state < l.nodes.size) (hstate : f.values state = some s) {context : MemoryContext}
    (hok : memoryContext config b state l = .ok (context, l')) (hshows : Shows node? l') :
    ∃ f', runs node? l l' f = .ok f' ∧ f'.memory = f.memory ∧ Current b l' f' ∧
      f'.values context.space = some (BitVec.ofNat 64 Machine.memoryStart) ∧
      f'.values context.size = some (BitVec.ofNat 64 f.memory.size) := by
  rcases memoryContext_ok hok with ⟨-, hfound, rfl⟩ | ⟨rfl, rfl⟩
  · obtain ⟨hspace, hsize⟩ := h.contexts state context hfound
    exact ⟨f, runs_of_size_eq rfl, rfl, h.of_tables rfl rfl, hspace, hsize⟩
  · have hnodes : (withContext config b state l).nodes
        = ((l.inserted b (spaceNode state)).inserted b (sizeNode state)).nodes := by
      unfold withContext
      split <;> rfl
    have hshows₂ : Shows node? ((l.inserted b (spaceNode state)).inserted b (sizeNode state)) :=
      fun i p hp => hshows i p (hnodes ▸ hp)
    have hshows₁ : Shows node? (l.inserted b (spaceNode state)) :=
      fun i p hp => hshows₂ i p (getElem?_push_of_some hp)
    -- first the start of linear memory, then its size
    have hrun₁ := runs_inserted hshows₁ (forall₂_singleton hstate) rfl
    generalize hf₁ : f.set l.nodes.size (some (BitVec.ofNat 64 Machine.memoryStart)) f.memory = f₁
      at hrun₁
    have hmemory₁ : f₁.memory = f.memory := by rw [← hf₁]; rfl
    have hspace₁ : f₁.values l.nodes.size = some (BitVec.ofNat 64 Machine.memoryStart) := by
      rw [← hf₁, Env.set_values_self]
    have hstate₁ : f₁.values state = some s := by
      rw [values_of_runs hrun₁ hlt, hstate]
    have hrun₂ := runs_inserted hshows₂ (forall₂_singleton hstate₁) rfl
    rw [size_inserted] at hrun₂
    generalize hf₂ : f₁.set (l.nodes.size + 1) (some (BitVec.ofNat 64 f₁.memory.size)) f₁.memory
      = f₂ at hrun₂
    have hmemory₂ : f₂.memory = f.memory := by rw [← hf₂]; exact hmemory₁
    have hsize₂ : f₂.values (l.nodes.size + 1) = some (BitVec.ofNat 64 f.memory.size) := by
      rw [← hf₂, Env.set_values_self, hmemory₁]
    have hspace₂ : f₂.values l.nodes.size = some (BitVec.ofNat 64 Machine.memoryStart) := by
      rw [values_of_runs hrun₂ (by simp), hspace₁]
    have hrun : runs node? l (withContext config b state l) f = .ok f₂ := by
      have hle₁ : l.nodes.size ≤ (l.inserted b (spaceNode state)).nodes.size := by simp
      have hle₂ : (l.inserted b (spaceNode state)).nodes.size
          ≤ ((l.inserted b (spaceNode state)).inserted b (sizeNode state)).nodes.size := by simp
      rw [runs, segment, hnodes]
      exact (runs_trans hle₁ hle₂).trans (hrun₁ ▸ hrun₂)
    have hcurrent : Current b l f₂ := h.of_runs hsound hrun
    refine ⟨f₂, hrun, hmemory₂, ?_, hspace₂, hsize₂⟩
    rw [← hmemory₂] at hsize₂
    unfold withContext
    split
    · exact (hcurrent.setContext state hspace₂ hsize₂).of_tables rfl rfl
    · exact hcurrent.of_tables rfl rfl

/-- A checked address is the address, and the check has passed exactly if the access ends within
linear memory. -/
theorem checkedAddress_runs (hm : Addressable f.memory) {key : CheckKey}
    (h : Current key.block l f) (hsound : l.Sound g) (hbytes : key.bytes < 2 ^ 64)
    {size checked : Nat} {s p : Word} (hstate : f.values key.state = some s)
    (hlt : key.address < l.nodes.size) (haddress : f.values key.address = some p)
    (hsize : f.values size = some (BitVec.ofNat 64 f.memory.size))
    (hok : checkedAddress config key size l = .ok (checked, l')) (hshows : Shows node? l') :
    (p.toNat + key.bytes ≤ f.memory.size → ∃ f', runs node? l l' f = .ok f' ∧
      f'.memory = f.memory ∧ Current key.block l' f' ∧ f'.values checked = some p) ∧
    (¬p.toNat + key.bytes ≤ f.memory.size →
      runs node? l l' f = .error (.trapped .unreachable f.memory)) := by
  rcases checkedAddress_ok hok with ⟨-, hfound, rfl⟩ | ⟨rfl, rfl⟩
  · obtain ⟨q, hq, hchecked, hin⟩ := h.checks key checked hfound rfl
    obtain rfl : p = q := Option.some.inj (haddress.symm.trans hq)
    exact ⟨fun _ => ⟨f, runs_of_size_eq rfl, rfl, h.of_tables rfl rfl, hchecked⟩,
      fun hout => absurd hin hout⟩
  · have hnodes : (withCheck config key size l).nodes
        = (l.inserted key.block (checkNode key size)).nodes := by
      unfold withCheck
      split <;> rfl
    have hn : node? l.nodes.size = some (checkNode key size) :=
      hshows _ ⟨key.block, checkNode key size⟩ (by rw [hnodes]; simp [inserted])
    have hws : List.Forall₂ (fun v w => f.values v = some w) (checkNode key size).inputs
        [s, p, BitVec.ofNat 64 f.memory.size] := .cons hstate (.cons haddress (.cons hsize .nil))
    have hnodesSize : (withCheck config key size l).nodes.size = l.nodes.size + 1 := by
      rw [hnodes, size_inserted]
    have hrun := runs_push_of_operands hnodesSize hn hws
    have hcompute : compute .linear (checkNode key size) [s, p, BitVec.ofNat 64 f.memory.size]
        f.memory = (checkBounds (BitVec.ofNat 64 key.bytes) p (BitVec.ofNat 64 f.memory.size)
          f.memory).map fun x => (some x, f.memory) := by
      change (checkBounds (BitVec.ofNat 64 key.bytes) p _ f.memory >>= _) = _
      cases checkBounds (BitVec.ofNat 64 key.bytes) p (BitVec.ofNat 64 f.memory.size) f.memory <;> rfl
    rw [hcompute, checkBounds_eq hm.size_lt hbytes] at hrun
    constructor
    · intro hin
      rw [if_pos hin] at hrun
      have hcurrent := h.of_runs hsound hrun
      have haddress' := (values_of_runs hrun hlt).trans haddress
      refine ⟨_, hrun, rfl, ?_, Env.set_values_self ..⟩
      unfold withCheck
      split
      · exact (hcurrent.setCheck haddress' (Env.set_values_self ..) hin).of_tables rfl rfl
      · exact hcurrent.of_tables rfl rfl
    · intro hout
      rw [if_neg hout] at hrun
      exact hrun

/-- The nodes that guard an access let it through exactly if it lies in linear memory. -/
theorem guard_runs (hm : Addressable f.memory) (h : Current b l f) (hsound : l.Sound g)
    (hb : b < g.blocks.size) {state address bytes checked : Nat} {s p : Word}
    {context : MemoryContext} (hbytes : bytes < 2 ^ 64) (hstate : l.Usable g b state)
    (haddress : l.Usable g b address) (hs : f.values state = some s)
    (hp : f.values address = some p)
    (hcontext : memoryContext config b state l = .ok (context, l₁))
    (hcheck : checkedAddress config ⟨b, state, address, bytes⟩ context.size l₁ = .ok (checked, l₂))
    (hshows : Shows node? l₂) :
    (p.toNat + bytes ≤ f.memory.size → ∃ f', runs node? l l₂ f = .ok f' ∧
      f'.memory = f.memory ∧ Current b l₂ f' ∧
      f'.values context.space = some (BitVec.ofNat 64 Machine.memoryStart) ∧
      f'.values checked = some p) ∧
    (¬p.toNat + bytes ≤ f.memory.size → ∃ t memory,
      runs node? l l₂ f = .error (.trapped t memory)) := by
  obtain ⟨hsound₁, hgrows₁, hspace, hsize⟩ := memoryContext_sound hsound hb hstate hcontext
  obtain ⟨hsound₂, hgrows₂, -⟩ := checkedAddress_sound hsound₁ hb (hstate.grows hgrows₁)
    (haddress.grows hgrows₁) hsize hcheck
  obtain ⟨f₁, hrun₁, hmemory₁, hcurrent₁, hspace₁, hsize₁⟩ :=
    memoryContext_runs h hsound hstate.lt hs hcontext (hshows.grows hgrows₂)
  have hs₁ : f₁.values state = some s := (values_of_runs hrun₁ hstate.lt).trans hs
  have hp₁ : f₁.values address = some p := (values_of_runs hrun₁ haddress.lt).trans hp
  rw [← hmemory₁] at hm hsize₁
  obtain ⟨hinside, houtside⟩ := checkedAddress_runs hm hcurrent₁ hsound₁ hbytes hs₁
    (haddress.grows hgrows₁).lt hp₁ hsize₁ hcheck hshows
  rw [runs_trans hgrows₁.size hgrows₂.size, hrun₁, ← hmemory₁]
  constructor
  · intro hin
    obtain ⟨f₂, hrun₂, hmemory₂, hcurrent₂, hchecked₂⟩ := hinside hin
    exact ⟨f₂, hrun₂, hmemory₂, hcurrent₂, (values_of_runs hrun₂ hspace.lt).trans hspace₁, hchecked₂⟩
  · intro hout
    exact ⟨_, _, houtside hout⟩

/-- The operands of a comparison as words compare as they did. -/
theorem widened_runs (h : Current b l f) (hsound : l.Sound g) {x y : Nat} {u v : Word}
    (hlt : y < l.nodes.size) (hx : f.values x = some u) (hy : f.values y = some v) (w : IntWidth)
    (c : Comparison) (hshows : Shows node? (widened w b c x y l).1) :
    ∃ f' u' v', runs node? l (widened w b c x y l).1 f = .ok f' ∧ f'.memory = f.memory ∧
      Current b (widened w b c x y l).1 f' ∧
      List.Forall₂ (fun v w => f'.values v = some w) (widened w b c x y l).2 [u', v'] ∧
      c.holds u' v' = c.holds (u.setWidth w.bits) (v.setWidth w.bits) := by
  cases w with
  | w64 =>
      refine ⟨f, u, v, runs_of_size_eq rfl, rfl, h, .cons hx (.cons hy .nil), ?_⟩
      rw [show u.setWidth IntWidth.w64.bits = u from BitVec.setWidth_eq u,
        show v.setWidth IntWidth.w64.bits = v from BitVec.setWidth_eq v]
      rfl
  | w32 =>
      have hshows₁ : Shows node? (l.inserted b (extension c.isSigned x)) :=
        fun i p hp => hshows i p (getElem?_push_of_some hp)
      have hle₁ : l.nodes.size ≤ (l.inserted b (extension c.isSigned x)).nodes.size := by simp
      have hle₂ : (l.inserted b (extension c.isSigned x)).nodes.size
          ≤ ((l.inserted b (extension c.isSigned x)).inserted b (extension c.isSigned y)).nodes.size := by
        simp
      have hrun₁ := runs_inserted hshows₁ (forall₂_singleton hx) rfl
      generalize hf₁ : f.set l.nodes.size (some (extend32 c.isSigned (u.setWidth 32))) f.memory = f₁
        at hrun₁
      have hmemory₁ : f₁.memory = f.memory := by rw [← hf₁]; rfl
      have hx₁ : f₁.values l.nodes.size = some (extend32 c.isSigned (u.setWidth 32)) := by
        rw [← hf₁, Env.set_values_self]
      have hy₁ : f₁.values y = some v := (values_of_runs hrun₁ hlt).trans hy
      have hrun₂ := runs_inserted hshows (forall₂_singleton hy₁) rfl
      rw [size_inserted] at hrun₂
      generalize hf₂ : f₁.set (l.nodes.size + 1) (some (extend32 c.isSigned (v.setWidth 32)))
        f₁.memory = f₂ at hrun₂
      have hrun : runs node? l (widened .w32 b c x y l).1 f = .ok f₂ :=
        (runs_trans hle₁ hle₂).trans (hrun₁ ▸ hrun₂)
      have hy₂ : f₂.values (l.nodes.size + 1) = some (extend32 c.isSigned (v.setWidth 32)) := by
        rw [← hf₂, Env.set_values_self]
      have hx₂ : f₂.values l.nodes.size = some (extend32 c.isSigned (u.setWidth 32)) := by
        rw [values_of_runs hrun₂ (by simp), hx₁]
      refine ⟨f₂, _, _, hrun, ?_, (h.of_runs hsound hrun).of_tables rfl rfl,
        .cons hx₂ (.cons hy₂ .nil), c.holds_extend32 _ _⟩
      rw [← hf₂]
      exact hmemory₁

/-! ### What is made of a node computes its value -/

/-- The new node of `v` holds a word for `x`. -/
def Reads (l : Lowering) (f : Env Word) (v : Nat) (x : Value) : Prop :=
  ∀ v', l.lowered.get? v = some v' → ∃ w, f.values v' = some w ∧ x.Represents w

/-- Running what was made of a node follows computing its value: both have a result with the same
memory, and then the new node holds a word for the value, or both trap. -/
inductive Tracks (b : Nat) (l' : Lowering) (new : Nat) (kind? : Option Kind) :
    Except Halt (Option Value × Array Byte) → Except Halt (Env Word) → Prop
  | ok {v : Option Value} {memory : Array Byte} {f' : Env Word} (memory_eq : f'.memory = memory)
      (current : Current b l' f') (kind : v.map Value.kind = kind?)
      (value : ∀ x, v = some x → ∃ w, f'.values new = some w ∧ x.Represents w) :
      Tracks b l' new kind? (.ok (v, memory)) (.ok f')
  | trapped {t u : Trap} {memory₁ memory₂ : Array Byte} :
      Tracks b l' new kind? (.error (.trapped t memory₁)) (.error (.trapped u memory₂))

/-- The words that new nodes hold for values. -/
theorem exists_words {vs inputs : List Nat} {xs : List Value}
    (hlowered : List.Forall₂ (fun v v' => l.lowered.get? v = some v') vs inputs)
    (hreads : List.Forall₂ (Reads l f) vs xs) :
    ∃ ws, List.Forall₂ (fun v w => f.values v = some w) inputs ws ∧
      List.Forall₂ Value.Represents xs ws := by
  induction hlowered generalizing xs with
  | nil =>
      obtain rfl := List.forall₂_nil_left_iff.mp hreads
      exact ⟨[], .nil, .nil⟩
  | cons hv _ ih =>
      obtain ⟨x, xs', hx, hxs', rfl⟩ := List.forall₂_cons_left_iff.mp hreads
      obtain ⟨w, hw, hrep⟩ := hx _ hv
      obtain ⟨ws, hws, hreps⟩ := ih hxs'
      exact ⟨w :: ws, .cons hw hws, .cons hrep hreps⟩

theorem values_compute_of_plain {xs : List Value} {memory : Array Byte}
    (hload : ∀ op, n.op ≠ .load op) (hstore : ∀ op, n.op ≠ .store op) :
    Values.compute n xs memory = (Values.value n xs memory).map fun x => (some x, memory) := by
  unfold Values.compute
  split
  · next heq => exact absurd heq (hload _)
  · next heq => exact absurd heq (hstore _)
  · generalize Values.value n _ memory = r
    cases r <;> rfl

theorem words_compute_of_plain {ws : List Word} {memory : Array Byte}
    (hload : n.op.isTargetLoad = false) (hstore : n.op.isTargetStore = false) :
    compute .linear n ws memory = (value .linear n ws memory).map fun x => (some x, memory) := by
  rw [compute_of_not_access _ hstore hload]
  cases value .linear n ws memory <;> rfl

theorem direct_not_access {op : Operator} (h : op.isDirect = true) :
    (∀ a, op ≠ .load a) ∧ (∀ a, op ≠ .store a) ∧ op.selected.isTargetLoad = false ∧
      op.selected.isTargetStore = false ∧ ∃ k, op.kind? = some k := by
  refine ⟨?_, ?_, ?_, (isTerminator_selected h).2.2, ?_⟩
  · rintro a rfl
    simp [Operator.isDirect] at h
  · rintro a rfl
    simp [Operator.isDirect] at h
  · cases op with
    | intBinary w op =>
        cases w with
        | w32 => rfl
        | w64 => cases hfused : op.fused? <;> simp [Operator.selected, hfused, Operator.isTargetLoad]
    | address w => cases w <;> rfl
    | state | updateState | const _ | bitCount _ _ | compare _ _ | bool _ | extend _ => rfl
    | _ => simp [Operator.isDirect] at h
  · cases op with
    | state | updateState | const _ | bitCount _ _ | compare _ _ | bool _ | extend _
    | intBinary _ _ | address _ => exact ⟨_, rfl⟩
    | _ => simp [Operator.isDirect] at h

variable {ks : List Kind} {xs : List Value}

/-- The state with a node recorded. -/
def recorded (l : Lowering) (b : Nat) (m : Node) (s : Stats) : Lowering :=
  { l with nodes := l.nodes.push ⟨b, m⟩, stats := s }

@[simp] theorem size_recorded (l : Lowering) (b : Nat) (m : Node) (s : Stats) :
    (l.recorded b m s).nodes.size = l.nodes.size + 1 := Array.size_push ..

theorem node?_recorded {s : Stats} (hshows : Shows node? (l.recorded b m s)) :
    node? l.nodes.size = some m := hshows _ ⟨b, m⟩ (by simp [recorded])

theorem runs_recorded {s : Stats} {ws : List Word} (hshows : Shows node? (l.recorded b m s))
    (hws : List.Forall₂ (fun v w => f.values v = some w) m.inputs ws) :
    runs node? l (l.recorded b m s) f
      = (compute .linear m ws f.memory).map fun r => f.set l.nodes.size r.1 r.2 :=
  runs_push_of_operands (size_recorded ..) (node?_recorded hshows) hws

theorem Current.recorded (h : Current b l f) (hsound : l.Sound g) (m : Node) (s : Stats)
    (w : Option Word) {memory : Array Byte} (hsize : memory.size = f.memory.size) :
    Current b (l.recorded b m s) (f.set l.nodes.size w memory) := by
  refine (h.frame hsound (fun i hi => ?_) hsize).of_tables rfl rfl
  exact Env.set_values_of_ne f (by omega) ..

/-- A recorded node whose word follows the value of the old one. -/
theorem Tracks.of_follows {s : Stats} {k : Kind} {r : Except Halt Value} {ws : List Word}
    (hcurrent : Current b l f) (hsound : l.Sound g) (hshows : Shows node? (l.recorded b m s))
    (hws : List.Forall₂ (fun v w => f.values v = some w) m.inputs ws)
    (hload : m.op.isTargetLoad = false) (hstore : m.op.isTargetStore = false)
    (h : Follows k r (value .linear m ws f.memory)) :
    Tracks b (l.recorded b m s) l.nodes.size (some k) (r.map fun x => (some x, f.memory))
      (runs node? l (l.recorded b m s) f) := by
  rw [runs_recorded hshows hws, words_compute_of_plain hload hstore]
  generalize value .linear m ws f.memory = u at h
  cases h with
  | trapped => exact .trapped
  | @ok x w hkind hrep =>
      refine .ok rfl (hcurrent.recorded hsound m s (some w) rfl) (by rw [← hkind]; rfl) ?_
      intro y hy
      obtain rfl := Option.some.inj hy
      exact ⟨w, Env.set_values_self .., hrep⟩

theorem forall₂_getElem? {α β : Type} {R : α → β → Prop} {as : List α} {bs : List β}
    (h : List.Forall₂ R as bs) {i : Nat} {a : α} (ha : as[i]? = some a) :
    ∃ c, bs[i]? = some c ∧ R a c := by
  induction h generalizing i with
  | nil => exact absurd ha (by simp)
  | cons hab _ ih =>
      cases i with
      | zero => exact ⟨_, rfl, Option.some.inj ha ▸ hab⟩
      | succ i => exact ih ha

/-- The operand at an index: its kind, and the word that its new node holds. -/
theorem operand_at {vs : List Nat}
    (hkinds : List.Forall₂ (fun (x : Value) k => x.kind = k) xs ks)
    (hreads : List.Forall₂ (Reads l f) vs xs) {i v v' : Nat} (hv : vs[i]? = some v)
    (hv' : l.lowered.get? v = some v') :
    ∃ x w, xs[i]? = some x ∧ ks[i]? = some x.kind ∧ f.values v' = some w ∧ x.Represents w := by
  obtain ⟨x, hx, hread⟩ := forall₂_getElem? hreads hv
  obtain ⟨k, hk, rfl⟩ := forall₂_getElem? hkinds hx
  obtain ⟨w, hw, hrep⟩ := hread v' hv'
  exact ⟨x, w, hx, hk, hw, hrep⟩

theorem number_at {vs : List Nat} {w : IntWidth}
    (hkinds : List.Forall₂ (fun (x : Value) k => x.kind = k) xs ks)
    (hreads : List.Forall₂ (Reads l f) vs xs) {i v v' : Nat} (hv : vs[i]? = some v)
    (hv' : l.lowered.get? v = some v') (hk : ks[i]? = some (.number (.int w))) :
    ∃ u, xs[i]? = some (.int w (u.setWidth w.bits)) ∧ f.values v' = some u := by
  obtain ⟨x, u, hx, hkx, hu, hrep⟩ := operand_at hkinds hreads hv hv'
  obtain ⟨y, rfl⟩ := Value.kind_eq_number.mp (Option.some.inj (hkx.symm.trans hk))
  obtain rfl := Value.represents_int.mp hrep
  exact ⟨u, hx, hu⟩

/-- The operands of a comparison, and the words that their new nodes hold. -/
theorem compared_words {vs : List Nat} {w : IntWidth}
    (hkinds : List.Forall₂ (fun (x : Value) k => x.kind = k) xs
      [.number (.int w), .number (.int w)])
    (hreads : List.Forall₂ (Reads l f) vs xs) {x y x' y' : Nat} (hx : vs[0]? = some x)
    (hy : vs[1]? = some y) (hx' : l.lowered.get? x = some x') (hy' : l.lowered.get? y = some y') :
    ∃ u v, f.values x' = some u ∧ f.values y' = some v ∧
      xs = [.int w (u.setWidth w.bits), .int w (v.setWidth w.bits)] := by
  obtain ⟨u, hxu, hu⟩ := number_at hkinds hreads hx hx' rfl
  obtain ⟨v, hyv, hv⟩ := number_at hkinds hreads hy hy' rfl
  refine ⟨u, v, hu, hv, ?_⟩
  obtain ⟨p, q, rfl⟩ := List.length_eq_two.mp hkinds.length_eq
  obtain rfl := Option.some.inj hxu
  obtain rfl := Option.some.inj hyv
  rfl

/-- The operands of an access, and the words that their new nodes hold. -/
theorem access_words {vs : List Nat}
    (hkinds : List.Forall₂ (fun (x : Value) k => x.kind = k) xs (.state :: .number .i64 :: ks))
    (hreads : List.Forall₂ (Reads l f) vs xs) {s a s' a' : Nat} (hs : vs[0]? = some s)
    (ha : vs[1]? = some a) (hs' : l.lowered.get? s = some s') (ha' : l.lowered.get? a = some a') :
    ∃ u p xs', f.values s' = some u ∧ f.values a' = some p ∧ xs = .state :: .i64 p :: xs' ∧
      List.Forall₂ (fun (x : Value) k => x.kind = k) xs' ks := by
  obtain ⟨st, u, hst, hkst, hu, -⟩ := operand_at hkinds hreads hs hs'
  obtain ⟨p, hap, hp⟩ := number_at (w := .w64) hkinds hreads ha ha' rfl
  obtain rfl := Value.kind_eq_state.mp (Option.some.inj hkst).symm
  obtain ⟨y, ys, -, hys, rfl⟩ := List.forall₂_cons_right_iff.mp hkinds
  obtain ⟨z, zs, -, hzs, rfl⟩ := List.forall₂_cons_right_iff.mp hys
  obtain rfl := Option.some.inj hst
  obtain rfl := Option.some.inj hap
  refine ⟨u, p, zs, hu, hp, ?_, hzs⟩
  rw [show p.setWidth IntWidth.w64.bits = p from BitVec.setWidth_eq p]
  rfl

/-- A guarded load finds the value that the old one finds, or traps where that one does. -/
theorem load_tracks (hm : Addressable f.memory) (hcurrent : Current b l f) (hsound : l.Sound g)
    (hb : b < g.blocks.size) {op : Load} (hint : op.type.isInt = true)
    {state address checked : Nat} {u p : Word} {context : MemoryContext}
    {control control' : List Control} {literals : List Literal} {inputs : List Nat} {s : Stats}
    (hstate : l.Usable g b state) (haddress : l.Usable g b address)
    (hu : f.values state = some u) (hp : f.values address = some p)
    (hcontext : memoryContext config b state l = .ok (context, l₁))
    (hcheck : checkedAddress config ⟨b, state, address, op.access.bytes⟩ context.size l₁
      = .ok (checked, l₂))
    (hshows : Shows node? (l₂.recorded b
      { op := .target (.load op.access), control, inputs := [state, context.space, checked] } s)) :
    Tracks b (l₂.recorded b
        { op := .target (.load op.access), control, inputs := [state, context.space, checked] } s)
      l₂.nodes.size (some (.number op.type))
      (Values.compute ⟨.load op, control', literals, inputs⟩ [.state, .i64 p] f.memory)
      (runs node? l (l₂.recorded b
        { op := .target (.load op.access), control, inputs := [state, context.space, checked] } s)
        f) := by
  obtain ⟨hsound₂, hgrows, -, -⟩ := guard_sound hsound hb hstate haddress hcontext hcheck
  have hshows₂ : Shows node? l₂ := fun i p hp => hshows i p (getElem?_push_of_some hp)
  have hbytes : op.access.bytes < 2 ^ 64 := by
    have := op.access.bytes_bounds
    omega
  obtain ⟨hinside, houtside⟩ := guard_runs hm hcurrent hsound hb hbytes hstate haddress hu hp
    hcontext hcheck hshows₂
  rw [runs_trans hgrows.size (by rw [size_recorded]; omega)]
  by_cases hin : p.toNat + op.access.bytes ≤ f.memory.size
  · obtain ⟨f₂, hrun₂, hmemory₂, hcurrent₂, hspace₂, hchecked₂⟩ := hinside hin
    obtain ⟨x, w, hvalue, hword, hkind, hrep⟩ := load_inside hm hint u hin
    have hws : List.Forall₂ (fun v w => f₂.values v = some w) [state, context.space, checked]
        [u, BitVec.ofNat 64 Machine.memoryStart, p] :=
      .cons ((values_of_runs hrun₂ hstate.lt).trans hu) (.cons hspace₂ (.cons hchecked₂ .nil))
    rw [← hmemory₂] at hword hvalue
    rw [hrun₂, ← hmemory₂, hvalue]
    change Tracks _ _ _ _ _ (runs node? l₂ _ f₂)
    rw [runs_recorded hshows hws, compute_load, hword]
    refine .ok rfl (hcurrent₂.recorded hsound₂ _ s (some w) rfl) (by rw [← hkind]; rfl) ?_
    intro y hy
    obtain rfl := Option.some.inj hy
    exact ⟨w, Env.set_values_self .., hrep⟩
  · obtain ⟨t, memory, hrun₂⟩ := houtside hin
    rw [hrun₂, load_outside hin]
    exact .trapped

/-- A guarded store writes the bytes that the old one writes, or traps where that one does. -/
theorem store_tracks (hm : Addressable f.memory) (hcurrent : Current b l f) (hsound : l.Sound g)
    (hb : b < g.blocks.size) {op : Store} (hint : op.type.isInt = true)
    {state address checked v : Nat} {u p w : Word} {x : Value} {context : MemoryContext}
    {control control' : List Control} {literals : List Literal} {inputs : List Nat} {s : Stats}
    (hstate : l.Usable g b state) (haddress : l.Usable g b address) (hv : l.Usable g b v)
    (hu : f.values state = some u) (hp : f.values address = some p) (hw : f.values v = some w)
    (hkind : x.kind = .number op.type) (hrep : x.Represents w)
    (hcontext : memoryContext config b state l = .ok (context, l₁))
    (hcheck : checkedAddress config ⟨b, state, address, op.access.bytes⟩ context.size l₁
      = .ok (checked, l₂))
    (hshows : Shows node? (l₂.recorded b
      { op := .target (.store op.access), control, inputs := [state, context.space, checked, v] }
      s)) :
    Tracks b (l₂.recorded b
        { op := .target (.store op.access), control, inputs := [state, context.space, checked, v] }
        s)
      l₂.nodes.size none
      (Values.compute ⟨.store op, control', literals, inputs⟩ [.state, .i64 p, x] f.memory)
      (runs node? l (l₂.recorded b
        { op := .target (.store op.access), control, inputs := [state, context.space, checked, v] }
        s) f) := by
  obtain ⟨hsound₂, hgrows, -, -⟩ := guard_sound hsound hb hstate haddress hcontext hcheck
  have hshows₂ : Shows node? l₂ := fun i p hp => hshows i p (getElem?_push_of_some hp)
  have hbytes : op.access.bytes < 2 ^ 64 := by
    have := op.access.bytes_bounds
    omega
  obtain ⟨hinside, houtside⟩ := guard_runs hm hcurrent hsound hb hbytes hstate haddress hu hp
    hcontext hcheck hshows₂
  rw [runs_trans hgrows.size (by rw [size_recorded]; omega)]
  by_cases hin : p.toNat + op.access.bytes ≤ f.memory.size
  · obtain ⟨f₂, hrun₂, hmemory₂, hcurrent₂, hspace₂, hchecked₂⟩ := hinside hin
    obtain ⟨memory', hvalue, hword⟩ := store_inside hm hint u hkind hrep hin
    have hws : List.Forall₂ (fun v w => f₂.values v = some w) [state, context.space, checked, v]
        [u, BitVec.ofNat 64 Machine.memoryStart, p, w] :=
      .cons ((values_of_runs hrun₂ hstate.lt).trans hu) (.cons hspace₂ (.cons hchecked₂
        (.cons ((values_of_runs hrun₂ hv.lt).trans hw) .nil)))
    rw [← hmemory₂] at hword
    have hrun := runs_recorded hshows hws
    rw [compute_store, hword] at hrun
    rw [hrun₂, hvalue]
    change Tracks _ _ _ _ _ (runs node? l₂ _ f₂)
    rw [hrun]
    refine .ok rfl (hcurrent₂.recorded hsound₂ _ s none ?_) rfl fun y hy => absurd hy (by simp)
    exact size_of_execBody hrun
  · obtain ⟨t, memory, hrun₂⟩ := houtside hin
    rw [hrun₂, store_outside hin]
    exact .trapped

theorem Made.tracks {s : Stats} (hmade : Made g config l b n l₁ m)
    (hplain : n.op.isTerminator = false) (hm : Addressable f.memory) (hcurrent : Current b l f)
    (hsound : l.Sound g) (hb : b < g.blocks.size) (hint : n.op.isInteger = true)
    (hinputs : ∀ v ∈ n.inputs, ∀ v', l.lowered.get? v = some v' → l.Usable g b v')
    (hkinds : List.Forall₂ (fun (x : Value) k => x.kind = k) xs ks) (haccepts : n.op.accepts ks)
    (hliteral : ∀ ty, n.op = .const ty → n.literals ≠ [])
    (hreads : List.Forall₂ (Reads l f) n.inputs xs) (hshows : Shows node? (l₁.recorded b m s)) :
    Tracks b (l₁.recorded b m s) l₁.nodes.size n.op.kind? (Values.compute n xs f.memory)
      (runs node? l (l₁.recorded b m s) f) := by
  cases hmade with
  | @copied op' control inputs t hop htraced hlowered =>
      obtain ⟨hdirect, rfl⟩ : n.op.isDirect = true ∧ op' = n.op.selected := by
        rcases hop with h | ⟨h, -⟩ | ⟨h, -⟩ | ⟨w, h, -⟩
        · exact h
        all_goals simp [h, Operator.isTerminator] at hplain
      obtain ⟨hload, hstore, htload, htstore, k, hk⟩ := direct_not_access hdirect
      obtain ⟨ws, hws, hreps⟩ := exists_words hlowered hreads
      rw [values_compute_of_plain hload hstore, hk]
      exact .of_follows (hcurrent.of_tables rfl rfl) (hsound.setStats t) hshows hws htload htstore
        (value_follows hdirect hk haccepts hliteral ⟨hkinds, hreps⟩)
  | @compared c x y x' y' hop hx hy hx' hy' =>
      rw [hop] at haccepts
      obtain rfl : ks = [.number .i32, .number .i32] := haccepts
      obtain ⟨u, v, hu, hv, rfl⟩ := compared_words hkinds hreads hx hy hx' hy'
      have hmem {index v v' : Nat} (hv : n.inputs[index]? = some v)
          (hv' : l.lowered.get? v = some v') : l.Usable g b v' :=
        hinputs v (List.mem_of_getElem? hv) v' hv'
      obtain ⟨hsound₁, hgrows, -, -⟩ := widened_sound hsound hb (hmem hx hx') (hmem hy hy') .w32 c
      have hshows₁ : Shows node? (widened .w32 b c x' y' l).1 :=
        fun i p hp => hshows i p (getElem?_push_of_some hp)
      obtain ⟨f₁, u', v', hrun₁, hmemory₁, hcurrent₁, hws, hholds⟩ :=
        widened_runs hcurrent hsound (hmem hy hy').lt hu hv .w32 c hshows₁
      have hle : (widened .w32 b c x' y' l).1.nodes.size ≤ ((widened .w32 b c x' y' l).1.recorded b
          { op := .compare .w64 c, inputs := (widened .w32 b c x' y' l).2 } s).nodes.size := by simp
      have hvalue : Values.value n [.int .w32 (u.setWidth IntWidth.w32.bits),
          .int .w32 (v.setWidth IntWidth.w32.bits)] f.memory
            = .ok (Values.ofBool .w32 (c.holds u' v')) := by
        rw [hholds]
        simp only [Values.value, hop, Values.pure?]
        rfl
      rw [values_compute_of_plain (by simp [hop]) (by simp [hop]), hvalue, ← hmemory₁, hop,
        runs_trans hgrows.size hle, hrun₁]
      exact .of_follows hcurrent₁ hsound₁ hshows hws rfl rfl (.ofBool .w32 (c.holds u' v'))
  | loaded hop htraced hs ha hstate haddress hcontext hcheck =>
      obtain ⟨op₀, control₀, literals, inputs⟩ := n
      obtain rfl : op₀ = _ := hop
      obtain rfl : ks = [.state, .number .i64] := haccepts
      obtain ⟨u, p, xs', hu, hp, rfl, hnil⟩ := access_words hkinds hreads hs ha hstate haddress
      obtain rfl := List.forall₂_nil_right_iff.mp hnil
      exact load_tracks hm hcurrent hsound hb hint
        (hinputs _ (List.mem_of_getElem? hs) _ hstate)
        (hinputs _ (List.mem_of_getElem? ha) _ haddress) hu hp hcontext hcheck hshows
  | @stored op _ _ _ _ _ _ _ _ _ _ _ hop htraced hs ha hv hstate haddress hvalue hcontext hcheck =>
      obtain ⟨op₀, control₀, literals, inputs⟩ := n
      obtain rfl : op₀ = .store op := hop
      obtain rfl : ks = [.state, .number .i64, .number op.type] := haccepts
      obtain ⟨u, p, xs', hu, hp, rfl, hone⟩ := access_words hkinds hreads hs ha hstate haddress
      obtain ⟨x, w, hx, hkx, hw, hrep⟩ := operand_at hkinds hreads hv hvalue
      obtain ⟨y, ys, hy, hys, rfl⟩ := List.forall₂_cons_right_iff.mp hone
      obtain rfl := List.forall₂_nil_right_iff.mp hys
      obtain rfl := Option.some.inj hx
      exact store_tracks hm hcurrent hsound hb hint
        (hinputs _ (List.mem_of_getElem? hs) _ hstate)
        (hinputs _ (List.mem_of_getElem? ha) _ haddress)
        (hinputs _ (List.mem_of_getElem? hv) _ hvalue) hu hp hw hy hrep hcontext hcheck hshows
  | fused hop => simp [hop, Operator.isTerminator] at hplain
  | branched hop => simp [hop, Operator.isTerminator] at hplain
  | branched32 hop => simp [hop, Operator.isTerminator] at hplain

theorem Replaced.tracks (h : Replaced l n new l') (hcurrent : Current b l f)
    (hkinds : List.Forall₂ (fun (x : Value) k => x.kind = k) xs ks) (haccepts : n.op.accepts ks)
    (hreads : List.Forall₂ (Reads l f) n.inputs xs) :
    Tracks b l' new n.op.kind? (Values.compute n xs f.memory) (runs node? l l' f) := by
  obtain ⟨hop, x, s, hx, hnew, rfl⟩ := h
  -- the operand is a 64-bit number, and its word stands for the result as it is
  obtain rfl : ks = [.number .i64] := by
    rcases hop with hop | hop <;> rw [hop] at haccepts <;> exact haccepts
  obtain ⟨u, hxu, hu⟩ := number_at (w := .w64) hkinds hreads hx hnew rfl
  obtain rfl : xs = [.i64 u] := by
    obtain ⟨y, rfl⟩ := List.length_eq_one_iff.mp hkinds.length_eq
    obtain rfl := Option.some.inj hxu
    rw [show u.setWidth IntWidth.w64.bits = u from BitVec.setWidth_eq u]
    rfl
  have hrun : runs node? l { l with stats := s } f = .ok f := runs_of_size_eq rfl
  rw [hrun]
  rcases hop with hop | hop
  · have hvalue : Values.compute n [.i64 u] f.memory = .ok (some (.i32 (u.setWidth 32)), f.memory) := by
      rw [values_compute_of_plain (by simp [hop]) (by simp [hop])]
      simp only [Values.value, hop, Values.pure?]
      rfl
    rw [hvalue, hop]
    refine .ok rfl (hcurrent.of_tables rfl rfl) rfl fun y hy => ?_
    obtain rfl := Option.some.inj hy
    exact ⟨u, hu, rfl⟩
  · have hvalue : Values.compute n [.i64 u] f.memory = .ok (some (.i64 u), f.memory) := by
      rw [values_compute_of_plain (by simp [hop]) (by simp [hop])]
      simp only [Values.value, hop, Values.pure?]
      rfl
    rw [hvalue, hop]
    refine .ok rfl (hcurrent.of_tables rfl rfl) rfl fun y hy => ?_
    obtain rfl := Option.some.inj hy
    exact ⟨u, hu, rfl⟩

/-! ### What is made of a terminator leads to the same place -/

/-- Both leave to the same successor, or return with a word for the value. -/
inductive SameExit : Exit Value → Exit Word → Prop
  | goto (k : Nat) : SameExit (.goto k) (.goto k)
  | leave {v : Option Value} {w : Option Word} (h : Option.Rel Value.Represents v w) :
      SameExit (.leave v) (.leave w)

theorem truth_ofBool (w : IntWidth) (taken : Bool) :
    (Values.ofBool w taken).truth? = some taken := by
  cases w <;> cases taken <;> rfl

theorem exit_branch {x : Value} {taken : Bool} (hop : n.op = .branch) (hx : x.truth? = some taken) :
    Values.exit n [x] = .ok (.goto (if taken then 0 else 1)) := by
  simp only [Values.exit, hop, hx, orStuck]
  rfl

theorem truth_w64 (u : Word) :
    (Value.int .w64 (u.setWidth IntWidth.w64.bits)).truth? = some (decide (u ≠ 0)) := by
  rw [show u.setWidth IntWidth.w64.bits = u from BitVec.setWidth_eq u]
  simp only [Value.int, Value.truth?, bne, ne_eq, decide_not]
  rfl

/-- An extension is zero only if the number is. -/
theorem truth_w32 (u : Word) : (Value.int .w32 (u.setWidth IntWidth.w32.bits)).truth?
    = some (decide (extend32 false (u.setWidth 32) ≠ 0)) := by
  rw [show (0 : Word) = extend32 false 0 from rfl]
  simp only [Value.int, Value.truth?, bne, ne_eq, extend32_inj, decide_not]
  rfl

/-- The predicate of a branch is the one number that the branch reads. -/
theorem predicate_read {predicate v : Nat} {p : Node} (hop : n.op = .branch)
    (haccepts : n.op.accepts ks)
    (hkindsOf : List.Forall₂ (fun v k => g.kindOf? v = some k) n.inputs ks)
    (hkinds : List.Forall₂ (fun (x : Value) k => x.kind = k) xs ks)
    (hreads : List.Forall₂ (Reads l f) n.inputs xs) (hhead : n.inputs.head? = some predicate)
    (hp : g.node? predicate = some p) (hv : l.lowered.get? predicate = some v) :
    ∃ w u, p.op.resultType = some (.int w) ∧ xs = [.int w (u.setWidth w.bits)] ∧
      f.values v = some u := by
  rw [hop] at haccepts
  obtain ⟨w, rfl⟩ := haccepts
  have hget : n.inputs[0]? = some predicate := by rw [← List.head?_eq_getElem?, hhead]
  obtain ⟨u, hxu, hu⟩ := number_at hkinds hreads hget hv rfl
  obtain ⟨k, hk, hkind⟩ := forall₂_getElem? hkindsOf hget
  obtain rfl := Option.some.inj hk
  obtain ⟨y, rfl⟩ := List.length_eq_one_iff.mp hkinds.length_eq
  obtain rfl := Option.some.inj hxu
  rw [Graph.kindOf?, hp] at hkind
  exact ⟨w, u, Operator.resultType_of_kind? hkind, rfl, hu⟩

/-- What takes one value reads one word for it. -/
theorem word_of_one {k : Kind} {ws : List Word}
    (hkinds : List.Forall₂ (fun (x : Value) k => x.kind = k) xs [k])
    (hreps : List.Forall₂ Value.Represents xs ws) :
    ∃ x w, xs = [x] ∧ ws = [w] ∧ x.Represents w := by
  obtain ⟨x, rfl⟩ := List.length_eq_one_iff.mp hkinds.length_eq
  obtain ⟨w, _, hrep, hnil, rfl⟩ := List.forall₂_cons_left_iff.mp hreps
  obtain rfl := List.forall₂_nil_left_iff.mp hnil
  exact ⟨x, w, rfl, rfl, hrep⟩

/-- Running what was made of a terminator up to it, and then leaving. -/
theorem Made.exits (hmade : Made g config l b n l₁ m) (hterm : n.op.isTerminator = true)
    (hcurrent : Current b l f) (hsound : l.Sound g)
    (habsorbed : ∀ v ∈ n.inputs, absorbs g config v = true → ∀ p, g.node? v = some p →
      (∀ x ∈ p.inputs, ∀ x', l.lowered.get? x = some x' → l.Usable g b x') ∧
      ∃ ks' ys x, List.Forall₂ (fun (x : Value) k => x.kind = k) ys ks' ∧ p.op.accepts ks' ∧
        List.Forall₂ (Reads l f) p.inputs ys ∧ Values.pure? p ys = some x ∧ xs = [x])
    (hkindsOf : List.Forall₂ (fun v k => g.kindOf? v = some k) n.inputs ks)
    (hkinds : List.Forall₂ (fun (x : Value) k => x.kind = k) xs ks) (haccepts : n.op.accepts ks)
    (hreads : List.Forall₂ (Reads l f) n.inputs xs) (hshows : Shows node? l₁) :
    ∃ f₁ ws out out', runs node? l l₁ f = .ok f₁ ∧ f₁.memory = f.memory ∧
      f₁.operands m = .ok ws ∧ Values.exit n xs = .ok out ∧ Words.exit m ws = .ok out' ∧
      SameExit out out' := by
  cases hmade with
  | @copied op' control inputs t hop htraced hlowered =>
      obtain ⟨ws, hws, hreps⟩ := exists_words hlowered hreads
      have hrun : runs node? l { l with stats := t } f = .ok f := runs_of_size_eq rfl
      have hoperands : f.operands ⟨op', control, n.literals, inputs⟩ = .ok ws :=
        Env.operands_eq_ok.mpr hws
      rcases hop with ⟨hdirect, -⟩ | ⟨hop, rfl⟩ | ⟨hop, rfl⟩ | ⟨w, hop, rfl⟩
      · simp [(isTerminator_selected hdirect).2.1] at hterm
      · rw [hop] at haccepts
        obtain rfl : ks = [] := haccepts
        obtain rfl := List.forall₂_nil_right_iff.mp hkinds
        exact ⟨f, ws, .goto 0, .goto 0, hrun, rfl, hoperands, by simp [Values.exit, hop], rfl, .goto 0⟩
      · rw [hop] at haccepts
        rcases haccepts with rfl | ⟨ty, rfl⟩
        · obtain rfl := List.forall₂_nil_right_iff.mp hkinds
          obtain rfl := List.forall₂_nil_left_iff.mp hreps
          exact ⟨f, [], .leave none, .leave none, hrun, rfl, hoperands, by simp [Values.exit, hop], rfl,
            .leave .none⟩
        · obtain ⟨x, w, rfl, rfl, hrep⟩ := word_of_one hkinds hreps
          exact ⟨f, [w], .leave (some x), .leave (some w), hrun, rfl, hoperands,
            by simp [Values.exit, hop], rfl, .leave (.some hrep)⟩
      · rw [hop] at haccepts
        obtain rfl : ks = [.number (.int w)] := haccepts
        obtain ⟨x, w, rfl, rfl, hrep⟩ := word_of_one hkinds hreps
        exact ⟨f, [w], .leave (some x), .leave (some w), hrun, rfl, hoperands,
          by simp [Values.exit, hop], rfl, .leave (.some hrep)⟩
  | compared hop => simp [hop, Operator.isTerminator] at hterm
  | loaded hop => simp [hop, Operator.isTerminator] at hterm
  | stored hop => simp [hop, Operator.isTerminator] at hterm
  | @fused w c predicate x y x' y' p control hop htraced hhead hp hpop habs hx hy hx' hy' =>
      obtain ⟨huse, ks', ys, z, hkinds', haccepts', hreads', hz, rfl⟩ :=
        habsorbed predicate (List.mem_of_head? hhead) habs p hp
      rw [hpop] at haccepts'
      obtain rfl : ks' = [.number (.int w), .number (.int w)] := haccepts'
      obtain ⟨u, v, hu, hv, rfl⟩ := compared_words hkinds' hreads' hx hy hx' hy'
      have hlt := (huse y (List.mem_of_getElem? hy) y' hy').lt
      obtain ⟨f₁, u', v', hrun, hmemory, -, hws, hholds⟩ :=
        widened_runs hcurrent hsound hlt hu hv w c hshows
      -- the predicate is the truth of the comparison
      obtain rfl : z = Values.ofBool w (c.holds u' v') := by
        simp only [Values.pure?, hpop, Value.int?_int] at hz
        rw [hholds]
        exact (Option.some.inj hz).symm
      exact ⟨f₁, [u', v'], _, _, hrun, hmemory, Env.operands_eq_ok.mpr hws,
        exit_branch hop (truth_ofBool w _), rfl, .goto _⟩
  | @branched predicate v p control hop htraced hhead hp hv hwide =>
      obtain ⟨w, u, htype, rfl, hu⟩ :=
        predicate_read hop haccepts hkindsOf hkinds hreads hhead hp hv
      cases w with
      | w32 => exact absurd htype hwide
      | w64 =>
          refine ⟨f, [u], _, _, runs_of_size_eq rfl, rfl,
            Env.operands_eq_ok.mpr (forall₂_singleton hu), exit_branch hop (truth_w64 u), rfl, ?_⟩
          simp only [decide_eq_true_eq]
          exact .goto _
  | @branched32 predicate v p control hop htraced hhead hp hv hnarrow =>
      obtain ⟨w, u, htype, rfl, hu⟩ :=
        predicate_read hop haccepts hkindsOf hkinds hreads hhead hp hv
      obtain rfl : w = .w32 := ValueType.int.inj (Option.some.inj (htype.symm.trans hnarrow))
      have hrun := runs_inserted hshows (forall₂_singleton hu) rfl
      generalize hf₁ : f.set l.nodes.size (some (extend32 false (u.setWidth 32))) f.memory = f₁
        at hrun
      have hword : f₁.values l.nodes.size = some (extend32 false (u.setWidth 32)) := by
        rw [← hf₁, Env.set_values_self]
      have hmemory : f₁.memory = f.memory := by rw [← hf₁]; rfl
      refine ⟨f₁, [_], _, _, hrun, hmemory, Env.operands_eq_ok.mpr (forall₂_singleton hword),
        exit_branch hop (truth_w32 u), rfl, ?_⟩
      simp only [decide_eq_true_eq]
      exact .goto _

end Lowering

end Isel
