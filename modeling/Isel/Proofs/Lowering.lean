import Isel.Selection.Lowering
import Isel.Proofs.Evaluation

/-! What lowering does, one operation at a time: for each, the states that it can lead to. -/

namespace Isel

namespace Graph

variable {g : Graph} {id : Nat}

theorem isFusable_eq_true : g.isFusable id = true ↔ ∃ w c user,
    g.op? id = some (.compare w c) ∧ g.singleUse? id = some ⟨user, .input 0⟩ ∧
      g.op? user = some .branch := by
  unfold isFusable
  constructor
  · intro h
    split at h
    · next w c hop =>
        split at h
        · next user huse => exact ⟨w, c, user, hop, huse, by simpa using h⟩
        · exact absurd h (by simp)
    · exact absurd h (by simp)
  · rintro ⟨w, c, user, hop, huse, huser⟩
    simp [hop, huse, huser]

theorem op_of_isFusable (h : g.isFusable id = true) : ∃ w c, g.op? id = some (.compare w c) := by
  obtain ⟨w, c, _, hop, -⟩ := isFusable_eq_true.mp h
  exact ⟨w, c, hop⟩

end Graph

/-- The state after a helper node is recorded. -/
def Lowering.inserted (l : Lowering) (b : Nat) (n : Node) : Lowering :=
  { l with
    nodes := l.nodes.push ⟨b, n⟩
    stats := { l.stats with inserted := l.stats.inserted + 1 } }

namespace Select

variable {α β : Type} {l l' : Lowering} {a : α} {b new : Nat} {n : Node}

theorem bind_ok {m : Select α} {f : α → Select β} {r : β × Lowering} :
    (m >>= f) l = .ok r ↔ ∃ a l₁, m l = .ok (a, l₁) ∧ f a l₁ = .ok r := by
  change (m l >>= fun p => f p.1 p.2) = .ok r ↔ _
  rw [bind_eq_ok]
  exact ⟨fun ⟨p, hp, hr⟩ => ⟨p.1, p.2, hp, hr⟩, fun ⟨a, l₁, ha, hr⟩ => ⟨(a, l₁), ha, hr⟩⟩

theorem pure_ok {r : α × Lowering} : (pure a : Select α) l = .ok r ↔ r = (a, l) := by
  change Except.ok (a, l) = .ok r ↔ _
  rw [Except.ok.injEq]
  exact eq_comm

theorem get_bind (f : Lowering → Select α) : (get >>= f) l = f l l := rfl

theorem modify_ok {f : Lowering → Lowering} {r : Unit × Lowering} :
    (modify f : Select Unit) l = .ok r ↔ r = ((), f l) := by
  change Except.ok ((), f l) = .ok r ↔ _
  rw [Except.ok.injEq]
  exact eq_comm

theorem fail_ne_ok {e : Error} {r : α × Lowering} : (fail e : Select α) l ≠ .ok r := by
  change Except.error _ ≠ _
  simp

theorem malformed_ne_ok {message : String} {r : α × Lowering} :
    (malformed message : Select α) l ≠ .ok r := fail_ne_ok

theorem throw_ne_ok {e : Failure} {r : α × Lowering} : (throw e : Select α) l ≠ .ok r := by
  change Except.error _ ≠ _
  simp

theorem add_ok {r : Nat × Lowering} :
    add b n l = .ok r ↔ r = (l.nodes.size, { l with nodes := l.nodes.push ⟨b, n⟩ }) := by
  change Except.ok (l.nodes.size, _) = .ok r ↔ _
  rw [Except.ok.injEq]
  exact eq_comm

theorem count_ok {f : Stats → Stats} {r : Unit × Lowering} :
    count f l = .ok r ↔ r = ((), { l with stats := f l.stats }) := modify_ok

theorem insert_ok {r : Nat × Lowering} :
    insert b n l = .ok r ↔ r = (l.nodes.size, l.inserted b n) := by
  simp only [insert, bind_ok, count_ok, Prod.mk.injEq]
  constructor
  · rintro ⟨_, _, ⟨-, rfl⟩, hadd⟩
    exact add_ok.mp hadd
  · rintro rfl
    exact ⟨(), _, ⟨trivial, rfl⟩, add_ok.mpr rfl⟩

/-! ### Helper nodes -/

/-- The node that reads where linear memory starts. -/
def spaceNode (state : Nat) : Node := { op := .target .memorySpace, inputs := [state] }

/-- The node that reads the size of linear memory. -/
def sizeNode (state : Nat) : Node := { op := .target .memorySize, inputs := [state] }

/-- The state after the nodes that read a memory context are made. -/
def withContext (config : Config) (b state : Nat) (l : Lowering) : Lowering :=
  let made := (l.inserted b (spaceNode state)).inserted b (sizeNode state)
  if config.shareMemoryChecks then
    { made with
      contexts := made.contexts.set (b, state) { space := l.nodes.size, size := l.nodes.size + 1 } }
  else made

/-- A memory context is found or made. -/
theorem memoryContext_ok {config : Config} {state : Nat} {context : MemoryContext}
    (h : memoryContext config b state l = .ok (context, l')) :
    (config.shareMemoryChecks = true ∧ l.contexts.get? (b, state) = some context ∧
      l' = { l with stats := { l.stats with shared := l.stats.shared + 2 } }) ∨
    (context = { space := l.nodes.size, size := l.nodes.size + 1 } ∧
      l' = withContext config b state l) := by
  rw [memoryContext, get_bind] at h
  cases hfound : (l.contexts.get? (b, state)).filter fun _ => config.shareMemoryChecks with
  | some found =>
      simp only [hfound, bind_ok, countShared, count_ok, pure_ok, Prod.mk.injEq] at h
      obtain ⟨_, _, ⟨-, rfl⟩, rfl, rfl⟩ := h
      obtain ⟨hget, hshare⟩ := Option.filter_eq_some_iff.mp hfound
      exact .inl ⟨hshare, hget, rfl⟩
  | none =>
      simp only [hfound, bind_ok, insert_ok, Prod.mk.injEq] at h
      obtain ⟨_, _, ⟨rfl, rfl⟩, _, _, ⟨rfl, rfl⟩, h⟩ := h
      refine .inr ?_
      have hsize : (l.inserted b (spaceNode state)).nodes.size = l.nodes.size + 1 :=
        Array.size_push ..
      by_cases hshare : config.shareMemoryChecks = true
      · simp only [hshare, if_true, bind_ok, modify_ok, pure_ok, Prod.mk.injEq] at h
        obtain ⟨_, _, ⟨-, rfl⟩, rfl, rfl⟩ := h
        simp only [withContext, hshare, if_true, ← hsize]
        exact ⟨rfl, rfl⟩
      · simp only [hshare, Bool.false_eq_true, if_false, pure_ok, Prod.mk.injEq] at h
        obtain ⟨rfl, rfl⟩ := h
        simp only [withContext, hshare, Bool.false_eq_true, if_false, ← hsize]
        exact ⟨rfl, rfl⟩

theorem lowered_of_memoryContext {config : Config} {state : Nat} {context : MemoryContext}
    (h : memoryContext config b state l = .ok (context, l')) : l'.lowered = l.lowered := by
  rcases memoryContext_ok h with ⟨-, -, rfl⟩ | ⟨-, rfl⟩
  · rfl
  · unfold withContext
    split <;> rfl

/-- The node that checks an address. -/
def checkNode (key : CheckKey) (size : Nat) : Node :=
  { op := .target .boundsCheck
    literals := [.int (BitVec.ofNat 64 key.bytes)]
    inputs := [key.state, key.address, size] }

/-- The state after a bounds check is made. -/
def withCheck (config : Config) (key : CheckKey) (size : Nat) (l : Lowering) : Lowering :=
  let made := l.inserted key.block (checkNode key size)
  if config.shareMemoryChecks then { made with checks := made.checks.set key l.nodes.size }
  else made

/-- A checked address is found or made. -/
theorem checkedAddress_ok {config : Config} {key : CheckKey} {size checked : Nat}
    (h : checkedAddress config key size l = .ok (checked, l')) :
    (config.shareMemoryChecks = true ∧ l.checks.get? key = some checked ∧
      l' = { l with stats := { l.stats with shared := l.stats.shared + 1 } }) ∨
    (checked = l.nodes.size ∧ l' = withCheck config key size l) := by
  rw [checkedAddress, get_bind] at h
  cases hfound : (l.checks.get? key).filter fun _ => config.shareMemoryChecks with
  | some found =>
      simp only [hfound, bind_ok, countShared, count_ok, pure_ok, Prod.mk.injEq] at h
      obtain ⟨_, _, ⟨-, rfl⟩, rfl, rfl⟩ := h
      obtain ⟨hget, hshare⟩ := Option.filter_eq_some_iff.mp hfound
      exact .inl ⟨hshare, hget, rfl⟩
  | none =>
      simp only [hfound, bind_ok, insert_ok, Prod.mk.injEq] at h
      obtain ⟨_, _, ⟨rfl, rfl⟩, h⟩ := h
      refine .inr ?_
      by_cases hshare : config.shareMemoryChecks = true
      · simp only [hshare, if_true, bind_ok, modify_ok, pure_ok, Prod.mk.injEq] at h
        obtain ⟨_, _, ⟨-, rfl⟩, rfl, rfl⟩ := h
        simp only [withCheck, hshare, if_true]
        exact ⟨trivial, rfl⟩
      · simp only [hshare, Bool.false_eq_true, if_false, pure_ok, Prod.mk.injEq] at h
        obtain ⟨rfl, rfl⟩ := h
        simp only [withCheck, hshare, Bool.false_eq_true, if_false]
        exact ⟨trivial, rfl⟩

theorem lowered_of_checkedAddress {config : Config} {key : CheckKey} {size checked : Nat}
    (h : checkedAddress config key size l = .ok (checked, l')) : l'.lowered = l.lowered := by
  rcases checkedAddress_ok h with ⟨-, -, rfl⟩ | ⟨-, rfl⟩
  · rfl
  · unfold withCheck
    split <;> rfl

/-! ### Nodes -/

section

variable {recur : Nat → Select Nat} {id : Nat} {r : Nat × Lowering}

theorem input_ok {index : Nat} :
    input recur id n index l = .ok r ↔ ∃ v, n.inputs[index]? = some v ∧ recur v l = .ok r := by
  unfold input
  cases hv : n.inputs[index]? with
  | some v => simp
  | none => simpa using malformed_ne_ok

theorem copy_ok {op : Operator} :
    copy recur b n op l = .ok r ↔ ∃ control l₁ inputs l₂,
      n.control.mapM (Select.control recur) l = .ok (control, l₁) ∧
      n.inputs.mapM recur l₁ = .ok (inputs, l₂) ∧
      r = (l₂.nodes.size,
        { l₂ with nodes := l₂.nodes.push ⟨b, { op, control, literals := n.literals, inputs }⟩ }) := by
  simp only [copy, bind_ok, add_ok]
  constructor
  · rintro ⟨control, l₁, hcontrol, inputs, l₂, hinputs, rfl⟩
    exact ⟨control, l₁, inputs, l₂, hcontrol, hinputs, rfl⟩
  · rintro ⟨control, l₁, inputs, l₂, hcontrol, hinputs, rfl⟩
    exact ⟨control, l₁, hcontrol, inputs, l₂, hinputs, rfl⟩

theorem retarget_ok {op : Target} :
    retarget recur b n op l = .ok r ↔ copy recur b n (.target op)
      { l with stats := { l.stats with retargeted := l.stats.retargeted + 1 } } = .ok r := by
  simp only [retarget, countRetargeted, bind_ok, count_ok, Prod.mk.injEq]
  exact ⟨fun ⟨_, _, ⟨_, hl⟩, h⟩ => hl ▸ h, fun h => ⟨(), _, ⟨trivial, rfl⟩, h⟩⟩

theorem eliminate_ok :
    eliminate recur id n l = .ok r ↔ ∃ v, n.inputs[0]? = some v ∧ recur v
      { l with stats := { l.stats with eliminated := l.stats.eliminated + 1 } } = .ok r := by
  simp only [eliminate, countEliminated, bind_ok, count_ok, Prod.mk.injEq, input_ok]
  exact ⟨fun ⟨_, _, ⟨_, hl⟩, h⟩ => hl ▸ h, fun h => ⟨(), _, ⟨trivial, rfl⟩, h⟩⟩

/-- The extension of a 32-bit operand. -/
def extension (signed : Bool) (v : Nat) : Node := { op := .target (.extend32 signed), inputs := [v] }

theorem widen_ok {c : Comparison} {index : Nat} :
    widen recur b id n c index l = .ok r ↔ ∃ v v' l₁, n.inputs[index]? = some v ∧
      recur v l = .ok (v', l₁) ∧
      r = (l₁.nodes.size, l₁.inserted b (extension c.isSigned v')) := by
  simp only [widen, bind_ok, input_ok, insert_ok]
  constructor
  · rintro ⟨v', l₁, ⟨v, hv, hrecur⟩, rfl⟩
    exact ⟨v, v', l₁, hv, hrecur, rfl⟩
  · rintro ⟨v, v', l₁, hv, hrecur, rfl⟩
    exact ⟨v', l₁, ⟨v, hv, hrecur⟩, rfl⟩

theorem access_ok {config : Config} {op : Target} {bytes state address : Nat} {value : List Nat} :
    access recur config b n op bytes state address value l = .ok r ↔
      ∃ context l₁ checked l₂ control l₃,
        memoryContext config b state l = .ok (context, l₁) ∧
        checkedAddress config ⟨b, state, address, bytes⟩ context.size l₁ = .ok (checked, l₂) ∧
        n.control.mapM (Select.control recur) l₂ = .ok (control, l₃) ∧
        r = (l₃.nodes.size,
          { l₃ with
            nodes := l₃.nodes.push
              ⟨b, { op := .target op, control, inputs := [state, context.space, checked] ++ value }⟩
            stats := { l₃.stats with retargeted := l₃.stats.retargeted + 1 } }) := by
  simp only [access, bind_ok, countRetargeted, count_ok, add_ok, Prod.mk.injEq]
  constructor
  · rintro ⟨context, l₁, hcontext, checked, l₂, hchecked, control, l₃, hcontrol, _, _, ⟨-, rfl⟩, rfl⟩
    exact ⟨context, l₁, checked, l₂, control, l₃, hcontext, hchecked, hcontrol, rfl⟩
  · rintro ⟨context, l₁, checked, l₂, control, l₃, hcontext, hchecked, hcontrol, rfl⟩
    exact ⟨context, l₁, hcontext, checked, l₂, hchecked, control, l₃, hcontrol, (), _,
      ⟨trivial, rfl⟩, rfl⟩

theorem load_ok {config : Config} {op : Load} :
    load recur config b id n op l = .ok r ↔ ∃ s a state l₁ address l₂,
      n.inputs[0]? = some s ∧ recur s l = .ok (state, l₁) ∧
      n.inputs[1]? = some a ∧ recur a l₁ = .ok (address, l₂) ∧
      access recur config b n (.load op.access) op.access.bytes state address [] l₂ = .ok r := by
  simp only [load, bind_ok, input_ok]
  constructor
  · rintro ⟨state, l₁, ⟨s, hs, hstate⟩, address, l₂, ⟨a, ha, haddress⟩, h⟩
    exact ⟨s, a, state, l₁, address, l₂, hs, hstate, ha, haddress, h⟩
  · rintro ⟨s, a, state, l₁, address, l₂, hs, hstate, ha, haddress, h⟩
    exact ⟨state, l₁, ⟨s, hs, hstate⟩, address, l₂, ⟨a, ha, haddress⟩, h⟩

theorem store_ok {config : Config} {op : Store} :
    store recur config b id n op l = .ok r ↔ ∃ s a v state l₁ address l₂ value l₃,
      n.inputs[0]? = some s ∧ recur s l = .ok (state, l₁) ∧
      n.inputs[1]? = some a ∧ recur a l₁ = .ok (address, l₂) ∧
      n.inputs[2]? = some v ∧ recur v l₂ = .ok (value, l₃) ∧
      access recur config b n (.store op.access) op.access.bytes state address [value] l₃
        = .ok r := by
  simp only [store, bind_ok, input_ok]
  constructor
  · rintro ⟨state, l₁, ⟨s, hs, hstate⟩, address, l₂, ⟨a, ha, haddress⟩, value, l₃,
      ⟨v, hv, hvalue⟩, h⟩
    exact ⟨s, a, v, state, l₁, address, l₂, value, l₃, hs, hstate, ha, haddress, hv, hvalue, h⟩
  · rintro ⟨s, a, v, state, l₁, address, l₂, value, l₃, hs, hstate, ha, haddress, hv, hvalue, h⟩
    exact ⟨state, l₁, ⟨s, hs, hstate⟩, address, l₂, ⟨a, ha, haddress⟩, value, l₃,
      ⟨v, hv, hvalue⟩, h⟩

/-- What a branch does after its controls if it takes over the comparison that it is on. -/
def fusedBranch (recur : Nat → Select Nat) (b predicate : Nat) (p : Node) (w : IntWidth)
    (c : Comparison) (control : List Control) : Select Nat := do
  let inputs ← compared recur b predicate p w c
  countFused
  add b { op := .target (.branchOn c), control, inputs }

/-- What a branch does after its controls if its predicate is lowered for itself. -/
def plainBranch (recur : Nat → Select Nat) (b predicate : Nat) (p : Node)
    (control : List Control) : Select Nat := do
  let v ← recur predicate
  let v ← if p.op.resultType = some .i32 then insert b (extension false v) else pure v
  add b { op := .branch, control, inputs := [v] }

section

variable {g : Graph} {config : Config} {predicate : Nat} {p : Node}

theorem branch_dangling (hhead : n.inputs.head? = some predicate) (hp : g.node? predicate = none) :
    branch recur g config b id n
      = n.control.mapM (Select.control recur) >>= fun _ => throw .dangling := by
  simp only [branch, hhead, hp]

theorem branch_fused {w : IntWidth} {c : Comparison} (hhead : n.inputs.head? = some predicate)
    (hp : g.node? predicate = some p) (hop : p.op = .compare w c)
    (hfused : (config.fuseBranches && g.isFusable predicate) = true) :
    branch recur g config b id n
      = n.control.mapM (Select.control recur) >>= fusedBranch recur b predicate p w c := by
  simp only [branch, hhead, hp, hop, hfused]
  rfl

theorem branch_plain (hhead : n.inputs.head? = some predicate) (hp : g.node? predicate = some p)
    (hplain : (config.fuseBranches && g.isFusable predicate) = false) :
    branch recur g config b id n
      = n.control.mapM (Select.control recur) >>= plainBranch recur b predicate p := by
  simp only [branch, hhead, hp, hplain]
  unfold plainBranch
  cases p.op <;> rfl

end

/-- A branch takes over its predicate, or waits for it. -/
theorem branch_ok {g : Graph} {config : Config} (h : branch recur g config b id n l = .ok r) :
    ∃ predicate control l₁ p, n.inputs.head? = some predicate ∧
      n.control.mapM (Select.control recur) l = .ok (control, l₁) ∧ g.node? predicate = some p ∧
      ((∃ w c inputs l₂, p.op = .compare w c ∧
          (config.fuseBranches && g.isFusable predicate) = true ∧
          compared recur b predicate p w c l₁ = .ok (inputs, l₂) ∧
          r = (l₂.nodes.size,
            { l₂ with
              nodes := l₂.nodes.push ⟨b, { op := .target (.branchOn c), control, inputs }⟩
              stats := { l₂.stats with fused := l₂.stats.fused + 1 } })) ∨
        ((config.fuseBranches && g.isFusable predicate) = false ∧
          ∃ v l₂ v' l₃, recur predicate l₁ = .ok (v, l₂) ∧
            (if p.op.resultType = some .i32 then insert b (extension false v) else pure v) l₂
              = .ok (v', l₃) ∧
            r = (l₃.nodes.size,
              { l₃ with nodes := l₃.nodes.push ⟨b, { op := .branch, control, inputs := [v'] }⟩ }))) := by
  cases hhead : n.inputs.head? with
  | none =>
      rw [branch, hhead] at h
      exact absurd h malformed_ne_ok
  | some predicate =>
      cases hp : g.node? predicate with
      | none =>
          rw [branch_dangling hhead hp, bind_ok] at h
          obtain ⟨control, l₁, -, h⟩ := h
          exact absurd h throw_ne_ok
      | some p =>
          cases hfused : config.fuseBranches && g.isFusable predicate with
          | true =>
              obtain ⟨w, c, hop⟩ := Graph.op_of_isFusable (Bool.and_eq_true_iff.mp hfused).2
              rw [Graph.op?, hp] at hop
              replace hop : p.op = .compare w c := Option.some.inj hop
              rw [branch_fused hhead hp hop hfused, bind_ok] at h
              obtain ⟨control, l₁, hcontrol, h⟩ := h
              simp only [fusedBranch, bind_ok, countFused, count_ok, add_ok, Prod.mk.injEq] at h
              obtain ⟨inputs, l₂, hinputs, _, _, ⟨-, rfl⟩, rfl⟩ := h
              exact ⟨predicate, control, l₁, p, rfl, hcontrol, hp,
                .inl ⟨w, c, inputs, l₂, hop, hfused, hinputs, rfl⟩⟩
          | false =>
              rw [branch_plain hhead hp hfused, bind_ok] at h
              obtain ⟨control, l₁, hcontrol, h⟩ := h
              obtain ⟨v, l₂, hv, hrest⟩ := bind_ok.mp h
              refine ⟨predicate, control, l₁, p, rfl, hcontrol, hp, .inr ⟨hfused, v, l₂, ?_⟩⟩
              split at hrest
              · next htype =>
                  obtain ⟨v', l₃, hv', hadd⟩ := bind_ok.mp hrest
                  exact ⟨v', l₃, hv, by rwa [if_pos htype], add_ok.mp hadd⟩
              · next htype =>
                  obtain ⟨v', l₃, hv', hadd⟩ := bind_ok.mp hrest
                  exact ⟨v', l₃, hv, by rwa [if_neg htype], add_ok.mp hadd⟩

end

/-! ### Nodes whose references are lowered -/

/-- The nodes are in the table, and `recur` finds them there. -/
def Finds (recur : Nat → Select Nat) (l : Lowering) (ids : List Nat) : Prop :=
  ∀ v ∈ ids, ∃ v', l.lowered.get? v = some v' ∧
    ∀ l₁ : Lowering, l₁.lowered = l.lowered → recur v l₁ = .ok (v', l₁)

section

variable {recur : Nat → Select Nat} {ids : List Nat} {l₁ l₂ : Lowering} {v v' : Nat}

theorem Finds.of_ok (h : Finds recur l ids) (hv : v ∈ ids) (hok : recur v l₁ = .ok (v', l₂))
    (hl : l₁.lowered = l.lowered) : l₂ = l₁ ∧ l.lowered.get? v = some v' := by
  obtain ⟨x, hx, hrecur⟩ := h v hv
  rw [hrecur l₁ hl] at hok
  obtain ⟨rfl, rfl⟩ := Prod.mk.inj (Except.ok.inj hok)
  exact ⟨rfl, hx⟩

theorem Finds.mapM (h : Finds recur l ids) {vs ys : List Nat} (hvs : ∀ v ∈ vs, v ∈ ids)
    (hok : vs.mapM recur l₁ = .ok (ys, l₂)) (hl : l₁.lowered = l.lowered) :
    l₂ = l₁ ∧ List.Forall₂ (fun v y => l.lowered.get? v = some y) vs ys := by
  induction vs generalizing ys with
  | nil =>
      obtain ⟨rfl, rfl⟩ := Prod.mk.inj (pure_ok.mp hok)
      exact ⟨rfl, .nil⟩
  | cons v vs ih =>
      simp only [List.mapM_cons, bind_ok, pure_ok, Prod.mk.injEq] at hok
      obtain ⟨y, l₃, hfirst, zs, l₄, hrest, rfl, rfl⟩ := hok
      obtain ⟨rfl, hy⟩ := h.of_ok (hvs v List.mem_cons_self) hfirst hl
      obtain ⟨rfl, hzs⟩ := ih (fun w hw => hvs w (List.mem_cons_of_mem v hw)) hrest
      exact ⟨rfl, .cons hy hzs⟩

theorem Finds.control (h : Finds recur l ids) {cs ds : List Control}
    (hcs : ∀ v ∈ cs.filterMap Control.node?, v ∈ ids)
    (hok : cs.mapM (Select.control recur) l₁ = .ok (ds, l₂)) (hl : l₁.lowered = l.lowered) :
    l₂ = l₁ ∧ ∀ r ∈ ds.filterMap Control.node?, ∃ v ∈ cs.filterMap Control.node?,
      l.lowered.get? v = some r := by
  induction cs generalizing ds with
  | nil =>
      obtain ⟨rfl, rfl⟩ := Prod.mk.inj (pure_ok.mp hok)
      exact ⟨rfl, by simp⟩
  | cons c cs ih =>
      simp only [List.mapM_cons, bind_ok, pure_ok, Prod.mk.injEq] at hok
      obtain ⟨d, l₃, hfirst, zs, l₄, hrest, rfl, rfl⟩ := hok
      cases c with
      | block b =>
          obtain ⟨rfl, rfl⟩ := Prod.mk.inj (pure_ok.mp hfirst)
          obtain ⟨rfl, hzs⟩ := ih hcs hrest
          exact ⟨rfl, hzs⟩
      | node v =>
          simp only [Select.control, bind_ok, pure_ok, Prod.mk.injEq] at hfirst
          obtain ⟨r, l₅, hv, rfl, rfl⟩ := hfirst
          obtain ⟨rfl, hr⟩ := h.of_ok (hcs v (by simp [Control.node?])) hv hl
          obtain ⟨rfl, hzs⟩ := ih (fun w hw => hcs w (by simp [Control.node?, hw])) hrest
          refine ⟨rfl, fun r' hr' => ?_⟩
          simp only [List.filterMap_cons, Control.node?, List.mem_cons] at hr' ⊢
          rcases hr' with rfl | hr'
          · exact ⟨v, .inl rfl, hr⟩
          · obtain ⟨w, hw, hget⟩ := hzs r' hr'
            exact ⟨w, .inr hw, hget⟩

/-- The operands of a comparison as words, and the state in which they are there. -/
def widened (w : IntWidth) (b : Nat) (c : Comparison) (x y : Nat) (l : Lowering) :
    Lowering × List Nat :=
  match w with
  | .w64 => (l, [x, y])
  | .w32 =>
    ((l.inserted b (extension c.isSigned x)).inserted b (extension c.isSigned y),
      [l.nodes.size, l.nodes.size + 1])

theorem Finds.compared {id : Nat} (h : Finds recur l n.inputs) {w : IntWidth} {c : Comparison}
    {inputs : List Nat} (hok : compared recur b id n w c l₁ = .ok (inputs, l₂))
    (hl : l₁.lowered = l.lowered) :
    ∃ x y x' y', n.inputs[0]? = some x ∧ n.inputs[1]? = some y ∧
      l.lowered.get? x = some x' ∧ l.lowered.get? y = some y' ∧
      (l₂, inputs) = widened w b c x' y' l₁ := by
  cases w with
  | w64 =>
      simp only [Select.compared, bind_ok, input_ok, pure_ok, Prod.mk.injEq] at hok
      obtain ⟨x', l₃, ⟨x, hx, hrecurx⟩, y', l₄, ⟨y, hy, hrecury⟩, rfl, rfl⟩ := hok
      obtain ⟨rfl, hx'⟩ := h.of_ok (List.mem_of_getElem? hx) hrecurx hl
      obtain ⟨rfl, hy'⟩ := h.of_ok (List.mem_of_getElem? hy) hrecury hl
      exact ⟨x, y, x', y', hx, hy, hx', hy', rfl⟩
  | w32 =>
      simp only [Select.compared, bind_ok, widen_ok, pure_ok, Prod.mk.injEq] at hok
      obtain ⟨_, _, ⟨x, x', l₃, hx, hrecurx, rfl, rfl⟩, _, _, ⟨y, y', l₄, hy, hrecury, rfl, rfl⟩,
        rfl, rfl⟩ := hok
      obtain ⟨rfl, hx'⟩ := h.of_ok (List.mem_of_getElem? hx) hrecurx hl
      obtain ⟨rfl, hy'⟩ := h.of_ok (List.mem_of_getElem? hy) hrecury hl
      refine ⟨x, y, x', y', hx, hy, hx', hy', ?_⟩
      simp [widened, Lowering.inserted]

end

/-! ### Whole graphs -/

section

variable {g : Graph} {config : Config} {id fuel : Nat}

/-- A node that was lowered before is found. -/
theorem lower_found (h : l.lowered.get? id = some new) :
    lower g config (fuel + 1) id l = .ok (new, l) := by
  rw [lower, get_bind, h]
  rfl

/-- A node that was not lowered before is lowered and recorded. -/
theorem lower_ok (hnone : l.lowered.get? id = none)
    (h : lower g config (fuel + 1) id l = .ok (new, l')) :
    ∃ p l₁, g.nodes[id]? = some p ∧
      node (lower g config fuel) g config p.block id p.node l = .ok (new, l₁) ∧
      l' = { l₁ with lowered := l₁.lowered.set id new } := by
  rw [lower, get_bind, hnone] at h
  cases hp : g.nodes[id]? with
  | none =>
      simp only [hp] at h
      exact absurd h throw_ne_ok
  | some p =>
      simp only [hp, bind_ok, modify_ok, pure_ok, Prod.mk.injEq] at h
      obtain ⟨_, l₁, hnode, _, _, ⟨-, rfl⟩, rfl, rfl⟩ := h
      exact ⟨p, l₁, rfl, hnode, rfl⟩

/-- Whether a branch takes over a comparison, so that it is not lowered by itself. -/
def absorbs (g : Graph) (config : Config) (id : Nat) : Bool := config.fuseBranches && g.isFusable id

/-- Lowers the next node of the layout. -/
def lowerNext (g : Graph) (config : Config) (id : Nat) : Select Unit := do
  if absorbs g config id then return ()
  else let _ ← lower g config g.nodes.size id

theorem lowerAll_eq (g : Graph) (config : Config) :
    lowerAll g config = g.layout.forM (lowerNext g config) := rfl

theorem lowerNext_ok {u : Unit} (h : lowerNext g config id l = .ok (u, l')) :
    (absorbs g config id = true ∧ l' = l) ∨
    (absorbs g config id = false ∧ ∃ new, lower g config g.nodes.size id l = .ok (new, l')) := by
  unfold lowerNext at h
  cases habsorbs : absorbs g config id with
  | true =>
      simp only [habsorbs, if_true, pure_ok, Prod.mk.injEq] at h
      exact .inl ⟨rfl, h.2⟩
  | false =>
      simp only [habsorbs, Bool.false_eq_true, if_false, bind_ok, pure_ok, Prod.mk.injEq] at h
      obtain ⟨new, l₁, hlower, -, rfl⟩ := h
      exact .inr ⟨rfl, new, hlower⟩

theorem forM_cons_ok {f : Nat → Select Unit} {ids : List Nat} {u : Unit} :
    (id :: ids).forM f l = .ok (u, l') ↔
      ∃ l₁, f id l = .ok ((), l₁) ∧ ids.forM f l₁ = .ok (u, l') := by
  change (f id >>= fun _ => ids.forM f) l = _ ↔ _
  rw [bind_ok]
  exact ⟨fun ⟨_, l₁, h, h'⟩ => ⟨l₁, h, h'⟩, fun ⟨l₁, h, h'⟩ => ⟨(), l₁, h, h'⟩⟩

theorem forM_append_ok {f : Nat → Select Unit} {front back : List Nat} {u : Unit} :
    (front ++ back).forM f l = .ok (u, l') ↔
      ∃ l₁, front.forM f l = .ok ((), l₁) ∧ back.forM f l₁ = .ok (u, l') := by
  induction front generalizing l with
  | nil =>
      refine ⟨fun h => ⟨l, rfl, h⟩, fun ⟨l₁, h, h'⟩ => ?_⟩
      obtain ⟨-, rfl⟩ := Prod.mk.inj (pure_ok.mp h)
      exact h'
  | cons id front ih =>
      simp only [List.cons_append, forM_cons_ok, ih]
      constructor
      · rintro ⟨l₁, hid, l₂, hfront, hback⟩
        exact ⟨l₂, ⟨l₁, hid, hfront⟩, hback⟩
      · rintro ⟨l₂, ⟨l₁, hid, hfront⟩, hback⟩
        exact ⟨l₁, hid, l₂, hfront, hback⟩

end

end Select

end Isel
