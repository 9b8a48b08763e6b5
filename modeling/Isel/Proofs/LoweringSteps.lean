import Isel.Proofs.Tallies
import Mathlib.Data.List.Perm.Subperm

/-! Lowering as a sequence of steps. Whenever lowering succeeds it is a sequence of steps that keeps the
balance of the counts. In a graph without cycles it fails only because a node is not complete. -/

namespace Isel

/-! ### Actions -/

namespace Select

variable {α β : Type} {x : Select α} {f : α → Select β} {l : Lowering} {P Q : α → Lowering → Prop}
  {R : β → Lowering → Prop} {E : Failure → Prop}

/-- An action gives a result and a state as in `Q`, or fails as in `E`. -/
def Meets (x : Select α) (l : Lowering) (Q : α → Lowering → Prop) (E : Failure → Prop) : Prop :=
  match x l with
  | .ok (a, l') => Q a l'
  | .error e => E e

theorem Meets.bind (hx : Meets x l P E) (hf : ∀ a l₁, P a l₁ → Meets (f a) l₁ R E) :
    Meets (x >>= f) l R E := by
  change (match x l >>= fun p => f p.1 p.2 with
    | .ok (b, l') => R b l'
    | .error e => E e)
  unfold Meets at hx
  cases hxl : x l with
  | error e =>
      rw [hxl] at hx
      exact hx
  | ok p =>
      rw [hxl] at hx
      exact hf p.1 p.2 hx

theorem Meets.mono (h : Meets x l P E) (hpq : ∀ a l', P a l' → Q a l') : Meets x l Q E := by
  unfold Meets at h ⊢
  cases hxl : x l with
  | error e =>
      rw [hxl] at h
      exact h
  | ok p =>
      rw [hxl] at h
      exact hpq p.1 p.2 h

theorem Meets.imp_error {E' : Failure → Prop} (h : Meets x l Q E) (he : ∀ e, E e → E' e) :
    Meets x l Q E' := by
  unfold Meets at h ⊢
  cases hxl : x l with
  | error e =>
      rw [hxl] at h
      exact he e h
  | ok p =>
      rw [hxl] at h
      exact h

theorem Meets.of_ok (h : Meets x l Q E) {a : α} {l' : Lowering} (hok : x l = .ok (a, l')) :
    Q a l' := by
  rw [Meets, hok] at h
  exact h

theorem Meets.pure {a : α} (h : Q a l) : Meets (Pure.pure a) l Q E := h

theorem Meets.get_bind {f : Lowering → Select α} (h : Meets (f l) l Q E) :
    Meets (get >>= f) l Q E := h

theorem Meets.count {Q : Unit → Lowering → Prop} {s : Stats → Stats}
    (h : Q () { l with stats := s l.stats }) : Meets (count s) l Q E := h

theorem Meets.add {Q : Nat → Lowering → Prop} {b : Nat} {n : Node}
    (h : Q l.nodes.size { l with nodes := l.nodes.push ⟨b, n⟩ }) : Meets (add b n) l Q E := h

theorem Meets.insert {Q : Nat → Lowering → Prop} {b : Nat} {n : Node}
    (h : Q l.nodes.size (l.inserted b n)) : Meets (insert b n) l Q E := h

theorem Meets.fail {e : Error} (h : E (.error e)) : Meets (α := α) (fail e) l Q E := h

end Select

namespace Lowering

open Select Relation

section

variable (g : Graph) (config : Config)

/-- Why a graph is not lowered. -/
def Refuses (e : Failure) : Prop :=
  ¬g.Complete config ∧
    ((∃ name id, e = .error (.unsupported name id)) ∨ ∃ message, e = .error (.malformed message))

/-- Why a graph is not lowered, unless it has a cycle. -/
def Fails (e : Failure) : Prop := g.Acyclic → Refuses g config e

/-- The tables lead to the nodes that they name. -/
structure Shared (l : Lowering) : Prop where
  contexts : ∀ b s context, l.contexts.get? (b, s) = some context →
    l.nodes[context.space]? = some ⟨b, spaceNode s⟩ ∧ l.nodes[context.size]? = some ⟨b, sizeNode s⟩
  checks : ∀ key checked, l.checks.get? key = some checked → ∃ size,
    l.nodes[size]? = some ⟨key.block, sizeNode key.state⟩ ∧
      l.nodes[checked]? = some ⟨key.block, checkNode key size⟩

/-- States that lowering comes to. -/
structure Settled (l : Lowering) : Prop extends Shared l where
  reached : Steps g config {} l

/-- Steps lead from one state to another, lower no nodes but some, and keep the balance. -/
structure Reaches (some : Nat → Prop) (l l' : Lowering) : Prop where
  steps : Steps g config l l'
  settled : Settled g config l'
  new : ∀ y, l.lowered.get? y = none → l'.lowered.get? y ≠ none → some y
  balanced : Balanced g config l l'

/-- All that a node needs is lowered if the graph has no cycle, however long the chain of references
is. -/
def Ready (recur : Nat → Select Nat) (id : Nat) : Prop :=
  ∀ v, g.Needs config id v → absorbs g config v = false → ∀ l, Settled g config l →
    Meets (recur v) l (fun v' l' => Reaches g config (g.Needs config id) l l' ∧
      l'.lowered.get? v = some v') (Fails g config)

end

variable {g : Graph} {config : Config} {l l₁ l' : Lowering} {among : Nat → Prop} {b id : Nat} {n : Node}

theorem shared_empty : Shared {} where
  contexts _ _ _ h := absurd h (by simp)
  checks _ _ h := absurd h (by simp)

theorem settled_empty : Settled g config {} := ⟨shared_empty, .refl⟩

theorem Shared.of_keeps (h : Shared l) (hkeeps : Keeps l l') (hcontexts : l'.contexts = l.contexts)
    (hchecks : l'.checks = l.checks) : Shared l' where
  contexts b s context hcontext := by
    obtain ⟨hspace, hsize⟩ := h.contexts b s context (hcontexts ▸ hcontext)
    exact ⟨hkeeps.nodes hspace, hkeeps.nodes hsize⟩
  checks key checked hchecked := by
    obtain ⟨size, hsize, hnode⟩ := h.checks key checked (hchecks ▸ hchecked)
    exact ⟨size, hkeeps.nodes hsize, hkeeps.nodes hnode⟩

theorem Settled.of_step (h : Settled g config l) (hstep : Step g config l l')
    (hcontexts : l'.contexts = l.contexts) (hchecks : l'.checks = l.checks) : Settled g config l' :=
  ⟨h.toShared.of_keeps hstep.keeps hcontexts hchecks, h.reached.tail hstep⟩

theorem Reaches.refl (h : Settled g config l) : Reaches g config among l l :=
  ⟨.refl, h, fun _ hnone hsome => absurd hnone hsome, .refl l⟩

theorem Reaches.trans (h : Reaches g config among l l₁) (h' : Reaches g config among l₁ l') :
    Reaches g config among l l' where
  steps := h.steps.trans h'.steps
  settled := h'.settled
  new y hnone hsome := by
    by_cases hy : l₁.lowered.get? y = none
    · exact h'.new y hy hsome
    · exact h.new y hnone hy
  balanced := h.balanced.trans h'.balanced

theorem Reaches.mono {among' : Nat → Prop} (h : Reaches g config among l l')
    (himp : ∀ y, among y → among' y) : Reaches g config among' l l' :=
  { h with new := fun y hnone hsome => himp y (h.new y hnone hsome) }

theorem Reaches.lowered (h : Reaches g config among l l') {y y' : Nat}
    (hy : l.lowered.get? y = some y') : l'.lowered.get? y = some y' :=
  h.steps.keeps.lowered hy

theorem Reaches.nodes (h : Reaches g config among l l') {i : Nat} {p : Placed}
    (hi : l.nodes[i]? = some p) : l'.nodes[i]? = some p :=
  h.steps.keeps.nodes hi

/-- A step that lowers nothing. -/
theorem Reaches.of_step (hstep : Step g config l l') (hsettled : Settled g config l')
    (hlowered : l'.lowered = l.lowered) (hbalanced : Balanced g config l l') :
    Reaches g config among l l' where
  steps := .single hstep
  settled := hsettled
  new _ hnone hsome := absurd (hlowered ▸ hnone) hsome
  balanced := hbalanced

theorem Reaches.stats (h : Settled g config l) {s : Stats} (hinserted : s.inserted = l.stats.inserted)
    (heliminated : s.eliminated = l.stats.eliminated) (hfused : s.fused = l.stats.fused) :
    Reaches g config among l { l with stats := s } := by
  have hstep : Step g config l { l with stats := s } := .tables rfl rfl
  refine .of_step hstep (h.of_step hstep rfl rfl) rfl (.of_lowered rfl ?_ heliminated hfused)
  exact congrArg (l.nodes.size + ·) hinserted.symm

theorem Reaches.inserted (h : Settled g config l) (hn : g.nodes[id]? = some ⟨b, n⟩) {m : Node}
    (haid : Aid g config l b n m) : Reaches g config among l (l.inserted b m) := by
  have hstep : Step g config l (l.inserted b m) := .aid hn haid rfl rfl
  refine .of_step hstep (h.of_step hstep rfl rfl) rfl (.of_lowered rfl ?_ rfl rfl)
  simp only [Lowering.inserted, Array.size_push]
  omega

/-- The tables of shared nodes change. -/
theorem Reaches.shares (hshared : Shared l') (h : Settled g config l) (hnodes : l'.nodes = l.nodes)
    (hlowered : l'.lowered = l.lowered) (hstats : l'.stats = l.stats) :
    Reaches g config among l l' := by
  have hstep : Step g config l l' := .tables hnodes hlowered
  refine .of_step hstep ⟨hshared, h.reached.tail hstep⟩ hlowered (.of_lowered hlowered ?_ ?_ ?_)
  · rw [hnodes, hstats]
  · rw [hstats]
  · rw [hstats]

theorem getElem?_inserted (l : Lowering) (b : Nat) (m : Node) :
    (l.inserted b m).nodes[l.nodes.size]? = some ⟨b, m⟩ := by
  simp [inserted]

/-- What all nodes need that another refers to. -/
theorem Ready.input {recur : Nat → Select Nat} (h : Ready g config recur id) {y index : Nat}
    {m : Node} (hy : ReflTransGen (g.Follows config) id y) (hm : g.node? y = some m)
    (hindex : index < g.required config y m) (hop : m.op ≠ .branch) (hl : Settled g config l) :
    Meets (Select.input recur y m index) l
      (fun v' l' => Reaches g config (g.Needs config id) l l' ∧
        ∃ v, m.inputs[index]? = some v ∧ l'.lowered.get? v = some v') (Fails g config) := by
  unfold Select.input
  cases hv : m.inputs[index]? with
  | none =>
      refine .fail fun _ => ⟨fun hcomplete => ?_, .inr ⟨_, rfl⟩⟩
      have hle := (hcomplete y m hm).2
      have hge := List.getElem?_eq_none_iff.mp hv
      omega
  | some v =>
      have hfree : absorbs g config v = false := by
        by_contra hne
        obtain ⟨-, hbranch⟩ := Graph.use_of_isFusable
          (isFusable_of_absorbs (by simpa using hne)) (Graph.mem_usesOf_of_input hm hv)
        rw [Graph.op?, hm] at hbranch
        exact hop (Option.some.inj hbranch)
      have hfollows : g.Follows config y v := ⟨m, hm, Graph.mem_followed_of_input hindex hv⟩
      refine (h v (.tail' hy hfollows) hfree l hl).mono ?_
      rintro v' l' ⟨hreaches, hlowered⟩
      exact ⟨hreaches, v, rfl, hlowered⟩

section

variable {recur : Nat → Select Nat}

theorem Ready.inputs (h : Ready g config recur id) (hn : g.node? id = some n) (hop : n.op ≠ .branch)
    (hall : g.required config id n = 0) (hl : Settled g config l) :
    Meets (n.inputs.mapM recur) l
      (fun inputs l' => Reaches g config (g.Needs config id) l l' ∧
        List.Forall₂ (fun v v' => l'.lowered.get? v = some v') n.inputs inputs)
      (Fails g config) := by
  have hready : ∀ v ∈ n.inputs, g.Needs config id v ∧ absorbs g config v = false := by
    intro v hv
    obtain ⟨index, hindex⟩ := List.mem_iff_getElem?.mp hv
    have hfollowed : v ∈ g.followed config id n :=
      Graph.followed_of_required hall ▸ List.mem_append_left _ hv
    refine ⟨.single ⟨n, hn, hfollowed⟩, ?_⟩
    by_contra hne
    obtain ⟨-, hbranch⟩ := Graph.use_of_isFusable
      (isFusable_of_absorbs (by simpa using hne)) (Graph.mem_usesOf_of_input hn hindex)
    rw [Graph.op?, hn] at hbranch
    exact hop (Option.some.inj hbranch)
  generalize n.inputs = inputs at hready ⊢
  induction inputs generalizing l with
  | nil => exact .pure ⟨.refl hl, .nil⟩
  | cons v vs ih =>
      obtain ⟨hv, hvs⟩ := List.forall_mem_cons.mp hready
      rw [List.mapM_cons]
      refine (h v hv.1 hv.2 l hl).bind ?_
      rintro v' l₁ ⟨hfirst, hv'⟩
      refine (ih hfirst.settled hvs).bind ?_
      rintro vs' l₂ ⟨hrest, hvs'⟩
      exact .pure ⟨hfirst.trans hrest, .cons (hrest.lowered hv') hvs'⟩

theorem Controls.mono {c c' : Control} (h : Controls l c c') (hkeeps : Keeps l l') :
    Controls l' c c' := by
  cases h with
  | block b => exact .block b
  | node hlowered => exact .node (hkeeps.lowered hlowered)

theorem Ready.controls (h : Ready g config recur id) (hn : g.node? id = some n)
    (hall : ∀ v ∈ n.controlNodes, v ∈ g.followed config id n) (hl : Settled g config l) :
    Meets (n.control.mapM (Select.control recur)) l
      (fun control l' => Reaches g config (g.Needs config id) l l' ∧
        List.Forall₂ (Controls l') n.control control) (Fails g config) := by
  have hready : ∀ v, .node v ∈ n.control → g.Needs config id v ∧ absorbs g config v = false := by
    intro v hv
    have hmem : v ∈ n.controlNodes := List.mem_filterMap.mpr ⟨.node v, hv, rfl⟩
    refine ⟨.single ⟨n, hn, hall v hmem⟩, ?_⟩
    by_contra hne
    obtain ⟨hslot, -⟩ := Graph.use_of_isFusable
      (isFusable_of_absorbs (by simpa using hne)) (Graph.mem_usesOf_of_control hn hmem)
    exact absurd hslot (by simp)
  generalize n.control = control at hready ⊢
  induction control generalizing l with
  | nil => exact .pure ⟨.refl hl, .nil⟩
  | cons c cs ih =>
      have hcs := fun v hv => hready v (List.mem_cons_of_mem c hv)
      rw [List.mapM_cons]
      have hfirst : Meets (Select.control recur c) l
          (fun c' l' => Reaches g config (g.Needs config id) l l' ∧ Controls l' c c')
          (Fails g config) := by
        cases c with
        | block b => exact .pure ⟨.refl hl, .block b⟩
        | node v =>
            obtain ⟨hv, hfree⟩ := hready v List.mem_cons_self
            refine (h v hv hfree l hl).bind ?_
            rintro v' l₁ ⟨hreaches, hv'⟩
            exact .pure ⟨hreaches, .node hv'⟩
      refine hfirst.bind ?_
      rintro c' l₁ ⟨hfirst, hc'⟩
      refine (ih hfirst.settled hcs).bind ?_
      rintro cs' l₂ ⟨hrest, hcs'⟩
      exact .pure ⟨hfirst.trans hrest, .cons (hc'.mono hrest.steps.keeps) hcs'⟩

/-- The operands of a comparison, of node `id` itself or of one that it takes over. -/
theorem Ready.compared (h : Ready g config recur id) (hn : g.nodes[id]? = some ⟨b, n⟩) {y : Nat}
    {p : Node} {w : IntWidth} {c : Comparison} (hy : ReflTransGen (g.Follows config) id y)
    (hp : g.node? y = some p) (hop : p.op = .compare w c) (hrequired : g.required config y p = 2)
    (hoperand : ∀ v ∈ p.inputs, Operand g config n v) (hl : Settled g config l) :
    Meets (Select.compared recur b y p w c) l
      (fun inputs l' => Reaches g config (g.Needs config id) l l' ∧ Compared l' b p w c inputs)
      (Fails g config) := by
  have hne : p.op ≠ .branch := by simp [hop]
  have hinput {index : Nat} (hindex : index < 2) {l : Lowering} (hl : Settled g config l) :=
    h.input hy hp (hrequired ▸ hindex) hne hl
  cases w with
  | w64 =>
      refine (hinput (by omega) hl).bind ?_
      rintro x' l₁ ⟨hfirst, x, hx, hx'⟩
      refine (hinput (by omega) hfirst.settled).bind ?_
      rintro y' l₂ ⟨hsecond, y, hy, hy'⟩
      exact .pure ⟨hfirst.trans hsecond, .same hx hy (hsecond.lowered hx') hy'⟩
  | w32 =>
      have hwiden {index : Nat} (hindex : index < 2) {l : Lowering} (hl : Settled g config l) :
          Meets (widen recur b y p c index) l
            (fun u l' => Reaches g config (g.Needs config id) l l' ∧ ∃ v v',
              p.inputs[index]? = some v ∧ l'.lowered.get? v = some v' ∧
              l'.nodes[u]? = some ⟨b, extension c.isSigned v'⟩) (Fails g config) := by
        refine (hinput hindex hl).bind ?_
        rintro v' l₁ ⟨hfirst, v, hv, hv'⟩
        have haid : Aid g config l₁ b n (extension c.isSigned v') :=
          .extension _ (hoperand v (List.mem_of_getElem? hv)) hv'
        exact .insert ⟨hfirst.trans (.inserted hfirst.settled hn haid), v, v', hv, hv',
          getElem?_inserted l₁ b _⟩
      refine (hwiden (by omega) hl).bind ?_
      rintro u l₁ ⟨hfirst, x, x', hx, hx', hu⟩
      refine (hwiden (by omega) hfirst.settled).bind ?_
      rintro v l₂ ⟨hsecond, y, y', hy, hy', hv⟩
      exact .pure ⟨hfirst.trans hsecond,
        .widened hx hy (hsecond.lowered hx') hy' (hsecond.nodes hu) hv⟩

theorem Shared.setContext (h : Shared l) {s space size : Nat}
    (hspace : l.nodes[space]? = some ⟨b, spaceNode s⟩)
    (hsize : l.nodes[size]? = some ⟨b, sizeNode s⟩) :
    Shared { l with contexts := l.contexts.set (b, s) { space, size } } where
  contexts c t context hcontext := by
    change (l.contexts.set (b, s) _).get? (c, t) = _ at hcontext
    rw [Table.get?_set] at hcontext
    split at hcontext
    · next heq =>
        obtain ⟨rfl, rfl⟩ := Prod.mk.inj heq
        obtain rfl := Option.some.inj hcontext
        exact ⟨hspace, hsize⟩
    · exact h.contexts c t context hcontext
  checks := h.checks

theorem Shared.setCheck (h : Shared l) (key : CheckKey) {size checked : Nat}
    (hsize : l.nodes[size]? = some ⟨key.block, sizeNode key.state⟩)
    (hnode : l.nodes[checked]? = some ⟨key.block, checkNode key size⟩) :
    Shared { l with checks := l.checks.set key checked } where
  contexts := h.contexts
  checks k i hi := by
    change (l.checks.set key checked).get? k = _ at hi
    rw [Table.get?_set] at hi
    split at hi
    · next heq =>
        obtain rfl := heq
        obtain rfl := Option.some.inj hi
        exact ⟨size, hsize, hnode⟩
    · exact h.checks k i hi

theorem memoryContext_meets (among : Nat → Prop) (hn : g.nodes[id]? = some ⟨b, n⟩)
    (haccess : n.op.isAccess = true) {s s' : Nat} (hs : n.inputs[0]? = some s)
    (hs' : l.lowered.get? s = some s') (hl : Settled g config l) :
    Meets (memoryContext config b s') l
      (fun context l' => Reaches g config among l l' ∧
        l'.nodes[context.space]? = some ⟨b, spaceNode s'⟩ ∧
        l'.nodes[context.size]? = some ⟨b, sizeNode s'⟩) (Fails g config) := by
  refine .get_bind ?_
  cases hfound : (l.contexts.get? (b, s')).filter fun _ => config.shareMemoryChecks with
  | some context =>
      obtain ⟨hget, -⟩ := Option.filter_eq_some_iff.mp hfound
      obtain ⟨hspace, hsize⟩ := hl.contexts b s' context hget
      simp only [hfound]
      exact ⟨.stats hl rfl rfl rfl, hspace, hsize⟩
  | none =>
      have hfirst : Reaches g config among l (l.inserted b (spaceNode s')) :=
        .inserted hl hn (.space haccess hs hs')
      have hsecond := hfirst.trans
        (.inserted hfirst.settled hn (.size haccess hs (hfirst.lowered hs')))
      have hspace : ((l.inserted b (spaceNode s')).inserted b (sizeNode s')).nodes[l.nodes.size]?
          = some ⟨b, spaceNode s'⟩ := getElem?_push_of_some (getElem?_inserted l b (spaceNode s'))
      have hsize := getElem?_inserted (l.inserted b (spaceNode s')) b (sizeNode s')
      simp only [hfound]
      cases hshare : config.shareMemoryChecks with
      | false => exact ⟨hsecond, hspace, hsize⟩
      | true =>
          have hshared := hsecond.settled.setContext hspace hsize
          exact ⟨hsecond.trans (.shares hshared hsecond.settled rfl rfl rfl), hspace, hsize⟩

theorem checkedAddress_meets (among : Nat → Prop) (hn : g.nodes[id]? = some ⟨b, n⟩)
    {s a s' a' size bytes : Nat} (hbytes : n.op.accessBytes? = some bytes)
    (hs : n.inputs[0]? = some s) (ha : n.inputs[1]? = some a)
    (hs' : l.lowered.get? s = some s') (ha' : l.lowered.get? a = some a')
    (hsize : l.nodes[size]? = some ⟨b, sizeNode s'⟩) (hl : Settled g config l) :
    Meets (checkedAddress config ⟨b, s', a', bytes⟩ size) l
      (fun checked l' => Reaches g config among l l' ∧
        ∃ size, l'.nodes[size]? = some ⟨b, sizeNode s'⟩ ∧
          l'.nodes[checked]? = some ⟨b, checkNode ⟨b, s', a', bytes⟩ size⟩) (Fails g config) := by
  refine .get_bind ?_
  cases hfound : (l.checks.get? ⟨b, s', a', bytes⟩).filter fun _ => config.shareMemoryChecks with
  | some checked =>
      obtain ⟨hget, -⟩ := Option.filter_eq_some_iff.mp hfound
      simp only [hfound]
      exact ⟨.stats hl rfl rfl rfl, hl.checks _ checked hget⟩
  | none =>
      have hmade : Reaches g config among l (l.inserted b (checkNode ⟨b, s', a', bytes⟩ size)) :=
        .inserted hl hn (.check hbytes hs ha hs' ha' hsize)
      have hnode := getElem?_inserted l b (checkNode ⟨b, s', a', bytes⟩ size)
      simp only [hfound]
      cases hshare : config.shareMemoryChecks with
      | false => exact ⟨hmade, size, hmade.nodes hsize, hnode⟩
      | true =>
          have hshared := hmade.settled.setCheck ⟨b, s', a', bytes⟩ (hmade.nodes hsize) hnode
          exact ⟨hmade.trans (.shares hshared hmade.settled rfl rfl rfl), size, hmade.nodes hsize, hnode⟩

/-- What comes of a node: it stands for its first input, or a new node is recorded for it. -/
inductive Lowers (g : Graph) (config : Config) (b id : Nat) (n : Node) (l : Lowering) (new : Nat)
    (l' : Lowering) : Prop
  | stands (reaches : Reaches g config (g.Needs config id) l.dropped l')
      (stands : Stands g config l' id n new)
  | records {l₁ : Lowering} {m : Node} {s : Stats}
      (reaches : Reaches g config (g.Needs config id) l l₁) (form : Form g config l₁ b id n m)
      (new_eq : new = l₁.nodes.size) (state_eq : l' = l₁.recorded b m s)
      (counts : Counts g config id l₁.stats s)

/-- A node that is no branch takes over nothing. -/
theorem fuses_of_ne_branch (hn : g.nodes[id]? = some ⟨b, n⟩) (hop : n.op ≠ .branch) :
    g.fuses config id = false := by
  refine Bool.eq_false_iff.mpr fun hfuses => hop ?_
  exact ((Graph.fuses_eq_true (Graph.node?_eq_some.mpr ⟨b, hn⟩)).mp hfuses).1

theorem Counts.of_not_fuses {s s' : Stats} (h : g.fuses config id = false)
    (hinserted : s'.inserted = s.inserted) (heliminated : s'.eliminated = s.eliminated)
    (hfused : s'.fused = s.fused) : Counts g config id s s' :=
  ⟨hinserted, heliminated, by rw [hfused, h]; rfl⟩

section

variable (h : Ready g config recur id) (hn : g.nodes[id]? = some ⟨b, n⟩) (hl : Settled g config l)

include h hn hl

theorem Ready.copy {op' : Operator} (hfree : absorbs g config id = false)
    (hop : n.op.copied? = some op') (hkept : n.op = .bool .i64 → g.drops config id = false) :
    Meets (Select.copy recur b n op') l (Lowers g config b id n l) (Fails g config) := by
  have hnode := Graph.node?_eq_some.mpr ⟨b, hn⟩
  have hbranch : n.op ≠ .branch := by
    intro heq
    rw [heq] at hop
    exact absurd hop (by simp [Operator.copied?])
  have hall := required_of_copied? hop hkept hfree
  have hcontrols : ∀ v ∈ n.controlNodes, v ∈ g.followed config id n := fun v hv =>
    Graph.followed_of_required hall ▸ List.mem_append_right _ hv
  refine (h.controls hnode hcontrols hl).bind ?_
  rintro control l₁ ⟨hfirst, hcontrol⟩
  refine (h.inputs hnode hbranch hall hfirst.settled).bind ?_
  rintro inputs l₂ ⟨hsecond, hinputs⟩
  have hcontrol' := hcontrol.imp fun _ _ hc => hc.mono hsecond.steps.keeps
  have hcounts : Counts g config id l₂.stats l₂.stats :=
    .of_not_fuses (fuses_of_ne_branch hn hbranch) rfl rfl rfl
  exact .add (.records (hfirst.trans hsecond) (.copied hop hkept hcontrol' hinputs) rfl rfl hcounts)

theorem Ready.retarget {op : Target} (hfree : absorbs g config id = false)
    (hop : n.op.copied? = some (.target op)) :
    Meets (Select.retarget recur b n op) l (Lowers g config b id n l) (Fails g config) := by
  refine Meets.bind (P := fun _ l₁ => Reaches g config (g.Needs config id) l l₁)
    (.count (.stats hl rfl rfl rfl)) fun _ l₁ hstats => ?_
  have hkept : n.op = .bool .i64 → g.drops config id = false := by
    intro heq
    rw [heq] at hop
    exact absurd hop (by simp [Operator.copied?, ValueType.i64])
  refine (h.copy hn hstats.settled hfree hop hkept).mono fun new l' hlowers => ?_
  cases hlowers with
  | stands _ hstands =>
      obtain ⟨helided, -, -⟩ := hstands
      rcases helided with helided | helided | ⟨helided, -⟩ <;> rw [helided] at hop <;>
        exact absurd hop (by simp [Operator.copied?, ValueType.i64])
  | records hreaches hform hnew hstate hcounts =>
      exact .records (hstats.trans hreaches) hform hnew hstate hcounts

theorem Ready.eliminate (hop : Elided g config id n) :
    Meets (Select.eliminate recur id n) l (Lowers g config b id n l) (Fails g config) := by
  have hnode := Graph.node?_eq_some.mpr ⟨b, hn⟩
  have hrequired : 0 < g.required config id n := by
    rw [hop.required_eq]
    exact Nat.one_pos
  have hbranch : n.op ≠ .branch := by
    rcases hop with hop | hop | ⟨hop, -⟩ <;> simp [hop]
  have hstep : Step g config l l.dropped := .tables rfl rfl
  have hdropped : Settled g config l.dropped := hl.of_step hstep rfl rfl
  refine Meets.bind (P := fun _ l₁ => l₁ = l.dropped) (.count rfl) ?_
  rintro _ _ rfl
  refine (h.input .refl hnode hrequired hbranch hdropped).mono ?_
  rintro new l' ⟨hreaches, x, hx, hx'⟩
  exact .stands hreaches ⟨hop, hx, hx'⟩

theorem Ready.copysign {w : FloatWidth} (hop : n.op = .floatBinary w .copysign) :
    Meets (Select.copysign recur b id n w) l (Lowers g config b id n l) (Fails g config) := by
  have hnode := Graph.node?_eq_some.mpr ⟨b, hn⟩
  have hrequired : g.required config id n = 2 := by simp [Graph.required, hop]
  have hinput {index : Nat} (hindex : index < 2) {l : Lowering} (hl : Settled g config l) :=
    h.input .refl hnode (hrequired ▸ hindex) (by simp [hop]) hl
  refine (hinput (by omega) hl).bind ?_
  rintro x' l₁ ⟨hfirst, x, hx, hx'⟩
  refine (hinput (by omega) hfirst.settled).bind ?_
  rintro y' l₂ ⟨hsecond, y, hy, hy'⟩
  have hx'' := hsecond.lowered hx'
  have haid : Aid g config l₂ b n (magnitude w x') := .magnitude hop hx hx''
  have hreaches := (hfirst.trans hsecond).trans (.inserted hsecond.settled hn haid)
  refine .bind (.insert (Q := fun u l₃ => u = l₂.nodes.size ∧ l₃ = l₂.inserted b (magnitude w x'))
    ⟨rfl, rfl⟩) ?_
  rintro u l₃ ⟨rfl, rfl⟩
  exact .add (.records hreaches (.signed hop hx hy hx'' hy' (getElem?_inserted l₂ b _)) rfl rfl
    (.of_not_fuses (fuses_of_ne_branch hn (by simp [hop])) rfl rfl rfl))

theorem Ready.compare {c : Comparison} (hop : n.op = .compare .w32 c) :
    Meets (do
      let inputs ← Select.compared recur b id n .w32 c
      countRetargeted
      add b { op := .compare .w64 c, inputs }) l (Lowers g config b id n l) (Fails g config) := by
  have hnode := Graph.node?_eq_some.mpr ⟨b, hn⟩
  have hrequired : g.required config id n = 2 := by simp [Graph.required, hop]
  refine (h.compared hn .refl hnode hop hrequired (fun v hv => .inl hv) hl).bind ?_
  rintro inputs l₁ ⟨hreaches, hcompared⟩
  exact Lowers.records hreaches (.compared hop hcompared) rfl rfl
    (.of_not_fuses (fuses_of_ne_branch hn (by simp [hop])) rfl rfl rfl)

/-- An access is recorded with the nodes that guard it. -/
theorem Ready.access {op : Target} {bytes s a state address : Nat} {value : List Nat}
    (hbytes : n.op.accessBytes? = some bytes) (hs : n.inputs[0]? = some s) (ha : n.inputs[1]? = some a)
    (hs' : l.lowered.get? s = some state) (ha' : l.lowered.get? a = some address) :
    Meets (Select.access recur config b n op bytes state address value) l
      (fun new l' => ∃ l₁ space checked control stats,
        Reaches g config (g.Needs config id) l l₁ ∧
        List.Forall₂ (Controls l₁) n.control control ∧
        Guards l₁ b bytes state address space checked ∧ new = l₁.nodes.size ∧
        l' = l₁.recorded b
          { op := .target op, control, inputs := [state, space, checked] ++ value } stats ∧
        Counts g config id l₁.stats stats)
      (Fails g config) := by
  have hnode := Graph.node?_eq_some.mpr ⟨b, hn⟩
  have haccess := Operator.isAccess_of_accessBytes? hbytes
  have hbranch : n.op ≠ .branch := by
    intro hop
    rw [hop] at haccess
    exact absurd haccess (by simp [Operator.isAccess])
  refine (memoryContext_meets (g.Needs config id) hn haccess hs hs' hl).bind ?_
  rintro context l₁ ⟨hfirst, hspace, hsize⟩
  refine (checkedAddress_meets (g.Needs config id) hn hbytes hs ha (hfirst.lowered hs')
    (hfirst.lowered ha') hsize hfirst.settled).bind ?_
  rintro checked l₂ ⟨hsecond, size, hsize, hchecked⟩
  have hcontrols : ∀ v ∈ n.controlNodes, v ∈ g.followed config id n := fun v hv =>
    Graph.mem_followed_of_control (.inl haccess) hv
  refine (h.controls hnode hcontrols hsecond.settled).bind ?_
  rintro control l₃ ⟨hthird, hcontrol⟩
  exact ⟨l₃, context.space, checked, control, _, (hfirst.trans hsecond).trans hthird, hcontrol,
    ⟨hthird.nodes (hsecond.nodes hspace), size, hthird.nodes hsize, hthird.nodes hchecked⟩,
    rfl, rfl, .of_not_fuses (fuses_of_ne_branch hn hbranch) rfl rfl rfl⟩

theorem Ready.load {op : Load} (hop : n.op = .load op) :
    Meets (Select.load recur config b id n op) l (Lowers g config b id n l) (Fails g config) := by
  have hnode := Graph.node?_eq_some.mpr ⟨b, hn⟩
  have hrequired : g.required config id n = 2 := by simp [Graph.required, hop]
  have hinput {index : Nat} (hindex : index < 2) {l : Lowering} (hl : Settled g config l) :=
    h.input .refl hnode (hrequired ▸ hindex) (by simp [hop]) hl
  refine (hinput (by omega) hl).bind ?_
  rintro state l₁ ⟨hfirst, s, hs, hs'⟩
  refine (hinput (by omega) hfirst.settled).bind ?_
  rintro address l₂ ⟨hsecond, a, ha, ha'⟩
  have hs'' := hsecond.lowered hs'
  refine (h.access hn hsecond.settled (by rw [hop]; rfl) hs ha hs'' ha').mono ?_
  rintro new l' ⟨l₃, space, checked, control, stats, hreaches, hcontrol, hguards, hnew, hstate, hcounts⟩
  exact .records ((hfirst.trans hsecond).trans hreaches)
    (.loaded hop hcontrol hs ha (hreaches.lowered hs'') (hreaches.lowered ha') hguards) hnew hstate
    hcounts

theorem Ready.store {op : Store} (hop : n.op = .store op) :
    Meets (Select.store recur config b id n op) l (Lowers g config b id n l) (Fails g config) := by
  have hnode := Graph.node?_eq_some.mpr ⟨b, hn⟩
  have hrequired : g.required config id n = 3 := by simp [Graph.required, hop]
  have hinput {index : Nat} (hindex : index < 3) {l : Lowering} (hl : Settled g config l) :=
    h.input .refl hnode (hrequired ▸ hindex) (by simp [hop]) hl
  refine (hinput (by omega) hl).bind ?_
  rintro state l₁ ⟨hfirst, s, hs, hs'⟩
  refine (hinput (by omega) hfirst.settled).bind ?_
  rintro address l₂ ⟨hsecond, a, ha, ha'⟩
  refine (hinput (by omega) hsecond.settled).bind ?_
  rintro value l₃ ⟨hthird, v, hv, hv'⟩
  have hs'' := hthird.lowered (hsecond.lowered hs')
  have ha'' := hthird.lowered ha'
  refine (h.access hn hthird.settled (by rw [hop]; rfl) hs ha hs'' ha'').mono ?_
  rintro new l' ⟨l₄, space, checked, control, stats, hreaches, hcontrol, hguards, hnew, hstate, hcounts⟩
  exact .records (((hfirst.trans hsecond).trans hthird).trans hreaches)
    (.stored hop hcontrol hs ha hv (hreaches.lowered hs'') (hreaches.lowered ha'')
      (hreaches.lowered hv') hguards) hnew hstate hcounts

theorem Ready.branch (hclosed : g.isClosed = true) (hop : n.op = .branch) :
    Meets (Select.branch recur g config b id n) l (Lowers g config b id n l) (Fails g config) := by
  have hnode := Graph.node?_eq_some.mpr ⟨b, hn⟩
  cases hhead : n.inputs.head? with
  | none =>
      rw [Select.branch, hhead]
      refine .fail fun _ => ⟨fun hcomplete => ?_, .inr ⟨_, rfl⟩⟩
      have hle := (hcomplete id n hnode).2
      rw [List.head?_eq_none_iff.mp hhead] at hle
      simp [Graph.required, hop] at hle
  | some predicate =>
      have hmem : predicate ∈ n.inputs := List.mem_of_mem_head? hhead
      have hfirst : n.inputs[0]? = some predicate := by rw [← List.head?_eq_getElem?, hhead]
      have hfollows : g.Follows config id predicate :=
        ⟨n, hnode, Graph.mem_followed_of_input (by simp [Graph.required, hop]) hfirst⟩
      have hcontrols : ∀ v ∈ n.controlNodes, v ∈ g.followed config id n := fun v hv =>
        Graph.mem_followed_of_control (.inr hop) hv
      have hlt := Graph.lt_of_isClosed hclosed hnode (List.mem_append_left _ hmem)
      obtain ⟨p, hp⟩ : ∃ p, g.node? predicate = some p := by
        simp [Graph.node?, Array.getElem?_eq_getElem hlt]
      cases hfused : absorbs g config predicate with
      | true =>
          obtain ⟨w, c, hpop⟩ := Graph.op_of_isFusable (isFusable_of_absorbs hfused)
          rw [Graph.op?, hp] at hpop
          replace hpop : p.op = .compare w c := Option.some.inj hpop
          have hrequired : g.required config predicate p = 2 := by
            cases w <;> simp [Graph.required, hpop, hfused]
          have hoperand : ∀ v ∈ p.inputs, Operand g config n v :=
            fun v hv => .inr ⟨predicate, p, hop, hhead, hfused, hp, hv⟩
          rw [branch_fused hhead hp hpop hfused]
          refine (h.controls hnode hcontrols hl).bind ?_
          rintro control l₁ ⟨hfirst, hcontrol⟩
          refine (h.compared hn (.single hfollows) hp hpop hrequired hoperand hfirst.settled).bind ?_
          rintro inputs l₂ ⟨hsecond, hcompared⟩
          have hcontrol' := hcontrol.imp fun _ _ hc => hc.mono hsecond.steps.keeps
          have hfuses : g.fuses config id = true :=
            (Graph.fuses_eq_true hnode).mpr ⟨hop, predicate, hhead, hfused⟩
          exact Lowers.records (hfirst.trans hsecond)
            (.fused hop hcontrol' hhead hfused hp hpop hcompared) rfl rfl
            ⟨rfl, rfl, by rw [hfuses]; rfl⟩
      | false =>
          rw [branch_plain hhead hp hfused]
          have hfuses : g.fuses config id = false := by
            refine Bool.eq_false_iff.mpr fun hfuses => ?_
            obtain ⟨-, c, hc, habsorbs⟩ := (Graph.fuses_eq_true hnode).mp hfuses
            obtain rfl := Option.some.inj (hhead.symm.trans hc)
            exact absurd (hfused.symm.trans habsorbs) (by simp)
          refine (h.controls hnode hcontrols hl).bind ?_
          rintro control l₁ ⟨hfirst, hcontrol⟩
          refine (h predicate (.single hfollows) hfused l₁ hfirst.settled).bind ?_
          rintro v l₂ ⟨hsecond, hv⟩
          have hcontrol' := hcontrol.imp fun _ _ hc => hc.mono hsecond.steps.keeps
          have hreaches := hfirst.trans hsecond
          split
          · have haid : Aid g config l₂ b n (extension false v) := .extension _ (.inl hmem) hv
            have hthird : Reaches g config (g.Needs config id) l₂ _ :=
              .inserted hsecond.settled hn haid
            exact Lowers.records (hreaches.trans hthird)
              (.branched32 hop (hcontrol'.imp fun _ _ hc => hc.mono hthird.steps.keeps) hhead hv
                (getElem?_inserted l₂ b _)) rfl rfl (.of_not_fuses hfuses rfl rfl rfl)
          · exact Lowers.records hreaches (.branched hop hcontrol' hhead hv) rfl rfl
              (.of_not_fuses hfuses rfl rfl rfl)

/-- A node is lowered once all that it refers to can be. -/
theorem Ready.node (hclosed : g.isClosed = true) (hfree : absorbs g config id = false) :
    Meets (Select.node recur g config b id n) l (Lowers g config b id n l) (Fails g config) := by
  have hcopy (hop : n.op.copied? = some n.op) (hbool : n.op ≠ .bool .i64) :=
    h.copy hn hl hfree hop fun heq => absurd heq hbool
  unfold Select.node
  split
  · next hop => exact h.eliminate hn hl (.inl hop)
  · next hop => exact h.eliminate hn hl (.inr (.inl hop))
  · next hop =>
      split
      · next hdrops => exact h.eliminate hn hl (.inr (.inr ⟨hop, hdrops⟩))
      · next hdrops => exact h.copy hn hl hfree (by rw [hop]; rfl) fun _ =>
          Bool.eq_false_iff.mpr hdrops
  · next hop => exact h.retarget hn hl hfree (by rw [hop]; rfl)
  · next hop => exact h.retarget hn hl hfree (by rw [hop]; rfl)
  · next op hop =>
      split
      · next op' hfused => exact h.retarget hn hl hfree (by simp [hop, Operator.copied?, hfused])
      · next hfused => exact hcopy (by simp [hop, Operator.copied?, hfused]) (by simp [hop])
  · next hop => exact h.copysign hn hl hop
  · next hop => exact h.compare hn hl hop
  · next hop => exact h.branch hn hl hclosed hop
  · next hop => exact h.retarget hn hl hfree (by rw [hop]; rfl)
  · next hop => exact h.load hn hl hop
  · next hop => exact h.store hn hl hop
  · next c hop =>
      refine .fail fun _ => ⟨fun hcomplete => ?_, .inl ⟨_, _, rfl⟩⟩
      have hnot := (hcomplete id n (Graph.node?_eq_some.mpr ⟨b, hn⟩)).1
      rw [hop] at hnot
      exact absurd hnot (by simp [Operator.isConversion])
  · next hbool _ _ _ _ _ _ _ _ _ _ =>
      refine hcopy ?_ fun heq => hbool heq
      unfold Operator.copied?
      split <;> simp_all

end

end

/-! ### Whole graphs -/

/-- A node that was not lowered before is recorded in the table. It was not lowered on the way either:
all that it needs is founded by then, so it is founded itself and does not lead back to itself. -/
theorem Lowers.set {new : Nat} (h : Lowers g config b id n l new l')
    (hn : g.nodes[id]? = some ⟨b, n⟩) (hnone : l.lowered.get? id = none)
    (hfree : absorbs g config id = false) :
    Reaches g config (ReflTransGen (g.Follows config) id) l
      { l' with lowered := l'.lowered.set id new } := by
  have hnode : g.node? id = some n := Graph.node?_eq_some.mpr ⟨b, hn⟩
  have hlt : id < g.nodes.size := (Array.getElem?_eq_some_iff.mp hn).1
  have hnew {l₀ l₁ : Lowering} (hreaches : Reaches g config (g.Needs config id) l₀ l₁)
      (v y : Nat) (hy : l₀.lowered.get? y = none) (hsome : (l₁.lowered.set id v).get? y ≠ none) :
      ReflTransGen (g.Follows config) id y := by
    rw [Table.get?_set] at hsome
    split at hsome
    · next heq => exact heq ▸ .refl
    · exact (hreaches.new y hy hsome).to_reflTransGen
  cases h with
  | stands hreaches hstands =>
      have hfresh : l'.lowered.get? id = none := by
        by_contra hsome
        have hfounded := hstands.founded hreaches.settled.reached.founded hnode
        exact hfounded.not_needs (hreaches.new id hnone hsome)
      have hstep : Step g config l' { l' with lowered := l'.lowered.set id new } :=
        .stand hn hfresh hfree hstands rfl rfl
      have helides : g.elides config id = true := by
        obtain ⟨helided, -, -⟩ := hstands
        exact (Graph.elides_eq_true hnode).mpr helided
      have hfuses : g.fuses config id = false := by
        obtain ⟨helided, -, -⟩ := hstands
        refine fuses_of_ne_branch hn ?_
        rcases helided with hop | hop | ⟨hop, -⟩ <;> simp [hop]
      have hcounted : Step g config l l.dropped := .tables rfl rfl
      exact ⟨(hreaches.steps.head hcounted).tail hstep, hreaches.settled.of_step hstep rfl rfl,
        hnew hreaches new, hreaches.balanced.stand hlt hfresh helides hfuses rfl rfl rfl⟩
  | @records l₁ m s hreaches hform hnew' hstate hcounts =>
      subst hnew' hstate
      have hfresh : l₁.lowered.get? id = none := by
        by_contra hsome
        have hfounded := hform.founded hreaches.settled.reached.founded hnode hfree
        exact hfounded.not_needs (hreaches.new id hnone hsome)
      have hstep : Step g config l₁
          { l₁.recorded b m s with lowered := l₁.lowered.set id l₁.nodes.size } :=
        .record hn hfresh hfree hform rfl rfl
      have helides : g.elides config id = false := (Graph.elides_eq_false hnode).mpr hform.not_elided
      exact ⟨hreaches.steps.tail hstep, hreaches.settled.of_step hstep rfl rfl,
        hnew hreaches l₁.nodes.size,
        hreaches.balanced.record hlt hfresh helides hcounts rfl rfl⟩

theorem lt_of_needs (hclosed : g.isClosed = true) {v : Nat} (h : g.Needs config id v) :
    v < g.nodes.size := by
  obtain ⟨y, -, hfollows⟩ := TransGen.tail'_iff.mp h
  obtain ⟨m, hm, hv⟩ := hfollows.refers
  exact Graph.lt_of_isClosed hclosed hm hv

/-- There is fuel enough for a node. In a graph without cycles the nodes on the path of references that
leads to it are different ones, and each of them took some. -/
def Fueled (g : Graph) (id fuel : Nat) : Prop :=
  g.Acyclic → ∃ path : List Nat, path.Nodup ∧ (∀ y ∈ path, y < g.nodes.size ∧ TransGen g.Refers y id) ∧
    g.nodes.size ≤ path.length + fuel

theorem fueled_size (g : Graph) (id : Nat) : Fueled g id g.nodes.size :=
  fun _ => ⟨[], List.nodup_nil, by simp, by simp⟩

theorem Fueled.next {fuel v : Nat} (h : Fueled g id (fuel + 1)) (hlt : id < g.nodes.size)
    (hv : TransGen g.Refers id v) : Fueled g v fuel := by
  intro hacyclic
  obtain ⟨path, hnodup, hpath, hfuel⟩ := h hacyclic
  have hnot : id ∉ path := fun hmem => hacyclic id (hpath id hmem).2
  refine ⟨id :: path, List.nodup_cons.mpr ⟨hnot, hnodup⟩, ?_, ?_⟩
  · intro y hy
    rcases List.mem_cons.mp hy with rfl | hy
    · exact ⟨hlt, hv⟩
    · exact ⟨(hpath y hy).1, (hpath y hy).2.trans hv⟩
  · rw [List.length_cons]
    omega

/-- With the node itself those on the path are no more than the graph has. -/
theorem Fueled.not_zero (h : Fueled g id 0) (hlt : id < g.nodes.size) : ¬g.Acyclic := by
  intro hacyclic
  obtain ⟨path, hnodup, hpath, hfuel⟩ := h hacyclic
  have hnot : id ∉ path := fun hmem => hacyclic id (hpath id hmem).2
  have hsub : id :: path ⊆ List.range g.nodes.size := by
    intro y hy
    rw [List.mem_range]
    rcases List.mem_cons.mp hy with rfl | hy
    · exact hlt
    · exact (hpath y hy).1
  have hlength := (List.subperm_of_subset (List.nodup_cons.mpr ⟨hnot, hnodup⟩) hsub).length_le
  rw [List.length_cons, List.length_range] at hlength
  omega

theorem lower_meets (hclosed : g.isClosed = true) {fuel : Nat} (hlt : id < g.nodes.size)
    (hfuel : Fueled g id fuel) (hfree : absorbs g config id = false) (hl : Settled g config l) :
    Meets (lower g config fuel id) l
      (fun new l' => Reaches g config (ReflTransGen (g.Follows config) id) l l' ∧
        l'.lowered.get? id = some new) (Fails g config) := by
  induction fuel generalizing id l with
  | zero => exact .fail fun hacyclic => absurd hacyclic (hfuel.not_zero hlt)
  | succ fuel ih =>
      refine .get_bind ?_
      cases hfound : l.lowered.get? id with
      | some new => exact ⟨.refl hl, hfound⟩
      | none =>
          obtain ⟨⟨b, n⟩, hn⟩ : ∃ p, g.nodes[id]? = some p := ⟨_, Array.getElem?_eq_getElem hlt⟩
          have hready : Ready g config (lower g config fuel) id := by
            intro v hv hvfree l₁ hl₁
            have hrefers : TransGen g.Refers id v :=
              TransGen.mono (fun _ _ => Graph.Follows.refers) id v hv
            refine (ih (lt_of_needs hclosed hv) (hfuel.next hlt hrefers) hvfree hl₁).mono ?_
            rintro v' l' ⟨hreaches, hv'⟩
            exact ⟨hreaches.mono fun y hy => hv.trans_left hy, hv'⟩
          simp only [hn]
          refine (hready.node hn hl hclosed hfree).bind fun new l₁ hlowers => ?_
          exact ⟨hlowers.set hn hfound hfree, Table.get?_set_self ..⟩

/-- Lowering nodes one after the other lowers them and what they need. -/
theorem forM_meets (config : Config) (hclosed : g.isClosed = true) {ids : List Nat}
    (hids : ∀ id ∈ ids, id < g.nodes.size) (hl : Settled g config l) :
    Meets (ids.forM (lowerNext g config)) l
      (fun _ l' => Reaches g config (fun y => ∃ id ∈ ids, ReflTransGen (g.Follows config) id y) l l' ∧
        ∀ id ∈ ids, absorbs g config id = false → ∃ new, l'.lowered.get? id = some new)
      (Fails g config) := by
  induction ids generalizing l with
  | nil => exact .pure ⟨.refl hl, by simp⟩
  | cons id ids ih =>
      obtain ⟨hid, hids⟩ := List.forall_mem_cons.mp hids
      have hfirst : Meets (lowerNext g config id) l
          (fun _ l' => Reaches g config (ReflTransGen (g.Follows config) id) l l' ∧
            (absorbs g config id = false → ∃ new, l'.lowered.get? id = some new))
          (Fails g config) := by
        unfold lowerNext
        cases hfree : absorbs g config id with
        | true => exact ⟨.refl hl, by simp⟩
        | false =>
            refine (lower_meets hclosed hid (fueled_size g id) hfree hl).bind ?_
            rintro new l' ⟨hreaches, hnew⟩
            exact ⟨hreaches, fun _ => ⟨new, hnew⟩⟩
      refine hfirst.bind ?_
      rintro _ l₁ ⟨hreaches, hnew⟩
      refine (ih hids hreaches.settled).mono ?_
      rintro _ l' ⟨hreaches', hrest⟩
      refine ⟨?_, ?_⟩
      · refine (hreaches.mono fun y hy => ?_).trans (hreaches'.mono fun y hy => ?_)
        · exact ⟨id, List.mem_cons_self, hy⟩
        · obtain ⟨i, hi, hy⟩ := hy
          exact ⟨i, List.mem_cons_of_mem id hi, hy⟩
      · refine List.forall_mem_cons.mpr ⟨fun hfree => ?_, hrest⟩
        obtain ⟨new, hget⟩ := hnew hfree
        exact ⟨new, hreaches'.lowered hget⟩

theorem lt_of_mem_layout (h : id ∈ g.layout) : id < g.nodes.size := by
  obtain ⟨b, hb⟩ := Graph.mem_layout.mp h
  exact Graph.id_lt_of_blockOf? hb

theorem lowerAll_reaches (config : Config) (hclosed : g.isClosed = true) :
    Meets (lowerAll g config) {}
      (fun _ l => (Steps g config {} l ∧ Balanced g config {} l) ∧
        ∀ id < g.nodes.size, absorbs g config id = false → ∃ new, l.lowered.get? id = some new)
      (Fails g config) := by
  rw [lowerAll_eq]
  refine (forM_meets config hclosed (fun id => lt_of_mem_layout) settled_empty).mono ?_
  rintro _ l ⟨hreaches, hnew⟩
  refine ⟨⟨hreaches.steps, hreaches.balanced⟩, fun id hlt => hnew id ?_⟩
  rw [Graph.mem_layout, Graph.blockOf?, Array.getElem?_eq_getElem hlt]
  exact ⟨_, rfl⟩

/-- The state that lowering starts from leads by steps to one in which all nodes are lowered but for
comparisons that a branch takes over, or a node is not complete. -/
theorem lowerAll_meets (config : Config) (hclosed : g.isClosed = true) (hacyclic : g.Acyclic) :
    Meets (lowerAll g config) {}
      (fun _ l => Steps g config {} l ∧ ∀ id < g.nodes.size, absorbs g config id = false →
        ∃ new, l.lowered.get? id = some new) (Refuses g config) := by
  refine ((lowerAll_reaches config hclosed).mono ?_).imp_error fun e hfails => hfails hacyclic
  rintro _ l ⟨⟨hsteps, -⟩, hall⟩
  exact ⟨hsteps, hall⟩

/-- Without any assumption on cycles, what lowering ends with is reached by steps, balanced, and all
nodes are lowered but for comparisons that a branch takes over. -/
theorem steps_of_lowerAll (hclosed : g.isClosed = true) (h : lowerAll g config {} = .ok ((), l)) :
    (Steps g config {} l ∧ Balanced g config {} l) ∧
      ∀ id < g.nodes.size, absorbs g config id = false → ∃ new, l.lowered.get? id = some new :=
  (lowerAll_reaches config hclosed).of_ok h

end Lowering

end Isel
