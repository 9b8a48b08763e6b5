import Isel.Proofs.Completeness
import Isel.Proofs.Linearization
import Isel.Proofs.Unfolding

/-! Sharing memory contexts and bounds checks. Lowering with and without sharing goes through a graph
in the same way; where the one finds a helper node in a table, the other makes it anew. The two states
are related throughout: what a node is lowered to stands for the same tree in both, the counts of what
was done to nodes agree, and a helper node was made without sharing for each one that was made or found
with it. -/

namespace Isel

/-- One configuration shares helper nodes, the other does not, and lowering sees no other difference. -/
structure Config.Differ (c c' : Config) : Prop where
  on : c.shareMemoryChecks = true
  off : c'.shareMemoryChecks = false
  fuse : c'.fuseBranches = c.fuseBranches
  bools : c'.eliminateReturnBools = c.eliminateReturnBools

/-- The configuration with sharing turned on or off. -/
def Config.sharing (config : Config) (on : Bool) : Config := { config with shareMemoryChecks := on }

theorem Config.sharing_differ (config : Config) : (config.sharing true).Differ (config.sharing false) :=
  ⟨rfl, rfl, rfl, rfl⟩

theorem Extends.push (nodes : Array Placed) (p : Placed) : Extends nodes (nodes.push p) :=
  fun _ _ => Lowering.getElem?_push_of_some

namespace Lowering

open Select

variable {l l₁ l' k k₁ k' : Lowering} {i j b : Nat}

/-- A node of the one state stands for the same tree as a node of the other. -/
def Same (l k : Lowering) (i j : Nat) : Prop := ∃ e, Unfolds l.nodes i e ∧ Unfolds k.nodes j e

/-- What nodes wait for is the same in both states. -/
def SameControl (l k : Lowering) (c d : Control) : Prop :=
  ∃ x, UnfoldsControl l.nodes c x ∧ UnfoldsControl k.nodes d x

/-- The states of lowering with sharing and without it, at the same point. -/
structure Alike (l k : Lowering) : Prop where
  shared : Shared l
  lowered : ∀ id, Option.Rel (Same l k) (l.lowered.get? id) (k.lowered.get? id)
  retargeted : k.stats.retargeted = l.stats.retargeted
  fused : k.stats.fused = l.stats.fused
  eliminated : k.stats.eliminated = l.stats.eliminated
  inserted : k.stats.inserted = l.stats.inserted + l.stats.shared
  none : k.stats.shared = 0

/-- Later states have the same nodes and more. -/
structure Grown (l k l' k' : Lowering) : Prop where
  left : Extends l.nodes l'.nodes
  right : Extends k.nodes k'.nodes

theorem Grown.refl (l k : Lowering) : Grown l k l k := ⟨.refl _, .refl _⟩

theorem Grown.trans (h : Grown l k l₁ k₁) (h' : Grown l₁ k₁ l' k') : Grown l k l' k' :=
  ⟨h.left.trans h'.left, h.right.trans h'.right⟩

theorem Same.mono (h : Same l k i j) (hgrown : Grown l k l' k') : Same l' k' i j := by
  obtain ⟨e, hi, hj⟩ := h
  exact ⟨e, hi.mono hgrown.left, hj.mono hgrown.right⟩

theorem SameControl.mono {c d : Control} (h : SameControl l k c d) (hgrown : Grown l k l' k') :
    SameControl l' k' c d := by
  obtain ⟨x, hc, hd⟩ := h
  exact ⟨x, hc.mono hgrown.left, hd.mono hgrown.right⟩

/-- Trees of related lists. -/
theorem exists_trees {α β γ : Type} {P : α → γ → Prop} {Q : β → γ → Prop} {xs : List α} {ys : List β}
    (h : List.Forall₂ (fun x y => ∃ z, P x z ∧ Q y z) xs ys) :
    ∃ zs, List.Forall₂ P xs zs ∧ List.Forall₂ Q ys zs := by
  induction h with
  | nil => exact ⟨[], .nil, .nil⟩
  | cons hxy _ ih =>
      obtain ⟨z, hx, hy⟩ := hxy
      obtain ⟨zs, hxs, hys⟩ := ih
      exact ⟨z :: zs, .cons hx hxs, .cons hy hys⟩

theorem rel_map {α α' β β' : Type} {R : α → β → Prop} {S : α' → β' → Prop} {f : α → α'} {g : β → β'}
    {x : Option α} {y : Option β} (h : Option.Rel R x y) (hf : ∀ a b, R a b → S (f a) (g b)) :
    Option.Rel S (x.map f) (y.map g) := by
  cases h with
  | some hab => exact .some (hf _ _ hab)
  | none => exact .none

/-- Nodes with the same operator, block and literals and with the same references stand for the same. -/
theorem Same.of_nodes {n m : Node} (hi : l.nodes[i]? = some ⟨b, n⟩) (hj : k.nodes[j]? = some ⟨b, m⟩)
    (hop : m.op = n.op) (hliterals : m.literals = n.literals)
    (hcontrol : List.Forall₂ (SameControl l k) n.control m.control)
    (hinputs : List.Forall₂ (Same l k) n.inputs m.inputs) : Same l k i j := by
  obtain ⟨control, hn, hm⟩ := exists_trees hcontrol
  obtain ⟨inputs, hn', hm'⟩ := exists_trees hinputs
  refine ⟨.node n.op b n.literals control inputs, .of_node hi hn hn', ?_⟩
  rw [← hop, ← hliterals]
  exact .of_node hj hm hm'

/-- A change that leaves the tables of nodes as they are, and counts alike. -/
theorem Alike.of_grown (h : Alike l k) (hgrown : Grown l k l' k') (hl : l'.lowered = l.lowered)
    (hk : k'.lowered = k.lowered) (hshared : Shared l')
    (hretargeted : k'.stats.retargeted = l'.stats.retargeted) (hfused : k'.stats.fused = l'.stats.fused)
    (heliminated : k'.stats.eliminated = l'.stats.eliminated)
    (hinserted : k'.stats.inserted = l'.stats.inserted + l'.stats.shared)
    (hnone : k'.stats.shared = 0) : Alike l' k' where
  shared := hshared
  lowered v := by
    rw [hl, hk]
    simpa using rel_map (f := id) (g := id) (h.lowered v) fun _ _ hsame => hsame.mono hgrown
  retargeted := hretargeted
  fused := hfused
  eliminated := heliminated
  inserted := hinserted
  none := hnone

/-! ### Computations side by side -/

/-- Two computations give related results in related states, or both fail in the same way. -/
inductive Agree {α β : Type} (R : Lowering → Lowering → α → β → Prop) (l k : Lowering) :
    Except Failure (α × Lowering) → Except Failure (β × Lowering) → Prop
  | ok {a : α} {b : β} {l' k' : Lowering} (grown : Grown l k l' k') (alike : Alike l' k')
      (value : R l' k' a b) : Agree R l k (.ok (a, l')) (.ok (b, k'))
  | error (e : Failure) : Agree R l k (.error e) (.error e)

namespace Agree

variable {α β γ δ : Type} {R : Lowering → Lowering → α → β → Prop}
  {S : Lowering → Lowering → γ → δ → Prop}

theorem bind {x : Select α} {y : Select β} {f : α → Select γ} {f' : β → Select δ}
    (h : Agree R l k (x l) (y k))
    (hf : ∀ l₁ k₁ a b, Grown l k l₁ k₁ → Alike l₁ k₁ → R l₁ k₁ a b → Agree S l₁ k₁ (f a l₁) (f' b k₁)) :
    Agree S l k ((x >>= f) l) ((y >>= f') k) := by
  change Agree S l k (x l >>= fun p => f p.1 p.2) (y k >>= fun p => f' p.1 p.2)
  generalize x l = x' at h
  generalize y k = y' at h
  cases h with
  | error e => exact .error e
  | @ok a b l₁ k₁ hgrown halike hvalue =>
      have hrest := hf l₁ k₁ a b hgrown halike hvalue
      change Agree S l k (f a l₁) (f' b k₁)
      generalize f a l₁ = u at hrest
      generalize f' b k₁ = v at hrest
      cases hrest with
      | error e => exact .error e
      | ok hgrown' halike' hvalue' => exact .ok (hgrown.trans hgrown') halike' hvalue'

theorem pure {a : α} {b : β} (h : Alike l k) (hvalue : R l k a b) :
    Agree R l k ((Pure.pure a : Select α) l) ((Pure.pure b : Select β) k) := .ok (.refl l k) h hvalue

end Agree

/-! ### Steps that both take -/

/-- Both record a node that stands for the same. -/
theorem Alike.add (h : Alike l k) {n m : Node} (hop : m.op = n.op) (hliterals : m.literals = n.literals)
    (hcontrol : List.Forall₂ (SameControl l k) n.control m.control)
    (hinputs : List.Forall₂ (Same l k) n.inputs m.inputs) :
    Agree Same l k (add b n l) (add b m k) := by
  have hgrown : Grown l k { l with nodes := l.nodes.push ⟨b, n⟩ }
      { k with nodes := k.nodes.push ⟨b, m⟩ } := ⟨.push .., .push ..⟩
  have hkeeps : Keeps l { l with nodes := l.nodes.push ⟨b, n⟩ } := ⟨id, getElem?_push_of_some⟩
  refine .ok hgrown (h.of_grown hgrown rfl rfl (h.shared.of_keeps hkeeps rfl rfl) h.retargeted h.fused
    h.eliminated h.inserted h.none) ?_
  refine .of_nodes (b := b) (n := n) (m := m) (by simp) (by simp) hop hliterals ?_ ?_
  · exact hcontrol.imp fun _ _ hc => hc.mono hgrown
  · exact hinputs.imp fun _ _ hv => hv.mono hgrown

/-- Both change what they have counted. -/
theorem Alike.count (h : Alike l k) {f : Stats → Stats}
    (hretargeted : (f k.stats).retargeted = (f l.stats).retargeted)
    (hfused : (f k.stats).fused = (f l.stats).fused)
    (heliminated : (f k.stats).eliminated = (f l.stats).eliminated)
    (hinserted : (f k.stats).inserted = (f l.stats).inserted + (f l.stats).shared)
    (hnone : (f k.stats).shared = 0) :
    Agree (fun _ _ _ _ => True) l k (Select.count f l) (Select.count f k) := by
  have hgrown : Grown l k { l with stats := f l.stats } { k with stats := f k.stats } :=
    ⟨.refl _, .refl _⟩
  have hkeeps : Keeps l { l with stats := f l.stats } := ⟨id, id⟩
  exact .ok hgrown (h.of_grown hgrown rfl rfl (h.shared.of_keeps hkeeps rfl rfl) hretargeted hfused
    heliminated hinserted hnone) trivial

theorem Alike.countRetargeted (h : Alike l k) :
    Agree (fun _ _ _ _ => True) l k (Select.countRetargeted l) (Select.countRetargeted k) :=
  h.count (congrArg (· + 1) h.retargeted) h.fused h.eliminated h.inserted h.none

theorem Alike.countFused (h : Alike l k) :
    Agree (fun _ _ _ _ => True) l k (Select.countFused l) (Select.countFused k) :=
  h.count h.retargeted (congrArg (· + 1) h.fused) h.eliminated h.inserted h.none

theorem Alike.countEliminated (h : Alike l k) :
    Agree (fun _ _ _ _ => True) l k (Select.countEliminated l) (Select.countEliminated k) :=
  h.count h.retargeted h.fused (congrArg (· + 1) h.eliminated) h.inserted h.none

/-- Both make a helper node that stands for the same. -/
theorem Alike.insert (h : Alike l k) {n m : Node} (hop : m.op = n.op)
    (hliterals : m.literals = n.literals)
    (hcontrol : List.Forall₂ (SameControl l k) n.control m.control)
    (hinputs : List.Forall₂ (Same l k) n.inputs m.inputs) :
    Agree Same l k (Select.insert b n l) (Select.insert b m k) := by
  refine .bind (h.count h.retargeted h.fused h.eliminated ?_ h.none) fun l₁ k₁ _ _ hgrown halike _ => ?_
  · have hinserted := h.inserted
    dsimp only
    omega
  · refine halike.add hop hliterals ?_ ?_
    · exact hcontrol.imp fun _ _ hc => hc.mono hgrown
    · exact hinputs.imp fun _ _ hv => hv.mono hgrown

/-! ### Helper nodes that one finds and the other makes -/

/-- Memory contexts in the two states: the nodes that read start and size of linear memory. -/
structure Contexts (b s t : Nat) (l k : Lowering) (c d : MemoryContext) : Prop where
  left : l.nodes[c.space]? = some ⟨b, spaceNode s⟩ ∧ l.nodes[c.size]? = some ⟨b, sizeNode s⟩
  right : k.nodes[d.space]? = some ⟨b, spaceNode t⟩ ∧ k.nodes[d.size]? = some ⟨b, sizeNode t⟩

theorem memoryContext_isOk (config : Config) (b state : Nat) (l : Lowering) :
    ∃ context l', memoryContext config b state l = .ok (context, l') := by
  rw [memoryContext, get_bind]
  cases (l.contexts.get? (b, state)).filter fun _ => config.shareMemoryChecks with
  | some context => exact ⟨_, _, rfl⟩
  | none => cases config.shareMemoryChecks <;> exact ⟨_, _, rfl⟩

theorem checkedAddress_isOk (config : Config) (key : CheckKey) (size : Nat) (l : Lowering) :
    ∃ checked l', checkedAddress config key size l = .ok (checked, l') := by
  rw [checkedAddress, get_bind]
  cases (l.checks.get? key).filter fun _ => config.shareMemoryChecks with
  | some checked => exact ⟨_, _, rfl⟩
  | none => cases config.shareMemoryChecks <;> exact ⟨_, _, rfl⟩

theorem extends_inserted (l : Lowering) (b : Nat) (n : Node) : Extends l.nodes (l.inserted b n).nodes :=
  .push ..

/-- The two nodes of a new memory context. -/
theorem getElem?_context (l : Lowering) (b s : Nat) :
    ((l.inserted b (spaceNode s)).inserted b (sizeNode s)).nodes[l.nodes.size]? = some ⟨b, spaceNode s⟩ ∧
    ((l.inserted b (spaceNode s)).inserted b (sizeNode s)).nodes[l.nodes.size + 1]?
      = some ⟨b, sizeNode s⟩ := by
  have hsize : (l.inserted b (spaceNode s)).nodes.size = l.nodes.size + 1 := Array.size_push ..
  refine ⟨extends_inserted _ _ _ (getElem?_inserted l b (spaceNode s)), ?_⟩
  rw [← hsize]
  exact getElem?_inserted _ b (sizeNode s)

variable {c c' : Config} {s t : Nat}

theorem Alike.memoryContext (h : Alike l k) (hc : c.Differ c') :
    Agree (Contexts b s t) l k (memoryContext c b s l) (memoryContext c' b t k) := by
  obtain ⟨context, l', hl⟩ := memoryContext_isOk c b s l
  obtain ⟨context', k', hk⟩ := memoryContext_isOk c' b t k
  rw [hl, hk]
  have hinserted := h.inserted
  obtain ⟨rfl, rfl⟩ : context' = ⟨k.nodes.size, k.nodes.size + 1⟩ ∧
      k' = (k.inserted b (spaceNode t)).inserted b (sizeNode t) := by
    rcases memoryContext_ok hk with ⟨hon, -⟩ | ⟨hcontext, hk'⟩
    · exact absurd (hon.symm.trans hc.off) (by simp)
    · exact ⟨hcontext, by simpa only [withContext, hc.off, Bool.false_eq_true, if_false] using hk'⟩
  have hright : Extends k.nodes ((k.inserted b (spaceNode t)).inserted b (sizeNode t)).nodes :=
    (extends_inserted ..).trans (extends_inserted ..)
  rcases memoryContext_ok hl with ⟨-, hfound, rfl⟩ | ⟨rfl, rfl⟩
  · -- found in the table; made anew on the other side
    have hgrown : Grown l k { l with stats := { l.stats with shared := l.stats.shared + 2 } } _ :=
      ⟨.refl _, hright⟩
    refine .ok hgrown (h.of_grown hgrown rfl rfl ⟨h.shared.contexts, h.shared.checks⟩ h.retargeted
      h.fused h.eliminated ?_ h.none) ⟨h.shared.contexts b s context hfound, getElem?_context k b t⟩
    simp only [Lowering.inserted]
    omega
  · simp only [withContext, hc.on, if_true]
    have hleft : Extends l.nodes ((l.inserted b (spaceNode s)).inserted b (sizeNode s)).nodes :=
      (extends_inserted ..).trans (extends_inserted ..)
    have hkeeps : Keeps l ((l.inserted b (spaceNode s)).inserted b (sizeNode s)) :=
      ⟨id, fun hi => hleft hi⟩
    obtain ⟨hspace, hsize⟩ := getElem?_context l b s
    have hshared := (h.shared.of_keeps hkeeps rfl rfl).setContext hspace hsize
    refine .ok ⟨hleft, hright⟩ (h.of_grown ⟨hleft, hright⟩ rfl rfl hshared h.retargeted h.fused
      h.eliminated ?_ h.none) ⟨⟨hspace, hsize⟩, getElem?_context k b t⟩
    simp only [Lowering.inserted]
    omega

theorem Same.size (h : Same l k s t) (hi : l.nodes[i]? = some ⟨b, sizeNode s⟩)
    (hj : k.nodes[j]? = some ⟨b, sizeNode t⟩) : Same l k i j :=
  .of_nodes hi hj rfl rfl .nil (.cons h .nil)

theorem Same.space (h : Same l k s t) (hi : l.nodes[i]? = some ⟨b, spaceNode s⟩)
    (hj : k.nodes[j]? = some ⟨b, spaceNode t⟩) : Same l k i j :=
  .of_nodes hi hj rfl rfl .nil (.cons h .nil)

theorem Alike.checkedAddress (h : Alike l k) (hc : c.Differ c') {address address' bytes size size' : Nat}
    (hstate : Same l k s t) (haddress : Same l k address address')
    (hsize : l.nodes[size]? = some ⟨b, sizeNode s⟩) (hsize' : k.nodes[size']? = some ⟨b, sizeNode t⟩) :
    Agree Same l k (checkedAddress c ⟨b, s, address, bytes⟩ size l)
      (checkedAddress c' ⟨b, t, address', bytes⟩ size' k) := by
  obtain ⟨checked, l', hl⟩ := checkedAddress_isOk c ⟨b, s, address, bytes⟩ size l
  obtain ⟨checked', k', hk⟩ := checkedAddress_isOk c' ⟨b, t, address', bytes⟩ size' k
  rw [hl, hk]
  have hinserted := h.inserted
  obtain ⟨rfl, rfl⟩ : checked' = k.nodes.size ∧
      k' = k.inserted b (checkNode ⟨b, t, address', bytes⟩ size') := by
    rcases checkedAddress_ok hk with ⟨hon, -⟩ | ⟨hchecked, hk'⟩
    · exact absurd (hon.symm.trans hc.off) (by simp)
    · exact ⟨hchecked, by simpa only [withCheck, hc.off, Bool.false_eq_true, if_false] using hk'⟩
  -- whichever node is found or made, it checks the same address against the same size
  have hsame {l' k' : Lowering} {i j z z' : Nat} (hgrown : Grown l k l' k')
      (hi : l'.nodes[i]? = some ⟨b, checkNode ⟨b, s, address, bytes⟩ z⟩)
      (hj : k'.nodes[j]? = some ⟨b, checkNode ⟨b, t, address', bytes⟩ z'⟩)
      (hz : l'.nodes[z]? = some ⟨b, sizeNode s⟩) (hz' : k'.nodes[z']? = some ⟨b, sizeNode t⟩) :
      Same l' k' i j :=
    .of_nodes hi hj rfl rfl .nil (.cons (hstate.mono hgrown) (.cons (haddress.mono hgrown)
      (.cons ((hstate.mono hgrown).size hz hz') .nil)))
  have hnode := getElem?_inserted k b (checkNode ⟨b, t, address', bytes⟩ size')
  have hright := extends_inserted k b (checkNode ⟨b, t, address', bytes⟩ size')
  rcases checkedAddress_ok hl with ⟨-, hfound, rfl⟩ | ⟨rfl, rfl⟩
  · have hgrown : Grown l k { l with stats := { l.stats with shared := l.stats.shared + 1 } } _ :=
      ⟨.refl _, hright⟩
    obtain ⟨z, hz, hchecked⟩ := h.shared.checks _ checked hfound
    refine .ok hgrown (h.of_grown hgrown rfl rfl ⟨h.shared.contexts, h.shared.checks⟩ h.retargeted
      h.fused h.eliminated ?_ h.none) (hsame hgrown hchecked hnode hz (hright hsize'))
    simp only [Lowering.inserted]
    omega
  · simp only [withCheck, hc.on, if_true]
    have hleft := extends_inserted l b (checkNode ⟨b, s, address, bytes⟩ size)
    have hkeeps : Keeps l (l.inserted b (checkNode ⟨b, s, address, bytes⟩ size)) :=
      ⟨id, fun hi => hleft hi⟩
    have hmade := getElem?_inserted l b (checkNode ⟨b, s, address, bytes⟩ size)
    have hshared :=
      (h.shared.of_keeps hkeeps rfl rfl).setCheck ⟨b, s, address, bytes⟩ (hleft hsize) hmade
    refine .ok ⟨hleft, hright⟩ (h.of_grown ⟨hleft, hright⟩ rfl rfl hshared h.retargeted h.fused
      h.eliminated ?_ h.none) (hsame ⟨hleft, hright⟩ hmade hnode (hleft hsize) (hright hsize'))
    simp only [Lowering.inserted]
    omega

/-! ### Nodes -/

/-- Two ways of lowering what a node refers to agree wherever they start. -/
def AgreeOn (recur recur' : Nat → Select Nat) : Prop :=
  ∀ v l k, Alike l k → Agree Same l k (recur v l) (recur' v k)

section

variable {recur recur' : Nat → Select Nat} {id : Nat} {n : Node}

theorem Alike.input (h : Alike l k) (hrecur : AgreeOn recur recur') (index : Nat) :
    Agree Same l k (Select.input recur id n index l) (Select.input recur' id n index k) := by
  unfold Select.input
  cases n.inputs[index]? with
  | some v => exact hrecur v l k h
  | none => exact .error _

theorem Alike.inputs (h : Alike l k) (hrecur : AgreeOn recur recur') (vs : List Nat) :
    Agree (fun l k => List.Forall₂ (Same l k)) l k (vs.mapM recur l) (vs.mapM recur' k) := by
  induction vs generalizing l k with
  | nil => exact .pure h .nil
  | cons v vs ih =>
      rw [List.mapM_cons, List.mapM_cons]
      refine .bind (hrecur v l k h) fun l₁ k₁ a b _ h₁ hab => ?_
      refine .bind (ih h₁) fun l₂ k₂ as bs hgrown h₂ habs => ?_
      exact .pure h₂ (.cons (hab.mono hgrown) habs)

theorem Alike.control (h : Alike l k) (hrecur : AgreeOn recur recur') (cs : List Control) :
    Agree (fun l k => List.Forall₂ (SameControl l k)) l k (cs.mapM (Select.control recur) l)
      (cs.mapM (Select.control recur') k) := by
  induction cs generalizing l k with
  | nil => exact .pure h .nil
  | cons c cs ih =>
      have hfirst : Agree SameControl l k (Select.control recur c l) (Select.control recur' c k) := by
        cases c with
        | block b => exact .pure h ⟨.inl b, ⟨0, rfl⟩, ⟨0, rfl⟩⟩
        | node v =>
            refine .bind (hrecur v l k h) fun l₁ k₁ i j _ h₁ hij => .pure h₁ ?_
            obtain ⟨e, ⟨fuel, hi⟩, ⟨fuel', hj⟩⟩ := hij
            exact ⟨.inr e, ⟨fuel, by simp [unfoldControl, hi]⟩, ⟨fuel', by simp [unfoldControl, hj]⟩⟩
      rw [List.mapM_cons, List.mapM_cons]
      refine .bind hfirst fun l₁ k₁ a b _ h₁ hab => ?_
      refine .bind (ih h₁) fun l₂ k₂ as bs hgrown h₂ habs => ?_
      exact .pure h₂ (.cons (hab.mono hgrown) habs)

variable (h : Alike l k) (hrecur : AgreeOn recur recur')

include h hrecur

theorem Alike.copy (op : Operator) :
    Agree Same l k (Select.copy recur b n op l) (Select.copy recur' b n op k) := by
  refine .bind (h.control hrecur n.control) fun l₁ k₁ cs ds _ h₁ hcontrol => ?_
  refine .bind (h₁.inputs hrecur n.inputs) fun l₂ k₂ vs ws hgrown h₂ hinputs => ?_
  exact h₂.add rfl rfl (hcontrol.imp fun _ _ hc => hc.mono hgrown) hinputs

theorem Alike.retarget (op : Target) :
    Agree Same l k (Select.retarget recur b n op l) (Select.retarget recur' b n op k) :=
  .bind h.countRetargeted fun _ _ _ _ _ h₁ _ => h₁.copy hrecur _

theorem Alike.eliminate :
    Agree Same l k (Select.eliminate recur id n l) (Select.eliminate recur' id n k) :=
  .bind h.countEliminated fun _ _ _ _ _ h₁ _ => h₁.input hrecur 0

theorem Alike.widen (c : Comparison) (index : Nat) :
    Agree Same l k (Select.widen recur b id n c index l) (Select.widen recur' b id n c index k) :=
  .bind (h.input hrecur index) fun _ _ _ _ _ h₁ hv => h₁.insert rfl rfl .nil (.cons hv .nil)

theorem Alike.compared (w : IntWidth) (c : Comparison) :
    Agree (fun l k => List.Forall₂ (Same l k)) l k (Select.compared recur b id n w c l)
      (Select.compared recur' b id n w c k) := by
  cases w with
  | w64 =>
      refine .bind (h.input hrecur 0) fun l₁ k₁ x y _ h₁ hx => ?_
      refine .bind (h₁.input hrecur 1) fun l₂ k₂ x' y' hgrown h₂ hx' => ?_
      exact .pure h₂ (.cons (hx.mono hgrown) (.cons hx' .nil))
  | w32 =>
      refine .bind (h.widen hrecur c 0) fun l₁ k₁ x y _ h₁ hx => ?_
      refine .bind (h₁.widen hrecur c 1) fun l₂ k₂ x' y' hgrown h₂ hx' => ?_
      exact .pure h₂ (.cons (hx.mono hgrown) (.cons hx' .nil))

theorem Alike.access (hc : c.Differ c') {op : Target} {bytes address address' : Nat}
    {value value' : List Nat} (hstate : Same l k s t) (haddress : Same l k address address')
    (hvalue : List.Forall₂ (Same l k) value value') :
    Agree Same l k (Select.access recur c b n op bytes s address value l)
      (Select.access recur' c' b n op bytes t address' value' k) := by
  refine .bind (h.memoryContext hc) fun l₁ k₁ x y hgrown₁ h₁ hcontexts => ?_
  have hstate₁ := hstate.mono hgrown₁
  refine .bind (h₁.checkedAddress hc hstate₁ (haddress.mono hgrown₁) hcontexts.left.2 hcontexts.right.2)
    fun l₂ k₂ checked checked' hgrown₂ h₂ hchecked => ?_
  refine .bind (h₂.control hrecur n.control) fun l₃ k₃ cs ds hgrown₃ h₃ hcontrol => ?_
  refine .bind h₃.countRetargeted fun l₄ k₄ _ _ hgrown₄ h₄ _ => ?_
  have hafter := hgrown₂.trans (hgrown₃.trans hgrown₄)
  have hspace := (hstate₁.space hcontexts.left.1 hcontexts.right.1).mono hafter
  refine h₄.add rfl rfl (hcontrol.imp fun _ _ hc => hc.mono hgrown₄) ?_
  refine .cons (hstate₁.mono hafter) (.cons hspace (.cons (hchecked.mono (hgrown₃.trans hgrown₄)) ?_))
  exact hvalue.imp fun _ _ hv => hv.mono (hgrown₁.trans hafter)

theorem Alike.load (hc : c.Differ c') (op : Load) :
    Agree Same l k (Select.load recur c b id n op l) (Select.load recur' c' b id n op k) := by
  refine .bind (h.input hrecur 0) fun l₁ k₁ state state' _ h₁ hstate => ?_
  refine .bind (h₁.input hrecur 1) fun l₂ k₂ address address' hgrown h₂ haddress => ?_
  exact h₂.access hrecur hc (hstate.mono hgrown) haddress .nil

theorem Alike.store (hc : c.Differ c') (op : Store) :
    Agree Same l k (Select.store recur c b id n op l) (Select.store recur' c' b id n op k) := by
  refine .bind (h.input hrecur 0) fun l₁ k₁ state state' _ h₁ hstate => ?_
  refine .bind (h₁.input hrecur 1) fun l₂ k₂ address address' hgrown h₂ haddress => ?_
  refine .bind (h₂.input hrecur 2) fun l₃ k₃ value value' hgrown' h₃ hvalue => ?_
  exact h₃.access hrecur hc (hstate.mono (hgrown.trans hgrown')) (haddress.mono hgrown')
    (.cons hvalue .nil)

theorem Alike.copysign (w : FloatWidth) :
    Agree Same l k (Select.copysign recur b id n w l) (Select.copysign recur' b id n w k) := by
  refine .bind (h.input hrecur 0) fun l₁ k₁ x y _ h₁ hx => ?_
  refine .bind (h₁.input hrecur 1) fun l₂ k₂ x' y' hgrown h₂ hx' => ?_
  refine .bind (h₂.insert rfl rfl .nil (.cons (hx.mono hgrown) .nil)) fun l₃ k₃ u v hgrown' h₃ huv => ?_
  exact h₃.add rfl rfl .nil (.cons huv (.cons (hx'.mono hgrown') .nil))

theorem Alike.fusedBranch {predicate : Nat} {p : Node} {w : IntWidth} {x : Comparison}
    {cs ds : List Control} (hcontrol : List.Forall₂ (SameControl l k) cs ds) :
    Agree Same l k (fusedBranch recur b predicate p w x cs l)
      (fusedBranch recur' b predicate p w x ds k) := by
  refine .bind (h.compared hrecur w x) fun l₁ k₁ vs ws hgrown h₁ hinputs => ?_
  refine .bind h₁.countFused fun l₂ k₂ _ _ hgrown' h₂ _ => h₂.add rfl rfl ?_ ?_
  · exact hcontrol.imp fun _ _ hc => hc.mono (hgrown.trans hgrown')
  · exact hinputs.imp fun _ _ hv => hv.mono hgrown'

theorem Alike.plainBranch {predicate : Nat} {p : Node} {cs ds : List Control}
    (hcontrol : List.Forall₂ (SameControl l k) cs ds) :
    Agree Same l k (plainBranch recur b predicate p cs l) (plainBranch recur' b predicate p ds k) := by
  refine .bind (hrecur predicate l k h) fun l₁ k₁ v w hgrown h₁ hv => ?_
  have hcontrol' := hcontrol.imp fun _ _ hc => hc.mono hgrown
  split
  · refine .bind (h₁.insert rfl rfl .nil (.cons hv .nil)) fun l₂ k₂ v' w' hgrown' h₂ hv' => ?_
    exact h₂.add rfl rfl (hcontrol'.imp fun _ _ hc => hc.mono hgrown') (.cons hv' .nil)
  · exact h₁.add rfl rfl hcontrol' (.cons hv .nil)

theorem Alike.branch {g : Graph} (hc : c.Differ c') :
    Agree Same l k (Select.branch recur g c b id n l) (Select.branch recur' g c' b id n k) := by
  have hfuse (predicate : Nat) : (c'.fuseBranches && g.isFusable predicate)
      = (c.fuseBranches && g.isFusable predicate) := by rw [hc.fuse]
  cases hhead : n.inputs.head? with
  | none =>
      rw [Select.branch, Select.branch, hhead]
      exact .error _
  | some predicate =>
      cases hp : g.node? predicate with
      | none =>
          rw [branch_dangling hhead hp, branch_dangling hhead hp]
          exact .bind (h.control hrecur n.control) fun _ _ _ _ _ _ _ => .error _
      | some p =>
          cases hfused : c.fuseBranches && g.isFusable predicate with
          | true =>
              obtain ⟨w, x, hop⟩ := Graph.op_of_isFusable (Bool.and_eq_true_iff.mp hfused).2
              rw [Graph.op?, hp] at hop
              replace hop : p.op = .compare w x := Option.some.inj hop
              rw [branch_fused hhead hp hop hfused,
                branch_fused hhead hp hop ((hfuse predicate).trans hfused)]
              exact .bind (h.control hrecur n.control) fun _ _ _ _ _ h₁ hcontrol =>
                h₁.fusedBranch hrecur hcontrol
          | false =>
              rw [branch_plain hhead hp hfused, branch_plain hhead hp ((hfuse predicate).trans hfused)]
              exact .bind (h.control hrecur n.control) fun _ _ _ _ _ h₁ hcontrol =>
                h₁.plainBranch hrecur hcontrol

theorem Alike.node {g : Graph} (hc : c.Differ c') :
    Agree Same l k (Select.node recur g c b id n l) (Select.node recur' g c' b id n k) := by
  unfold Select.node
  rw [hc.bools]
  cases n.op with
  | wrap => exact h.eliminate hrecur
  | address w =>
      cases w with
      | w32 => exact h.retarget hrecur _
      | w64 => exact h.eliminate hrecur
  | bool ty =>
      rcases ty with (_ | _) | _
      · exact h.copy hrecur _
      · dsimp only
        split
        · exact h.eliminate hrecur
        · exact h.copy hrecur _
      · exact h.copy hrecur _
  | extend signed => exact h.retarget hrecur _
  | intBinary w op =>
      cases w with
      | w32 => exact h.copy hrecur _
      | w64 =>
          dsimp only
          cases op.fused? with
          | some op => exact h.retarget hrecur _
          | none => exact h.copy hrecur _
  | floatBinary w op =>
      cases op with
      | copysign => exact h.copysign hrecur w
      | arith op => exact h.copy hrecur _
  | compare w x =>
      cases w with
      | w32 =>
          refine .bind (h.compared hrecur .w32 x) fun l₁ k₁ vs ws _ h₁ hinputs => ?_
          refine .bind h₁.countRetargeted fun l₂ k₂ _ _ hgrown h₂ _ => ?_
          exact h₂.add rfl rfl .nil (hinputs.imp fun _ _ hv => hv.mono hgrown)
      | w64 => exact h.copy hrecur _
  | branch => exact h.branch hrecur hc
  | typedRet ty => exact h.retarget hrecur _
  | load op => exact h.load hrecur hc op
  | store op => exact h.store hrecur hc op
  | convert x => exact .error _
  | _ => exact h.copy hrecur _

end

/-! ### The whole graph -/

theorem alike_empty : Alike {} {} where
  shared := shared_empty
  lowered _ := .none
  retargeted := rfl
  fused := rfl
  eliminated := rfl
  inserted := rfl
  none := rfl

theorem Alike.setLowered (h : Alike l k) (id : Nat) (hsame : Same l k i j) :
    Alike { l with lowered := l.lowered.set id i } { k with lowered := k.lowered.set id j } where
  shared := ⟨h.shared.contexts, h.shared.checks⟩
  lowered id' := by
    dsimp only
    rw [Table.get?_set, Table.get?_set]
    by_cases hid : id' = id
    · rw [if_pos hid, if_pos hid]
      exact .some hsame
    · rw [if_neg hid, if_neg hid]
      exact h.lowered id'
  retargeted := h.retargeted
  fused := h.fused
  eliminated := h.eliminated
  inserted := h.inserted
  none := h.none

theorem agreeOn_lower (g : Graph) (hc : c.Differ c') (fuel : Nat) :
    AgreeOn (lower g c fuel) (lower g c' fuel) := by
  induction fuel with
  | zero => exact fun _ _ _ _ => .error _
  | succ fuel ih =>
      intro id l k h
      rw [lower, lower, get_bind, get_bind]
      have hrel := h.lowered id
      revert hrel
      generalize l.lowered.get? id = x
      generalize k.lowered.get? id = y
      rintro (hsame | _)
      · exact .pure h hsame
      · cases g.nodes[id]? with
        | none => exact .error _
        | some p =>
            refine .bind (h.node ih hc) fun l₁ k₁ i j _ h₁ hij => ?_
            exact .ok ⟨.refl _, .refl _⟩ (h₁.setLowered id hij) hij

theorem agree_forM (g : Graph) (hc : c.Differ c') (ids : List Nat) (h : Alike l k) :
    Agree (fun _ _ _ _ => True) l k (ids.forM (lowerNext g c) l) (ids.forM (lowerNext g c') k) := by
  induction ids generalizing l k with
  | nil => exact .pure h trivial
  | cons id ids ih =>
      refine .bind (R := fun _ _ _ _ => True) ?_ fun l₁ k₁ _ _ _ h₁ _ => ih h₁
      unfold lowerNext absorbs
      rw [hc.fuse]
      split
      · exact .pure h trivial
      · exact .bind (agreeOn_lower g hc g.nodes.size id l k h) fun _ _ _ _ _ h₁ _ => .pure h₁ trivial

end Lowering

/-- Where selection puts what a node is lowered to. -/
def selectedNode? (g : Graph) (config : Config) (id : Nat) : Option Nat :=
  match Select.lowerAll g config {} with
  | .ok (_, l) => (l.lowered.get? id).map (Schedule.place g.blocks l.nodes)
  | .error _ => none

theorem select_of_not_closed {g : Graph} (config : Config) (h : g.isClosed = false) :
    select g config = .error .dangling := by
  unfold select
  rw [h]
  rfl

theorem select_of_error {g : Graph} {config : Config} {e : Failure} (hclosed : g.isClosed = true)
    (h : Select.lowerAll g config {} = .error e) : select g config = .error e := by
  unfold select
  rw [hclosed]
  change (Select.lowerAll g config {} >>= _) = _
  rw [h]
  rfl

open Lowering in
/-- Sharing merges helper nodes that stand for the same, and does nothing else. -/
theorem select_sharing {g : Graph} (hacyclic : g.Acyclic) (config : Config) :
    ((∃ r, select g (config.sharing true) = .ok r) ↔ ∃ r, select g (config.sharing false) = .ok r) ∧
    ∀ g₁ g₂ s₁ s₂, select g (config.sharing true) = .ok (g₁, s₁) →
      select g (config.sharing false) = .ok (g₂, s₂) →
      (∀ id, Option.Rel (fun i j => ∃ e, Unfolds g₁.nodes i e ∧ Unfolds g₂.nodes j e)
        (selectedNode? g (config.sharing true) id) (selectedNode? g (config.sharing false) id)) ∧
      s₂.retargeted = s₁.retargeted ∧ s₂.fused = s₁.fused ∧ s₂.eliminated = s₁.eliminated ∧
      s₂.inserted = s₁.inserted + s₁.shared ∧ s₂.shared = 0 := by
  have hc := config.sharing_differ
  generalize config.sharing true = c at hc ⊢
  generalize config.sharing false = c' at hc ⊢
  cases hclosed : g.isClosed with
  | false =>
      rw [select_of_not_closed c hclosed, select_of_not_closed c' hclosed]
      simp
  | true =>
      have hagree := agree_forM g hc g.layout alike_empty
      rw [← Select.lowerAll_eq, ← Select.lowerAll_eq] at hagree
      generalize hl : Select.lowerAll g c {} = x at hagree
      generalize hk : Select.lowerAll g c' {} = y at hagree
      cases hagree with
      | error e =>
          rw [select_of_error hclosed hl, select_of_error hclosed hk]
          simp
      | @ok _ _ l k _ halike _ =>
          have hleft := ((lowerAll_meets c hclosed hacyclic).of_ok hl).1
          have hright := ((lowerAll_meets c' hclosed hacyclic).of_ok hk).1
          rw [select_of_lowerAll hclosed hl hleft, select_of_lowerAll hclosed hk hright]
          refine ⟨⟨fun _ => ⟨_, rfl⟩, fun _ => ⟨_, rfl⟩⟩, fun g₁ g₂ s₁ s₂ h₁ h₂ => ?_⟩
          simp only [Except.ok.injEq, Prod.mk.injEq] at h₁ h₂
          obtain ⟨rfl, rfl⟩ := h₁
          obtain ⟨rfl, rfl⟩ := h₂
          refine ⟨fun id => ?_, halike.retargeted, halike.fused, halike.eliminated, halike.inserted,
            halike.none⟩
          rw [selectedNode?, selectedNode?, hl, hk]
          refine rel_map (halike.lowered id) fun i j hsame => ?_
          obtain ⟨e, hi, hj⟩ := hsame
          exact ⟨e, hi.place hleft.grounded hleft.housed, hj.place hright.grounded hright.housed⟩

/-- Reads a number from memory and writes it back. -/
def writeBack : Graph :=
  .ofParts #[⟨"entry", []⟩]
    #[⟨0, .state, [], [], []⟩, ⟨0, .const .i64, [], [.int 8], []⟩,
      ⟨0, .load (.full .i32), [], [], [0, 1]⟩,
      ⟨0, .store (.full .i32), [], [], [0, 1, 2]⟩, ⟨0, .ret, [.node 3], [], []⟩]

/-- The second access finds the three helper nodes of the first, and the store stands for the same. -/
theorem select_sharing_writeBack : ∃ g₁ g₂ s₁ s₂,
    select writeBack (({} : Config).sharing true) = .ok (g₁, s₁) ∧
    select writeBack (({} : Config).sharing false) = .ok (g₂, s₂) ∧
    s₁.shared = 3 ∧ s₂.inserted = s₁.inserted + 3 ∧ g₁.nodes.size + 3 = g₂.nodes.size ∧
    ∃ i j e, selectedNode? writeBack (({} : Config).sharing true) 3 = some i ∧
      selectedNode? writeBack (({} : Config).sharing false) 3 = some j ∧
      Unfolds g₁.nodes i e ∧ Unfolds g₂.nodes j e := by
  have hacyclic : writeBack.Acyclic := Graph.acyclic_of_rank id (by decide)
  obtain ⟨hiff, hsharing⟩ := select_sharing hacyclic {}
  have hshared : (select writeBack (({} : Config).sharing true)).toOption.map
      (fun r => (r.1.nodes.size, r.2.shared)) = some (8, 3) := by decide +kernel
  have hsize : (select writeBack (({} : Config).sharing false)).toOption.map
      (fun r => r.1.nodes.size) = some 11 := by decide +kernel
  have hstore : (selectedNode? writeBack (({} : Config).sharing true) 3).isSome = true := by
    decide +kernel
  cases hon : select writeBack (({} : Config).sharing true) with
  | error e =>
      rw [hon] at hshared
      exact absurd hshared (by simp [Except.toOption])
  | ok r =>
      obtain ⟨r', hoff⟩ := hiff.mp ⟨r, hon⟩
      rw [hon] at hshared
      rw [hoff] at hsize
      obtain ⟨hnodes, -, -, -, hinserted, -⟩ := hsharing r.1 r'.1 r.2 r'.2 hon hoff
      simp only [Except.toOption, Option.map_some, Option.some.injEq, Prod.mk.injEq] at hshared hsize
      have hrel := hnodes 3
      revert hrel hstore
      generalize selectedNode? writeBack (({} : Config).sharing true) 3 = x
      generalize selectedNode? writeBack (({} : Config).sharing false) 3 = y
      rintro hsome (hsame | _)
      · obtain ⟨e, hi, hj⟩ := hsame
        exact ⟨r.1, r'.1, r.2, r'.2, rfl, hoff, hshared.2, by omega, by omega, _, _, e, rfl, rfl, hi, hj⟩
      · exact absurd hsome (by simp)

end Isel
