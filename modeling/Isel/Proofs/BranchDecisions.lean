import Isel.Proofs.EmissionRun
import Isel.Proofs.Progress

/-! Where branches go. Whichever of its successors the next block is, a branch reaches the label of the
one that its operands choose, and changes nothing but flags on the way. A comparison leaves its answer
as a number, so a branch on that number and a branch that compares by itself take the same arm. -/

namespace Isel

namespace Comparison

/-- A word as the whole number that a comparison takes it for. -/
def reading (c : Comparison) (x : Word) : Int := if c.isSigned then x.toInt else x.toNat

/-- The relation between two words that a comparison asks about. -/
def Relates (c : Comparison) (x y : Word) : Prop :=
  match c with
  | eq => c.reading x = c.reading y
  | ne => c.reading x ≠ c.reading y
  | ltS | ltU => c.reading x < c.reading y
  | leS | leU => c.reading x ≤ c.reading y
  | gtS | gtU => c.reading x > c.reading y
  | geS | geU => c.reading x ≥ c.reading y

theorem holds_iff_relates (c : Comparison) (x y : Word) : c.holds x y = true ↔ c.Relates x y := by
  have heq : x = y ↔ (x.toNat : Int) = y.toNat := by
    rw [Int.ofNat_inj, BitVec.toNat_inj]
  cases c <;>
    simp [holds, Relates, reading, isSigned, BitVec.slt, BitVec.sle, BitVec.ult, BitVec.ule, heq]

instance (c : Comparison) (x y : Word) : Decidable (c.Relates x y) :=
  decidable_of_iff _ (c.holds_iff_relates x y)

theorem ofBool_holds (c : Comparison) (x y : Word) :
    Words.ofBool (c.holds x y) = if c.Relates x y then 1 else 0 := by
  by_cases h : c.Relates x y
  · rw [if_pos h, (c.holds_iff_relates x y).mpr h]
    rfl
  · rw [if_neg h, Bool.eq_false_iff.mpr fun hholds => h ((c.holds_iff_relates x y).mp hholds)]
    rfl

end Comparison

/-- The register of an operand. -/
def Allocation.input? (a : Allocation) (n : Node) (i : Nat) : Option Reg := n.inputs[i]?.bind a.get?

/-- The last node of a block, behind the other ones. -/
structure Graph.Ends (g : Graph) (b : Nat) (done : List Nat) (id : Nat) (n : Node) (block : Block) :
    Prop where
  members : g.members b = done ++ [id]
  node : g.nodes[id]? = some ⟨b, n⟩
  block : g.block? b = some block

theorem Graph.Ends.lt {g : Graph} {b id : Nat} {done : List Nat} {n : Node} {block : Block}
    (h : g.Ends b done id n block) : b < g.blocks.size :=
  Graph.blockOf?_lt (Graph.blockOf?_eq_some.mpr ⟨n, h.node⟩)

/-- A run takes the steps of the instructions that lie before it. -/
theorem Code.At.reaches {c : Code} {p : Nat} {is : List Inst} (hat : c.At p is) (m : Machine) :
    match Machine.exec is m with
    | (.ok .next, m') => c.Reaches (p, m) (p + is.length, m')
    | (.ok (.jump l), m') => ∀ t, c.offset? l = some t → c.Reaches (p, m) (t, m')
    | _ => True := by
  induction is generalizing p m with
  | nil => exact .refl
  | cons i is ih =>
      have hi := hat.head
      cases hstep : Machine.step i m with
      | mk result m₁ =>
          rcases result with t | (_ | l | _)
          · rw [Machine.exec_cons_error hstep]
            trivial
          · have hmove : c.Moves (p, m) (p + 1, m₁) := .next hi hstep
            have hrest := ih hat.tail m₁
            rw [Machine.exec_cons_next hstep, List.length_cons, Nat.add_comm is.length, ← Nat.add_assoc]
            split
            · next m' hexec =>
                rw [hexec] at hrest
                exact hrest.head hmove
            · next l m' hexec =>
                rw [hexec] at hrest
                exact fun t ht => (hrest t ht).head hmove
            · trivial
          · rw [Machine.exec_cons_jump hstep]
            exact fun t ht => .single (.jump hi hstep ht)
          · rw [Machine.exec_cons_halt hstep]
            trivial

namespace Emission

variable {g : Graph} {a : Allocation} {config : Config} {code : Code} {b id : Nat} {done : List Nat}
  {n : Node} {block : Block} {x : Assignment} {m : Machine}

/-- The instructions of the last node of block `b`, which lie behind those of `done`, lead to the label
of block `c`, by a jump or by running into it, and change neither a register nor the heap. -/
def Enters (g : Graph) (a : Allocation) (config : Config) (code : Code) (b : Nat) (done : List Nat)
    (id : Nat) (m : Machine) (c : Nat) : Prop :=
  ∃ q m', (Machine.exec (chunk g a config id) m = (.ok (.jump c), m') ∨
      Machine.exec (chunk g a config id) m = (.ok .next, m') ∧ c = b + 1) ∧
    code.offset? c = some q ∧ code.Reaches (position g a config b done, m) (q, m') ∧
    Machine.Changes [] false m m'

theorem Assigned.input?_eq {c : Constraint} (h : Assigned a id n c x) {i : Nat} {r : Reg}
    (hr : (x.inputs.map Prod.snd)[i]? = some r) : a.input? n i = some r := by
  obtain ⟨p, hp, rfl⟩ : ∃ p, x.inputs[i]? = some p ∧ p.2 = r := by simpa using hr
  obtain ⟨hi, rfl⟩ := List.getElem?_eq_some_iff.mp hp
  obtain ⟨hlength, hall⟩ := List.forall₂_iff_get.mp h.inputs
  rw [Allocation.input?, List.getElem?_eq_getElem (hlength ▸ hi)]
  exact (hall i (hlength ▸ hi) hi).2

/-- The families whose instructions test and jump only. -/
theorem written_eq_nil {f : Family} (hf : f = .branch ∨ f = .branchOn ∨ f = .jump)
    (hassigned : Assigned a id n (f.constraint n) x) : (siteOf g b block n x).written f = [] := by
  have hnone : (f.constraint n).output? = none := by rcases hf with rfl | rfl | rfl <;> rfl
  have hscratches : (f.constraint n).ofRole .scratch = [] := by rcases hf with rfl | rfl | rfl <;> rfl
  have hempty := hassigned.scratches
  rw [hscratches, List.forall₂_nil_left_iff] at hempty
  have hsite : (siteOf g b block n x).output = none ∧ (siteOf g b block n x).scratches = [] :=
    ⟨hassigned.noOutput hnone, hempty⟩
  rw [Site.written, hsite.1, hsite.2]
  rcases hf with rfl | rfl | rfl <;> rfl

/-- The label behind the last node of a block is that of the next block. -/
theorem start_succ_eq_position (hends : g.Ends b done id n block) :
    start (blockChunks g a config) (b + 1)
      = position g a config b done + (chunk g a config id).length := by
  rw [start_succ (blockChunks_getElem? hends.lt), hends.members, position]
  simp [Nat.add_assoc]

/-- A terminator that leads to a successor enters that one and no other. -/
theorem enters_iff (hemit : emit g a config = .ok code) (hends : g.Ends b done id n block) {k c₀ : Nat}
    (hleaves : (siteOf g b block n x).Leaves (.ok (.goto k)) (Machine.exec (chunk g a config id) m))
    (hchanges : Machine.Changes [] false m (Machine.exec (chunk g a config id) m).2)
    (hc₀ : block.successors[k]? = some c₀) (hlt : c₀ < g.blocks.size) (c : Nat) :
    Enters g a config code b done id m c ↔ c = c₀ := by
  obtain ⟨rfl, -⟩ := emit_ok hemit
  have hoffset : (link (blockChunks g a config)).offset? c₀ = some _ :=
    link_offset? (blockChunks_length ▸ hlt)
  have hat : (link (blockChunks g a config)).At _ (chunk g a config id) :=
    chunk_at hends.lt hends.members
  have hreaches := hat.reaches m
  cases hexec : Machine.exec (chunk g a config id) m with
  | mk result m' =>
  rw [hexec] at hleaves hchanges hreaches
  cases hleaves with
  | @jump _ t _ ht =>
      obtain rfl : t = c₀ := Option.some.inj (ht.symm.trans hc₀)
      constructor
      · rintro ⟨q, m₁, hjump | ⟨hnext, -⟩, -⟩
        · rw [hexec, Prod.mk.injEq, Except.ok.injEq, Flow.jump.injEq] at hjump
          exact hjump.1.symm
        · rw [hexec] at hnext
          exact absurd (congrArg Prod.fst hnext) (by simp)
      · rintro rfl
        exact ⟨_, m', .inl hexec, hoffset, hreaches _ hoffset, hchanges⟩
  | @fall _ t _ ht hnext =>
      obtain rfl : t = c₀ := Option.some.inj (ht.symm.trans hc₀)
      obtain rfl := fallthrough_eq hnext
      constructor
      · rintro ⟨q, m₁, hjump | ⟨-, hc⟩, -⟩
        · rw [hexec] at hjump
          exact absurd (congrArg Prod.fst hjump) (by simp)
        · exact hc
      · rintro rfl
        rw [start_succ_eq_position hends] at hoffset
        exact ⟨_, m', .inr ⟨hexec, rfl⟩, hoffset, hreaches, hchanges⟩

/-- What emission has checked of a last node that tests and jumps only. -/
theorem emitted_of_ends (hemit : emit g a config = .ok code) (hends : g.Ends b done id n block)
    {f : Family} (hfamily : n.op.family? = some f) (hf : f = .branch ∨ f = .branchOn ∨ f = .jump) :
    ∃ x, Assigned a id n (f.constraint n) x ∧
      f.emit (siteOf g b block n x) = .ok (chunk g a config id) ∧
      (∀ m, Machine.Changes [] false m (Machine.exec (chunk g a config id) m).2) ∧
      ∀ c ∈ block.successors, c < g.blocks.size := by
  have hnode := (emit_ok hemit).2 id b n block hends.node hends.block
  obtain ⟨f', x, hf', hassigned, -, his⟩ := emitNode_ok hnode
  obtain ⟨_, _, hchecked⟩ := emitNode_checked hnode
  obtain rfl : f = f' := Option.some.inj (hfamily.symm.trans hf')
  refine ⟨x, hassigned, his, fun m => ?_, hchecked.successors⟩
  have hchanges := Family.exec_changes his m
  rw [written_eq_nil hf hassigned] at hchanges
  exact hchanges.mono (List.Subset.refl _) fun h => by
    rcases hf with rfl | rfl | rfl <;> exact h

section Predicates

variable (g : Graph) (a : Allocation) (config : Config) (code : Code) (b : Nat) (done : List Nat) (id : Nat)
  (n : Node) (block : Block)

/-- The first successor is entered if the predicate is not zero, and else the second. -/
def Branches : Prop :=
  ∃ p t o, a.input? n 0 = some (.gpr p) ∧ block.successors[0]? = some t ∧
    block.successors[1]? = some o ∧
    ∀ m c, Enters g a config code b done id m c ↔ c = if m.gpr p ≠ 0 then t else o

/-- The first successor is entered if the operands are in the relation, and else the second. -/
def BranchesOn (k : Comparison) : Prop :=
  ∃ l r t o, a.input? n 0 = some (.gpr l) ∧ a.input? n 1 = some (.gpr r) ∧
    block.successors[0]? = some t ∧ block.successors[1]? = some o ∧
    ∀ m c, Enters g a config code b done id m c ↔ c = if k.Relates (m.gpr l) (m.gpr r) then t else o

/-- The first successor is entered. -/
def Jumps : Prop :=
  ∃ t, block.successors[0]? = some t ∧ ∀ m c, Enters g a config code b done id m c ↔ c = t

/-- The output is one if the operands are in the relation, and else zero. -/
def Answers (k : Comparison) : Prop :=
  ∃ l r out, a.input? n 0 = some (.gpr l) ∧ a.input? n 1 = some (.gpr r) ∧
    a.get? id = some (.gpr out) ∧
    ∀ m, ∃ m', Machine.exec (chunk g a config id) m = (.ok .next, m') ∧
      m'.gpr out = if k.Relates (m.gpr l) (m.gpr r) then 1 else 0

/-- A comparison `id` is answered from `m₀` on, a branch `user` on the answer stands in `m`, and a branch `n'`
that compares by itself in `m'`: the answer is what the one branch decides by, and the other compares the
same words. -/
def SameWords (user : Node) (a' : Allocation) (n' : Node) (m₀ m m' : Machine) : Prop :=
  ∃ p l r out l' r', a.input? user 0 = some (.gpr p) ∧ a.get? id = some (.gpr out) ∧
    a.input? n 0 = some (.gpr l) ∧ a.input? n 1 = some (.gpr r) ∧
    a'.input? n' 0 = some (.gpr l') ∧ a'.input? n' 1 = some (.gpr r') ∧
    m'.gpr l' = m₀.gpr l ∧ m'.gpr r' = m₀.gpr r ∧
    m.gpr p = (Machine.exec (chunk g a config id) m₀).2.gpr out

end Predicates

theorem branch_enters (hemit : emit g a config = .ok code) (hends : g.Ends b done id n block)
    (hop : n.op = .branch) : Branches g a config code b done id n block := by
  obtain ⟨x, hassigned, his, hchanges, hlt⟩ :=
    emitted_of_ends hemit hends (congrArg Operator.family? hop) (.inl rfl)
  obtain ⟨p, t, o, hp, ht, ho, -⟩ := Emit.branch_ok his
  refine ⟨p, t, o, hassigned.input?_eq hp, ht, ho, fun m c => ?_⟩
  have hleaves := Emit.branch_leaves m his hop
  obtain ⟨rest, hinputs⟩ := eq_cons_of_getElem? hp
  rw [hinputs, List.map_cons] at hleaves
  simp only [Words.exit, show (siteOf g b block n x).node.op = _ from hop, Machine.word_gpr] at hleaves
  by_cases hzero : m.gpr p ≠ 0
  · rw [if_pos hzero] at hleaves ⊢
    exact enters_iff hemit hends hleaves (hchanges m) ht (hlt t (List.mem_of_getElem? ht)) c
  · rw [if_neg hzero] at hleaves ⊢
    exact enters_iff hemit hends hleaves (hchanges m) ho (hlt o (List.mem_of_getElem? ho)) c

theorem branchOn_enters (hemit : emit g a config = .ok code) (hends : g.Ends b done id n block)
    {k : Comparison} (hop : n.op = .target (.branchOn k)) :
    BranchesOn g a config code b done id n block k := by
  obtain ⟨x, hassigned, his, hchanges, hlt⟩ :=
    emitted_of_ends hemit hends (congrArg Operator.family? hop) (.inr (.inl rfl))
  obtain ⟨-, l, r, t, o, -, hl, hr, ht, ho, -⟩ := Emit.branchOn_ok his
  refine ⟨l, r, t, o, hassigned.input?_eq hl, hassigned.input?_eq hr, ht, ho, fun m c => ?_⟩
  have hleaves := Emit.branchOn_leaves m his
  obtain ⟨rest, hinputs⟩ := eq_cons_cons_of_getElem? hl hr
  rw [hinputs, List.map_cons, List.map_cons] at hleaves
  simp only [Words.exit, show (siteOf g b block n x).node.op = _ from hop, Machine.word_gpr,
    Comparison.holds_iff_relates] at hleaves
  by_cases hrelates : k.Relates (m.gpr l) (m.gpr r)
  · rw [if_pos hrelates] at hleaves ⊢
    exact enters_iff hemit hends hleaves (hchanges m) ht (hlt t (List.mem_of_getElem? ht)) c
  · rw [if_neg hrelates] at hleaves ⊢
    exact enters_iff hemit hends hleaves (hchanges m) ho (hlt o (List.mem_of_getElem? ho)) c

theorem jump_enters (hemit : emit g a config = .ok code) (hends : g.Ends b done id n block)
    (hop : n.op = .jump) : Jumps g a config code b done id block := by
  obtain ⟨x, hassigned, his, hchanges, hlt⟩ :=
    emitted_of_ends hemit hends (congrArg Operator.family? hop) (.inr (.inr rfl))
  obtain ⟨t, ht, -⟩ := Emit.jump_ok (Emit.whole_eq_ok.mp his)
  refine ⟨t, ht, fun m c => ?_⟩
  have hleaves := Emit.jump_leaves m (Emit.whole_eq_ok.mp his) hop
  simp only [Words.exit, show (siteOf g b block n x).node.op = _ from hop] at hleaves
  exact enters_iff hemit hends hleaves (hchanges m) ht (hlt t (List.mem_of_getElem? ht)) c

theorem compare_answers (hemit : emit g a config = .ok code) (hn : g.nodes[id]? = some ⟨b, n⟩)
    {k : Comparison} (hop : n.op = .compare .w64 k) : Answers g a config id n k := by
  have hb := Graph.blockOf?_lt (Graph.blockOf?_eq_some.mpr ⟨n, hn⟩)
  have hblock : g.block? b = some g.blocks[b] := Array.getElem?_eq_getElem hb
  obtain ⟨f, x, hf, hassigned, -, his⟩ := emitNode_ok ((emit_ok hemit).2 id b n _ hn hblock)
  rw [hop] at hf
  obtain rfl := Option.some.inj hf
  have his := Emit.whole_eq_ok.mp his
  obtain ⟨k', out, l, r, hop', hout, hl, hr, hchunk⟩ := Emit.compare_ok his
  obtain rfl : k' = k := by simpa using hop'.symm.trans hop
  obtain ⟨r', hr', hget⟩ := hassigned.output rfl
  obtain rfl : r' = .gpr out := Option.some.inj (hr'.symm.trans hout)
  refine ⟨l, r, out, hassigned.input?_eq hl, hassigned.input?_eq hr, hget, fun m => ?_⟩
  obtain ⟨m', hexec, hm'⟩ := Machine.exec_materialize
    (m.setFlags (Arith.sub.flags (m.gpr l) (m.gpr r))) out (.ofComparison k')
  refine ⟨m', ?_, ?_⟩
  · rw [hchunk, Machine.exec_cons_next (Machine.step_cmp m l r), hexec]
  · rw [hm', Machine.flags_setFlags, holds_flags_sub, Comparison.ofBool_holds]

/-- Branches and jumps reach the successor that they decide for, whatever the layout of the blocks.
Comparisons answer by the relation that branches decide by; so a branch on the answer of a comparison
goes where a branch goes that compares the same words, in the same code or in another. -/
theorem branches_decide (hemit : emit g a config = .ok code) :
    (∀ b done id n block, g.Ends b done id n block →
      (n.op = .branch → Branches g a config code b done id n block) ∧
      (∀ k, n.op = .target (.branchOn k) → BranchesOn g a config code b done id n block k) ∧
      (n.op = .jump → Jumps g a config code b done id block)) ∧
    (∀ id b n k, g.nodes[id]? = some ⟨b, n⟩ → n.op = .compare .w64 k → Answers g a config id n k) ∧
    ∀ g' a' config' code', emit g' a' config' = .ok code' →
      ∀ b done id n block, g.Ends b done id n block → n.op = .branch →
      ∀ b' done' id' n' block' k, g'.Ends b' done' id' n' block' → n'.op = .target (.branchOn k) →
        block'.successors = block.successors →
      ∀ i b₀ n₀, g.nodes[i]? = some ⟨b₀, n₀⟩ → n₀.op = .compare .w64 k →
      ∀ m₀ m m', SameWords g a config i n₀ n a' n' m₀ m m' →
      ∀ c, Enters g a config code b done id m c ↔ Enters g' a' config' code' b' done' id' m' c := by
  refine ⟨fun b done id n block hends => ⟨branch_enters hemit hends, fun k => branchOn_enters hemit hends,
    jump_enters hemit hends⟩, fun id b n k hn => compare_answers hemit hn, ?_⟩
  intro g' a' config' code' hemit' b done id n block hends hop b' done' id' n' block' k hends' hop' hsame
    i b₀ n₀ hn₀ hop₀ m₀ m m' hwords c
  obtain ⟨p, l, r, out, l', r', hp, hout, hl, hr, hl', hr', heql, heqr, hanswer⟩ := hwords
  obtain ⟨p', t, o, hp', ht, ho, henters⟩ := branch_enters hemit hends hop
  obtain ⟨l₁, r₁, t', o', hl₁, hr₁, ht', ho', henters'⟩ := branchOn_enters hemit' hends' hop'
  obtain ⟨l₂, r₂, out₂, hl₂, hr₂, hout₂, hanswers⟩ := compare_answers hemit hn₀ hop₀
  obtain rfl : p' = p := by simpa [hp'] using hp
  obtain rfl : l₁ = l' := by simpa [hl₁] using hl'
  obtain rfl : r₁ = r' := by simpa [hr₁] using hr'
  obtain rfl : l₂ = l := by simpa [hl₂] using hl
  obtain rfl : r₂ = r := by simpa [hr₂] using hr
  obtain rfl : out₂ = out := by simpa [hout₂] using hout
  obtain rfl : t' = t := by simpa [hsame, ht] using ht'.symm
  obtain rfl : o' = o := by simpa [hsame, ho] using ho'.symm
  obtain ⟨m₁, hexec, hm₁⟩ := hanswers m₀
  rw [hexec, hm₁] at hanswer
  rw [henters, henters', heql, heqr, hanswer]
  by_cases hrelates : k.Relates (m₀.gpr l₂) (m₀.gpr r₂)
  · rw [if_pos hrelates, if_pos hrelates, if_pos (by decide)]
  · rw [if_neg hrelates, if_neg hrelates, if_neg (by decide)]

/-- Compares in its first block and branches on the answer there, and branches on the same comparison in
its second: the first one has its second successor behind it, the other one its first. -/
def arms : Graph :=
  .ofParts #[⟨"entry", [2, 1]⟩, ⟨"again", [2, 1]⟩, ⟨"done", []⟩]
    #[⟨0, .const .i64, [], [.int 0], []⟩, ⟨0, .const .i64, [], [.int 1], []⟩,
      ⟨0, .compare .w64 .ltS, [], [], [0, 1]⟩, ⟨0, .branch, [], [], [2]⟩,
      ⟨1, .target (.branchOn .ltS), [], [], [0, 1]⟩, ⟨2, .ret, [], [], []⟩]

/-- The answer replaces the left operand. -/
def armsRegisters : Allocation :=
  ((({} : Allocation).set 0 (.gpr .rcx)).set 1 (.gpr .rdx)).set 2 (.gpr .rcx)

/-- The least integer and one. -/
def armsMachine : Machine :=
  ((Machine.withMemory #[]).setGpr .rcx 0x8000000000000000).setGpr .rdx 1

/-- The least integer is less than one, if words have a sign. -/
theorem branches_decide_arms : ∃ code, emit arms armsRegisters {} = .ok code ∧
    (∀ c, Enters arms armsRegisters {} code 1 [] 4 armsMachine c ↔ c = 2) ∧
    Enters arms armsRegisters {} code 0 [0, 1, 2] 3
      (Machine.exec (chunk arms armsRegisters {} 2) armsMachine).2 2 := by
  have hemits : (emit arms armsRegisters {}).toOption.isSome = true := by decide +kernel
  obtain ⟨code, hcode⟩ := Option.isSome_iff_exists.mp hemits
  have hemit := toOption_eq_some.mp hcode
  obtain ⟨hends, -, hsame⟩ := branches_decide hemit
  have hfirst : arms.Ends 0 [0, 1, 2] 3 ⟨.branch, [], [], [2]⟩ ⟨"entry", [2, 1]⟩ :=
    ⟨by decide, by decide, by decide⟩
  have hsecond : arms.Ends 1 [] 4 ⟨.target (.branchOn .ltS), [], [], [0, 1]⟩ ⟨"again", [2, 1]⟩ :=
    ⟨by decide, by decide, by decide⟩
  obtain ⟨l, r, t, o, hl, hr, ht, ho, henters⟩ := (hends 1 [] 4 _ _ hsecond).2.1 _ rfl
  obtain rfl : Gpr.rcx = l := Reg.gpr.inj (Option.some.inj hl)
  obtain rfl : Gpr.rdx = r := Reg.gpr.inj (Option.some.inj hr)
  obtain rfl : 2 = t := Option.some.inj ht
  have hrelates : Comparison.ltS.Relates (armsMachine.gpr .rcx) (armsMachine.gpr .rdx) := by decide
  have hgoes (c : Nat) : Enters arms armsRegisters {} code 1 [] 4 armsMachine c ↔ c = 2 := by
    rw [henters, if_pos hrelates]
  refine ⟨code, hemit, hgoes, ?_⟩
  have hwords : SameWords arms armsRegisters {} 2 ⟨.compare .w64 .ltS, [], [], [0, 1]⟩
      ⟨.branch, [], [], [2]⟩ armsRegisters ⟨.target (.branchOn .ltS), [], [], [0, 1]⟩ armsMachine
      (Machine.exec (chunk arms armsRegisters {} 2) armsMachine).2 armsMachine :=
    ⟨.rcx, .rcx, .rdx, .rcx, .rcx, .rdx, rfl, rfl, rfl, rfl, rfl, rfl, rfl, rfl, rfl⟩
  exact (hsame _ _ _ _ hemit 0 _ _ _ _ hfirst rfl 1 _ _ _ _ .ltS hsecond rfl rfl 2 0 _ rfl rfl _ _ _
    hwords 2).mpr ((hgoes 2).mpr rfl)

end Emission

end Isel
