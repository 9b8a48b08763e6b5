import Isel.Machine.Step
import Isel.Proofs.Words

/-! What instructions change. An instruction writes the registers that it names as its destination,
or those that are built into it, and no others; only one with memory as its destination changes the
heap; only one that reads or writes memory faults. -/

namespace Isel

theorem Gpr.ofEncoding?_encoding (r : Gpr) : Gpr.ofEncoding? r.encoding.val = some r := by
  cases r <;> rfl

theorem Gpr.encoding_inj {r r' : Gpr} (h : r.encoding = r'.encoding) : r = r' := by
  have heq := r.ofEncoding?_encoding
  rw [h, r'.ofEncoding?_encoding] at heq
  exact (Option.some.inj heq).symm

theorem Xmm.ofEncoding?_encoding (r : Xmm) : Xmm.ofEncoding? r.encoding.val = some r := by
  cases r <;> rfl

theorem Xmm.encoding_inj {r r' : Xmm} (h : r.encoding = r'.encoding) : r = r' := by
  have heq := r.ofEncoding?_encoding
  rw [h, r'.ofEncoding?_encoding] at heq
  exact (Option.some.inj heq).symm

theorem get_set_self {α : Type} {n : Nat} (v : Vector α n) (i : Fin n) (x : α) :
    (v.set i.val x i.isLt).get i = x := Vector.getElem_set_self i.isLt

theorem get_set_of_ne {α : Type} {n : Nat} (v : Vector α n) {i j : Fin n} (h : i ≠ j) (x : α) :
    (v.set i.val x i.isLt).get j = v.get j :=
  Vector.getElem_set_ne i.isLt j.isLt (fun heq => h (Fin.ext heq))

namespace Machine

variable {m m' : Machine} {r r' : Gpr} {v : BitVec 64}

@[simp] theorem gpr_setGpr_self (m : Machine) (r : Gpr) (v : BitVec 64) :
    (m.setGpr r v).gpr r = v := get_set_self ..

@[simp] theorem gpr_setGpr_of_ne (m : Machine) (h : r' ≠ r) (v : BitVec 64) :
    (m.setGpr r v).gpr r' = m.gpr r' :=
  get_set_of_ne _ (fun heq => h (Gpr.encoding_inj heq).symm) v

@[simp] theorem xmm_setXmm_self (m : Machine) (r : Xmm) (x : Lanes) : (m.setXmm r x).xmm r = x :=
  get_set_self ..

@[simp] theorem xmm_setXmm_of_ne (m : Machine) {r r' : Xmm} (h : r' ≠ r) (x : Lanes) :
    (m.setXmm r x).xmm r' = m.xmm r' :=
  get_set_of_ne _ (fun heq => h (Xmm.encoding_inj heq).symm) x

@[simp] theorem heap_setGpr (m : Machine) (r : Gpr) (v : BitVec 64) :
    (m.setGpr r v).heap = m.heap := rfl

@[simp] theorem heap_setXmm (m : Machine) (r : Xmm) (x : Lanes) : (m.setXmm r x).heap = m.heap := rfl

/-- The word in a register; of a floating-point register, its low half. -/
def word (m : Machine) : Reg → Word
  | .gpr r => m.gpr r
  | .xmm r => (m.xmm r).low

@[simp] theorem word_gpr (m : Machine) (r : Gpr) : m.word (.gpr r) = m.gpr r := rfl

/-- At most the given registers have changed, and the heap only if it is said to. -/
structure Changes (rs : List Reg) (stores : Bool) (m m' : Machine) : Prop where
  gprs : ∀ r, .gpr r ∉ rs → m'.gpr r = m.gpr r
  xmms : ∀ r, .xmm r ∉ rs → m'.xmm r = m.xmm r
  heap : stores = false → m'.heap = m.heap

namespace Changes

variable {rs rs' : List Reg} {stores stores' : Bool} {m₁ m₂ m₃ : Machine}

theorem words (h : Changes rs stores m₁ m₂) (r : Reg) (hr : r ∉ rs) : m₂.word r = m₁.word r := by
  cases r with
  | gpr r => exact h.gprs r hr
  | xmm r => exact congrArg Lanes.low (h.xmms r hr)

theorem refl (rs : List Reg) (stores : Bool) (m : Machine) : Changes rs stores m m :=
  ⟨fun _ _ => rfl, fun _ _ => rfl, fun _ => rfl⟩

theorem trans (h : Changes rs stores m₁ m₂) (h' : Changes rs stores m₂ m₃) :
    Changes rs stores m₁ m₃ where
  gprs r hr := (h'.gprs r hr).trans (h.gprs r hr)
  xmms r hr := (h'.xmms r hr).trans (h.xmms r hr)
  heap hs := (h'.heap hs).trans (h.heap hs)

theorem mono (h : Changes rs stores m₁ m₂) (hrs : rs ⊆ rs') (hstores : stores = true → stores' = true) :
    Changes rs' stores' m₁ m₂ := by
  refine ⟨fun r hr => h.gprs r fun hmem => hr (hrs hmem), fun r hr => h.xmms r fun hmem => hr (hrs hmem),
    fun hs => h.heap ?_⟩
  cases stores with
  | false => rfl
  | true => exact absurd (hstores rfl) (by simp [hs])

theorem setGpr (m : Machine) (r : Gpr) (v : BitVec 64) (stores : Bool) :
    Changes [.gpr r] stores m (m.setGpr r v) where
  gprs r' hne := gpr_setGpr_of_ne m (fun heq : r' = r => hne (heq ▸ List.mem_singleton_self _)) v
  xmms _ _ := rfl
  heap _ := rfl

theorem setXmm (m : Machine) (r : Xmm) (x : Lanes) (stores : Bool) :
    Changes [.xmm r] stores m (m.setXmm r x) where
  gprs _ _ := rfl
  xmms r' hne := xmm_setXmm_of_ne m (fun heq : r' = r => hne (heq ▸ List.mem_singleton_self _)) x
  heap _ := rfl

end Changes

end Machine

namespace Exec

variable {α β : Type}

/-- Wherever a computation starts, it changes at most the given registers, and the heap only if it is
said to. -/
def Writes (rs : List Reg) (stores : Bool) (x : Exec α) : Prop :=
  ∀ m, Machine.Changes rs stores m (x m).2

/-- A computation does not fault. -/
def Faultless (x : Exec α) : Prop := ∀ m p, (x m).1 ≠ .error (.fault p)

variable {x : Exec α} {f : α → Exec β}

theorem bind_ok {m m' : Machine} {a : α} (h : x m = (.ok a, m')) : (x >>= f) m = f a m' := by
  simp only [bind, ExceptT.bind, ExceptT.mk, StateT.bind, h, ExceptT.bindCont]

theorem bind_error {m m' : Machine} {t : Trap} (h : x m = (.error t, m')) :
    (x >>= f) m = (.error t, m') := by
  simp only [bind, ExceptT.bind, ExceptT.mk, StateT.bind, h, ExceptT.bindCont]
  rfl

theorem bind_look (v : Machine → α) (m : Machine) : (look (fun m => .ok (v m)) >>= f) m = f (v m) m :=
  bind_ok rfl

variable {rs : List Reg} {stores : Bool}

theorem Writes.bind (hx : Writes rs stores x) (hf : ∀ a, Writes rs stores (f a)) :
    Writes rs stores (x >>= f) := by
  intro m
  have hm := hx m
  cases hrun : x m with
  | mk result m' =>
      rw [hrun] at hm
      cases result with
      | ok a =>
          rw [bind_ok hrun]
          exact hm.trans (hf a m')
      | error t =>
          rw [bind_error hrun]
          exact hm

theorem Writes.pure (a : α) : Writes rs stores (Pure.pure a : Exec α) := fun m => .refl rs stores m

theorem Writes.throw (t : Trap) : Writes rs stores (MonadExcept.throw t : Exec α) :=
  fun m => .refl rs stores m

theorem Writes.look (f : Machine → Except Trap α) : Writes rs stores (Exec.look f) :=
  fun m => .refl rs stores m

theorem Writes.change {f : Machine → Machine} (h : ∀ m, Machine.Changes rs stores m (f m)) :
    Writes rs stores (Exec.change f) := h

/-- Every result of a computation has a property. -/
def Returns (P : α → Prop) (x : Exec α) : Prop := ∀ m m' a, x m = (.ok a, m') → P a

theorem Returns.bind_of {Q : α → Prop} {P : β → Prop} (hx : Returns Q x)
    (hf : ∀ a, Q a → Returns P (f a)) : Returns P (x >>= f) := by
  intro m m' b h
  cases hrun : x m with
  | mk result m₁ =>
      cases result with
      | ok a =>
          rw [bind_ok hrun] at h
          exact hf a (hx m m₁ a hrun) m₁ m' b h
      | error t =>
          rw [bind_error hrun] at h
          exact absurd (congrArg Prod.fst h) (by simp)

theorem Returns.bind {P : β → Prop} (hf : ∀ a, Returns P (f a)) : Returns P (x >>= f) := by
  have hx : Returns (fun _ => True) x := fun _ _ _ _ => trivial
  exact hx.bind_of fun a _ => hf a

theorem Returns.pure {P : α → Prop} {a : α} (h : P a) : Returns P (Pure.pure a : Exec α) := by
  intro m m' b hb
  obtain rfl := Except.ok.inj (congrArg Prod.fst hb)
  exact h

theorem Returns.throw {P : α → Prop} (t : Trap) : Returns P (MonadExcept.throw t : Exec α) :=
  fun _ _ _ h => absurd (congrArg Prod.fst h) (by intro heq; cases heq)

theorem Faultless.bind (hx : Faultless x) (hf : ∀ a, Faultless (f a)) : Faultless (x >>= f) := by
  intro m p
  have hm := hx m p
  cases hrun : x m with
  | mk result m' =>
      rw [hrun] at hm
      cases result with
      | ok a =>
          rw [bind_ok hrun]
          exact hf a m' p
      | error t =>
          rw [bind_error hrun]
          exact fun h => hm (congrArg Except.error (Except.error.inj h))

theorem Faultless.pure (a : α) : Faultless (Pure.pure a : Exec α) := fun _ _ h => by cases h

theorem Faultless.throw {t : Trap} (h : ∀ p, t ≠ .fault p) :
    Faultless (MonadExcept.throw t : Exec α) := fun _ p heq => h p (Except.error.inj heq)

theorem Faultless.change (f : Machine → Machine) : Faultless (Exec.change f) :=
  fun _ _ h => by cases h

theorem Faultless.look {f : Machine → Except Trap α} (h : ∀ m p, f m ≠ .error (.fault p)) :
    Faultless (Exec.look f) := h

end Exec

/-- The register that an operand is. -/
def Operand.regs : Operand → List Reg
  | gpr r => [.gpr r]
  | xmm r => [.xmm r]
  | _ => []

def Operand.isMem : Operand → Bool
  | mem _ => true
  | _ => false

namespace Inst

/-- The registers that an instruction may change. -/
def writes (i : Inst) : List Reg :=
  match i.mnemonic with
  | .cmp | .test | .jumpIf _ | .jmp | .ret | .ud2 => []
  | .cqo | .cdq => [.gpr .rdx]
  | .divide _ => [.gpr .rax, .gpr .rdx]
  | _ => i.operands.head?.elim [] Operand.regs

/-- Whether memory is the destination. -/
def stores (i : Inst) : Bool := i.operands.head?.elim false Operand.isMem

/-- Whether execution goes on behind an instruction that does not trap. -/
def isPlain (i : Inst) : Bool :=
  match i.mnemonic with
  | .jumpIf _ | .jmp | .ret => false
  | _ => true

/-- Whether an instruction reads or writes memory. -/
def accesses (i : Inst) : Bool := i.operands.any Operand.isMem && i.mnemonic != .lea

end Inst

namespace Machine

open Exec

theorem writeGpr_changes (m : Machine) (s : Size) (r : Gpr) (v : BitVec s.bits) (stores : Bool) :
    Changes [.gpr r] stores m (m.writeGpr s r v) := .setGpr m r _ stores

theorem storeAt_writes (n : Nat) (p v : BitVec 64) : Writes [] true (storeAt n p v) := by
  intro m
  unfold storeAt
  split
  · exact ⟨fun _ _ => rfl, fun _ _ => rfl, fun h => absurd h (by simp)⟩
  · exact .refl _ _ m

theorem store_writes (n : Nat) (a : Address) (v : BitVec 64) : Writes [] true (store n a v) :=
  .bind (.look _) fun p => storeAt_writes n p v

theorem write_writes (s : Size) (o : Operand) (v : BitVec s.bits) :
    Writes o.regs o.isMem (write s o v) := by
  cases o with
  | gpr r => exact .change fun m => writeGpr_changes m s r v false
  | mem a => exact store_writes s.bytes a (v.setWidth 64)
  | xmm r => exact .throw _
  | imm v => exact .throw _
  | label l => exact .throw _

theorem setFlags_changes (rs : List Reg) (stores : Bool) (m : Machine) (flags : Flags) :
    Changes rs stores m { m with flags } := ⟨fun _ _ => rfl, fun _ _ => rfl, fun _ => rfl⟩

theorem compute_writes (op : Arith) (s : Size) (dst src : Operand) (rs : List Reg) (stores : Bool) :
    Writes rs stores (compute op s dst src) :=
  .bind (.look _) fun _ => .bind (.look _) fun _ =>
    .bind (.change fun m => setFlags_changes rs stores m _) fun _ => .pure _

theorem stepXmm_writes (i : Inst) :
    Writes (i.operands.head?.elim [] Operand.regs) i.stores (stepXmm i) := by
  unfold stepXmm
  split
  case h_14 => exact .throw _
  all_goals
    next hoperands =>
      rw [Inst.stores, hoperands]
      first
        | exact .change fun m => .setXmm m _ _ _
        | exact .change fun m => .setGpr m _ _ _
        | exact .bind (.look _) fun _ => .change fun m => .setXmm m _ _ _
        | exact .bind (.look _) fun _ => store_writes _ _ _

theorem step_writes (i : Inst) : Writes i.writes i.stores (step i) := by
  unfold step
  split
  case h_1 hm ho | h_2 hm ho | h_11 hm ho | h_12 hm ho =>
    rw [Inst.writes, Inst.stores, hm, ho]
    exact .bind (.look _) fun _ => .bind (write_writes _ _ _) fun _ => .pure _
  case h_4 hm ho =>
    rw [Inst.writes, Inst.stores, hm, ho]
    exact .bind (compute_writes _ _ _ _ _ _) fun _ => .bind (write_writes _ _ _) fun _ => .pure _
  case h_5 hm ho | h_6 hm ho =>
    rw [Inst.writes, Inst.stores, hm, ho]
    exact .bind (compute_writes _ _ _ _ _ _) fun _ => .pure _
  case h_7 hm ho =>
    rw [Inst.writes, Inst.stores, hm, ho]
    exact .bind (.look _) fun _ => .bind (.look _) fun _ => .bind (write_writes _ _ _) fun _ => .pure _
  case h_3 hm ho =>
    rw [Inst.writes, Inst.stores, hm, ho]
    exact .bind (.change fun m => .setGpr m _ _ _) fun _ => .pure _
  case h_8 hm _ =>
    rw [Inst.writes, hm]
    exact .bind (.change fun m => .setGpr m _ _ _) fun _ => .pure _
  case h_9 hm _ =>
    rw [Inst.writes, hm]
    exact .bind (.change fun m => writeGpr_changes m _ _ _ _) fun _ => .pure _
  case h_10 hm ho =>
    rw [Inst.writes, Inst.stores, hm, ho]
    refine .bind (.look _) fun _ => .bind (.look _) fun r => .bind (.change fun m => ?_) fun _ => .pure _
    exact ((writeGpr_changes m _ _ _ _).mono (by simp) id).trans
      ((writeGpr_changes _ _ _ _ _).mono (by simp) id)
  case h_13 => exact .bind (.look _) fun _ => .pure _
  case h_14 | h_15 => exact .pure _
  case h_16 => exact .throw _
  case h_17 =>
    obtain ⟨mnemonic, size, operands⟩ := i
    cases mnemonic
    all_goals
      first
        | exact .bind (stepXmm_writes _) fun _ => .pure _
        | exact .bind (.throw _) fun _ => .pure _

theorem read_faultless {o : Operand} (h : o.isMem = false) (s : Size) :
    Faultless (look fun m => m.read s o) := by
  refine .look fun m p => ?_
  cases o with
  | mem a => exact absurd h (by simp [Operand.isMem])
  | gpr r | imm v => exact fun heq => by injection heq
  | xmm r | label l => exact fun heq => by injection heq with heq; injection heq

theorem readLane_faultless {o : Operand} (h : o.isMem = false) (w : FloatWidth) :
    Faultless (look fun m => m.readLane w o) := by
  refine .look fun m p => ?_
  cases o with
  | mem a => exact absurd h (by simp [Operand.isMem])
  | xmm r => exact fun heq => by injection heq
  | gpr r | imm v | label l => cases w <;> exact fun heq => by injection heq with heq; injection heq

theorem write_faultless {o : Operand} (h : o.isMem = false) (s : Size) (v : BitVec s.bits) :
    Faultless (write s o v) := by
  cases o with
  | mem a => exact absurd h (by simp [Operand.isMem])
  | gpr r => exact .change _
  | imm v | xmm r | label l => exact .throw fun _ h => by cases h

theorem compute_faultless {dst src : Operand} (hdst : dst.isMem = false) (hsrc : src.isMem = false)
    (op : Arith) (s : Size) : Faultless (compute op s dst src) :=
  .bind (read_faultless hdst s) fun _ => .bind (read_faultless hsrc s) fun _ =>
    .bind (.change _) fun _ => .pure _

theorem stepXmm_faultless {i : Inst} (h : ∀ o ∈ i.operands, o.isMem = false) :
    Faultless (stepXmm i) := by
  unfold stepXmm
  split
  case h_1 | h_4 | h_5 | h_9 | h_10 | h_11 | h_12 | h_13 => exact .change _
  case h_2 ho | h_3 ho =>
    rw [ho] at h
    exact absurd h (by simp [Operand.isMem])
  case h_6 ho | h_7 ho | h_8 ho =>
    exact .bind (readLane_faultless (h _ (ho ▸ by simp)) _) fun _ => .change _
  case h_14 => exact .throw fun _ h => by cases h

theorem step_faultless {i : Inst} (h : i.accesses = false) : Faultless (step i) := by
  have hmem (hne : i.mnemonic ≠ .lea) : ∀ o ∈ i.operands, o.isMem = false := by
    simpa [Inst.accesses, hne] using h
  unfold step
  split
  case h_1 hm ho | h_2 hm ho | h_11 hm ho =>
    have hmem := hmem (by rw [hm]; simp)
    rw [ho] at hmem
    exact .bind (read_faultless (hmem _ (by simp)) _) fun _ =>
      .bind (write_faultless (hmem _ (by simp)) _ _) fun _ => .pure _
  case h_4 hm ho =>
    have hmem := hmem (by rw [hm]; simp)
    rw [ho] at hmem
    exact .bind (compute_faultless (hmem _ (by simp)) (hmem _ (by simp)) _ _) fun _ =>
      .bind (write_faultless (hmem _ (by simp)) _ _) fun _ => .pure _
  case h_5 hm ho | h_6 hm ho =>
    have hmem := hmem (by rw [hm]; simp)
    rw [ho] at hmem
    exact .bind (compute_faultless (hmem _ (by simp)) (hmem _ (by simp)) _ _) fun _ => .pure _
  case h_7 hm ho =>
    have hmem := hmem (by rw [hm]; simp)
    rw [ho] at hmem
    exact .bind (.look fun _ _ heq => by cases heq) fun _ =>
      .bind (read_faultless (hmem _ (by simp)) _) fun _ =>
        .bind (write_faultless (hmem _ (by simp)) _ _) fun _ => .pure _
  case h_10 hm ho =>
    have hmem := hmem (by rw [hm]; simp)
    rw [ho] at hmem
    refine .bind (read_faultless (hmem _ (by simp)) _) fun d => .bind (.look fun m p heq => ?_)
      fun _ => .bind (.change _) fun _ => .pure _
    dsimp only at heq
    generalize divide _ _ _ d = r at heq
    cases r <;> cases heq
  case h_12 hm ho =>
    have hmem := hmem (by rw [hm]; simp)
    rw [ho] at hmem
    exact .bind (.look fun _ _ heq => by cases heq) fun _ =>
      .bind (write_faultless (hmem _ (by simp)) _ _) fun _ => .pure _
  case h_13 => exact .bind (.look fun _ _ heq => by cases heq) fun _ => .pure _
  case h_3 | h_8 | h_9 => exact .bind (.change _) fun _ => .pure _
  case h_14 | h_15 => exact .pure _
  case h_16 => exact .throw fun _ h => by cases h
  case h_17 =>
    by_cases hm : i.mnemonic = .lea
    · obtain ⟨mnemonic, size, operands⟩ := i
      obtain rfl : mnemonic = .lea := hm
      exact .bind (.throw fun _ h => by cases h) fun _ => .pure _
    · exact .bind (stepXmm_faultless (hmem hm)) fun _ => .pure _

/-- An instruction jumps only to a label that it has as an operand. -/
theorem step_returns (i : Inst) :
    Returns (fun flow => ∀ l, flow = .jump l → i.mentions l = true) (step i) := by
  have hplain : ∀ l, Flow.next = .jump l → i.mentions l = true := fun _ h => by cases h
  unfold step
  split
  case h_13 hm ho =>
    refine .bind fun taken => .pure fun l hl => ?_
    cases taken with
    | true =>
        obtain rfl := Flow.jump.inj hl
        simp [Inst.mentions, ho]
    | false => cases hl
  case h_14 hm ho =>
    refine .pure fun l hl => ?_
    obtain rfl := Flow.jump.inj hl
    simp [Inst.mentions, ho]
  case h_15 => exact .pure fun _ h => by cases h
  case h_16 => exact .throw _
  case h_1 | h_2 | h_4 | h_11 | h_12 =>
    exact .bind fun _ => .bind fun _ => .pure hplain
  case h_3 | h_5 | h_6 | h_8 | h_9 | h_17 => exact .bind fun _ => .pure hplain
  case h_7 | h_10 => exact .bind fun _ => .bind fun _ => .bind fun _ => .pure hplain

theorem step_plain {i : Inst} (h : i.isPlain = true) : Returns (· = .next) (step i) := by
  unfold step
  split
  case h_13 hm _ | h_14 hm _ | h_15 hm _ =>
    rw [Inst.isPlain, hm] at h
    exact absurd h Bool.false_ne_true
  case h_16 => exact .throw _
  case h_1 | h_2 | h_4 | h_11 | h_12 =>
    exact .bind fun _ => .bind fun _ => .pure rfl
  case h_3 | h_5 | h_6 | h_8 | h_9 | h_17 => exact .bind fun _ => .pure rfl
  case h_7 | h_10 => exact .bind fun _ => .bind fun _ => .bind fun _ => .pure rfl

/-! ### Stretches of code -/

/-- Executes instructions one after the other, up to a jump or a return. -/
def exec : List Inst → Exec Flow
  | [] => pure .next
  | i :: is => do
    match ← step i with
    | .next => exec is
    | flow => return flow

theorem exec_writes {is : List Inst} {rs : List Reg} {stores : Bool}
    (hrs : ∀ i ∈ is, i.writes ⊆ rs) (hstores : ∀ i ∈ is, i.stores = true → stores = true) :
    Writes rs stores (exec is) := by
  induction is with
  | nil => exact .pure _
  | cons i is ih =>
      refine .bind (fun m => ?_) fun flow => ?_
      · exact (step_writes i m).mono (hrs i List.mem_cons_self) (hstores i List.mem_cons_self)
      · cases flow with
        | next =>
            exact ih (fun j hj => hrs j (List.mem_cons_of_mem i hj))
              fun j hj => hstores j (List.mem_cons_of_mem i hj)
        | jump l => exact .pure _
        | halt => exact .pure _

theorem exec_returns (is : List Inst) :
    Returns (fun flow => ∀ l, flow = .jump l → ∃ i ∈ is, i.mentions l = true) (exec is) := by
  induction is with
  | nil => exact .pure fun _ h => by cases h
  | cons i is ih =>
      intro m m' flow hrun l hl
      cases hstep : step i m with
      | mk result m₁ =>
          cases result with
          | error t => exact absurd (congrArg Prod.fst ((bind_error hstep).symm.trans hrun)) (by simp)
          | ok flow₁ =>
              have hrest := (bind_ok hstep).symm.trans hrun
              cases flow₁ with
              | next =>
                  obtain ⟨j, hj, hmentions⟩ := ih m₁ m' flow hrest l hl
                  exact ⟨j, List.mem_cons_of_mem i hj, hmentions⟩
              | jump l₁ =>
                  have hflow := Except.ok.inj (congrArg Prod.fst hrest)
                  exact ⟨i, List.mem_cons_self, step_returns i m m₁ _ hstep l (hflow.trans hl)⟩
              | halt =>
                  have hflow := Except.ok.inj (congrArg Prod.fst hrest)
                  exact absurd (hflow.trans hl) (by simp)

theorem exec_plain {is : List Inst} (h : ∀ i ∈ is, i.isPlain = true) : Returns (· = .next) (exec is) := by
  induction is with
  | nil => exact .pure rfl
  | cons i is ih =>
      refine (step_plain (h i List.mem_cons_self)).bind_of fun flow hflow => ?_
      subst hflow
      exact ih fun j hj => h j (List.mem_cons_of_mem i hj)

/-- Code that ends in a return leaves nowhere else. -/
theorem exec_plain_ret {is : List Inst} (h : ∀ i ∈ is, i.isPlain = true) :
    Returns (· = .halt) (exec (is ++ [Inst.ret])) := by
  induction is with
  | nil => exact fun m m' flow hrun => (Except.ok.inj (congrArg Prod.fst hrun)).symm
  | cons i is ih =>
      refine (step_plain (h i List.mem_cons_self)).bind_of fun flow hflow => ?_
      subst hflow
      exact ih fun j hj => h j (List.mem_cons_of_mem i hj)

theorem exec_faultless {is : List Inst} (h : ∀ i ∈ is, i.accesses = false) :
    Faultless (exec is) := by
  induction is with
  | nil => exact .pure _
  | cons i is ih =>
      refine .bind (step_faultless (h i List.mem_cons_self)) fun flow => ?_
      cases flow with
      | next => exact ih fun j hj => h j (List.mem_cons_of_mem i hj)
      | jump l => exact .pure _
      | halt => exact .pure _

end Machine

end Isel
