import Isel.Proofs.Families

/-! The forms of instructions that the machine executes, and the forms that emission writes. A form
is stuck if the machine has no rule for it; no emitted instruction is. An emitted instruction mentions
only labels of successors, apart from the jumps of a bounds check to the trap, and it belongs to an
extension of the instruction set only if its operator does. -/

namespace Isel

/-- The traps of code that the machine has no rule for. -/
def Trap.isStuck : Trap → Bool
  | unboundLabel | unknownForm _ | unknownOperand _ _ => true
  | _ => false

/-- An integer can be read from it. -/
def Operand.isReadable : Operand → Bool
  | gpr _ | imm _ | mem _ => true
  | _ => false

/-- An integer can be written to it. -/
def Operand.isWritable : Operand → Bool
  | gpr _ | mem _ => true
  | _ => false

/-- A floating-point number can be read from it. -/
def Operand.isLane : Operand → Bool
  | xmm _ | mem _ => true
  | _ => false

theorem Operand.isReadable_of_isWritable {o : Operand} (h : o.isWritable = true) :
    o.isReadable = true := by
  cases o <;> first | rfl | exact h

/-- The forms of the integer instructions and of the jumps. -/
def Inst.knownInt (i : Inst) : Bool :=
  match i.mnemonic, i.operands with
  | .mov, [dst, src] | .widen _, [dst, src] | .arith _, [dst, src] | .count _, [dst, src] =>
    dst.isWritable && src.isReadable
  | .cmp, [dst, src] | .test, [dst, src] => dst.isReadable && src.isReadable
  | .lea, [.gpr _, .mem _] => true
  | .shift _, [dst, .gpr _] => dst.isWritable
  | .cqo, [] | .cdq, [] | .ret, [] | .ud2, [] => true
  | .divide _, [divisor] => divisor.isReadable
  | .set _, [dst] => dst.isWritable
  | .jumpIf _, [.label _] | .jmp, [.label _] => true
  | _, _ => false

/-- The forms of the instructions on floating-point registers. -/
def Inst.knownXmm (i : Inst) : Bool :=
  match i.mnemonic, i.operands with
  | .movs _, [.xmm _, .xmm _] | .movs _, [.xmm _, .mem _] | .movs _, [.mem _, .xmm _] => true
  | .movq, [.xmm _, .gpr _] | .movq, [.gpr _, .xmm _] => true
  | .scalar _ _, [.xmm _, src] | .sqrt _, [.xmm _, src] | .round _, [.xmm _, src, .imm _] =>
    src.isLane
  | .pcmpeqd, [.xmm _, .xmm _] | .andpd, [.xmm _, .xmm _] | .xorpd, [.xmm _, .xmm _] => true
  | .psllq, [.xmm _, .imm _] | .psrlq, [.xmm _, .imm _] => true
  | _, _ => false

/-- A form that the machine has a rule for. -/
def Inst.isKnown (i : Inst) : Bool := i.knownInt || i.knownXmm

/-- The traps in which an instruction of a known form may end. -/
def Inst.mayRaise (i : Inst) : Trap → Prop
  | .divideError | .fault _ => True
  | .unreachable => i.mnemonic = .ud2
  | _ => False

theorem Inst.mayRaise.isStuck {i : Inst} {t : Trap} (h : i.mayRaise t) : t.isStuck = false := by
  cases t <;> first | rfl | exact h.elim

namespace Exec

variable {α β : Type} {P : Trap → Prop} {x : Exec α} {f : α → Exec β}

/-- Every trap of a computation has a property. -/
def Raises (P : Trap → Prop) (x : Exec α) : Prop := ∀ m m' t, x m = (.error t, m') → P t

theorem Raises.bind (hx : Raises P x) (hf : ∀ a, Raises P (f a)) : Raises P (x >>= f) := by
  intro m m' t h
  cases hrun : x m with
  | mk result m₁ =>
      cases result with
      | ok a =>
          rw [bind_ok hrun] at h
          exact hf a m₁ m' t h
      | error u =>
          rw [bind_error hrun] at h
          obtain rfl := Except.error.inj (congrArg Prod.fst h)
          exact hx m m₁ u hrun

theorem Raises.pure (a : α) : Raises P (Pure.pure a : Exec α) := by
  intro m m' t h
  exact absurd (congrArg Prod.fst h) (by intro heq; cases heq)

theorem Raises.throw {t : Trap} (h : P t) : Raises P (MonadExcept.throw t : Exec α) := by
  intro m m' u hu
  obtain rfl := Except.error.inj (congrArg Prod.fst hu)
  exact h

theorem Raises.change (f : Machine → Machine) : Raises P (Exec.change f) := by
  intro m m' t h
  exact absurd (congrArg Prod.fst h) (by intro heq; cases heq)

theorem Raises.look {f : Machine → Except Trap α} (h : ∀ m t, f m = .error t → P t) :
    Raises P (Exec.look f) := by
  intro m m' t ht
  exact h m t (congrArg Prod.fst ht)

theorem Raises.look_ok (v : Machine → α) : Raises P (Exec.look fun m => .ok (v m)) :=
  .look fun _ _ h => by cases h

end Exec

namespace Machine

open Exec

variable {i : Inst} {o dst src : Operand}

theorem loadAt_raises {n : Nat} {m : Machine} {p : BitVec 64} {t : Trap}
    (h : m.loadAt n p = .error t) : i.mayRaise t := by
  unfold loadAt at h
  split at h
  · exact absurd h (by simp)
  · obtain rfl := Except.error.inj h
    exact trivial

theorem read_raises (h : o.isReadable = true) (s : Size) :
    Raises i.mayRaise (look fun m => m.read s o) := by
  refine .look fun m t ht => ?_
  cases o with
  | gpr r | imm v => injection ht
  | mem a => exact loadAt_raises (n := s.bytes) (p := m.address a) ht
  | xmm r | label l => exact absurd h (by simp [Operand.isReadable])

theorem readLane_raises (h : o.isLane = true) (w : FloatWidth) :
    Raises i.mayRaise (look fun m => m.readLane w o) := by
  refine .look fun m t ht => ?_
  cases o with
  | xmm r => injection ht
  | mem a =>
      cases w
      · exact loadAt_raises (n := 4) (p := m.address a) ht
      · exact loadAt_raises (n := 8) (p := m.address a) ht
  | gpr r | imm v | label l => exact absurd h (by simp [Operand.isLane])

theorem store_raises (n : Nat) (a : Address) (v : BitVec 64) : Raises i.mayRaise (store n a v) := by
  refine .bind (.look_ok _) fun p m m' t ht => ?_
  unfold storeAt at ht
  split at ht
  · exact absurd (congrArg Prod.fst ht) (by simp)
  · obtain rfl := Except.error.inj (congrArg Prod.fst ht)
    exact trivial

theorem write_raises (h : o.isWritable = true) (s : Size) (v : BitVec s.bits) :
    Raises i.mayRaise (write s o v) := by
  cases o with
  | gpr r => exact .change _
  | mem a => exact store_raises _ _ _
  | xmm r | imm v | label l => exact absurd h (by simp [Operand.isWritable])

theorem compute_raises (hdst : dst.isReadable = true) (hsrc : src.isReadable = true) (op : Arith)
    (s : Size) : Raises i.mayRaise (compute op s dst src) :=
  .bind (read_raises hdst s) fun _ => .bind (read_raises hsrc s) fun _ =>
    .bind (.change _) fun _ => .pure _

theorem stepXmm_raises (h : i.knownXmm = true) : Raises i.mayRaise (stepXmm i) := by
  obtain ⟨mnemonic, size, operands⟩ := i
  unfold Inst.knownXmm at h
  dsimp only at h
  split at h
  case h_1 | h_4 | h_5 | h_9 | h_10 | h_11 | h_12 | h_13 => exact .change _
  case h_2 => exact .bind (readLane_raises rfl _) fun _ => .change _
  case h_3 => exact .bind (.look_ok _) fun _ => store_raises _ _ _
  case h_6 | h_7 | h_8 => exact .bind (readLane_raises h _) fun _ => .change _
  case h_14 => exact absurd h Bool.false_ne_true

theorem divide_raises {signed : Bool} {s : Size} {d : BitVec s.bits} : Raises i.mayRaise
    (look fun m => (divide signed ((m.gpr .rdx).setWidth s.bits) ((m.gpr .rax).setWidth s.bits) d).elim
      (.error .divideError) .ok) := by
  refine .look fun m t ht => ?_
  generalize divide _ _ _ d = result at ht
  cases result with
  | none =>
      obtain rfl := Except.error.inj ht
      exact trivial
  | some r => injection ht

theorem stepInt_raises (h : i.knownInt = true) : Raises i.mayRaise (step i) := by
  obtain ⟨mnemonic, size, operands⟩ := i
  unfold Inst.knownInt at h
  dsimp only at h
  split at h
  case h_1 | h_2 | h_4 =>
    obtain ⟨hdst, hsrc⟩ := Bool.and_eq_true_iff.mp h
    exact .bind (read_raises hsrc _) fun _ => .bind (write_raises hdst _ _) fun _ => .pure _
  case h_3 =>
    obtain ⟨hdst, hsrc⟩ := Bool.and_eq_true_iff.mp h
    exact .bind (compute_raises (Operand.isReadable_of_isWritable hdst) hsrc _ _) fun _ =>
      .bind (write_raises hdst _ _) fun _ => .pure _
  case h_5 | h_6 =>
    obtain ⟨hdst, hsrc⟩ := Bool.and_eq_true_iff.mp h
    exact .bind (compute_raises hdst hsrc _ _) fun _ => .pure _
  case h_7 => exact .bind (.change _) fun _ => .pure _
  case h_8 =>
    exact .bind (.look_ok _) fun _ => .bind (read_raises (Operand.isReadable_of_isWritable h) _)
      fun _ => .bind (write_raises h _ _) fun _ => .pure _
  case h_9 | h_10 => exact .bind (.change _) fun _ => .pure _
  case h_11 => exact .pure _
  case h_12 => exact .throw rfl
  case h_13 =>
    exact .bind (read_raises h _) fun _ => .bind divide_raises fun _ => .bind (.change _) fun _ =>
      .pure _
  case h_14 => exact .bind (.look_ok _) fun _ => .bind (write_raises h _ _) fun _ => .pure _
  case h_15 => exact .bind (.look_ok _) fun _ => .pure _
  case h_16 => exact .pure _
  case h_17 => exact absurd h Bool.false_ne_true

/-- An instruction of a known form traps only on a division, on an access or as it is told to. -/
theorem step_raises (h : i.isKnown = true) : Raises i.mayRaise (step i) := by
  rcases Bool.or_eq_true_iff.mp h with hint | hxmm
  · exact stepInt_raises hint
  · have hstep : step i = do stepXmm i; return .next := by
      obtain ⟨mnemonic, size, operands⟩ := i
      cases mnemonic <;> first | rfl | exact absurd hxmm Bool.false_ne_true
    rw [hstep]
    exact .bind (stepXmm_raises hxmm) fun _ => .pure _

end Machine

/-- The extension of the instruction set that an instruction belongs to. -/
def Mnemonic.extension? : Mnemonic → Option Feature
  | count .leading => some .lzcnt
  | count .trailing => some .bmi1
  | count .ones => some .popcnt
  | round _ => some .sse41
  | _ => none

/-- The extension that the target needs for an operator. -/
def Operator.extension? : Operator → Option Feature
  | bitCount _ .leading => some .lzcnt
  | bitCount _ .trailing => some .bmi1
  | bitCount _ .ones => some .popcnt
  | floatUnary _ (.round _) => some .sse41
  | _ => none

/-- A known form of the basic instruction set that has no label, and is not made to trap. -/
def Inst.isBasic (i : Inst) : Bool :=
  i.isKnown && i.mnemonic != .ud2 && i.mnemonic.extension?.isNone && i.labels.isEmpty

theorem Inst.mem_labels {i : Inst} {l : Nat} : l ∈ i.labels ↔ i.mentions l = true := by
  rw [labels, List.mem_filterMap, mentions, List.contains_iff_mem]
  constructor
  · rintro ⟨o, ho, hl⟩
    cases o
    case label l' =>
      obtain rfl := Option.some.inj hl
      exact ho
    all_goals exact absurd hl (by simp)
  · exact fun h => ⟨.label l, h, rfl⟩

/-- What holds of the instructions that a family writes for a node. -/
structure Inst.Issued (i : Inst) (s : Site) (f : Family) : Prop where
  known : i.isKnown = true
  defined : i.mnemonic ≠ .ud2
  extension : ∀ x, i.mnemonic.extension? = some x → s.op.extension? = some x
  label : ∀ l, i.mentions l = true →
    l ∈ s.successors ∨ f = .boundsCheck ∧ l = s.trap ∧ ∃ c, i = .jumpIf c l

namespace Inst.Issued

variable {i : Inst} {is : List Inst} {s : Site} {f : Family} {l : Nat}

theorem of_basic (h : i.isBasic = true) : i.Issued s f := by
  simp only [isBasic, Bool.and_eq_true, bne_iff_ne, Option.isNone_iff_eq_none,
    List.isEmpty_iff] at h
  obtain ⟨⟨⟨hknown, hdefined⟩, hextension⟩, hlabels⟩ := h
  refine ⟨hknown, hdefined, fun x hx => ?_, fun l hl => ?_⟩
  · exact absurd (hextension.symm.trans hx) (by simp)
  · have hmem := mem_labels.mpr hl
    rw [hlabels] at hmem
    exact absurd hmem List.not_mem_nil

theorem of_all (h : is.all Inst.isBasic = true) : ∀ i ∈ is, i.Issued s f :=
  fun i hi => of_basic (List.all_eq_true.mp h i hi)

theorem jumpIf {c : Condition} (hl : l ∈ s.successors) : (Inst.jumpIf c l).Issued s f where
  known := rfl
  defined := Mnemonic.noConfusion
  extension _ hx := absurd hx (by simp [Inst.jumpIf, Mnemonic.extension?])
  label l' hl' := by
    obtain rfl : l' = l := by simpa [mentions, Inst.jumpIf] using hl'
    exact .inl hl

theorem jmp (hl : l ∈ s.successors) : (Inst.jmp l).Issued s f where
  known := rfl
  defined := Mnemonic.noConfusion
  extension _ hx := absurd hx (by simp [Inst.jmp, Mnemonic.extension?])
  label l' hl' := by
    obtain rfl : l' = l := by simpa [mentions, Inst.jmp] using hl'
    exact .inl hl

/-- A bounds check may jump to the trap. -/
theorem check (c : Condition) : (Inst.jumpIf c s.trap).Issued s .boundsCheck where
  known := rfl
  defined := Mnemonic.noConfusion
  extension _ hx := absurd hx (by simp [Inst.jumpIf, Mnemonic.extension?])
  label l hl := by
    obtain rfl : l = s.trap := by simpa [mentions, Inst.jumpIf] using hl
    exact .inr ⟨rfl, rfl, c, rfl⟩

end Inst.Issued

namespace Emit

variable {s : Site} {f : Family} {is : List Inst}

theorem jumps_issued {c : Condition} {t o : Nat} (ht : t ∈ s.successors) (ho : o ∈ s.successors) :
    ∀ i ∈ jumps s c t o, i.Issued s f := by
  unfold jumps
  split
  · split
    · exact .of_all rfl
    · exact List.forall_mem_singleton.mpr (.jumpIf ho)
  · split
    · exact List.forall_mem_singleton.mpr (.jumpIf ht)
    · exact List.forall_mem_cons.mpr ⟨.jumpIf ht, List.forall_mem_singleton.mpr (.jmp ho)⟩

theorem bitCount_issued (h : bitCount s = .ok is) : ∀ i ∈ is, i.Issued s f := by
  obtain ⟨w, op, out, input, hop, -, -, rfl⟩ := bitCount_ok h
  refine List.forall_mem_singleton.mpr ⟨rfl, Mnemonic.noConfusion, fun x hx => ?_, fun l hl => ?_⟩
  · rw [hop]
    cases op <;> exact hx
  · exact absurd hl (by simp [Inst.mentions, Inst.gprs])

theorem floatUnary_issued (h : floatUnary s = .ok is) : ∀ i ∈ is, i.Issued s f := by
  obtain ⟨w, op, out, input, hop, -, -, rfl⟩ := floatUnary_ok h
  cases op with
  | sqrt => exact .of_all rfl
  | abs | neg => dsimp only; split <;> exact .of_all rfl
  | round mode =>
      refine List.forall_mem_singleton.mpr ⟨rfl, Mnemonic.noConfusion, fun x hx => ?_, fun l hl => ?_⟩
      · rw [hop]
        exact hx
      · exact absurd hl (by simp [Inst.mentions, Inst.round])

theorem boundsCheck_issued (h : boundsCheck s = .ok is) : ∀ i ∈ is, i.Issued s .boundsCheck := by
  obtain ⟨disp, l, out, addr, size, stop, -, -, -, -, -, -, rfl⟩ := boundsCheck_ok h
  refine List.forall_mem_append.mpr ⟨?_, ?_⟩
  · refine List.forall_mem_cons.mpr ⟨.of_basic rfl, List.forall_mem_cons.mpr ⟨.of_basic rfl, ?_⟩⟩
    refine List.forall_mem_cons.mpr ⟨.check .b, List.forall_mem_cons.mpr ⟨.of_basic rfl, ?_⟩⟩
    exact List.forall_mem_singleton.mpr (.check .a)
  · split <;> exact .of_all rfl

theorem ret_issued : ∀ i ∈ ret s, i.Issued s f := by
  refine List.forall_mem_append.mpr ⟨?_, .of_all rfl⟩
  split
  · split <;> exact .of_all rfl
  · split <;> exact .of_all rfl
  · exact .of_all rfl

end Emit

namespace Family

variable {f : Family} {s : Site} {is : List Inst}

/-- Every instruction of a node has a known form, jumps only to a successor or, in a bounds check, to
the trap, and is in an extension only with the operator. -/
theorem emit_issued (h : f.emit s = .ok is) : ∀ i ∈ is, i.Issued s f := by
  cases f
  case arith =>
    obtain ⟨op, size, out, left, right, -, -, -, -, rfl⟩ := Emit.arith_ok (Emit.whole_eq_ok.mp h)
    exact forall_mem_twoOperand (fun _ _ _ => .of_basic rfl) fun _ _ _ => .of_all rfl
  case shift =>
    obtain ⟨op, size, out, value, count, -, -, -, -, rfl⟩ := Emit.shift_ok (Emit.whole_eq_ok.mp h)
    exact forall_mem_twoOperand (fun _ _ _ => .of_basic rfl) fun _ _ _ => .of_all rfl
  case division =>
    obtain ⟨w, signed, divisor, -, -, rfl⟩ := Emit.division_ok (Emit.whole_eq_ok.mp h)
    cases signed
    · exact .of_all rfl
    · cases w <;> exact .of_all rfl
  case bitCount => exact Emit.bitCount_issued (Emit.whole_eq_ok.mp h)
  case extend32 =>
    obtain ⟨signed, out, input, -, -, -, rfl⟩ := Emit.extend32_ok (Emit.whole_eq_ok.mp h)
    cases signed <;> exact .of_all rfl
  case intConst =>
    obtain ⟨l, out, -, -, rfl⟩ := Emit.intConst_ok (Emit.whole_eq_ok.mp h)
    split <;> exact .of_all rfl
  case intBool =>
    obtain ⟨w, out, input, -, -, -, rfl⟩ := Emit.intBool_ok (Emit.whole_eq_ok.mp h)
    exact .of_all rfl
  case compare =>
    obtain ⟨c, out, left, right, -, -, -, -, rfl⟩ := Emit.compare_ok (Emit.whole_eq_ok.mp h)
    exact .of_all rfl
  case floatBinary =>
    obtain ⟨w, op, out, left, right, -, -, -, -, rfl⟩ :=
      Emit.floatBinary_ok (Emit.whole_eq_ok.mp h)
    refine forall_mem_twoOperand (fun _ _ _ => .of_basic rfl) fun _ _ _ => ?_
    cases op <;> exact .of_all rfl
  case floatUnary => exact Emit.floatUnary_issued (Emit.whole_eq_ok.mp h)
  case floatConst =>
    obtain ⟨v, out, -, rfl⟩ := Emit.floatConst_ok (Emit.whole_eq_ok.mp h)
    exact .of_all rfl
  case floatBool =>
    obtain ⟨w, out, input, -, -, -, rfl⟩ := Emit.floatBool_ok (Emit.whole_eq_ok.mp h)
    cases w <;> exact .of_all rfl
  case context =>
    obtain ⟨disp, out, base, -, -, -, rfl⟩ := Emit.context_ok (Emit.whole_eq_ok.mp h)
    exact .of_all rfl
  case boundsCheck => exact Emit.boundsCheck_issued (Emit.whole_eq_ok.mp h)
  case load =>
    obtain ⟨access, base, index, -, -, -, ⟨w, out, -, -, rfl⟩ | ⟨-, out, -, rfl⟩⟩ :=
      Emit.load_ok (Emit.whole_eq_ok.mp h)
    · exact .of_all rfl
    · refine List.forall_mem_singleton.mpr ?_
      unfold Emit.intLoad
      split <;> exact .of_basic rfl
  case store =>
    obtain ⟨access, base, index, -, -, -, ⟨w, src, -, -, rfl⟩ | ⟨size, src, -, -, rfl⟩⟩ :=
      Emit.store_ok (Emit.whole_eq_ok.mp h)
    · exact .of_all rfl
    · exact .of_all rfl
  case updateState =>
    obtain ⟨out, state, -, -, rfl⟩ := Emit.updateState_ok (Emit.whole_eq_ok.mp h)
    split <;> exact .of_all rfl
  case ret =>
    rw [← Except.ok.inj h]
    exact Emit.ret_issued
  case state | intRet | floatRet =>
    rw [← Except.ok.inj h]
    exact .of_all rfl
  case branch =>
    obtain ⟨predicate, t, o, -, ht, ho, rfl⟩ := Emit.branch_ok h
    have hjumps := Emit.jumps_issued (f := .branch) (c := .ne) (List.mem_of_getElem? ht)
      (List.mem_of_getElem? ho)
    exact List.forall_mem_cons.mpr ⟨.of_basic rfl, hjumps⟩
  case branchOn =>
    obtain ⟨c, left, right, t, o, -, -, -, ht, ho, rfl⟩ := Emit.branchOn_ok h
    have hjumps := Emit.jumps_issued (f := .branchOn) (c := .ofComparison c) (List.mem_of_getElem? ht)
      (List.mem_of_getElem? ho)
    exact List.forall_mem_cons.mpr ⟨.of_basic rfl, hjumps⟩
  case jump =>
    obtain ⟨t, ht, rfl⟩ := Emit.jump_ok (Emit.whole_eq_ok.mp h)
    split
    · exact .of_all rfl
    · exact List.forall_mem_singleton.mpr (.jmp (List.mem_of_getElem? ht))

end Family

end Isel
