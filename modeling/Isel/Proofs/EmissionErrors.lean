import Isel.Proofs.Accepted
import Isel.Proofs.Extensions
import Isel.Proofs.Typing

/-! When the instructions of a node cannot be written although its registers were accepted. No error
is about a register of the wrong class or about an operand that is not there, except for the state
of an update, which may be in a register of any class. -/

namespace Isel

/-- What emission refuses in a node with accepted registers, with the error. -/
inductive Site.Refuses (s : Site) : Error → Prop
  | literal (hop : (∃ ty, s.op = .const ty) ∨ s.op = .target .boundsCheck)
      (hnone : s.node.literals = []) : s.Refuses (s.violation "missing literal")
  | width {l : Literal} (hop : s.op = .target .boundsCheck) (hl : s.node.literals.head? = some l)
      (hwide : l.toInt.toInt < -2 ^ 31 ∨ 2 ^ 31 ≤ l.toInt.toInt) :
      s.Refuses (.malformed s!"bounds check width {Decimal.renderInt l.toInt} out of range")
  | successor (hshort : s.successors.length < s.op.successorCount) :
      s.Refuses (s.violation s!"missing successor {s.successors.length}")
  | state {r : Xmm} (hop : s.op = .updateState) (hxmm : s.inputs[0]? = some (.xmm r)) :
      s.Refuses (s.violation "input 0 is not a general purpose register")

namespace FailsOnly

variable {ε α : Type} {P : ε → Prop} {x : Except ε α}

theorem of_exists_ok (h : ∃ a, x = .ok a) : FailsOnly P x := by
  obtain ⟨a, rfl⟩ := h
  exact .ok a

end FailsOnly

namespace Site

variable {s : Site} {e e' : Error}

/-- A node is refused for one reason. -/
theorem Refuses.unique (h : s.Refuses e) (h' : s.Refuses e') : e = e' := by
  cases h with
  | literal hop hnone =>
      cases h' with
      | literal => rfl
      | width _ hl => simp [hnone] at hl
      | successor hshort =>
          rcases hop with ⟨ty, hop⟩ | hop
          all_goals simp [hop, Operator.successorCount] at hshort
      | state hop' => simp [hop'] at hop
  | width hop hl =>
      cases h' with
      | literal _ hnone => simp [hnone] at hl
      | width _ hl' =>
          obtain rfl := Option.some.inj (hl.symm.trans hl')
          rfl
      | successor hshort => simp [hop, Operator.successorCount] at hshort
      | state hop' => simp [hop'] at hop
  | successor hshort =>
      cases h' with
      | literal hop =>
          rcases hop with ⟨ty, hop⟩ | hop
          all_goals simp [hop, Operator.successorCount] at hshort
      | width hop | state hop => simp [hop, Operator.successorCount] at hshort
      | successor => rfl
  | state hop =>
      cases h' with
      | literal hop' => simp [hop] at hop'
      | width hop' => simp [hop] at hop'
      | successor hshort => simp [hop, Operator.successorCount] at hshort
      | state => rfl

/-! ### Why each reading of a node fails -/

theorem literal_failsOnly (hop : (∃ ty, s.op = .const ty) ∨ s.op = .target .boundsCheck) :
    FailsOnly s.Refuses s.literal := by
  unfold Site.literal
  split
  · exact .ok _
  · next hnone => exact .error (.literal hop (List.head?_eq_none_iff.mp hnone))

/-- Successors are read in order, so the first that is missing is named. -/
theorem successor_failsOnly {i : Nat} (hi : i < s.op.successorCount) (hle : i ≤ s.successors.length) :
    FailsOnly s.Refuses (s.successor i) := by
  unfold Site.successor
  split
  · exact .ok _
  · next hnone =>
      have hlength : s.successors.length = i := by
        have hge := List.getElem?_eq_none_iff.mp hnone
        omega
      refine .error ?_
      rw [← hlength]
      exact .successor (by omega)

theorem inGpr_failsOnly {r : Reg} (hop : s.op = .updateState) (hin : s.inputs[0]? = some r) :
    FailsOnly s.Refuses (s.inGpr 0) := by
  cases r with
  | gpr r => exact .of_exists_ok ⟨r, inGpr_eq_ok.mpr hin⟩
  | xmm r =>
      rw [inGpr, hin]
      exact .error (.state hop hin)

end Site

namespace Emit

variable {s : Site}

theorem checkWidth_failsOnly (hop : s.op = .target .boundsCheck) :
    FailsOnly s.Refuses (checkWidth s) := by
  refine .bind (Site.literal_failsOnly (.inr hop)) fun l hl => ?_
  dsimp only
  split
  · exact .ok _
  · next hne =>
      rw [signExtend_setWidth_eq_iff] at hne
      exact .error (.width hop (Site.literal_eq_ok.mp hl) (by omega))

theorem branchTo_failsOnly {c : Condition} (hcount : s.op.successorCount = 2) :
    FailsOnly s.Refuses (branchTo s c) := by
  refine .bind (Site.successor_failsOnly (by omega) (Nat.zero_le _)) fun taken htaken => ?_
  obtain ⟨b, hb, -⟩ := Site.successor_eq_ok.mp htaken
  obtain ⟨hlt, -⟩ := List.getElem?_eq_some_iff.mp hb
  exact .bind (Site.successor_failsOnly (by omega) hlt) fun _ _ => .ok _

theorem branchAfter_failsOnly {test : Inst} {c : Condition} (hcount : s.op.successorCount = 2) :
    FailsOnly (fun p => s.Refuses p.2) (branchAfter s test c) := by
  unfold branchAfter
  split
  · exact .ok _
  · next e he => exact .error (branchTo_failsOnly hcount e he)

end Emit

namespace Accepted

variable {n : Node} {d : Descriptor} {x : Assignment} {s : Site} {e : Error}

/-- An emission with accepted registers fails for one of the reasons. -/
theorem emit_failsOnly (h : Accepted n d x) (hs : s.Sees n x) :
    FailsOnly (fun p => s.Refuses p.2) (d.family.emit s) := by
  by_cases hready : s.Ready
  · exact .of_exists_ok (h.emits_at hs hready)
  -- Only the operators that need more than registers are left.
  have hnode : s.op = n.op := congrArg Node.op hs.node
  have hout {q : Requirement} := h.outGpr (q := q) hs
  have hin {q : Requirement} := h.inGpr (q := q) hs
  unfold Site.Ready at hready
  split at hready
  · next ty hop =>
      cases ty with
      | int w =>
          have hfamily : d.family = .intConst := h.family_eq (by rw [← hnode, hop]; rfl)
          rw [hfamily] at hout ⊢
          refine .mapError (.bind (Site.literal_failsOnly (.inl ⟨_, hop⟩)) fun _ _ =>
            .bind (.of_exists_ok (hout rfl rfl)) fun _ _ => ?_)
          split <;> exact .ok _
      | float w =>
          have hfamily : d.family = .floatConst := h.family_eq (by rw [← hnode, hop]; rfl)
          have houtXmm : ∃ r, s.outXmm = .ok r := h.outXmm hs (by rw [hfamily]; rfl) rfl
          rw [hfamily]
          refine .mapError (.bind (Site.literal_failsOnly (.inl ⟨_, hop⟩)) fun _ _ => ?_)
          rw [hop]
          exact .bind (.of_exists_ok houtXmm) fun _ _ => .ok _
  · next hop =>
      have hfamily : d.family = .boundsCheck := h.family_eq (by rw [← hnode, hop]; rfl)
      have hstop : ∃ r, s.scratchGpr 0 = .ok r :=
        h.scratchGpr hs (e := ⟨.scratch, 0, .gpr⟩) (by rw [hfamily]; exact List.mem_singleton_self _) rfl
      rw [hfamily] at hout hin ⊢
      exact .mapError (.bind (Emit.checkWidth_failsOnly hop) fun _ _ =>
        .bind (.of_exists_ok (hout rfl rfl)) fun _ _ =>
        .bind (.of_exists_ok (hin 1 rfl rfl)) fun _ _ =>
        .bind (.of_exists_ok (hin 2 rfl rfl)) fun _ _ =>
        .bind (.of_exists_ok hstop) fun _ _ => .ok _)
  · next hop =>
      have hfamily : d.family = .branch := h.family_eq (by rw [← hnode, hop]; rfl)
      rw [hfamily] at hin ⊢
      exact .bind (.mapError (.of_exists_ok (hin 0 rfl rfl))) fun _ _ =>
        Emit.branchAfter_failsOnly (by rw [hop]; rfl)
  · next c hop =>
      have hfamily : d.family = .branchOn := h.family_eq (by rw [← hnode, hop]; rfl)
      rw [hfamily] at hin ⊢
      rw [Family.emit, Emit.branchOn, hop]
      exact .bind (.mapError (.of_exists_ok (hin 0 rfl rfl))) fun _ _ =>
        .bind (.mapError (.of_exists_ok (hin 1 rfl rfl))) fun _ _ =>
        Emit.branchAfter_failsOnly (by rw [hop]; rfl)
  · next hop =>
      have hfamily : d.family = .jump := h.family_eq (by rw [← hnode, hop]; rfl)
      rw [hfamily]
      exact .mapError (.bind (Site.successor_failsOnly (by rw [hop]; decide) (Nat.zero_le _))
        fun _ _ => .ok _)
  · next hop =>
      have hfamily : d.family = .updateState := h.family_eq (by rw [← hnode, hop]; rfl)
      obtain ⟨v, r, hr, -⟩ :=
        h.met.input ⟨.input, 0, .any⟩ (by rw [hfamily]; exact List.mem_singleton_self _)
      have hget : s.inputs[0]? = some r := by rw [hs.inputs, List.getElem?_map, hr]; rfl
      rw [hfamily] at hout ⊢
      exact .mapError (.bind (.of_exists_ok (hout rfl rfl)) fun _ _ =>
        .bind (Site.inGpr_failsOnly hop hget) fun _ _ => .ok _)
  · exact absurd trivial hready

/-- What is refused is not emitted. -/
theorem not_refuses_of_emit {is : List Inst} (h : Accepted n d x) (hs : s.Sees n x)
    (hemit : d.family.emit s = .ok is) : ¬s.Refuses e := by
  have hnode : s.op = n.op := congrArg Node.op hs.node
  intro hrefuses
  cases hrefuses with
  | literal hop hnone =>
      have hl : ∃ l, s.node.literals.head? = some l := by
        rcases hop with ⟨_ | w, hop⟩ | hop
        · rw [h.family_eq (f := .intConst) (by rw [← hnode, hop]; rfl)] at hemit
          obtain ⟨l, out, hl, -⟩ := Emit.intConst_ok (Emit.whole_eq_ok.mp hemit)
          exact ⟨l, hl⟩
        · rw [h.family_eq (f := .floatConst) (by rw [← hnode, hop]; rfl)] at hemit
          obtain ⟨l, hl, -⟩ := bind_eq_ok.mp (Emit.whole_eq_ok.mp hemit)
          exact ⟨l, Site.literal_eq_ok.mp hl⟩
        · rw [h.family_eq (f := .boundsCheck) (by rw [← hnode, hop]; rfl)] at hemit
          obtain ⟨disp, l, out, addr, size, stop, hl, -⟩ :=
            Emit.boundsCheck_ok (Emit.whole_eq_ok.mp hemit)
          exact ⟨l, hl⟩
      simp [hnone] at hl
  | width hop hl hwide =>
      rw [h.family_eq (f := .boundsCheck) (by rw [← hnode, hop]; rfl)] at hemit
      obtain ⟨disp, l', out, addr, size, stop, hl', hdisp, -⟩ :=
        Emit.boundsCheck_ok (Emit.whole_eq_ok.mp hemit)
      obtain rfl := Option.some.inj (hl.symm.trans hl')
      have hint : disp.toInt = _ := (BitVec.toInt_signExtend_of_le (by decide)).symm.trans
        (congrArg BitVec.toInt hdisp)
      have hlow := BitVec.le_toInt disp
      have hhigh := BitVec.toInt_lt (x := disp)
      omega
  | successor hshort =>
      unfold Operator.successorCount at hshort
      split at hshort
      · next hop =>
          rw [h.family_eq (f := .branch) (by rw [← hnode, hop]; rfl)] at hemit
          obtain ⟨predicate, t, o, -, -, ho, -⟩ := Emit.branch_ok hemit
          obtain ⟨hlt, -⟩ := List.getElem?_eq_some_iff.mp ho
          omega
      · next c hop =>
          rw [h.family_eq (f := .branchOn) (by rw [← hnode, hop]; rfl)] at hemit
          obtain ⟨c', left, right, t, o, -, -, -, -, ho, -⟩ := Emit.branchOn_ok hemit
          obtain ⟨hlt, -⟩ := List.getElem?_eq_some_iff.mp ho
          omega
      · next hop =>
          rw [h.family_eq (f := .jump) (by rw [← hnode, hop]; rfl)] at hemit
          obtain ⟨t, ht, -⟩ := Emit.jump_ok (Emit.whole_eq_ok.mp hemit)
          obtain ⟨hlt, -⟩ := List.getElem?_eq_some_iff.mp ht
          omega
      · omega
  | state hop hxmm =>
      rw [h.family_eq (f := .updateState) (by rw [← hnode, hop]; rfl)] at hemit
      obtain ⟨out, state, -, hstate, -⟩ := Emit.updateState_ok (Emit.whole_eq_ok.mp hemit)
      simp [hxmm] at hstate

/-- Accepted registers are strong enough for emission. Whatever successors and fall-through a node
has, its instructions are written unless it is refused, and the error is the one of the refusal. -/
theorem emits_unless_refused (h : Accepted n d x) (hs : s.Sees n x) :
    ((∃ is, d.family.emit s = .ok is) ↔ ∀ e, ¬s.Refuses e) ∧
    ∀ e, (∃ written, d.family.emit s = .error (written, e)) ↔ s.Refuses e := by
  have hfails := h.emit_failsOnly hs
  cases hemit : d.family.emit s with
  | ok is =>
      have hnot (e : Error) : ¬s.Refuses e := h.not_refuses_of_emit hs hemit
      simp [hnot]
  | error p =>
      have hrefuses : s.Refuses p.2 := hfails p hemit
      refine ⟨⟨fun hok => absurd hok (by simp), fun hnone => absurd hrefuses (hnone _)⟩, fun e => ?_⟩
      constructor
      · rintro ⟨written, hw⟩
        obtain rfl := Except.error.inj hw
        exact hrefuses
      · intro he
        obtain rfl := he.unique hrefuses
        exact ⟨p.1, rfl⟩

end Accepted

/-- A bounds check one past the widths that fit, with registers for all its operands. -/
def farCheck : Site where
  node := { op := .target .boundsCheck, inputs := [0, 1, 2], literals := [.int 2147483648] }
  output := some (.gpr .rsi)
  inputs := [.gpr .rdi, .gpr .rcx, .gpr .rsi]
  scratches := [.gpr .rdx]
  successors := []
  fallthrough := none
  trap := 1

def farRegisters : Assignment where
  output := some (.gpr .rsi)
  inputs := [(0, .gpr .rdi), (1, .gpr .rcx), (2, .gpr .rsi)]
  scratches := [.gpr .rdx]

theorem emits_unless_refused_far :
    Accepted farCheck.node ⟨.target .boundsCheck, .boundsCheck, .empty⟩ farRegisters ∧
    ∃ written, Family.boundsCheck.emit farCheck
      = .error (written, .malformed "bounds check width 2147483648 out of range") := by
  have haccepted : Accepted farCheck.node ⟨.target .boundsCheck, .boundsCheck, .empty⟩ farRegisters :=
    ⟨Registry.x64_get? _, by decide, fun _ => rfl⟩
  obtain ⟨-, hrefused⟩ := haccepted.emits_unless_refused (s := farCheck) ⟨rfl, rfl, rfl, rfl⟩
  exact ⟨haccepted, (hrefused _).mpr (.width (l := .int 2147483648) rfl rfl (by decide))⟩

end Isel
