import Isel.Proofs.Progress

/-! A trap leaves no trace but in the flags. Whatever an instruction is made of, it reads all that it
needs and finds out whether it can write before it changes a register or the heap; so an instruction
that traps has changed neither, and a run that traps stops with the registers and the heap that the
instructions before it have left. -/

namespace Isel

theorem Gpr.exists_encoding (k : Fin 16) : ∃ r : Gpr, r.encoding = k :=
  ⟨Gpr.all.get k, (by decide : ∀ k : Fin 16, (Gpr.all.get k).encoding = k) k⟩

theorem Xmm.exists_encoding (k : Fin 16) : ∃ r : Xmm, r.encoding = k :=
  ⟨Xmm.all.get k, (by decide : ∀ k : Fin 16, (Xmm.all.get k).encoding = k) k⟩

/-- Where no register and no byte has changed, at most the flags have. -/
theorem Machine.Changes.eq_setFlags {m m' : Machine} (h : Changes [] false m m') :
    m' = { m with flags := m'.flags } := by
  have hgprs : m'.gprs = m.gprs := by
    refine Vector.ext fun k hk => ?_
    obtain ⟨r, hr⟩ := Gpr.exists_encoding ⟨k, hk⟩
    have hword := h.gprs r List.not_mem_nil
    rw [gpr, gpr, hr] at hword
    exact hword
  have hxmms : m'.xmms = m.xmms := by
    refine Vector.ext fun k hk => ?_
    obtain ⟨r, hr⟩ := Xmm.exists_encoding ⟨k, hk⟩
    have hlanes := h.xmms r List.not_mem_nil
    rw [xmm, xmm, hr] at hlanes
    exact hlanes
  obtain ⟨gprs, xmms, flags, heap⟩ := m'
  obtain rfl : gprs = m.gprs := hgprs
  obtain rfl : xmms = m.xmms := hxmms
  obtain rfl : heap = m.heap := h.heap rfl
  rfl

namespace Exec

variable {α β : Type} {x : Exec α} {f : α → Exec β}

/-- A computation that traps has changed neither a register nor the heap. -/
def Atomic (x : Exec α) : Prop := ∀ m t, (x m).1 = .error t → Machine.Changes [] false m (x m).2

/-- A computation does not trap. -/
def Total (x : Exec α) : Prop := ∀ m t, (x m).1 ≠ .error t

theorem Total.atomic (h : Total x) : Atomic x := fun m t hx => absurd hx (h m t)

theorem Total.pure (a : α) : Total (Pure.pure a : Exec α) := fun _ _ h => by cases h

theorem Total.change (f : Machine → Machine) : Total (Exec.change f) := fun _ _ h => by cases h

theorem Atomic.throw (t : Trap) : Atomic (MonadExcept.throw t : Exec α) :=
  fun m _ _ => .refl [] false m

/-- What only looks at the machine and sets its flags may come first. -/
theorem Atomic.after (hx : Writes [] false x) (hf : ∀ a, Atomic (f a)) : Atomic (x >>= f) := by
  intro m t h
  have hm := hx m
  cases hrun : x m with
  | mk result m₁ =>
      rw [hrun] at hm
      cases result with
      | ok a =>
          rw [bind_ok hrun] at h ⊢
          exact hm.trans (hf a m₁ t h)
      | error u =>
          rw [bind_error hrun]
          exact hm

/-- What does not trap may come last. -/
theorem Atomic.before (hx : Atomic x) (hf : ∀ a, Total (f a)) : Atomic (x >>= f) := by
  intro m t h
  cases hrun : x m with
  | mk result m₁ =>
      cases result with
      | ok a =>
          rw [bind_ok hrun] at h
          exact absurd h (hf a m₁ t)
      | error u =>
          have hm := hx m u (by rw [hrun])
          rw [bind_error hrun]
          rw [hrun] at hm
          exact hm

/-- Where a computation leads to a label, it has not changed the machine. -/
def JumpsOnly (x : Exec Flow) : Prop := ∀ m l, (x m).1 = .ok (.jump l) → (x m).2 = m

theorem JumpsOnly.of_next {x : Exec Flow} (h : Returns (· = .next) x) : JumpsOnly x :=
  fun m l hx => absurd (h m (x m).2 (.jump l) (Prod.ext hx rfl)) (by simp)

theorem JumpsOnly.of_look {x : Exec Flow} (h : ∀ m, (x m).2 = m) : JumpsOnly x := fun m _ _ => h m

end Exec

namespace Machine

open Exec

/-- A store looks whether all its bytes are within the heap before it writes the first. -/
theorem store_atomic (n : Nat) (a : Address) (v : BitVec 64) : Atomic (store n a v) := by
  refine .after (.look _) fun p m t h => ?_
  unfold storeAt at h ⊢
  split at h
  · cases h
  · next hout =>
      rw [if_neg hout]
      exact .refl [] false m

theorem write_atomic (s : Size) (o : Operand) (v : BitVec s.bits) : Atomic (write s o v) := by
  cases o with
  | gpr r => exact (Total.change _).atomic
  | mem a => exact store_atomic s.bytes a (v.setWidth 64)
  | xmm r | imm v | label l => exact .throw _

theorem stepXmm_atomic (i : Inst) : Atomic (stepXmm i) := by
  unfold stepXmm
  split
  case h_1 | h_4 | h_5 | h_9 | h_10 | h_11 | h_12 | h_13 => exact (Total.change _).atomic
  case h_2 | h_6 | h_7 | h_8 => exact .after (.look _) fun _ => (Total.change _).atomic
  case h_3 => exact .after (.look _) fun _ => store_atomic _ _ _
  case h_14 => exact .throw _

/-- An instruction changes nothing before its last write, and that is the last thing that may trap. -/
theorem step_atomic (i : Inst) : Atomic (step i) := by
  unfold step
  split
  case h_1 | h_2 | h_11 | h_12 =>
    exact .after (.look _) fun _ => (write_atomic _ _ _).before fun _ => .pure _
  case h_4 =>
    exact .after (compute_writes _ _ _ _ _ _) fun _ => (write_atomic _ _ _).before fun _ => .pure _
  case h_7 =>
    exact .after (.look _) fun _ => .after (.look _) fun _ => (write_atomic _ _ _).before fun _ => .pure _
  case h_10 =>
    exact .after (.look _) fun _ => .after (.look _) fun _ =>
      (Total.change _).atomic.before fun _ => .pure _
  case h_5 | h_6 => exact .after (compute_writes _ _ _ _ _ _) fun _ => (Total.pure _).atomic
  case h_3 | h_8 | h_9 => exact (Total.change _).atomic.before fun _ => .pure _
  case h_13 => exact .after (.look _) fun _ => (Total.pure _).atomic
  case h_14 | h_15 => exact (Total.pure _).atomic
  case h_16 => exact .throw _
  case h_17 => exact (stepXmm_atomic i).before fun _ => .pure _

theorem step_jumpsOnly (i : Inst) : JumpsOnly (step i) := by
  unfold step
  split
  case h_13 | h_14 | h_15 | h_16 => exact .of_look fun _ => rfl
  case h_1 | h_2 | h_4 | h_11 | h_12 =>
    exact .of_next (.bind fun _ => .bind fun _ => .pure rfl)
  case h_3 | h_5 | h_6 | h_8 | h_9 | h_17 => exact .of_next (.bind fun _ => .pure rfl)
  case h_7 | h_10 => exact .of_next (.bind fun _ => .bind fun _ => .bind fun _ => .pure rfl)

/-- However a run traps at a place, it leaves the registers and the heap that it found there. -/
theorem changes_of_ends {c : Code} {p : Nat} {m m' : Machine} {t : Trap}
    (h : c.Ends (p, m) (.error t, m')) : Changes [] false m m' := by
  cases h with
  | @trap _ i _ _ _ hi hstep =>
      have hm := step_atomic i m t (congrArg Prod.fst hstep)
      rwa [hstep] at hm
  | @unbound _ l i _ _ hi hstep hl =>
      have hm := step_jumpsOnly i m l (congrArg Prod.fst hstep)
      rw [hstep] at hm
      exact hm ▸ .refl [] false _
  | limit hi => exact .refl [] false m

/-- **A trap has no effect.** Whatever an instruction is made of, if it traps, then all registers and
the heap are as before it. If a run of any code traps, then the registers and the heap are those that
the instructions completed so far have left, where either the next instruction does not complete or the
run has taken all its steps. -/
theorem trap_has_no_effect :
    (∀ i m t m', step i m = (.error t, m') → m' = { m with flags := m'.flags }) ∧
    ∀ code m t m', run code m = (.error t, m') → ∃ n p m₁, n ≤ stepLimit ∧
      code.Completes n (0, m) (p, m₁) ∧ (n = stepLimit ∨ ∀ y, ¬code.Moves (p, m₁) y) ∧
      code.Ends (p, m₁) (.error t, m') ∧ m' = { m₁ with flags := m'.flags } := by
  refine ⟨fun i m t m' h => ?_, fun code m t m' h => ?_⟩
  · have hm := step_atomic i m t (congrArg Prod.fst h)
    rw [h] at hm
    exact hm.eq_setFlags
  · obtain ⟨n, k, p, m₁, hfuel, hcompletes, hstop, hrun⟩ := runFrom_completes code stepLimit 0 m
    have hends := ends_of_stop hstop
    rw [← hrun] at hends
    change code.Ends (p, m₁) (run code m) at hends
    rw [h] at hends
    refine ⟨n, p, m₁, by omega, hcompletes, hstop.imp_left fun hk => ?_, hends,
      (changes_of_ends hends).eq_setFlags⟩
    omega

/-- Adds to a number that is no place to write to. -/
def misplaced : Inst := ⟨.arith .add, .s64, [.imm 0, .gpr .rbx]⟩

/-- Stores a byte and then divides by what is in `rcx`. -/
def interrupted : Code :=
  ⟨#[.movImm .s64 .rbx 5, .store .s8 { base := .rdi, disp := 16 } .rbx,
    .divide (.divide false) .s64 .rcx, .movImm .s64 .rbx 6], #[]⟩

/-- The sum sets the flags before it turns out that it cannot be written, and the byte in front of a
division by zero has been stored. -/
theorem trap_has_no_effect_interrupted :
    (∃ m', step misplaced initial = (.error (.unknownOperand .integerWrite (.imm 0)), m') ∧
      m'.flags ≠ initial.flags ∧ m' = { initial with flags := m'.flags }) ∧
    ∃ m', run interrupted (withMemory #[1, 2]) = (.error .divideError, m') ∧
      m'.gpr .rbx = 5 ∧ m'.memory = #[5, 2] ∧ ∃ n p m₁, n ≤ stepLimit ∧
        interrupted.Completes n (0, withMemory #[1, 2]) (p, m₁) ∧
        (n = stepLimit ∨ ∀ y, ¬interrupted.Moves (p, m₁) y) ∧
        interrupted.Ends (p, m₁) (.error .divideError, m') ∧ m' = { m₁ with flags := m'.flags } := by
  have hstep : step misplaced initial =
      (.error (.unknownOperand .integerWrite (.imm 0)), (step misplaced initial).2) := rfl
  have hrun := Emission.trap?_eq_some
    (by decide : Emission.trap? (run interrupted (withMemory #[1, 2])) = some .divideError)
  exact ⟨⟨_, hstep, by decide, trap_has_no_effect.1 _ _ _ _ hstep⟩,
    _, hrun, by decide, by decide, trap_has_no_effect.2 _ _ _ _ hrun⟩

end Machine

end Isel
