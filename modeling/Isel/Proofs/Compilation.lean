import Isel.Proofs.EmissionRun
import Isel.Proofs.MemoryContext
import Isel.Proofs.SelectionRun

/-! From a program to its code. What is selected for a program on integers works on words, and every
access in it is guarded. It therefore runs on the heap of the machine, where nothing but its guards keeps
an access within linear memory, as the program runs on its linear memory, and the code made from it ends
as the program does. -/

namespace Isel

theorem Load.cls_of_isInt {op : Load} (h : op.type.isInt = true) : op.access.cls = .int := by
  rcases op with (_ | _) | _
  · rfl
  · exact absurd h Bool.false_ne_true
  · rfl

theorem Store.cls_of_isInt {op : Store} (h : op.type.isInt = true) : op.access.cls = .int := by
  rcases op with (_ | _) | _
  · rfl
  · exact absurd h Bool.false_ne_true
  · rfl

namespace Lowering

variable {g : Graph} {config : Config} {l : Lowering} {b id i : Nat} {n m : Node} {p : Placed}

theorem copied_of_integer {op op' : Operator} (h : op.copied? = some op') (hint : op.isInteger = true) :
    op'.onWords = true ∧ op'.successorCount = op.successorCount := by
  cases op with
  | const ty | bool ty =>
      obtain rfl := Option.some.inj h
      exact ⟨hint, rfl⟩
  | typedRet ty =>
      obtain rfl := Option.some.inj h
      cases ty with
      | int w => exact ⟨rfl, rfl⟩
      | float w => exact absurd hint Bool.false_ne_true
  | intBinary w op =>
      cases w with
      | w32 =>
          obtain rfl := Option.some.inj h
          exact ⟨rfl, rfl⟩
      | w64 =>
          cases hfused : op.fused? with
          | none | some =>
              simp only [Operator.copied?, hfused, Option.some.injEq] at h
              rw [← h]
              exact ⟨rfl, rfl⟩
  | compare w c | address w =>
      cases w <;> simp [Operator.copied?] at h
      rw [← h]
      exact ⟨rfl, rfl⟩
  | floatBinary | floatUnary | target => exact absurd hint Bool.false_ne_true
  | state | updateState | bitCount | extend | ret | jump =>
      obtain rfl := Option.some.inj h
      exact ⟨rfl, rfl⟩
  | wrap | load | store | convert | branch => exact absurd h (by simp [Operator.copied?])

theorem Aid.of_integer (h : Aid g config l b n m) (hint : n.op.isInteger = true) :
    m.op.onWords = true ∧ m.op.successorCount = 0 := by
  cases h with
  | magnitude hop =>
      rw [hop] at hint
      exact absurd hint Bool.false_ne_true
  | _ => exact ⟨rfl, rfl⟩

theorem Form.of_integer (h : Form g config l b id n m) (hint : n.op.isInteger = true) :
    m.op.onWords = true ∧ m.op.successorCount = n.op.successorCount := by
  cases h with
  | copied hop => exact copied_of_integer hop hint
  | signed hop =>
      rw [hop] at hint
      exact absurd hint Bool.false_ne_true
  | loaded hop =>
      rw [hop] at hint ⊢
      exact ⟨decide_eq_true (Load.cls_of_isInt hint), rfl⟩
  | stored hop =>
      rw [hop] at hint ⊢
      exact ⟨decide_eq_true (Store.cls_of_isInt hint), rfl⟩
  | compared hop | fused hop | branched hop | branched32 hop =>
      rw [hop]
      exact ⟨rfl, rfl⟩

/-- What is made for integers works on words. -/
theorem Steps.onWords (h : Steps g config {} l) (hg : g.IsInteger) (hi : l.nodes[i]? = some p) :
    p.node.op.onWords = true := by
  obtain ⟨l₁, id, n, -, -, -, hn, haid | ⟨hform, -⟩⟩ := h.origin hi
  · exact (haid.of_integer (hg id n (Graph.node?_eq_some.mpr ⟨_, hn⟩))).1
  · exact (hform.of_integer (hg id n (Graph.node?_eq_some.mpr ⟨_, hn⟩))).1

end Lowering

namespace Graph.IntegerProgram

open Schedule

variable {g g' : Graph} {config : Config} {stats : Stats}

theorem generic (hg : g.IntegerProgram) : g.Generic := hg.typed.generic hg.inScope

theorem arrangeable (hg : g.IntegerProgram) : g.Arrangeable :=
  arrangeable_of_scoped hg.flawless hg.generic hg.inScope

/-- Every access of the selected graph is guarded. -/
theorem guarded (hg : g.IntegerProgram) (hselect : select g config = .ok (g', stats)) :
    Guarded g'.node? := by
  obtain ⟨l, hsteps, rfl, -⟩ := exists_steps hg.arrangeable hselect
  exact hsteps.guarded_schedule hg.generic

theorem onWords (hg : g.IntegerProgram) (hselect : select g config = .ok (g', stats)) :
    ∀ id n, g'.node? id = some n → n.op.onWords = true := by
  obtain ⟨l, hsteps, rfl, -⟩ := exists_steps hg.arrangeable hselect
  intro id n hn
  obtain ⟨b, hb⟩ := node?_eq_some.mp hn
  obtain ⟨i, p, hi, -, heq⟩ := exists_of_schedule_node hsteps.grounded hsteps.housed hb
  rw [(Placed.mk.inj heq).2]
  exact hsteps.onWords hg.integer hi

theorem blocks_of_select (hg : g.IntegerProgram) (hselect : select g config = .ok (g', stats)) :
    g'.blocks = g.blocks := by
  obtain ⟨l, -, rfl, -⟩ := exists_steps hg.arrangeable hselect
  rfl

end Graph.IntegerProgram

/-- What is selected for a program on integers enters the same blocks on the heap of the machine, and comes
to the same end there. -/
theorem Graph.IntegerProgram.run_select {g g' : Graph} {config : Config} {stats : Stats}
    (hg : g.IntegerProgram) (hblocks : 0 < g.blocks.size) (hbools : config.eliminateReturnBools = false)
    (hselect : select g config = .ok (g', stats)) {memory : Array Byte} (hm : Addressable memory)
    (fuel : Nat) :
    ((Words.meaning .heap).run g' fuel (Machine.heapOf memory)).1
        = (Values.meaning.run g fuel memory).1 ∧
      Outcome.Agrees Value.Represents Machine.heapOf (Values.meaning.run g fuel memory).2
        ((Words.meaning .heap).run g' fuel (Machine.heapOf memory)).2 := by
  obtain ⟨hsame, hagrees⟩ := select_run_linear hg hblocks hbools hselect hm fuel
  rw [(hg.guarded hselect).run_onHeap hm]
  exact ⟨hsame, hagrees.onHeap⟩

/-- Selection preserves what a program on integers does. Run on the heap of the machine, the selected
graph enters the same blocks as the program and comes to the same end, after any number of blocks, and it
does not fault. -/
theorem select_run {g g' : Graph} {config : Config} {stats : Stats} (hg : g.IntegerProgram)
    (hblocks : 0 < g.blocks.size) (hbools : config.eliminateReturnBools = false)
    (hselect : select g config = .ok (g', stats)) {memory : Array Byte} (hm : Addressable memory)
    (fuel : Nat) :
    ((Words.meaning .heap).run g' fuel (Machine.heapOf memory)).1
        = (Values.meaning.run g fuel memory).1 ∧
      Outcome.Agrees Value.Represents Machine.heapOf (Values.meaning.run g fuel memory).2
        ((Words.meaning .heap).run g' fuel (Machine.heapOf memory)).2 ∧
      ∀ p heap, ((Words.meaning .heap).run g' fuel (Machine.heapOf memory)).2
        ≠ .halted (.trapped (.fault p) heap) := by
  obtain ⟨hsame, hagrees⟩ := hg.run_select hblocks hbools hselect hm fuel
  exact ⟨hsame, hagrees, fun p heap => (hg.guarded hselect).run_ne_fault hm fuel⟩

theorem select_run_countdown :
    ∃ g' stats, select countdown { eliminateReturnBools := false } = .ok (g', stats) ∧
      ((Words.meaning .heap).run g' 4 (Machine.heapOf #[2, 0, 0, 0])).1 = [0, 1, 1, 2] ∧
      Outcome.Agrees Value.Represents Machine.heapOf (Values.meaning.run countdown 4 #[2, 0, 0, 0]).2
        ((Words.meaning .heap).run g' 4 (Machine.heapOf #[2, 0, 0, 0])).2 ∧
      ∀ p heap, ((Words.meaning .heap).run g' 4 (Machine.heapOf #[2, 0, 0, 0])).2
        ≠ .halted (.trapped (.fault p) heap) := by
  have hok : (select countdown { eliminateReturnBools := false }).toOption.isSome = true := by
    decide +kernel
  cases hselect : select countdown { eliminateReturnBools := false } with
  | error e =>
      rw [hselect] at hok
      exact absurd hok (by simp [Except.toOption])
  | ok r =>
      have hrun := select_run countdown_program (by decide) rfl hselect
        (show Addressable #[2, 0, 0, 0] by decide) 4
      have hblocks : (Values.meaning.run countdown 4 #[2, 0, 0, 0]).1 = [0, 1, 1, 2] := by
        decide +kernel
      exact ⟨r.1, r.2, rfl, hrun.1.trans hblocks, hrun.2⟩

/-- A machine has stopped as a program ends. Where the program returns, its value is in `rax`, and the heap
holds linear memory as the program leaves it. Where the program traps, so does the machine, and it does
not fault. -/
inductive Machine.EndsAsProgram : Outcome Value → Except Trap Unit × Machine → Prop
  | returned {v : Option Value} {memory : Array Byte} {m : Machine}
      (value : ∀ x, v = some x → x.Represents (m.gpr .rax)) (heap : m.heap = heapOf memory) :
      EndsAsProgram (.returned v memory) (.ok (), m)
  | trapped {t u : Trap} {memory : Array Byte} {m : Machine}
      (program : u = .divideError ∨ u = .unreachable) :
      EndsAsProgram (.halted (.trapped t memory)) (.error u, m)

/-- What a graph comes to on the heap is passed on to its code. -/
theorem Outcome.Agrees.endsAsProgram {a : Outcome Value} {b : Outcome Word}
    {r : Except Trap Unit × Machine} (h : Agrees Value.Represents Machine.heapOf a b)
    (hends : Machine.EndsAs b r) (hfault : ∀ p heap, b ≠ .halted (.trapped (.fault p) heap)) :
    Machine.EndsAsProgram a r := by
  cases h with
  | running => exact absurd hends (by rintro ⟨⟩)
  | @returned v w memory hvalue =>
      generalize hheap : Machine.heapOf memory = heap at hends
      cases hends with
      | returned hrax =>
          refine .returned (fun x hx => ?_) hheap.symm
          subst hx
          cases hvalue with
          | some hrep => exact (hrax _ rfl).symm ▸ hrep
  | @trapped t u memory heap =>
      cases hends with
      | @trapped _ m hprogram =>
          refine .trapped ?_
          cases u with
          | divideError => exact .inl rfl
          | unreachable => exact .inr rfl
          | fault p => exact absurd rfl (hfault p m.heap)
          | _ => exact absurd hprogram Bool.false_ne_true

/-- Compilation is correct. The code that is selected, given registers and emitted for a program on integers
without loops ends as the program does, on every linear memory. -/
theorem compile_run {g g' : Graph} {config config' : Config} {stats : Stats} {forced : List (Nat × Reg)}
    {a : Allocation} {code : Code} (hg : g.IntegerProgram) (hforward : g.Forward)
    (hblocks : 0 < g.blocks.size) (hbools : config.eliminateReturnBools = false)
    (hselect : select g config = .ok (g', stats)) (hforced : ∀ p ∈ forced, p.2 ≠ .gpr Gpr.state)
    (hallocate : Pool.allocate forced g' = .ok a) (hemit : emit g' a config' = .ok code)
    (hsize : code.insts.size ≤ Machine.stepLimit) {memory : Array Byte} (hm : Addressable memory)
    {fuel : Nat} (hfuel : g.blocks.size ≤ fuel) :
    Machine.EndsAsProgram (Values.meaning.run g fuel memory).2
      (Machine.run code (Machine.withMemory memory)) := by
  have hprogram : g.ForwardProgram :=
    ⟨hg.flawless, hg.generic, hg.terminated, hforward, hg.inScope⟩
  have hcompiled := hprogram.compiled hblocks hselect hforced hallocate hemit
  rw [← hg.blocks_of_select hselect] at hfuel
  have hends : Machine.EndsAs ((Words.meaning .heap).run g' fuel (Machine.heapOf memory)).2
      (Machine.run code (Machine.withMemory memory)) :=
    hcompiled.endsAs (m := Machine.withMemory memory) (hg.onWords hselect) hsize hfuel rfl
  have hagrees := (hg.run_select hblocks hbools hselect hm fuel).2
  exact hagrees.endsAsProgram hends fun p heap => (hg.guarded hselect).run_ne_fault hm fuel

/-- Divides the first number in memory by the second, in its place, where the second is smaller. -/
def quotient : Graph :=
  .ofParts #[⟨"entry", [1, 2]⟩, ⟨"divide", [2]⟩, ⟨"done", []⟩]
    #[⟨0, .state, [], [], []⟩, ⟨0, .const .i64, [], [.int 0], []⟩, ⟨0, .const .i64, [], [.int 4], []⟩,
      ⟨0, .load (.full .i32), [], [], [0, 1]⟩, ⟨0, .load (.full .i32), [], [], [0, 2]⟩,
      ⟨0, .compare .w32 .ltS, [], [], [4, 3]⟩, ⟨0, .branch, [], [], [5]⟩,
      ⟨1, .intBinary .w32 (.division .quotientSigned), [], [], [3, 4]⟩,
      ⟨1, .store (.full .i32), [], [], [0, 1, 7]⟩, ⟨1, .jump, [], [], []⟩,
      ⟨2, .load (.full .i32), [], [], [0, 1]⟩, ⟨2, .typedRet .i32, [], [], [10]⟩]

theorem quotient_program : quotient.IntegerProgram where
  flawless := by decide
  integer := by decide
  typed := by decide
  terminated := by decide
  supplied := by decide
  inScope := Graph.scoped_of_near (by decide)

theorem compile_run_quotient :
    ∃ g' stats a code, select quotient { eliminateReturnBools := false } = .ok (g', stats) ∧
      Pool.allocate [] g' = .ok a ∧ emit g' a {} = .ok code ∧
      ∀ memory, Addressable memory → Machine.EndsAsProgram (Values.meaning.run quotient 3 memory).2
        (Machine.run code (Machine.withMemory memory)) := by
  have hok : ((select quotient { eliminateReturnBools := false }).toOption.bind fun r =>
      (Pool.allocate [] r.1).toOption.bind fun a =>
        (emit r.1 a {}).toOption.map fun code => decide (code.insts.size ≤ 100)) = some true := by
    cbv
  obtain ⟨⟨g', stats⟩, hg', hok⟩ := Option.bind_eq_some_iff.mp hok
  obtain ⟨a, ha, hok⟩ := Option.bind_eq_some_iff.mp hok
  obtain ⟨code, hcode, hsize⟩ := Option.map_eq_some_iff.mp hok
  have hselect := toOption_eq_some.mp hg'
  have hallocate := toOption_eq_some.mp ha
  have hemit := toOption_eq_some.mp hcode
  have hlimit : code.insts.size ≤ Machine.stepLimit :=
    (of_decide_eq_true hsize).trans (by decide)
  refine ⟨g', stats, a, code, hselect, hallocate, hemit, fun memory hm => ?_⟩
  exact compile_run quotient_program (by decide) (by decide) rfl hselect (by simp) hallocate hemit hlimit
    hm (by decide)

end Isel
