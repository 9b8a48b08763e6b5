import Isel.Proofs.SourceTraps
import Mathlib

/-! Memory at a trap. Bounds checks and divisions can change places with stores, so the code of a block can
trap before a store that precedes the first node that traps in the source, or after one that follows it. But
it traps only where the source does, and the stores themselves stay in order: memory at the trap is as some
first part of the source leaves it. -/

namespace Isel

open Values

/-- A store that has run. -/
def Stored (g : Graph) (l : Lowering) (ran : List Nat) (y : Nat) : Prop :=
  ∃ n y', g.node? y = some n ∧ n.op.isStore = true ∧ l.lowered.get? y = some y' ∧ y' ∈ ran

open Classical in
/-- The source up to the last store that has run: all its accesses have run. -/
theorem Ran.exists_front {g : Graph} {config : Config} {l : Lowering} {memory : Array Byte} {ran : List Nat}
    {f : Env Word} (h : Ran g config l memory ran f) :
    ∃ front back, g.members 0 = front ++ back ∧ (∀ y, Stored g l ran y → y ∈ front) ∧
      ∀ y n y', g.node? y = some n → n.op.isAccess = true → l.lowered.get? y = some y' → y ∈ front →
        y' ∈ ran := by
  have hsplit := List.rdropWhile_append_rtakeWhile (p := fun y => !decide (Stored g l ran y))
    (l := g.members 0)
  generalize hfront : (g.members 0).rdropWhile _ = front at hsplit
  refine ⟨front, _, hsplit.symm, fun y hstored => ?_, fun y n y' hn haccess hy hmem => ?_⟩
  · obtain ⟨n, y', hn, -⟩ := id hstored
    have hmem := Graph.mem_members.mpr (h.program.blockOf?_of_node? hn)
    rw [← hsplit] at hmem
    refine (List.mem_append.mp hmem).resolve_right fun hback => ?_
    simpa [hstored] using List.mem_rtakeWhile_imp hback
  · have hne : front ≠ [] := List.ne_nil_of_mem hmem
    obtain ⟨m, z', hm, hstore, hz, hran⟩ : Stored g l ran (front.getLast hne) := by
      subst hfront
      simpa using List.rdropWhile_last_not _ _ hne
    have hsorted : front.Pairwise (· < ·) := by
      have hmembers := g.members_sorted 0
      rw [← hsplit] at hmembers
      exact (List.pairwise_append.mp hmembers).1
    rw [← List.dropLast_append_getLast hne] at hmem hsorted
    rcases List.mem_append.mp hmem with hmem | hmem
    · have hlt := (List.pairwise_append.mp hsorted).2.2 y hmem _ (List.mem_singleton_self _)
      exact h.mem_of_lt hn hm haccess (Operator.isAccess_of_isStore hstore) (.inr hstore) hlt hy hz hran
    · rw [List.mem_singleton.mp hmem] at hy
      rwa [Option.some.inj (hy.symm.trans hz)]

/-- Where the code of a single block traps, the block of the source comes to a node that traps, and memory is
as some first part of the block leaves it in the order of the source. No load or store of that part fails; a
division that does is passed over. -/
theorem trapped_memory_of_front {g g' : Graph} {config config' : Config} {stats : Stats} {a : Allocation}
    {code : Code} {memory : Array Byte} {t : Trap} {m : Machine} (hg : g.StraightProgram)
    (hselect : select g config = .ok (g', stats)) (hallocate : Pool.allocate [] g' = .ok a)
    (hemit : emit g' a config' = .ok code) (hsize : code.insts.size ≤ Machine.stepLimit)
    (hm : Addressable memory) (hrun : Machine.run code (Machine.withMemory memory) = (.error t, m)) :
    (∃ u memory', (meaning.run g 1 memory).2 = .halted (.trapped u memory')) ∧
      ∃ front back, g.members 0 = front ++ back ∧
        (∀ done id rest n, front = done ++ id :: rest → g.node? id = some n → n.op.isAccess = true →
          ∃ e, meaning.execNode (attempted g memory done) id n = .ok e) ∧
        m.memory = (attempted g memory front).memory := by
  obtain ⟨l, ran, i, f, hlower, hstops, hmemory⟩ :=
    hg.exists_stops hselect hallocate hemit hsize hm hrun
  have horder := (List.prefix_append ran [i]).trans hstops.order
  have hran : Ran g config l memory ran f := ⟨hg, hlower, hm, horder, hstops.exec⟩
  obtain ⟨front, back, hmembers, hstores, haccesses⟩ := hran.exists_front
  refine ⟨hran.source_traps hstops, front, back, hmembers, fun done id rest n hfront hn haccess => ?_, ?_⟩
  · obtain ⟨id', hid⟩ := hran.exists_lowered hn haccess
    have hmem : id ∈ front := by
      rw [hfront]
      exact List.mem_append_right done List.mem_cons_self
    refine hran.mirrors.access done id (rest ++ back) n id' ?_ hn haccess hid
      (haccesses id n id' hn haccess hid hmem)
    rw [hmembers, hfront, List.append_assoc, List.cons_append]
  · rw [hmemory]
    refine (hran.mirrors.memory front back hmembers fun y n y' hn hstore hy => ⟨fun hy' => ?_, ?_⟩).symm
    · exact hstores y ⟨n, y', hn, hstore, hy, hy'⟩
    · exact haccesses y n y' hn (Operator.isAccess_of_isStore hstore) hy

/-- Stores a number and then reads outside of memory. -/
def astray : Graph :=
  .ofParts #[⟨"entry", []⟩]
    #[⟨0, .state, [], [], []⟩, ⟨0, .const .i64, [], [.int 1], []⟩, ⟨0, .const .i64, [], [.int 0], []⟩,
      ⟨0, .store (.full .i64), [], [], [0, 2, 1]⟩, ⟨0, .const .i64, [], [.int 100], []⟩,
      ⟨0, .load (.full .i64), [], [], [0, 4]⟩, ⟨0, .typedRet .i64, [.block 0], [], [5]⟩]

theorem astray_straight : astray.StraightProgram where
  flawless := by decide
  typed := by decide
  integer := by decide
  single := rfl
  returns := ⟨6, _, by decide, rfl, .inr ⟨_, rfl⟩⟩

/-- The read is found to go astray before the number is stored. -/
theorem trapped_memory_of_front_astray :
    (meaning.run astray 1 #[0, 0, 0, 0, 0, 0, 0, 0]).2.trap?
        = some (.fault 100, #[1, 0, 0, 0, 0, 0, 0, 0]) ∧
      ∃ g' stats a code m, select astray {} = .ok (g', stats) ∧ Pool.allocate [] g' = .ok a ∧
        emit g' a {} = .ok code ∧ code.insts.size ≤ Machine.stepLimit ∧
        Machine.run code (Machine.withMemory #[0, 0, 0, 0, 0, 0, 0, 0]) = (.error .unreachable, m) ∧
        m.memory = #[0, 0, 0, 0, 0, 0, 0, 0] ∧
        (∃ u memory', (meaning.run astray 1 #[0, 0, 0, 0, 0, 0, 0, 0]).2
          = .halted (.trapped u memory')) ∧
        ∃ front back, astray.members 0 = front ++ back ∧
          (∀ done id rest n, front = done ++ id :: rest → astray.node? id = some n →
            n.op.isAccess = true →
            ∃ e, meaning.execNode (attempted astray #[0, 0, 0, 0, 0, 0, 0, 0] done) id n = .ok e) ∧
          m.memory = (attempted astray #[0, 0, 0, 0, 0, 0, 0, 0] front).memory := by
  refine ⟨by decide +kernel, ?_⟩
  have htrapped : ∃ g' stats a code m, select astray {} = .ok (g', stats) ∧
      Pool.allocate [] g' = .ok a ∧ emit g' a {} = .ok code ∧ code.insts.size ≤ Machine.stepLimit ∧
      Machine.run code (Machine.withMemory #[0, 0, 0, 0, 0, 0, 0, 0]) = (.error .unreachable, m) ∧
      m.memory = #[0, 0, 0, 0, 0, 0, 0, 0] := astray_straight.exists_trapped (by cbv)
  obtain ⟨g', stats, a, code, m, hselect, hallocate, hemit, hsize, hrun, hmemory⟩ := htrapped
  exact ⟨g', stats, a, code, m, hselect, hallocate, hemit, hsize, hrun, hmemory,
    trapped_memory_of_front astray_straight hselect hallocate hemit hsize (by decide) hrun⟩

/-- Divides by zero and then stores a number. -/
def hasty : Graph :=
  .ofParts #[⟨"entry", []⟩]
    #[⟨0, .state, [], [], []⟩, ⟨0, .const .i64, [], [.int 1], []⟩, ⟨0, .const .i64, [], [.int 0], []⟩,
      ⟨0, .intBinary .w64 (.division .quotientSigned), [], [], [1, 2]⟩,
      ⟨0, .store (.full .i64), [], [], [0, 2, 1]⟩, ⟨0, .typedRet .i64, [.block 0], [], [3]⟩]

theorem hasty_straight : hasty.StraightProgram where
  flawless := by decide
  typed := by decide
  integer := by decide
  single := rfl
  returns := ⟨5, _, by decide, rfl, .inr ⟨_, rfl⟩⟩

/-- The number is stored although the division stands before the store. -/
theorem hasty_stores_behind_trap : hasty.StraightProgram ∧
    (meaning.run hasty 1 #[0, 0, 0, 0, 0, 0, 0, 0]).2.trap?
      = some (.divideError, #[0, 0, 0, 0, 0, 0, 0, 0]) ∧
    ∃ g' stats a code m, select hasty {} = .ok (g', stats) ∧ Pool.allocate [] g' = .ok a ∧
      emit g' a {} = .ok code ∧ code.insts.size ≤ Machine.stepLimit ∧
      Machine.run code (Machine.withMemory #[0, 0, 0, 0, 0, 0, 0, 0]) = (.error .divideError, m) ∧
      m.memory = #[1, 0, 0, 0, 0, 0, 0, 0] :=
  ⟨hasty_straight, by decide +kernel, hasty_straight.exists_trapped (by cbv)⟩

end Isel
