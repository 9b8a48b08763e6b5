import Isel.Proofs.Extensions
import Mathlib.Logic.Relation

/-! Emitted code is never stuck. Every instruction has a form that the machine knows, and every label
that one mentions is bound; so a run stops at a return, at a division or an access that cannot be done,
at the trap behind the code, or because it takes too long. If every block ends in a terminator, the last
instruction in front of the trap is a jump or a return, so a run neither leaves the code at its end nor
gets to the trap but by the jump of a bounds check. -/

namespace Isel

namespace Code

/-- A run goes on: where it stands, and with which machine, before and after one instruction. -/
inductive Moves (c : Code) : Nat × Machine → Nat × Machine → Prop
  | next {p : Nat} {i : Inst} {m m' : Machine} (hi : c.insts[p]? = some i)
      (hstep : Machine.step i m = (.ok .next, m')) : Moves c (p, m) (p + 1, m')
  | jump {p l t : Nat} {i : Inst} {m m' : Machine} (hi : c.insts[p]? = some i)
      (hstep : Machine.step i m = (.ok (.jump l), m')) (ht : c.offset? l = some t) :
      Moves c (p, m) (t, m')

/-- A run gets from one place to another. -/
def Reaches (c : Code) : Nat × Machine → Nat × Machine → Prop := Relation.ReflTransGen c.Moves

/-- A run completes `n` instructions from one place to another. -/
inductive Completes (c : Code) : Nat → Nat × Machine → Nat × Machine → Prop
  | refl (x : Nat × Machine) : Completes c 0 x x
  | head {n : Nat} {x y z : Nat × Machine} (hmove : c.Moves x y) (hrest : Completes c n y z) :
      Completes c (n + 1) x z

theorem Completes.reaches {c : Code} {n : Nat} {x y : Nat × Machine} (h : c.Completes n x y) :
    c.Reaches x y := by
  induction h with
  | refl x => exact .refl
  | head hmove _ ih => exact .head hmove ih

/-- How a run ends at a place. -/
inductive Ends (c : Code) : Nat × Machine → Except Trap Unit × Machine → Prop
  | off {p : Nat} {m : Machine} (hi : c.insts[p]? = none) : Ends c (p, m) (.ok (), m)
  | halt {p : Nat} {i : Inst} {m m' : Machine} (hi : c.insts[p]? = some i)
      (hstep : Machine.step i m = (.ok .halt, m')) : Ends c (p, m) (.ok (), m')
  | trap {p : Nat} {i : Inst} {m m' : Machine} {t : Trap} (hi : c.insts[p]? = some i)
      (hstep : Machine.step i m = (.error t, m')) : Ends c (p, m) (.error t, m')
  | unbound {p l : Nat} {i : Inst} {m m' : Machine} (hi : c.insts[p]? = some i)
      (hstep : Machine.step i m = (.ok (.jump l), m')) (hl : c.offset? l = none) :
      Ends c (p, m) (.error .unboundLabel, m')
  | limit {p : Nat} {i : Inst} {m : Machine} (hi : c.insts[p]? = some i) :
      Ends c (p, m) (.error .stepLimit, m)

end Code

namespace Machine

variable {c : Code} {p fuel : Nat} {i : Inst} {m m' : Machine}

theorem runFrom_unbound {l : Nat} (hi : c.insts[p]? = some i)
    (hstep : step i m = (.ok (.jump l), m')) (hl : c.offset? l = none) :
    runFrom c (fuel + 1) p m = (.error .unboundLabel, m') := by
  rw [runFrom, hi]
  refine (Exec.bind_ok hstep).trans ?_
  simp only [hl]
  rfl

theorem runFrom_of_moves {q : Nat} (h : c.Moves (p, m) (q, m')) :
    runFrom c (fuel + 1) p m = runFrom c fuel q m' := by
  cases h with
  | next hi hstep => exact runFrom_next hi hstep
  | jump hi hstep ht => exact runFrom_jump hi hstep ht

/-- A run goes on for as long as it can, or until it has taken all its steps. -/
theorem runFrom_completes (c : Code) (fuel p : Nat) (m : Machine) :
    ∃ n k q m', n + k = fuel ∧ c.Completes n (p, m) (q, m') ∧ (k = 0 ∨ ∀ y, ¬c.Moves (q, m') y) ∧
      runFrom c fuel p m = runFrom c k q m' := by
  induction fuel generalizing p m with
  | zero => exact ⟨0, 0, p, m, rfl, .refl _, .inl rfl, rfl⟩
  | succ fuel ih =>
      by_cases hmoves : ∃ y, c.Moves (p, m) y
      · obtain ⟨⟨q, m₁⟩, hmove⟩ := hmoves
        obtain ⟨n, k, q', m', hfuel, hrest, hlast, hrun⟩ := ih q m₁
        exact ⟨n + 1, k, q', m', by omega, .head hmove hrest, hlast, (runFrom_of_moves hmove).trans hrun⟩
      · exact ⟨0, fuel + 1, p, m, by omega, .refl _, .inr (not_exists.mp hmoves), rfl⟩

/-- A run that does not go on ends where it is. -/
theorem ends_of_stop (h : fuel = 0 ∨ ∀ y, ¬c.Moves (p, m) y) : c.Ends (p, m) (runFrom c fuel p m) := by
  cases hi : c.insts[p]? with
  | none =>
      rw [runFrom, hi]
      exact .off hi
  | some i =>
      rcases fuel with _ | fuel
      · rw [runFrom_zero hi]
        exact .limit hi
      · have hstop := h.resolve_left (Nat.succ_ne_zero fuel)
        cases hstep : step i m with
        | mk result m₁ =>
            rcases result with t | (_ | l | _)
            · rw [runFrom_error hi hstep]
              exact .trap hi hstep
            · exact absurd (.next hi hstep) (hstop _)
            · cases hl : c.offset? l with
              | none =>
                  rw [runFrom_unbound hi hstep hl]
                  exact .unbound hi hstep hl
              | some t => exact absurd (.jump hi hstep hl) (hstop _)
            · rw [runFrom_halt hi hstep]
              exact .halt hi hstep

/-- A run gets to a place at which it ends. -/
theorem runFrom_ends (c : Code) (fuel p : Nat) (m : Machine) :
    ∃ q m', c.Reaches (p, m) (q, m') ∧ c.Ends (q, m') (runFrom c fuel p m) := by
  obtain ⟨n, k, q, m', -, hcompletes, hstop, hrun⟩ := runFrom_completes c fuel p m
  refine ⟨q, m', hcompletes.reaches, ?_⟩
  rw [hrun]
  exact ends_of_stop hstop

end Machine

/-- An instruction behind which execution does not go on. -/
def Inst.isFinal (i : Inst) : Bool := i.mnemonic == .jmp || i.mnemonic == .ret

theorem Machine.step_final {i : Inst} (h : i.isFinal = true) :
    Exec.Returns (· ≠ .next) (Machine.step i) := by
  have hmnemonic : i.mnemonic = .jmp ∨ i.mnemonic = .ret := by simpa [Inst.isFinal] using h
  have hxmm : Exec.Returns (fun _ => False) (stepXmm i) := by
    obtain ⟨mnemonic, size, operands⟩ := i
    rcases hmnemonic with rfl | rfl <;> exact .throw _
  unfold step
  split
  case h_14 | h_15 => exact .pure (by simp)
  case h_17 => exact hxmm.bind_of fun _ hnone => hnone.elim
  all_goals
    next hm _ =>
      rw [hm] at hmnemonic
      exact absurd hmnemonic (by simp)

/-- Only a return ends a run, and it changes nothing. -/
theorem Machine.step_halt {i : Inst} {m m' : Machine} (h : step i m = (.ok .halt, m')) :
    i.mnemonic = .ret ∧ m' = m := by
  have hret :
      Exec.Returns (fun flow => flow = .halt → i.mnemonic = .ret ∧ i.operands = []) (step i) := by
    have hnext : Flow.next = .halt → i.mnemonic = .ret ∧ i.operands = [] := fun h => by cases h
    unfold step
    split
    case h_13 => exact .bind fun taken => .pure fun h => by cases taken <;> cases h
    case h_14 => exact .pure fun h => by cases h
    case h_15 hm ho => exact .pure fun _ => ⟨hm, ho⟩
    case h_16 => exact .throw _
    case h_1 | h_2 | h_4 | h_11 | h_12 => exact .bind fun _ => .bind fun _ => .pure hnext
    case h_3 | h_5 | h_6 | h_8 | h_9 | h_17 => exact .bind fun _ => .pure hnext
    case h_7 | h_10 => exact .bind fun _ => .bind fun _ => .bind fun _ => .pure hnext
  obtain ⟨hm, ho⟩ := hret m m' _ h rfl
  obtain ⟨mnemonic, size, operands⟩ := i
  subst hm ho
  exact ⟨rfl, (congrArg Prod.snd h).symm⟩

theorem Machine.step_jumpIf (c : Condition) (l : Nat) (m : Machine) :
    Machine.step (.jumpIf c l) m = (.ok (if m.flags.holds c then .jump l else .next), m) := rfl

/-- Without a block to fall through to, a terminator ends in a jump or a return. -/
theorem Family.emit_final {f : Family} {s : Site} {is : List Inst} (hf : f.isTerminator = true)
    (hs : s.fallthrough = none) (h : f.emit s = .ok is) :
    ∃ front i, is = front ++ [i] ∧ i.isFinal = true := by
  have hjumps (c : Condition) (t o : Nat) : Emit.jumps s c t o = [.jumpIf c t, .jmp o] := by
    simp [Emit.jumps, hs]
  cases f
  case ret =>
    refine ⟨_, .ret, (Except.ok.inj h).symm, rfl⟩
  case intRet | floatRet => exact ⟨[], .ret, (Except.ok.inj h).symm, rfl⟩
  case branch =>
    obtain ⟨predicate, t, o, -, -, -, rfl⟩ := Emit.branch_ok h
    exact ⟨[_, _], .jmp o, by rw [hjumps]; rfl, rfl⟩
  case branchOn =>
    obtain ⟨c, left, right, t, o, -, -, -, -, -, rfl⟩ := Emit.branchOn_ok h
    exact ⟨[_, _], .jmp o, by rw [hjumps]; rfl, rfl⟩
  case jump =>
    obtain ⟨t, -, rfl⟩ := Emit.jump_ok (Emit.whole_eq_ok.mp h)
    exact ⟨[], .jmp t, by simp [hs], rfl⟩
  all_goals exact absurd hf Bool.false_ne_true

namespace Emission

variable {g : Graph} {a : Allocation} {config : Config} {code : Code} {id p l : Nat} {i : Inst}

theorem flatten_blockChunks (g : Graph) (a : Allocation) (config : Config) :
    (blockChunks g a config).flatten = g.layout.flatMap (chunk g a config) := by
  rw [blockChunks, Graph.layout, List.flatMap_assoc, List.flatMap_def]

/-- An instruction of a node lies at a position. -/
def Owns (g : Graph) (a : Allocation) (config : Config) (id p : Nat) : Prop :=
  ∃ front back k, g.layout = front ++ id :: back ∧ k < (chunk g a config id).length ∧
    p = (front.flatMap (chunk g a config)).length + k

theorem exists_of_getElem?_flatMap {α β : Type} {xs : List α} {f : α → List β} {p : Nat} {y : β}
    (h : (xs.flatMap f)[p]? = some y) : ∃ front x back k, xs = front ++ x :: back ∧
      (f x)[k]? = some y ∧ p = (front.flatMap f).length + k := by
  induction xs generalizing p with
  | nil => exact absurd h (by simp)
  | cons x xs ih =>
      rw [List.flatMap_cons] at h
      by_cases hp : p < (f x).length
      · rw [List.getElem?_append_left hp] at h
        exact ⟨[], x, xs, p, rfl, h, by simp⟩
      · rw [List.getElem?_append_right (by omega)] at h
        obtain ⟨front, z, back, k, rfl, hk, hp'⟩ := ih h
        refine ⟨x :: front, z, back, k, rfl, hk, ?_⟩
        rw [List.flatMap_cons, List.length_append]
        omega

/-- Every instruction of the code but the trap behind it belongs to a node. -/
theorem exists_owner (hemit : emit g a config = .ok code) (hi : code.insts[p]? = some i) :
    p = (blockChunks g a config).flatten.length ∧ i = .ud2 ∨
    p < (blockChunks g a config).flatten.length ∧
      ∃ id b n block f x, Owns g a config id p ∧ g.nodes[id]? = some ⟨b, n⟩ ∧
        Checked g config b block n f x (chunk g a config id) ∧ i ∈ chunk g a config id := by
  obtain ⟨hcode, hnodes⟩ := emit_ok hemit
  by_cases hp : p < (blockChunks g a config).flatten.length
  · refine .inr ⟨hp, ?_⟩
    obtain ⟨tail, hinsts⟩ := link_insts (blockChunks g a config)
    rw [hcode, hinsts, List.getElem?_toArray, List.getElem?_append_left hp, flatten_blockChunks] at hi
    obtain ⟨front, id, back, k, hlayout, hk, rfl⟩ := exists_of_getElem?_flatMap hi
    have hid : id ∈ g.layout := by
      rw [hlayout]
      exact List.mem_append_right _ List.mem_cons_self
    obtain ⟨b, hb⟩ := Graph.mem_layout.mp hid
    obtain ⟨n, hn⟩ := Graph.blockOf?_eq_some.mp hb
    have hblock := Array.getElem?_eq_getElem (Graph.blockOf?_lt hb)
    obtain ⟨f, x, hchecked⟩ := emitNode_checked (hnodes id b n _ hn hblock)
    have hlt := (List.getElem?_eq_some_iff.mp hk).1
    exact ⟨id, b, n, _, f, x, ⟨front, back, k, hlayout, hlt, rfl⟩, hn, hchecked,
      List.mem_of_getElem? hk⟩
  · refine .inl ?_
    rw [hcode, link] at hi
    split at hi
    · rw [List.getElem?_toArray, List.getElem?_append_right (by omega)] at hi
      obtain ⟨hlt, hget⟩ := List.getElem?_eq_some_iff.mp hi
      rw [List.length_singleton] at hlt
      refine ⟨by omega, ?_⟩
      rw [← hget, List.getElem_singleton]
    · rw [List.getElem?_toArray, List.getElem?_eq_none (by omega)] at hi
      exact absurd hi (by simp)

theorem isKnown_of_emit (hemit : emit g a config = .ok code) (hi : code.insts[p]? = some i) :
    i.isKnown = true := by
  rcases exists_owner hemit hi with ⟨-, rfl⟩ | ⟨-, id, b, n, block, f, x, -, -, hchecked, hmem⟩
  · rfl
  · exact (Family.emit_issued hchecked.emitted i hmem).known

/-- A label in the code is that of a block, or that of the trap in a bounds check. -/
theorem label_of_emit (hemit : emit g a config = .ok code) (hi : code.insts[p]? = some i)
    (hl : i.mentions l = true) :
    l < g.blocks.size ∧ code.offset? l = some (start (blockChunks g a config) l) ∨
    l = g.blocks.size ∧ code.offset? l = some (blockChunks g a config).flatten.length ∧
      code.insts[(blockChunks g a config).flatten.length]? = some .ud2 ∧
      (∃ c, i = .jumpIf c l) ∧
      ∃ id n, Owns g a config id p ∧ g.node? id = some n ∧ n.op = .target .boundsCheck := by
  obtain ⟨hcode, -⟩ := emit_ok hemit
  rcases exists_owner hemit hi with
    ⟨-, rfl⟩ | ⟨hp, id, b, n, block, f, x, howns, hn, hchecked, hmem⟩
  · exact absurd hl (by simp [Inst.mentions, Inst.ud2])
  · rcases (Family.emit_issued hchecked.emitted i hmem).label l hl with hsucc | ⟨hf, htrap, c, hjump⟩
    · have hlt := hchecked.successors l hsucc
      refine .inl ⟨hlt, ?_⟩
      rw [hcode]
      exact link_offset? (blockChunks_length ▸ hlt)
    · have hflatten : i ∈ (blockChunks g a config).flatten := by
        rw [flatten_blockChunks]
        have hid : id ∈ g.layout := Graph.mem_layout.mpr ⟨b, Graph.blockOf?_eq_some.mpr ⟨n, hn⟩⟩
        exact List.mem_flatMap.mpr ⟨id, hid, hmem⟩
      obtain rfl : l = g.blocks.size := htrap
      have hbound := link_trap hflatten (blockChunks_length ▸ hl)
      rw [blockChunks_length, ← hcode] at hbound
      subst hf
      have hop : n.op = .target .boundsCheck := (Operator.of_family? hchecked.family).2
      exact .inr ⟨rfl, hbound.1, hbound.2, ⟨c, hjump⟩, id, n, howns, Graph.node?_eq_some.mpr ⟨b, hn⟩,
        hop⟩

/-- The code of the last block ends in a jump or a return. -/
theorem exists_final (hemit : emit g a config = .ok code) (hterm : g.Terminated)
    (hblocks : 0 < g.blocks.size) :
    ∃ front i, (blockChunks g a config).flatten = front ++ [i] ∧ i.isFinal = true ∧
      ∀ l < g.blocks.size, start (blockChunks g a config) l ≤ front.length := by
  obtain ⟨-, hnodes⟩ := emit_ok hemit
  obtain ⟨b, hb⟩ : ∃ b, g.blocks.size = b + 1 := ⟨g.blocks.size - 1, by omega⟩
  obtain ⟨id, n, hlast, hn, hop⟩ := hterm b (by omega)
  obtain ⟨body, hbody⟩ := List.getLast?_eq_some_iff.mp hlast
  have hid : g.blockOf? id = some b := by
    rw [← Graph.mem_members, hbody]
    exact List.mem_append_right _ List.mem_cons_self
  obtain ⟨m, hm⟩ := Graph.blockOf?_eq_some.mp hid
  obtain rfl : m = n := Option.some.inj ((Graph.node?_eq_some.mpr ⟨b, hm⟩).symm.trans hn)
  have hblock := Array.getElem?_eq_getElem (Graph.blockOf?_lt hid)
  obtain ⟨f, x, hchecked⟩ := emitNode_checked (hnodes id b m _ hm hblock)
  have hf := (Operator.of_family? hchecked.family).1.symm.trans hop
  have hfall : (siteOf g b g.blocks[b] m x).fallthrough = none := if_neg (by omega)
  obtain ⟨front, i, hchunk, hfinal⟩ := Family.emit_final hf hfall hchecked.emitted
  have hparts : (blockChunks g a config)[b]? = some _ := blockChunks_getElem? (Graph.blockOf?_lt hid)
  have hsplit : (blockChunks g a config).flatten
      = ((blockChunks g a config).take b).flatten ++ (body.flatMap (chunk g a config) ++ front)
        ++ [i] := by
    calc (blockChunks g a config).flatten
        = ((blockChunks g a config).take (b + 1)).flatten := by
          rw [List.take_of_length_le (by rw [blockChunks_length]; omega)]
      _ = ((blockChunks g a config).take b).flatten ++ (g.members b).flatMap (chunk g a config) := by
          rw [List.take_add_one, hparts, List.flatten_append, Option.toList_some, List.flatten_singleton]
      _ = _ := by
          rw [hbody, List.flatMap_append, List.flatMap_singleton, hchunk]
          simp only [List.append_assoc]
  refine ⟨_, i, hsplit, hfinal, fun l hl => ?_⟩
  rw [List.length_append]
  exact Nat.le_trans (start_mono (show l ≤ b by omega)) (Nat.le_add_right _ _)

/-- Where the code of a graph with terminators goes on is an instruction, and the trap is only reached
by a jump to it. -/
theorem moves_lt (hemit : emit g a config = .ok code) (hterm : g.Terminated)
    (hblocks : 0 < g.blocks.size) {m m' : Machine} {q : Nat} (hmove : code.Moves (p, m) (q, m')) :
    q < (blockChunks g a config).flatten.length ∨
    q = (blockChunks g a config).flatten.length ∧ m' = m ∧
      code.insts[(blockChunks g a config).flatten.length]? = some .ud2 ∧
      (∃ c, code.insts[p]? = some (.jumpIf c g.blocks.size) ∧ m.flags.holds c = true) ∧
      code.offset? g.blocks.size = some q ∧
      ∃ id n, Owns g a config id p ∧ g.node? id = some n ∧ n.op = .target .boundsCheck := by
  obtain ⟨hcode, -⟩ := emit_ok hemit
  obtain ⟨front, last, hflatten, hfinal, hstart⟩ := exists_final hemit hterm hblocks
  have hlength : (blockChunks g a config).flatten.length = front.length + 1 := by
    rw [hflatten, List.length_append, List.length_singleton]
  cases hmove with
  | @next _ i _ _ hi hstep =>
      -- nothing goes on behind the trap, or behind the last instruction in front of it
      rcases exists_owner hemit hi with ⟨-, rfl⟩ | ⟨hp, -⟩
      · exact absurd (congrArg Prod.fst hstep) (by intro h; cases h)
      · refine .inl ?_
        by_contra hge
        have hlast : p = front.length := by omega
        obtain ⟨tail, hinsts⟩ := link_insts (blockChunks g a config)
        rw [hcode, hinsts, List.getElem?_toArray, List.getElem?_append_left hp, hflatten, hlast,
          List.getElem?_concat_length, Option.some.injEq] at hi
        exact Machine.step_final (hi ▸ hfinal) _ _ _ hstep rfl
  | @jump _ l _ i _ _ hi hstep ht =>
      have hl := Machine.step_returns i _ _ _ hstep l rfl
      rcases label_of_emit hemit hi hl with ⟨hlt, hoffset⟩ | ⟨rfl, hoffset, hud2, ⟨c, rfl⟩, howner⟩
      · obtain rfl := Option.some.inj (ht.symm.trans hoffset)
        have hle := hstart l hlt
        exact .inl (by omega)
      · obtain rfl := Option.some.inj (ht.symm.trans hoffset)
        rw [Machine.step_jumpIf] at hstep
        obtain rfl := congrArg Prod.snd hstep
        have hflow := Except.ok.inj (congrArg Prod.fst hstep)
        refine .inr ⟨rfl, rfl, hud2, ⟨c, hi, ?_⟩, hoffset, howner⟩
        by_contra hfalse
        rw [if_neg hfalse] at hflow
        exact absurd hflow (by simp)

/-- A run of the code of a graph with terminators stays within it. -/
theorem reaches_lt (hemit : emit g a config = .ok code) (hterm : g.Terminated)
    (hblocks : 0 < g.blocks.size) {m m' : Machine} (hreach : code.Reaches (0, m) (p, m')) :
    p < code.insts.size := by
  obtain ⟨hcode, -⟩ := emit_ok hemit
  have hle : (blockChunks g a config).flatten.length ≤ code.insts.size := by
    obtain ⟨tail, hinsts⟩ := link_insts (blockChunks g a config)
    rw [hcode, hinsts, List.size_toArray, List.length_append]
    exact Nat.le_add_right _ _
  rcases Relation.ReflTransGen.cases_tail hreach with heq | ⟨⟨q, m₁⟩, -, hmove⟩
  · obtain ⟨front, last, hflatten, -⟩ := exists_final hemit hterm hblocks
    have hlength := congrArg List.length hflatten
    rw [List.length_append, List.length_singleton] at hlength
    obtain rfl : p = 0 := congrArg Prod.fst heq
    omega
  · rcases moves_lt hemit hterm hblocks hmove with hlt | ⟨rfl, -, hud2, -⟩
    · omega
    · exact (Array.getElem?_eq_some_iff.mp hud2).1

/-- A run of the code of a graph with terminators comes to the trap only by the jump of a bounds
check. -/
theorem trap_of_check (hemit : emit g a config = .ok code) (hterm : g.Terminated)
    (hblocks : 0 < g.blocks.size) {m m' : Machine}
    (hreach : code.Reaches (0, m) ((blockChunks g a config).flatten.length, m')) :
    ∃ p q c id n, code.Reaches (0, m) (p, m') ∧ Owns g a config id p ∧ g.node? id = some n ∧
      n.op = .target .boundsCheck ∧ code.insts[p]? = some (.jumpIf c g.blocks.size) ∧
      m'.flags.holds c = true ∧ code.offset? g.blocks.size = some q ∧ code.insts[q]? = some .ud2 := by
  rcases Relation.ReflTransGen.cases_tail hreach with heq | ⟨⟨p, m₁⟩, hbefore, hmove⟩
  · obtain ⟨front, last, hflatten, -⟩ := exists_final hemit hterm hblocks
    have hzero : (blockChunks g a config).flatten.length = 0 := congrArg Prod.fst heq
    rw [hflatten, List.length_append, List.length_singleton] at hzero
    omega
  · rcases moves_lt hemit hterm hblocks hmove with hlt |
      ⟨-, rfl, hud2, ⟨c, hi, hholds⟩, hoffset, id, n, howns, hn, hop⟩
    · omega
    · exact ⟨p, _, c, id, n, hbefore, howns, hn, hop, hi, hholds, hoffset, hud2⟩

/-- **Emitted code never gets stuck.** From any machine, a run of emitted code has a rule for every
instruction and a place for every label. If moreover the graph has a block and every block ends in a
terminator, then a run never leaves the code at its end, it returns at a return, and it gets to the trap
only by the jump of a bounds check. -/
theorem emit_never_stuck {g : Graph} {a : Allocation} {config : Config} {code : Code}
    (hemit : emit g a config = .ok code) (m : Machine) :
    (∀ t m', Machine.run code m = (.error t, m') → t.isStuck = false) ∧
    (0 < g.blocks.size → g.Terminated →
      (∀ p m', code.Reaches (0, m) (p, m') → p < code.insts.size) ∧
      (∀ m', Machine.run code m = (.ok (), m') →
        ∃ p i, code.Reaches (0, m) (p, m') ∧ code.insts[p]? = some i ∧ i.mnemonic = .ret) ∧
      ∀ m', Machine.run code m = (.error .unreachable, m') →
        ∃ p q c id n, code.Reaches (0, m) (p, m') ∧ Owns g a config id p ∧ g.node? id = some n ∧
          n.op = .target .boundsCheck ∧ code.insts[p]? = some (.jumpIf c g.blocks.size) ∧
          m'.flags.holds c = true ∧ code.offset? g.blocks.size = some q ∧
          code.insts[q]? = some .ud2) := by
  obtain ⟨p, m₁, hreach, hends⟩ := Machine.runFrom_ends code Machine.stepLimit 0 m
  change code.Ends (p, m₁) (Machine.run code m) at hends
  refine ⟨fun t m' hrun => ?_, fun hblocks hterm => ⟨fun p m' => reaches_lt hemit hterm hblocks, ?_, ?_⟩⟩
  · rw [hrun] at hends
    cases hends with
    | trap hi hstep => exact (Machine.step_raises (isKnown_of_emit hemit hi) _ _ _ hstep).isStuck
    | unbound hi hstep hl =>
        rcases label_of_emit hemit hi (Machine.step_returns _ _ _ _ hstep _ rfl) with h | h
        · exact absurd (hl.symm.trans h.2) (by simp)
        · exact absurd (hl.symm.trans h.2.1) (by simp)
    | limit hi => rfl
  · intro m' hrun
    rw [hrun] at hends
    cases hends with
    | off hi =>
        have hlt := reaches_lt hemit hterm hblocks hreach
        exact absurd hi (by simp [hlt])
    | halt hi hstep =>
        obtain ⟨hret, rfl⟩ := Machine.step_halt hstep
        exact ⟨p, _, hreach, hi, hret⟩
  · intro m' hrun
    rw [hrun] at hends
    cases hends with
    | trap hi hstep =>
        have hmnemonic := Machine.step_raises (isKnown_of_emit hemit hi) _ _ _ hstep
        rcases exists_owner hemit hi with ⟨rfl, rfl⟩ | ⟨-, id, b, n, block, f, x, -, -, hchecked, hmem⟩
        · obtain rfl := congrArg Prod.snd hstep
          exact trap_of_check hemit hterm hblocks hreach
        · exact absurd hmnemonic (Family.emit_issued hchecked.emitted _ hmem).defined

/-- Checks eight bytes at the start of memory. -/
def probe : Graph :=
  .ofParts #[⟨"entry", [1]⟩, ⟨"done", []⟩]
    #[⟨0, .state, [], [], []⟩, ⟨0, .const .i64, [], [.int 0], []⟩,
      ⟨0, .target .memorySize, [], [], [0]⟩, ⟨0, .target .boundsCheck, [], [.int 8], [0, 1, 2]⟩,
      ⟨0, .jump, [], [], []⟩, ⟨1, .target .intRet, [], [], [3]⟩]

def probeRegisters : Allocation :=
  ((((({} : Allocation).set 0 (.gpr .rdi)).set 1 (.gpr .rcx)).set 2 (.gpr .rdx)).set 3
    (.gpr .rax)).setScratch 3 0 (.gpr .rbx)

/-- The trap in which a run ends. -/
def trap? (r : Except Trap Unit × Machine) : Option Trap :=
  match r.1 with
  | .error t => some t
  | .ok _ => none

theorem trap?_eq_some {r : Except Trap Unit × Machine} {t : Trap} (h : trap? r = some t) :
    r = (.error t, r.2) := by
  obtain ⟨result, m⟩ := r
  cases result with
  | error u => rw [Option.some.inj h]
  | ok _ => exact absurd h (by simp [trap?])

/-- Four bytes of memory are too few, so the check leads to the trap. -/
theorem emit_never_stuck_probe : ∃ code m', emit probe probeRegisters {} = .ok code ∧
    0 < probe.blocks.size ∧ probe.Terminated ∧
    Machine.run code (Machine.withMemory #[1, 2, 3, 4]) = (.error .unreachable, m') ∧
    ∃ p q c id n, code.Reaches (0, Machine.withMemory #[1, 2, 3, 4]) (p, m') ∧
      Owns probe probeRegisters {} id p ∧ probe.node? id = some n ∧ n.op = .target .boundsCheck ∧
      code.insts[p]? = some (.jumpIf c 2) ∧ m'.flags.holds c = true ∧ code.offset? 2 = some q ∧
      code.insts[q]? = some .ud2 := by
  have htrap : (emit probe probeRegisters {}).toOption.map (fun code =>
      trap? (Machine.run code (Machine.withMemory #[1, 2, 3, 4]))) = some (some .unreachable) := by
    decide +kernel
  obtain ⟨code, hcode, htrap⟩ := Option.map_eq_some_iff.mp htrap
  have hemit := toOption_eq_some.mp hcode
  have hrun := trap?_eq_some htrap
  have hterm : probe.Terminated := by decide
  have hsafe := (emit_never_stuck hemit (Machine.withMemory #[1, 2, 3, 4])).2 (by decide) hterm
  exact ⟨code, _, hemit, by decide, hterm, hrun, hsafe.2.2 _ hrun⟩

end Emission

end Isel
