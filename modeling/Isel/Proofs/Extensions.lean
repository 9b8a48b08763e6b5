import Isel.Proofs.InstructionForms
import Mathlib

/-! Extensions of the instruction set. Emission looks at the extension of an operator before it writes
anything for a node, so no instruction of a disabled extension gets into the code; and nothing else
that emission checks is reported as a missing extension. -/

namespace Isel

/-! ### Sets with one extension -/

namespace Feature

theorem position_inj {x y : Feature} (h : x.position = y.position) : x = y := by
  cases x <;> cases y <;> first | rfl | exact absurd h (by decide)

theorem position_lt (x : Feature) : x.position < 32 := by
  cases x <;> decide

end Feature

namespace Features

theorem contains_difference_single (x y : Feature) (given : Features) :
    ((single x).difference given).contains y = (decide (x = y) && !given.contains y) := by
  have heq : (x.position = y.position) = (x = y) :=
    propext ⟨Feature.position_inj, fun h => h ▸ rfl⟩
  simp only [contains, difference, single, BitVec.getLsbD_and, BitVec.getLsbD_twoPow,
    BitVec.getLsbD_not, x.position_lt, y.position_lt, decide_true, Bool.true_and, heq]

theorem difference_single_of_contains {x : Feature} {given : Features}
    (h : given.contains x = true) : (single x).difference given = empty := by
  refine congrArg Features.mk (BitVec.eq_of_getLsbD_eq fun k hk => ?_)
  rw [BitVec.getLsbD_and, single, BitVec.getLsbD_twoPow, BitVec.getLsbD_not]
  by_cases hx : x.position = k
  · subst hx
    rw [contains] at h
    simp [h]
  · simp [hx]

theorem firstMissing_empty (given : Features) : empty.firstMissing given = none := by
  have hnone : empty.difference given = empty := congrArg Features.mk BitVec.zero_and
  simp only [firstMissing, hnone]
  rfl

/-- An extension is missing exactly if it is not given. -/
theorem firstMissing_single (x : Feature) (given : Features) :
    (single x).firstMissing given = if given.contains x then none else some (single x) := by
  split
  · next h =>
      simp only [firstMissing, difference_single_of_contains h]
      rfl
  · next h =>
      have hknown : ((single x).difference given).known = [x] := by
        have hfilter : ∀ y ∈ Feature.all, ((single x).difference given).contains y = (x == y) := by
          intro y _
          rw [contains_difference_single]
          by_cases hxy : x = y
          · subst hxy
            simp [h]
          · simp [hxy]
        rw [known, List.filter_congr hfilter]
        cases x <;> rfl
      simp only [firstMissing, hknown]

theorem name_single (x : Feature) : (single x).name = x.name := by
  cases x <;> decide

end Features

/-- An operator needs its extension and nothing else. -/
theorem Operator.features_eq (op : Operator) :
    op.features = op.extension?.elim Features.empty Features.single := by
  cases op with
  | bitCount w count => cases count <;> rfl
  | floatUnary w op => cases op <;> rfl
  | _ => rfl

/-! ### What fails -/

/-- Every failure of a computation has a property. -/
def FailsOnly {ε α : Type} (P : ε → Prop) (x : Except ε α) : Prop := ∀ e, x = .error e → P e

namespace FailsOnly

variable {ε ε' α β : Type} {P : ε → Prop} {x : Except ε α} {f : α → Except ε β}

theorem bind (hx : FailsOnly P x) (hf : ∀ a, x = .ok a → FailsOnly P (f a)) :
    FailsOnly P (x >>= f) := by
  intro e he
  cases hrun : x with
  | error e' =>
      rw [hrun] at he
      obtain rfl := Except.error.inj he
      exact hx e' hrun
  | ok a =>
      rw [hrun] at he
      exact hf a hrun e he

theorem ok (a : α) : FailsOnly P (.ok a : Except ε α) := fun _ h => by cases h

theorem error {e : ε} (h : P e) : FailsOnly P (.error e : Except ε α) := by
  intro e' he
  obtain rfl := Except.error.inj he
  exact h

theorem mapError {P : ε' → Prop} {g : ε → ε'} (h : FailsOnly (fun e => P (g e)) x) :
    FailsOnly P (x.mapError g) := by
  cases x with
  | error e => exact .error (h e rfl)
  | ok a => exact .ok a

theorem mapM {xs : List α} (h : ∀ a ∈ xs, FailsOnly P (f a)) : FailsOnly P (xs.mapM f) := by
  induction xs with
  | nil => exact .ok _
  | cons a xs ih =>
      rw [List.mapM_cons]
      refine .bind (h a List.mem_cons_self) fun b _ => .bind (ih fun a' ha' => ?_) fun _ _ => .ok _
      exact h a' (List.mem_cons_of_mem a ha')

theorem foldlM {step : β → α → Except ε β} {xs : List α} (h : ∀ b a, FailsOnly P (step b a)) (b : β) :
    FailsOnly P (xs.foldlM step b) := by
  induction xs generalizing b with
  | nil => exact .ok b
  | cons a xs ih =>
      rw [List.foldlM_cons]
      exact .bind (h b a) fun b' _ => ih b'

end FailsOnly

/-- Not a complaint about an extension. -/
def Error.IsOther : Error → Prop
  | missingFeature _ _ => False
  | _ => True

namespace Site

variable {s : Site} {i : Nat}

theorem outGpr_other : FailsOnly Error.IsOther s.outGpr := by
  unfold outGpr
  split
  · exact .ok _
  · exact .error trivial

theorem outXmm_other : FailsOnly Error.IsOther s.outXmm := by
  unfold outXmm
  split
  · exact .ok _
  · exact .error trivial

theorem inGpr_other : FailsOnly Error.IsOther (s.inGpr i) := by
  unfold inGpr
  split
  · exact .ok _
  · exact .error trivial

theorem inXmm_other : FailsOnly Error.IsOther (s.inXmm i) := by
  unfold inXmm
  split
  · exact .ok _
  · exact .error trivial

theorem scratchGpr_other : FailsOnly Error.IsOther (s.scratchGpr i) := by
  unfold scratchGpr
  split
  · exact .ok _
  · exact .error trivial

theorem literal_other : FailsOnly Error.IsOther s.literal := by
  unfold literal
  split
  · exact .ok _
  · exact .error trivial

theorem successor_other : FailsOnly Error.IsOther (s.successor i) := by
  unfold successor
  split
  · exact .ok _
  · exact .error trivial

end Site

namespace Emit

variable {s : Site}

theorem arith_other : FailsOnly Error.IsOther (arith s) := by
  refine .bind ?_ fun _ _ => .bind Site.outGpr_other fun _ _ => .bind Site.inGpr_other fun _ _ =>
    .bind Site.inGpr_other fun _ _ => .ok _
  unfold arithOf
  split
  · exact .ok _
  · exact .ok _
  · exact .error trivial

theorem shift_other : FailsOnly Error.IsOther (shift s) := by
  refine .bind ?_ fun _ _ => .bind Site.outGpr_other fun _ _ => .bind Site.inGpr_other fun _ _ =>
    .bind Site.inGpr_other fun _ _ => .ok _
  unfold shiftOf
  split
  · exact .ok _
  · exact .ok _
  · exact .error trivial

theorem division_other : FailsOnly Error.IsOther (division s) := by
  refine .bind ?_ fun _ _ => .bind Site.inGpr_other fun _ _ => .ok _
  unfold divisionOf
  split
  · exact .ok _
  · exact .ok _
  · exact .error trivial

theorem bitCount_other : FailsOnly Error.IsOther (bitCount s) := by
  unfold bitCount
  split
  · exact .bind Site.outGpr_other fun _ _ => .bind Site.inGpr_other fun _ _ => .ok _
  · exact .error trivial

theorem extend32_other : FailsOnly Error.IsOther (extend32 s) := by
  refine .bind Site.outGpr_other fun _ _ => .bind Site.inGpr_other fun _ _ => ?_
  split
  · exact .ok _
  · exact .ok _
  · exact .error trivial

theorem intConst_other : FailsOnly Error.IsOther (intConst s) := by
  refine .bind Site.literal_other fun _ _ => .bind Site.outGpr_other fun _ _ => ?_
  split <;> exact .ok _

theorem intBool_other : FailsOnly Error.IsOther (intBool s) := by
  unfold intBool
  split
  · exact .bind Site.outGpr_other fun _ _ => .bind Site.inGpr_other fun _ _ => .ok _
  · exact .error trivial

theorem compare_other : FailsOnly Error.IsOther (compare s) := by
  unfold compare
  split
  · exact .bind Site.outGpr_other fun _ _ => .bind Site.inGpr_other fun _ _ =>
      .bind Site.inGpr_other fun _ _ => .ok _
  · exact .error trivial

theorem floatBinary_other : FailsOnly Error.IsOther (floatBinary s) := by
  unfold floatBinary
  split
  · exact .bind Site.outXmm_other fun _ _ => .bind Site.inXmm_other fun _ _ =>
      .bind Site.inXmm_other fun _ _ => .ok _
  · exact .error trivial

theorem floatUnary_other : FailsOnly Error.IsOther (floatUnary s) := by
  unfold floatUnary
  split
  · refine .bind Site.outXmm_other fun _ _ => .bind Site.inXmm_other fun _ _ => ?_
    dsimp only
    split <;> exact .ok _
  · exact .error trivial

theorem floatConst_other : FailsOnly Error.IsOther (floatConst s) := by
  refine .bind Site.literal_other fun _ _ => ?_
  split
  · exact .bind Site.outXmm_other fun _ _ => .ok _
  · exact .error trivial

theorem floatBool_other : FailsOnly Error.IsOther (floatBool s) := by
  unfold floatBool
  split
  · exact .bind Site.outGpr_other fun _ _ => .bind Site.inXmm_other fun _ _ => .ok _
  · exact .error trivial

theorem context_other : FailsOnly Error.IsOther (context s) := by
  refine .bind ?_ fun _ _ => .bind Site.outGpr_other fun _ _ => .bind Site.inGpr_other fun _ _ => .ok _
  unfold contextOffset
  split
  · exact .ok _
  · exact .ok _
  · exact .error trivial

theorem boundsCheck_other : FailsOnly Error.IsOther (boundsCheck s) := by
  refine .bind (.bind Site.literal_other fun _ _ => ?_) fun _ _ => .bind Site.outGpr_other fun _ _ =>
    .bind Site.inGpr_other fun _ _ => .bind Site.inGpr_other fun _ _ =>
      .bind Site.scratchGpr_other fun _ _ => .ok _
  dsimp only
  split
  · exact .ok _
  · exact .error trivial

theorem accessAddress_other : FailsOnly Error.IsOther (accessAddress s) :=
  .bind Site.inGpr_other fun _ _ => .bind Site.inGpr_other fun _ _ => .ok _

theorem load_other : FailsOnly Error.IsOther (load s) := by
  unfold load
  split
  · refine .bind accessAddress_other fun _ _ => ?_
    split
    · exact .bind Site.outXmm_other fun _ _ => .ok _
    all_goals exact .bind Site.outGpr_other fun _ _ => .ok _
  · exact .error trivial

theorem store_other : FailsOnly Error.IsOther (store s) := by
  unfold store
  split
  · refine .bind accessAddress_other fun _ _ => ?_
    split
    · exact .bind Site.inXmm_other fun _ _ => .ok _
    · exact .bind Site.inGpr_other fun _ _ => .ok _
  · exact .error trivial

theorem updateState_other : FailsOnly Error.IsOther (updateState s) :=
  .bind Site.outGpr_other fun _ _ => .bind Site.inGpr_other fun _ _ => .ok _

theorem branchAfter_other {test : Inst} {c : Condition} :
    FailsOnly (fun e => e.2.IsOther) (branchAfter s test c) := by
  have hto : FailsOnly Error.IsOther (branchTo s c) :=
    .bind Site.successor_other fun _ _ => .bind Site.successor_other fun _ _ => .ok _
  unfold branchAfter
  split
  · exact .ok _
  · next e he => exact .error (hto e he)

theorem branchOn_other : FailsOnly (fun e => e.2.IsOther) (branchOn s) := by
  unfold branchOn
  split
  · exact .bind (.mapError Site.inGpr_other) fun _ _ => .bind (.mapError Site.inGpr_other)
      fun _ _ => branchAfter_other
  · exact .error trivial

theorem jump_other : FailsOnly Error.IsOther (jump s) :=
  .bind Site.successor_other fun _ _ => .ok _

theorem whole_other {x : Except Error (List Inst)} (h : FailsOnly Error.IsOther x) :
    FailsOnly (fun e => e.2.IsOther) (whole x) := .mapError h

end Emit

/-- A family does not complain about extensions. -/
theorem Family.emit_other (f : Family) (s : Site) :
    FailsOnly (fun e => e.2.IsOther) (f.emit s) := by
  cases f
  case arith => exact Emit.whole_other Emit.arith_other
  case shift => exact Emit.whole_other Emit.shift_other
  case division => exact Emit.whole_other Emit.division_other
  case bitCount => exact Emit.whole_other Emit.bitCount_other
  case extend32 => exact Emit.whole_other Emit.extend32_other
  case intConst => exact Emit.whole_other Emit.intConst_other
  case intBool => exact Emit.whole_other Emit.intBool_other
  case compare => exact Emit.whole_other Emit.compare_other
  case floatBinary => exact Emit.whole_other Emit.floatBinary_other
  case floatUnary => exact Emit.whole_other Emit.floatUnary_other
  case floatConst => exact Emit.whole_other Emit.floatConst_other
  case floatBool => exact Emit.whole_other Emit.floatBool_other
  case context => exact Emit.whole_other Emit.context_other
  case boundsCheck => exact Emit.whole_other Emit.boundsCheck_other
  case load => exact Emit.whole_other Emit.load_other
  case store => exact Emit.whole_other Emit.store_other
  case updateState => exact Emit.whole_other Emit.updateState_other
  case jump => exact Emit.whole_other Emit.jump_other
  case state | ret | intRet | floatRet => exact .ok _
  case branch => exact .bind (.mapError Site.inGpr_other) fun _ _ => Emit.branchAfter_other
  case branchOn => exact Emit.branchOn_other

namespace Emission

variable {g : Graph} {a : Allocation} {config : Config} {code : Code} {b id : Nat} {n : Node}
  {block : Block} {c : Constraint} {x : Assignment} {is : List Inst} {d : Descriptor}

theorem require_features (h : n.op.require = .ok d) : d.opcode = n.op ∧ d.features = n.op.features := by
  unfold Operator.require Operator.descriptor? at h
  cases hf : n.op.family? with
  | none => exact absurd h (by simp [hf])
  | some f =>
      rw [hf] at h
      rw [← Except.ok.inj h]
      exact ⟨rfl, rfl⟩

/-- Emission asks for the extension of an operator, if it has one. -/
theorem checkFeatures_eq (h : n.op.require = .ok d) : checkFeatures config d =
    match n.op.extension? with
    | none => .ok ()
    | some y =>
      if config.features.contains y then .ok () else .error (.missingFeature n.op.name y.name) := by
  obtain ⟨hopcode, hfeatures⟩ := require_features h
  rw [checkFeatures, hopcode, hfeatures, Operator.features_eq]
  cases n.op.extension? with
  | none =>
      rw [Option.elim_none, Features.firstMissing_empty]
  | some y =>
      rw [Option.elim_some, Features.firstMissing_single]
      dsimp only
      cases config.features.contains y with
      | true => rfl
      | false =>
          rw [← Features.name_single y]
          rfl

/-- What emission has checked of a node when it writes instructions for it. -/
structure Checked (g : Graph) (config : Config) (b : Nat) (block : Block) (n : Node) (f : Family)
    (x : Assignment) (is : List Inst) : Prop where
  family : n.op.family? = some f
  extension : ∀ y, n.op.extension? = some y → config.features.contains y = true
  successors : ∀ c ∈ block.successors, c < g.blocks.size
  emitted : f.emit (siteOf g b block n x) = .ok is

theorem emitNode_checked (h : emitNode g a config b block id n = .ok is) :
    ∃ f x, Checked g config b block n f x is := by
  obtain ⟨d, hd, h⟩ := bind_eq_ok.mp h
  obtain ⟨u, hfeatures, h⟩ := bind_eq_ok.mp h
  obtain ⟨x, hx, h⟩ := bind_eq_ok.mp h
  obtain ⟨u, hcheck, h⟩ := bind_eq_ok.mp h
  have hrequire := mapError_eq_ok.mp hd
  split at h
  · exact absurd h (by simp)
  · next hbound =>
      refine ⟨d.family, x, require_ok hrequire, fun y hy => ?_, fun c hc => ?_, mapError_eq_ok.mp h⟩
      · by_contra hnot
        rw [orError, mapError_eq_ok, checkFeatures_eq hrequire, hy] at hfeatures
        simp only [if_neg hnot] at hfeatures
        exact absurd hfeatures (by simp)
      · by_contra hge
        exact hbound (List.any_eq_true.mpr ⟨c, hc, by simpa using hge⟩)

/-- Every instruction of the code but the trap at its end is one of a node. -/
theorem exists_node_of_mem (hemit : emit g a config = .ok code) {i : Inst} (hi : i ∈ code.insts) :
    i = .ud2 ∨ ∃ id b n block f x, g.nodes[id]? = some ⟨b, n⟩ ∧
      Checked g config b block n f x (chunk g a config id) ∧ i ∈ chunk g a config id := by
  obtain ⟨hcode, hnodes⟩ := emit_ok hemit
  have hmem : i ∈ (blockChunks g a config).flatten ∨ i = .ud2 := by
    rw [hcode, link] at hi
    split at hi
    · simpa using hi
    · exact .inl (by simpa using hi)
  rcases hmem with hmem | htrap
  · obtain ⟨part, hpart, hi⟩ := List.mem_flatten.mp hmem
    obtain ⟨b, hb, rfl⟩ := List.mem_map.mp hpart
    obtain ⟨id, hid, hi⟩ := List.mem_flatMap.mp hi
    obtain ⟨n, hn⟩ := Graph.blockOf?_eq_some.mp (Graph.mem_members.mp hid)
    have hblock := Array.getElem?_eq_getElem (List.mem_range.mp hb)
    obtain ⟨f, x, hchecked⟩ := emitNode_checked (hnodes id b n _ hn hblock)
    exact .inr ⟨id, b, n, _, f, x, hn, hchecked, hi⟩
  · exact .inl htrap

/-- A failure that complains about an extension only if a node needs it and it is disabled. -/
def Justified (g : Graph) (config : Config) : Failure → Prop
  | .error (.missingFeature opcode feature) => ∃ id n y, g.node? id = some n ∧
      n.op.extension? = some y ∧ config.features.contains y = false ∧ opcode = n.op.name ∧
      feature = y.name
  | _ => True

theorem justified_of_isOther {e : Error} (h : e.IsOther) : Justified g config (.error e) := by
  cases e <;> first | exact trivial | exact h.elim

theorem location_other (id : Nat) : FailsOnly Error.IsOther (location a id) := by
  unfold location
  split
  · exact .ok _
  · exact .error trivial

theorem scratchLocation_other (d : Demand) : FailsOnly Error.IsOther (scratchLocation a id d) := by
  unfold scratchLocation
  split
  · exact .ok _
  · split
    · exact .ok _
    · exact .error trivial

theorem assignment_other : FailsOnly Error.IsOther (assignment a id n c) := by
  refine .bind ?_ fun _ _ => .bind (.mapM fun v _ => .bind (location_other v) fun _ _ => .ok _)
    fun _ _ => .bind (.mapM fun d _ => scratchLocation_other d) fun _ _ => .ok _
  cases c.output? with
  | none => exact .ok _
  | some q => exact .bind (location_other id) fun _ _ => .ok _

theorem require_other (op : Operator) : FailsOnly Error.IsOther op.require := by
  unfold Operator.require
  split
  · exact .ok _
  · exact .error trivial

theorem emitNode_justified (hn : g.node? id = some n) :
    FailsOnly (Justified g config) (emitNode g a config b block id n) := by
  have hother {α : Type} {x : Except Error α} (h : FailsOnly Error.IsOther x) :
      FailsOnly (Justified g config) (orError x) :=
    .mapError fun e he => justified_of_isOther (h e he)
  refine .bind (hother (require_other _)) fun d hd => .bind (.mapError ?_) fun _ _ =>
    .bind (hother assignment_other) fun x _ => .bind ?_ fun _ _ => ?_
  · -- the one place where an extension is complained about
    rw [checkFeatures_eq (mapError_eq_ok.mp hd)]
    split
    · exact .ok _
    · next y hy =>
        split
        · exact .ok _
        · next hnot => exact .error ⟨id, n, y, hn, hy, by simpa using hnot, rfl, rfl⟩
  · unfold checkAssignment
    split
    · exact .ok _
    · split <;> exact .error trivial
  · split
    · exact .error trivial
    · exact .mapError fun e he => justified_of_isOther (d.family.emit_other _ e he)

theorem emit_justified : FailsOnly (Justified g config) (emit g a config) := by
  refine .bind (.mapM fun entry _ => .bind (.mapM fun id _ => ?_) fun _ _ => .ok _) fun _ _ => .ok _
  cases hn : g.node? id with
  | none => exact .error trivial
  | some n => exact emitNode_justified hn

/-- **Disabled extensions.** Code holds an instruction of an extension only if the extension is
enabled; and an extension is complained about only where a node needs it and it is disabled. -/
theorem emit_extensions (g : Graph) (a : Allocation) (config : Config) :
    (∀ code, emit g a config = .ok code → ∀ i ∈ code.insts, ∀ y, i.mnemonic.extension? = some y →
      config.features.contains y = true) ∧
    ∀ opcode feature, emit g a config = .error (.error (.missingFeature opcode feature)) →
      ∃ id n y, g.node? id = some n ∧ n.op.extension? = some y ∧
        config.features.contains y = false ∧ opcode = n.op.name ∧ feature = y.name := by
  constructor
  · intro code hemit i hi y hy
    rcases exists_node_of_mem hemit hi with rfl | ⟨id, b, n, block, f, x, hn, hchecked, hmem⟩
    · exact absurd hy (by simp [Inst.ud2, Mnemonic.extension?])
    · exact hchecked.extension y ((Family.emit_issued hchecked.emitted i hmem).extension y hy)
  · intro opcode feature hemit
    exact emit_justified _ hemit

/-- Counts the leading zeros of a constant. -/
def zeros : Graph :=
  .ofParts #[⟨"entry", []⟩]
    #[⟨0, .const .i64, [], [.int 40], []⟩, ⟨0, .bitCount .w64 .leading, [], [], [0]⟩,
      ⟨0, .target .intRet, [], [], [1]⟩]

def zerosRegisters : Allocation :=
  (({} : Allocation).set 0 (.gpr .rcx)).set 1 (.gpr .rax)

theorem emit_extensions_zeros :
    (∃ code, emit zeros zerosRegisters {} = .ok code ∧
      ∃ i ∈ code.insts, i.mnemonic = .count .leading ∧ ({} : Config).features.contains .lzcnt = true) ∧
    emit zeros zerosRegisters .baseline = .error (.error (.missingFeature "i64.clz" "lzcnt")) ∧
    ∃ id n y, zeros.node? id = some n ∧ n.op.extension? = some y ∧
      Config.baseline.features.contains y = false ∧ "i64.clz" = n.op.name ∧ "lzcnt" = y.name := by
  have hok : (emit zeros zerosRegisters {}).toOption.map (·.insts[1]?.map (·.mnemonic))
      = some (some (.count .leading)) := by
    cbv
  have hmissing : emit zeros zerosRegisters .baseline
      = .error (.error (.missingFeature "i64.clz" "lzcnt")) := by
    cbv
  obtain ⟨code, hcode, hsecond⟩ := Option.map_eq_some_iff.mp hok
  obtain ⟨i, hi, hmnemonic⟩ := Option.map_eq_some_iff.mp hsecond
  have hemit := toOption_eq_some.mp hcode
  have hmem := Array.mem_of_getElem? hi
  refine ⟨⟨code, hemit, i, hmem, hmnemonic, ?_⟩, hmissing, (emit_extensions _ _ _).2 _ _ hmissing⟩
  exact (emit_extensions _ _ _).1 code hemit i hmem .lzcnt (by rw [hmnemonic]; rfl)

end Emission

end Isel
