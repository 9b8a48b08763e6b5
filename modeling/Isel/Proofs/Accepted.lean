import Isel.Proofs.EmissionRun
import Isel.Proofs.Registered

/-! Registers that the check of a constraint accepts are all that emission needs. Every operand is in
a register of the class that its instruction works on, so a node is emitted unless it lacks a literal
or a successor, its bounds check is too wide, or its state is in a floating-point register. -/

namespace Isel

theorem Reg.exists_gpr {r : Reg} (h : r.cls = .int) : ∃ q, r = .gpr q := by
  cases r with
  | gpr q => exact ⟨q, rfl⟩
  | xmm q => exact absurd h (by simp [cls])

theorem Reg.exists_xmm {r : Reg} (h : r.cls = .float) : ∃ q, r = .xmm q := by
  cases r with
  | gpr q => exact absurd h (by simp [cls])
  | xmm q => exact ⟨q, rfl⟩

theorem RegClass.cls_of_contains {c : RegClass} {r : Reg} (h : c.contains r = true) (hc : c ≠ .any) :
    r.cls = c := by
  cases c <;> cases r <;> simp_all [contains, Reg.cls]

theorem Requirement.cls_of_isMetBy {q : Requirement} {r : Reg} (h : q.isMetBy r = true)
    (hq : q.cls ≠ .any) : r.cls = q.cls := by
  cases q with
  | fixed r' =>
      obtain rfl : r' = r := by simpa [isMetBy] using h
      rfl
  | register c | registerOrMemory c => exact RegClass.cls_of_contains h hq
  | any => exact absurd rfl hq

namespace Constraint

theorem output?_binary (cls : RegClass) (isCommutative : Bool) (detour : Reg) :
    (binary cls isCommutative detour).output? = some (.register cls) := by
  cases isCommutative <;> rfl

theorem input?_binary (cls : RegClass) (isCommutative : Bool) (detour : Reg) {i : Nat} (hi : i < 2) :
    (binary cls isCommutative detour).input? i = some (.registerOrMemory cls) := by
  match i, hi with
  | 0, _ | 1, _ => cases isCommutative <;> rfl

namespace Met

variable {c : Constraint} {x : Assignment} {q : Requirement}

theorem output_cls (h : c.Met x) (hsome : x.output.isSome = true) (hq : c.output? = some q)
    (hcls : q.cls ≠ .any) : ∃ r, x.output = some r ∧ r.cls = q.cls := by
  obtain ⟨r, hr⟩ := Option.isSome_iff_exists.mp hsome
  exact ⟨r, hr, Requirement.cls_of_isMetBy (h.output q r hq hr) hcls⟩

theorem input_cls (h : c.Met x) {i : Nat} (hq : c.input? i = some q) (hcls : q.cls ≠ .any) :
    ∃ v r, x.inputs[i]? = some (v, r) ∧ r.cls = q.cls := by
  obtain ⟨d, hd, rfl⟩ := Option.map_eq_some_iff.mp hq
  obtain rfl : d.index = i := by simpa using List.find?_some hd
  obtain ⟨v, r, hr, hmet⟩ := h.input d (List.mem_of_find?_eq_some hd)
  exact ⟨v, r, hr, Requirement.cls_of_isMetBy hmet hcls⟩

end Met

end Constraint

theorem exists_bind_ok {ε α β : Type} {e : Except ε α} {f : α → Except ε β} (he : ∃ a, e = .ok a)
    (hf : ∀ a, ∃ r, f a = .ok r) : ∃ r, (e >>= f) = .ok r := by
  obtain ⟨a, rfl⟩ := he
  exact hf a

theorem exists_mapError_ok {ε ε' α : Type} {e : Except ε α} {f : ε → ε'} (he : ∃ a, e = .ok a) :
    ∃ a, e.mapError f = .ok a := by
  obtain ⟨a, rfl⟩ := he
  exact ⟨a, rfl⟩

theorem Family.output?_isSome {f : Family} (hterm : f.isTerminator = false) (hstore : f ≠ .store)
    (n : Node) : (f.constraint n).output?.isSome = true := by
  cases f
  case arith =>
    rw [constraint, Constraint.output?_binary]
    rfl
  case floatBinary =>
    rw [constraint]
    split
    · rfl
    · rw [Constraint.output?_binary]
      rfl
    · rfl
  case floatUnary =>
    rw [constraint]
    split <;> rfl
  all_goals first | rfl | exact absurd hterm (by decide) | exact absurd rfl hstore

theorem Family.constraint_floatBinary {n : Node} {w : FloatWidth} {op : FloatBinary}
    (hop : n.op = .floatBinary w op) :
    (constraint .floatBinary n).output? = some (.register .float) ∧
      (constraint .floatBinary n).input? 0 = some (.registerOrMemory .float) ∧
      (constraint .floatBinary n).input? 1 = some (.registerOrMemory .float) := by
  simp only [constraint, hop]
  cases op with
  | copysign => exact ⟨rfl, rfl, rfl⟩
  | arith op =>
      exact ⟨Constraint.output?_binary _ _ _, Constraint.input?_binary _ _ _ (by decide),
        Constraint.input?_binary _ _ _ (by decide)⟩

theorem Family.constraint_floatUnary {n : Node} {w : FloatWidth} {op : FloatUnary}
    (hop : n.op = .floatUnary w op) :
    (constraint .floatUnary n).output? = some (.register .float) ∧
      (constraint .floatUnary n).input? 0 = some (.registerOrMemory .float) := by
  simp only [constraint, hop]
  cases op <;> exact ⟨rfl, rfl⟩

/-! ### The operands that the instructions of each family are made of -/

namespace Emit

variable {s : Site}

theorem arith_emits (hof : ∃ p, arithOf s = .ok p) (hout : ∃ r, s.outGpr = .ok r)
    (hleft : ∃ r, s.inGpr 0 = .ok r) (hright : ∃ r, s.inGpr 1 = .ok r) : ∃ is, arith s = .ok is :=
  exists_bind_ok hof fun _ => exists_bind_ok hout fun _ => exists_bind_ok hleft fun _ =>
    exists_bind_ok hright fun _ => ⟨_, rfl⟩

theorem shift_emits (hof : ∃ p, shiftOf s = .ok p) (hout : ∃ r, s.outGpr = .ok r)
    (hvalue : ∃ r, s.inGpr 0 = .ok r) (hcount : ∃ r, s.inGpr 1 = .ok r) : ∃ is, shift s = .ok is :=
  exists_bind_ok hof fun _ => exists_bind_ok hout fun _ => exists_bind_ok hvalue fun _ =>
    exists_bind_ok hcount fun _ => ⟨_, rfl⟩

theorem division_emits (hof : ∃ p, divisionOf s = .ok p) (hdivisor : ∃ r, s.inGpr 1 = .ok r) :
    ∃ is, division s = .ok is :=
  exists_bind_ok hof fun _ => exists_bind_ok hdivisor fun _ => ⟨_, rfl⟩

theorem bitCount_emits {w : IntWidth} {op : BitCount} (hop : s.op = .bitCount w op)
    (hout : ∃ r, s.outGpr = .ok r) (hin : ∃ r, s.inGpr 0 = .ok r) : ∃ is, bitCount s = .ok is := by
  rw [bitCount, hop]
  exact exists_bind_ok hout fun _ => exists_bind_ok hin fun _ => ⟨_, rfl⟩

theorem extend32_emits {signed : Bool} (hop : s.op = .target (.extend32 signed))
    (hout : ∃ r, s.outGpr = .ok r) (hin : ∃ r, s.inGpr 0 = .ok r) : ∃ is, extend32 s = .ok is := by
  refine exists_bind_ok hout fun _ => exists_bind_ok hin fun _ => ?_
  rw [hop]
  cases signed <;> exact ⟨_, rfl⟩

theorem intConst_emits (hliteral : ∃ l, s.literal = .ok l) (hout : ∃ r, s.outGpr = .ok r) :
    ∃ is, intConst s = .ok is := by
  refine exists_bind_ok hliteral fun _ => exists_bind_ok hout fun _ => ?_
  split <;> exact ⟨_, rfl⟩

theorem intBool_emits {w : IntWidth} (hop : s.op = .bool (.int w)) (hout : ∃ r, s.outGpr = .ok r)
    (hin : ∃ r, s.inGpr 0 = .ok r) : ∃ is, intBool s = .ok is := by
  rw [intBool, hop]
  exact exists_bind_ok hout fun _ => exists_bind_ok hin fun _ => ⟨_, rfl⟩

theorem compare_emits {c : Comparison} (hop : s.op = .compare .w64 c) (hout : ∃ r, s.outGpr = .ok r)
    (hleft : ∃ r, s.inGpr 0 = .ok r) (hright : ∃ r, s.inGpr 1 = .ok r) : ∃ is, compare s = .ok is := by
  rw [compare, hop]
  exact exists_bind_ok hout fun _ => exists_bind_ok hleft fun _ => exists_bind_ok hright fun _ => ⟨_, rfl⟩

theorem floatBinary_emits {w : FloatWidth} {op : FloatBinary} (hop : s.op = .floatBinary w op)
    (hout : ∃ r, s.outXmm = .ok r) (hleft : ∃ r, s.inXmm 0 = .ok r) (hright : ∃ r, s.inXmm 1 = .ok r) :
    ∃ is, floatBinary s = .ok is := by
  rw [floatBinary, hop]
  exact exists_bind_ok hout fun _ => exists_bind_ok hleft fun _ => exists_bind_ok hright fun _ => ⟨_, rfl⟩

theorem floatUnary_emits {w : FloatWidth} {op : FloatUnary} (hop : s.op = .floatUnary w op)
    (hout : ∃ r, s.outXmm = .ok r) (hin : ∃ r, s.inXmm 0 = .ok r) : ∃ is, floatUnary s = .ok is := by
  rw [floatUnary, hop]
  refine exists_bind_ok hout fun _ => exists_bind_ok hin fun _ => ?_
  cases op <;> exact ⟨_, rfl⟩

theorem floatConst_emits {w : FloatWidth} (hop : s.op = .const (.float w))
    (hliteral : ∃ l, s.literal = .ok l) (hout : ∃ r, s.outXmm = .ok r) : ∃ is, floatConst s = .ok is := by
  refine exists_bind_ok hliteral fun _ => ?_
  rw [hop]
  exact exists_bind_ok hout fun _ => ⟨_, rfl⟩

theorem floatBool_emits {w : FloatWidth} (hop : s.op = .bool (.float w)) (hout : ∃ r, s.outGpr = .ok r)
    (hin : ∃ r, s.inXmm 0 = .ok r) : ∃ is, floatBool s = .ok is := by
  rw [floatBool, hop]
  exact exists_bind_ok hout fun _ => exists_bind_ok hin fun _ => ⟨_, rfl⟩

theorem context_emits (hof : ∃ p, contextOffset s = .ok p) (hout : ∃ r, s.outGpr = .ok r)
    (hbase : ∃ r, s.inGpr 0 = .ok r) : ∃ is, context s = .ok is :=
  exists_bind_ok hof fun _ => exists_bind_ok hout fun _ => exists_bind_ok hbase fun _ => ⟨_, rfl⟩

theorem checkWidth_of_fits {l : Literal} (hl : s.literal = .ok l)
    (hfits : (l.toInt.setWidth 32).signExtend 64 = l.toInt) :
    checkWidth s = .ok (l.toInt.setWidth 32) :=
  bind_eq_ok.mpr ⟨l, hl, if_pos hfits⟩

theorem boundsCheck_emits (hwidth : ∃ disp, checkWidth s = .ok disp) (hout : ∃ r, s.outGpr = .ok r)
    (haddr : ∃ r, s.inGpr 1 = .ok r) (hsize : ∃ r, s.inGpr 2 = .ok r)
    (hstop : ∃ r, s.scratchGpr 0 = .ok r) : ∃ is, boundsCheck s = .ok is :=
  exists_bind_ok hwidth fun _ => exists_bind_ok hout fun _ => exists_bind_ok haddr fun _ =>
    exists_bind_ok hsize fun _ => exists_bind_ok hstop fun _ => ⟨_, rfl⟩

theorem accessAddress_emits (hbase : ∃ r, s.inGpr 1 = .ok r) (hindex : ∃ r, s.inGpr 2 = .ok r) :
    ∃ a, accessAddress s = .ok a :=
  exists_bind_ok hbase fun _ => exists_bind_ok hindex fun _ => ⟨_, rfl⟩

theorem load_emits {access : TargetLoad} (hop : s.op = .target (.load access))
    (haddress : ∃ a, accessAddress s = .ok a) (hgpr : access.cls = .int → ∃ r, s.outGpr = .ok r)
    (hxmm : access.cls = .float → ∃ r, s.outXmm = .ok r) : ∃ is, load s = .ok is := by
  rw [load, hop]
  refine exists_bind_ok haddress fun _ => ?_
  rcases access with w | ⟨_ | _ | _, _ | _⟩ | w
  case float => exact exists_bind_ok (hxmm rfl) fun _ => ⟨_, rfl⟩
  all_goals exact exists_bind_ok (hgpr rfl) fun _ => ⟨_, rfl⟩

theorem store_emits {access : TargetStore} (hop : s.op = .target (.store access))
    (haddress : ∃ a, accessAddress s = .ok a) (hgpr : access.cls = .int → ∃ r, s.inGpr 3 = .ok r)
    (hxmm : access.cls = .float → ∃ r, s.inXmm 3 = .ok r) : ∃ is, store s = .ok is := by
  rw [store, hop]
  refine exists_bind_ok haddress fun _ => ?_
  cases access with
  | int size => exact exists_bind_ok (hgpr rfl) fun _ => ⟨_, rfl⟩
  | float w => exact exists_bind_ok (hxmm rfl) fun _ => ⟨_, rfl⟩

theorem updateState_emits (hout : ∃ r, s.outGpr = .ok r) (hstate : ∃ r, s.inGpr 0 = .ok r) :
    ∃ is, updateState s = .ok is :=
  exists_bind_ok hout fun _ => exists_bind_ok hstate fun _ => ⟨_, rfl⟩

theorem branchAfter_emits (test : Inst) (c : Condition) (htaken : ∃ t, s.successor 0 = .ok t)
    (hother : ∃ t, s.successor 1 = .ok t) : ∃ is, branchAfter s test c = .ok is := by
  obtain ⟨is, his⟩ : ∃ is, branchTo s c = .ok is :=
    exists_bind_ok htaken fun _ => exists_bind_ok hother fun _ => ⟨_, rfl⟩
  exact ⟨test :: is, by rw [branchAfter, his]⟩

theorem branch_emits (hin : ∃ r, s.inGpr 0 = .ok r) (htaken : ∃ t, s.successor 0 = .ok t)
    (hother : ∃ t, s.successor 1 = .ok t) : ∃ is, branch s = .ok is :=
  exists_bind_ok (exists_mapError_ok hin) fun _ => branchAfter_emits _ _ htaken hother

theorem branchOn_emits {c : Comparison} (hop : s.op = .target (.branchOn c))
    (hleft : ∃ r, s.inGpr 0 = .ok r) (hright : ∃ r, s.inGpr 1 = .ok r)
    (htaken : ∃ t, s.successor 0 = .ok t) (hother : ∃ t, s.successor 1 = .ok t) :
    ∃ is, branchOn s = .ok is := by
  rw [branchOn, hop]
  exact exists_bind_ok (exists_mapError_ok hleft) fun _ =>
    exists_bind_ok (exists_mapError_ok hright) fun _ => branchAfter_emits _ _ htaken hother

theorem jump_emits (htarget : ∃ t, s.successor 0 = .ok t) : ∃ is, jump s = .ok is :=
  exists_bind_ok htarget fun _ => ⟨_, rfl⟩

end Emit

/-! ### Accepted registers -/

/-- A width fits in a displacement if it is a signed number of 32 bits. -/
theorem signExtend_setWidth_eq_iff {width : Word} : (width.setWidth 32).signExtend 64 = width ↔
    -2 ^ 31 ≤ width.toInt ∧ width.toInt < 2 ^ 31 := by
  rw [← BitVec.toInt_inj, BitVec.toInt_signExtend_of_le (by decide), BitVec.toInt_setWidth,
    BitVec.toInt_eq_toNat_bmod]
  have hbound := width.isLt
  simp only [Int.bmod_def]
  omega

/-- What emission needs of a node besides its registers. -/
def Site.Ready (s : Site) : Prop :=
  match s.op with
  | .const _ => ∃ l, s.literal = .ok l
  | .target .boundsCheck => ∃ l, s.literal = .ok l ∧ (l.toInt.setWidth 32).signExtend 64 = l.toInt
  | .branch | .target (.branchOn _) => (∃ t, s.successor 0 = .ok t) ∧ ∃ t, s.successor 1 = .ok t
  | .jump => ∃ t, s.successor 0 = .ok t
  | .updateState => ∃ r, s.inGpr 0 = .ok r
  | _ => True

/-- Registers for a node of the target that pass the check of its constraint. The check passes over
an output that is missing. -/
structure Accepted (n : Node) (d : Descriptor) (x : Assignment) : Prop where
  registered : Registry.x64.get? n.op = some d
  unviolated : (d.family.constraint n).violation? x = none
  output : (d.family.constraint n).output?.isSome = true → x.output.isSome = true

/-- What emission sees are the registers of an assignment, whatever comes after the node. -/
structure Site.Sees (s : Site) (n : Node) (x : Assignment) : Prop where
  node : s.node = n
  output : s.output = x.output
  inputs : s.inputs = x.inputs.map Prod.snd
  scratches : s.scratches = x.scratches

theorem Emission.siteOf_sees (g : Graph) (b : Nat) (block : Block) (n : Node) (x : Assignment) :
    (siteOf g b block n x).Sees n x := ⟨rfl, rfl, rfl, rfl⟩

namespace Accepted

open Emission

variable {n : Node} {d : Descriptor} {x : Assignment} {q : Requirement} {s : Site}

theorem family (h : Accepted n d x) : n.op.family? = some d.family := by
  have hregistered := h.registered
  rw [Registry.x64_get?] at hregistered
  exact (Operator.opcode_of_descriptor? hregistered).2

theorem family_eq {f : Family} (h : Accepted n d x) (hf : n.op.family? = some f) : d.family = f :=
  Option.some.inj (h.family.symm.trans hf)

theorem met (h : Accepted n d x) : (d.family.constraint n).Met x :=
  Constraint.met_of_violation? h.unviolated

theorem family_ne_store (h : Accepted n d x) (hstore : ∀ a, n.op ≠ .target (.store a)) :
    d.family ≠ .store := by
  intro heq
  have hfamily := h.family
  rw [heq] at hfamily
  obtain ⟨-, a, ha⟩ := Operator.of_family? hfamily
  exact hstore a ha

theorem outGpr (h : Accepted n d x) (hs : s.Sees n x) (hq : (d.family.constraint n).output? = some q)
    (hint : q.cls = .int) : ∃ r, s.outGpr = .ok r := by
  obtain ⟨r, hr, hcls⟩ := h.met.output_cls (h.output (by rw [hq]; rfl)) hq (by simp [hint])
  obtain ⟨r, rfl⟩ := Reg.exists_gpr (hcls.trans hint)
  exact ⟨r, Site.outGpr_eq_ok.mpr (hs.output.trans hr)⟩

theorem outXmm (h : Accepted n d x) (hs : s.Sees n x) (hq : (d.family.constraint n).output? = some q)
    (hfloat : q.cls = .float) : ∃ r, s.outXmm = .ok r := by
  obtain ⟨r, hr, hcls⟩ := h.met.output_cls (h.output (by rw [hq]; rfl)) hq (by simp [hfloat])
  obtain ⟨r, rfl⟩ := Reg.exists_xmm (hcls.trans hfloat)
  exact ⟨r, Site.outXmm_eq_ok.mpr (hs.output.trans hr)⟩

theorem inGpr (h : Accepted n d x) (hs : s.Sees n x) (i : Nat)
    (hq : (d.family.constraint n).input? i = some q) (hint : q.cls = .int) : ∃ r, s.inGpr i = .ok r := by
  obtain ⟨v, r, hr, hcls⟩ := h.met.input_cls hq (by simp [hint])
  obtain ⟨r, rfl⟩ := Reg.exists_gpr (hcls.trans hint)
  exact ⟨r, Site.inGpr_eq_ok.mpr (by rw [hs.inputs, List.getElem?_map, hr]; rfl)⟩

theorem inXmm (h : Accepted n d x) (hs : s.Sees n x) (i : Nat)
    (hq : (d.family.constraint n).input? i = some q) (hfloat : q.cls = .float) :
    ∃ r, s.inXmm i = .ok r := by
  obtain ⟨v, r, hr, hcls⟩ := h.met.input_cls hq (by simp [hfloat])
  obtain ⟨r, rfl⟩ := Reg.exists_xmm (hcls.trans hfloat)
  exact ⟨r, Site.inXmm_eq_ok.mpr (by rw [hs.inputs, List.getElem?_map, hr]; rfl)⟩

theorem scratchGpr (h : Accepted n d x) (hs : s.Sees n x) {e : Demand}
    (he : e ∈ (d.family.constraint n).ofRole .scratch) (hint : e.requirement.cls = .int) :
    ∃ r, s.scratchGpr e.index = .ok r := by
  obtain ⟨r, hr, hmet, -⟩ := h.met.scratch e he
  obtain ⟨r, rfl⟩ := Reg.exists_gpr ((Requirement.cls_of_isMetBy hmet (by simp [hint])).trans hint)
  exact ⟨r, Site.scratchGpr_eq_ok.mpr (by rw [hs.scratches, hr])⟩

/-- A node that has what emission needs besides registers is emitted. -/
theorem emits_at (h : Accepted n d x) (hs : s.Sees n x) (hready : s.Ready) :
    ∃ is, d.family.emit s = .ok is := by
  have hop := (Operator.of_family? h.family).2
  have hout {q : Requirement} := h.outGpr (q := q) hs
  have houtXmm {q : Requirement} := h.outXmm (q := q) hs
  have hin {q : Requirement} := h.inGpr (q := q) hs
  have hinXmm {q : Requirement} := h.inXmm (q := q) hs
  have hstop {e : Demand} := h.scratchGpr (e := e) hs
  have hneeds : ∀ {op}, n.op = op → s.op = op := fun h => (congrArg Node.op hs.node).trans h
  obtain ⟨op, f, features⟩ := d
  cases f
  case arith =>
    have hof : ∃ p, Emit.arithOf s = .ok p := by
      rcases hop with ⟨o, hop⟩ | ⟨o, hop⟩ <;> simp [Emit.arithOf, hneeds hop]
    exact exists_mapError_ok (Emit.arith_emits hof (hout (Constraint.output?_binary _ _ _) rfl)
      (hin 0 (Constraint.input?_binary _ _ _ (by decide)) rfl)
      (hin 1 (Constraint.input?_binary _ _ _ (by decide)) rfl))
  case shift =>
    have hof : ∃ p, Emit.shiftOf s = .ok p := by
      rcases hop with hop | ⟨w, o, hop⟩ <;> simp [Emit.shiftOf, hneeds hop]
    exact exists_mapError_ok
      (Emit.shift_emits hof (hout rfl rfl) (hin 0 rfl rfl) (hin 1 rfl rfl))
  case division =>
    obtain ⟨w, o, hop⟩ := hop
    have hof : ∃ p, Emit.divisionOf s = .ok p := by simp [Emit.divisionOf, hneeds hop]
    exact exists_mapError_ok (Emit.division_emits hof (hin 1 rfl rfl))
  case bitCount =>
    obtain ⟨w, o, hop⟩ := hop
    exact exists_mapError_ok (Emit.bitCount_emits (hneeds hop) (hout rfl rfl) (hin 0 rfl rfl))
  case extend32 =>
    obtain ⟨signed, hop⟩ := hop
    exact exists_mapError_ok (Emit.extend32_emits (hneeds hop) (hout rfl rfl) (hin 0 rfl rfl))
  case intConst =>
    obtain ⟨w, hop⟩ := hop
    rw [Site.Ready, hneeds hop] at hready
    exact exists_mapError_ok (Emit.intConst_emits hready (hout rfl rfl))
  case intBool =>
    obtain ⟨w, hop⟩ := hop
    exact exists_mapError_ok (Emit.intBool_emits (hneeds hop) (hout rfl rfl) (hin 0 rfl rfl))
  case compare =>
    obtain ⟨c, hop⟩ := hop
    exact exists_mapError_ok
      (Emit.compare_emits (hneeds hop) (hout rfl rfl) (hin 0 rfl rfl) (hin 1 rfl rfl))
  case floatBinary =>
    obtain ⟨w, o, hop⟩ := hop
    obtain ⟨hqout, hqleft, hqright⟩ := Family.constraint_floatBinary hop
    exact exists_mapError_ok (Emit.floatBinary_emits (hneeds hop) (houtXmm hqout rfl)
      (hinXmm 0 hqleft rfl) (hinXmm 1 hqright rfl))
  case floatUnary =>
    obtain ⟨w, o, hop⟩ := hop
    obtain ⟨hqout, hqin⟩ := Family.constraint_floatUnary hop
    exact exists_mapError_ok
      (Emit.floatUnary_emits (hneeds hop) (houtXmm hqout rfl) (hinXmm 0 hqin rfl))
  case floatConst =>
    obtain ⟨w, hop⟩ := hop
    rw [Site.Ready, hneeds hop] at hready
    exact exists_mapError_ok (Emit.floatConst_emits (hneeds hop) hready (houtXmm rfl rfl))
  case floatBool =>
    obtain ⟨w, hop⟩ := hop
    exact exists_mapError_ok (Emit.floatBool_emits (hneeds hop) (hout rfl rfl) (hinXmm 0 rfl rfl))
  case context =>
    have hof : ∃ p, Emit.contextOffset s = .ok p := by
      rcases hop with hop | hop <;> simp [Emit.contextOffset, hneeds hop]
    exact exists_mapError_ok (Emit.context_emits hof (hout rfl rfl) (hin 0 rfl rfl))
  case boundsCheck =>
    rw [Site.Ready, hneeds hop] at hready
    obtain ⟨l, hl, hfits⟩ := hready
    exact exists_mapError_ok (Emit.boundsCheck_emits ⟨_, Emit.checkWidth_of_fits hl hfits⟩
      (hout rfl rfl) (hin 1 rfl rfl) (hin 2 rfl rfl) (hstop (List.mem_singleton_self _) rfl))
  case load =>
    obtain ⟨access, hop⟩ := hop
    have hcls : (Requirement.register n.op.loadClass).cls = access.cls := by rw [hop]; rfl
    exact exists_mapError_ok (Emit.load_emits (hneeds hop)
      (Emit.accessAddress_emits (hin 1 rfl rfl) (hin 2 rfl rfl))
      (fun hint => hout rfl (hcls.trans hint)) fun hfloat => houtXmm rfl (hcls.trans hfloat))
  case store =>
    obtain ⟨access, hop⟩ := hop
    have hcls : (Requirement.register n.op.storeClass).cls = access.cls := by rw [hop]; rfl
    exact exists_mapError_ok (Emit.store_emits (hneeds hop)
      (Emit.accessAddress_emits (hin 1 rfl rfl) (hin 2 rfl rfl))
      (fun hint => hin 3 rfl (hcls.trans hint)) fun hfloat => hinXmm 3 rfl (hcls.trans hfloat))
  case updateState =>
    rw [Site.Ready, hneeds hop] at hready
    exact exists_mapError_ok (Emit.updateState_emits (hout rfl rfl) hready)
  case branch =>
    rw [Site.Ready, hneeds hop] at hready
    exact Emit.branch_emits (hin 0 rfl rfl) hready.1 hready.2
  case branchOn =>
    obtain ⟨c, hop⟩ := hop
    rw [Site.Ready, hneeds hop] at hready
    exact Emit.branchOn_emits (hneeds hop) (hin 0 rfl rfl) (hin 1 rfl rfl) hready.1 hready.2
  case jump =>
    rw [Site.Ready, hneeds hop] at hready
    exact exists_mapError_ok (Emit.jump_emits hready)
  all_goals exact ⟨_, rfl⟩

variable (g : Graph) (b : Nat) (block : Block)

theorem emits (h : Accepted n d x) (hready : (siteOf g b block n x).Ready) :
    ∃ is, d.family.emit (siteOf g b block n x) = .ok is :=
  h.emits_at (siteOf_sees g b block n x) hready

/-- A node is emitted by the family of its operator. -/
theorem emits_as {f : Family} (h : Accepted n d x) (hf : n.op.family? = some f)
    (hready : (siteOf g b block n x).Ready) :
    d.family = f ∧ ∃ is, f.emit (siteOf g b block n x) = .ok is := by
  obtain rfl := h.family_eq hf
  exact ⟨rfl, h.emits g b block hready⟩

section Words

variable (hwords : n.op.onWords = true) (hterm : n.op.isTerminator = false)

include hwords hterm

theorem output_gpr (h : Accepted n d x) (hstore : ∀ a, n.op ≠ .target (.store a)) :
    ∃ r, x.output = some (.gpr r) := by
  have hfamily := (Operator.of_family? h.family).1.symm.trans hterm
  have hsome := Family.output?_isSome hfamily (h.family_ne_store hstore) n
  obtain ⟨q, hq⟩ := Option.isSome_iff_exists.mp hsome
  obtain ⟨r, hr⟩ := Option.isSome_iff_exists.mp (h.output hsome)
  obtain ⟨r, rfl⟩ := Family.gpr_of_output h.family hwords hq (h.met.output q r hq hr)
  exact ⟨r, hr⟩

theorem computes (h : Accepted n d x) (hstate : n.op ≠ .state) {is : List Inst}
    (hemit : d.family.emit (siteOf g b block n x) = .ok is) (m : Machine) :
    (siteOf g b block n x).Computes
      (Words.compute .heap n ((siteOf g b block n x).inputs.map m.word) m.heap) (Machine.exec is m) :=
  emit_computes h.family h.met h.output hemit hwords hterm fun heq => absurd heq hstate

end Words

end Accepted

end Isel
