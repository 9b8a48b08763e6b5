import Isel.Proofs.Constraints

/-! The instructions of each family, and what they may change: the output of the node, the
temporaries it was given, and what its constraint says is overwritten. Only stores change the heap,
and only loads and stores can fault. -/

namespace Isel

namespace Site

variable {s : Site} {i : Nat}

theorem outGpr_eq_ok {r : Gpr} : s.outGpr = .ok r ↔ s.output = some (.gpr r) := by
  unfold outGpr
  rcases s.output with _ | (_ | _) <;> simp [Reg.gpr?]

theorem outXmm_eq_ok {r : Xmm} : s.outXmm = .ok r ↔ s.output = some (.xmm r) := by
  unfold outXmm
  rcases s.output with _ | (_ | _) <;> simp [Reg.xmm?]

theorem inGpr_eq_ok {r : Gpr} : s.inGpr i = .ok r ↔ s.inputs[i]? = some (.gpr r) := by
  unfold inGpr
  rcases s.inputs[i]? with _ | (_ | _) <;> simp [Reg.gpr?]

theorem inXmm_eq_ok {r : Xmm} : s.inXmm i = .ok r ↔ s.inputs[i]? = some (.xmm r) := by
  unfold inXmm
  rcases s.inputs[i]? with _ | (_ | _) <;> simp [Reg.xmm?]

theorem scratchGpr_eq_ok {r : Gpr} : s.scratchGpr i = .ok r ↔ s.scratches[i]? = some (.gpr r) := by
  unfold scratchGpr
  rcases s.scratches[i]? with _ | (_ | _) <;> simp [Reg.gpr?]

theorem literal_eq_ok {l : Literal} : s.literal = .ok l ↔ s.node.literals.head? = some l := by
  unfold literal
  rcases s.node.literals.head? with _ | _ <;> simp

theorem successor_eq_ok {target : Option Nat} : s.successor i = .ok target ↔
    ∃ b, s.successors[i]? = some b ∧ target = if s.fallthrough = some b then none else some b := by
  unfold successor
  rcases s.successors[i]? with _ | b
  · simp
  · simp only [Except.ok.injEq, Option.some.injEq, exists_eq_left']
    exact eq_comm

end Site

namespace Emit

variable {s : Site} {is : List Inst}

theorem whole_eq_ok {x : Except Error (List Inst)} : whole x = .ok is ↔ x = .ok is :=
  Emission.mapError_eq_ok

theorem arith_ok (h : arith s = .ok is) : ∃ op size out left right, arithOf s = .ok (op, size) ∧
    s.output = some (Reg.gpr out) ∧ s.inputs[0]? = some (Reg.gpr left) ∧
    s.inputs[1]? = some (Reg.gpr right) ∧
    is = twoOperand op.isCommutative Gpr.scratch (Inst.mov size)
      (fun d r => [Inst.gprs (.arith op) size d r]) out left right := by
  obtain ⟨⟨op, size⟩, hop, h⟩ := bind_eq_ok.mp h
  obtain ⟨out, hout, h⟩ := bind_eq_ok.mp h
  obtain ⟨left, hleft, h⟩ := bind_eq_ok.mp h
  obtain ⟨right, hright, h⟩ := bind_eq_ok.mp h
  exact ⟨op, size, out, left, right, hop, Site.outGpr_eq_ok.mp hout, Site.inGpr_eq_ok.mp hleft,
    Site.inGpr_eq_ok.mp hright, (Except.ok.inj h).symm⟩

theorem shift_ok (h : shift s = .ok is) : ∃ op size out value count, shiftOf s = .ok (op, size) ∧
    s.output = some (.gpr out) ∧ s.inputs[0]? = some (.gpr value) ∧
    s.inputs[1]? = some (.gpr count) ∧
    is = twoOperand false Gpr.scratch (Inst.mov size) (fun d _ => [.shift (.shift op) size d])
      out value count := by
  obtain ⟨⟨op, size⟩, hop, h⟩ := bind_eq_ok.mp h
  obtain ⟨out, hout, h⟩ := bind_eq_ok.mp h
  obtain ⟨value, hvalue, h⟩ := bind_eq_ok.mp h
  obtain ⟨count, hcount, h⟩ := bind_eq_ok.mp h
  exact ⟨op, size, out, value, count, hop, Site.outGpr_eq_ok.mp hout, Site.inGpr_eq_ok.mp hvalue,
    Site.inGpr_eq_ok.mp hcount, (Except.ok.inj h).symm⟩

/-- The instruction that fills the upper half of the dividend. -/
def extendDividend (w : IntWidth) (signed : Bool) : Inst :=
  if signed then
    match w with
    | .w64 => .cqo
    | .w32 => .cdq
  else .gprs (.arith .xor) .s32 .rdx .rdx

/-- Extends the dividend and divides it. -/
def divideBy (w : IntWidth) (signed : Bool) (divisor : Gpr) : List Inst :=
  [extendDividend w signed, .divide (.divide signed) (.ofWidth w) divisor]

theorem division_ok (h : division s = .ok is) : ∃ w signed divisor,
    divisionOf s = .ok (w, signed) ∧ s.inputs[1]? = some (.gpr divisor) ∧
    is = divideBy w signed divisor := by
  obtain ⟨⟨w, signed⟩, hop, h⟩ := bind_eq_ok.mp h
  obtain ⟨divisor, hdivisor, h⟩ := bind_eq_ok.mp h
  exact ⟨w, signed, divisor, hop, Site.inGpr_eq_ok.mp hdivisor, (Except.ok.inj h).symm⟩

theorem bitCount_ok (h : bitCount s = .ok is) : ∃ w op out input, s.op = .bitCount w op ∧
    s.output = some (.gpr out) ∧ s.inputs[0]? = some (.gpr input) ∧
    is = [.gprs (.count op) (.ofWidth w) out input] := by
  unfold bitCount at h
  split at h
  · next w op hop =>
      obtain ⟨out, hout, h⟩ := bind_eq_ok.mp h
      obtain ⟨input, hinput, h⟩ := bind_eq_ok.mp h
      exact ⟨w, op, out, input, hop, Site.outGpr_eq_ok.mp hout, Site.inGpr_eq_ok.mp hinput,
        (Except.ok.inj h).symm⟩
  · exact absurd h (by simp)

theorem extend32_ok (h : extend32 s = .ok is) : ∃ signed out input,
    s.op = .target (.extend32 signed) ∧ s.output = some (.gpr out) ∧
    s.inputs[0]? = some (.gpr input) ∧
    is = if signed then [.extend (.widen .signed32) out (.gpr input)] else [.mov .s32 out input] := by
  obtain ⟨out, hout, h⟩ := bind_eq_ok.mp h
  obtain ⟨input, hinput, h⟩ := bind_eq_ok.mp h
  split at h
  · next hop =>
      exact ⟨true, out, input, hop, Site.outGpr_eq_ok.mp hout, Site.inGpr_eq_ok.mp hinput,
        (Except.ok.inj h).symm⟩
  · next hop =>
      exact ⟨false, out, input, hop, Site.outGpr_eq_ok.mp hout, Site.inGpr_eq_ok.mp hinput,
        (Except.ok.inj h).symm⟩
  · exact absurd h (by simp)

theorem intConst_ok (h : intConst s = .ok is) : ∃ l out, s.node.literals.head? = some l ∧
    s.output = some (.gpr out) ∧
    is = if s.op = .const (.int .w32) then
        [.movImm .s32 out ((l.toInt.setWidth 32).signExtend 64)]
      else [.movImm .s64 out l.toInt] := by
  obtain ⟨l, hl, h⟩ := bind_eq_ok.mp h
  obtain ⟨out, hout, h⟩ := bind_eq_ok.mp h
  refine ⟨l, out, Site.literal_eq_ok.mp hl, Site.outGpr_eq_ok.mp hout, ?_⟩
  split at h
  · next hop =>
      rw [if_pos hop]
      exact (Except.ok.inj h).symm
  · next hop =>
      rw [if_neg hop]
      exact (Except.ok.inj h).symm

theorem intBool_ok (h : intBool s = .ok is) : ∃ w out input, s.op = .bool (.int w) ∧
    s.output = some (.gpr out) ∧ s.inputs[0]? = some (.gpr input) ∧
    is = .gprs .test (.ofWidth w) input input :: materialize .ne out := by
  unfold intBool at h
  split at h
  · next w hop =>
      obtain ⟨out, hout, h⟩ := bind_eq_ok.mp h
      obtain ⟨input, hinput, h⟩ := bind_eq_ok.mp h
      exact ⟨w, out, input, hop, Site.outGpr_eq_ok.mp hout, Site.inGpr_eq_ok.mp hinput,
        (Except.ok.inj h).symm⟩
  · exact absurd h (by simp)

theorem compare_ok (h : compare s = .ok is) : ∃ c out left right, s.op = .compare .w64 c ∧
    s.output = some (.gpr out) ∧ s.inputs[0]? = some (.gpr left) ∧ s.inputs[1]? = some (.gpr right) ∧
    is = .gprs .cmp .s64 left right :: materialize (.ofComparison c) out := by
  unfold compare at h
  split at h
  · next c hop =>
      obtain ⟨out, hout, h⟩ := bind_eq_ok.mp h
      obtain ⟨left, hleft, h⟩ := bind_eq_ok.mp h
      obtain ⟨right, hright, h⟩ := bind_eq_ok.mp h
      exact ⟨c, out, left, right, hop, Site.outGpr_eq_ok.mp hout, Site.inGpr_eq_ok.mp hleft,
        Site.inGpr_eq_ok.mp hright, (Except.ok.inj h).symm⟩
  · exact absurd h (by simp)

/-- The instructions of a float operation on its output and its right operand. -/
def floatBody (w : FloatWidth) (op : FloatBinary) : Xmm → Xmm → List Inst :=
  match op with
  | .copysign => copySign w
  | .arith op => fun d r => [.xmms (.scalar op w) d r]

theorem floatBinary_ok (h : floatBinary s = .ok is) : ∃ w op out left right,
    s.op = .floatBinary w op ∧ s.output = some (.xmm out) ∧ s.inputs[0]? = some (.xmm left) ∧
    s.inputs[1]? = some (.xmm right) ∧
    is = twoOperand op.isCommutative Xmm.scratch (Inst.xmms (.movs w)) (floatBody w op)
      out left right := by
  unfold floatBinary at h
  split at h
  · next w op hop =>
      obtain ⟨out, hout, h⟩ := bind_eq_ok.mp h
      obtain ⟨left, hleft, h⟩ := bind_eq_ok.mp h
      obtain ⟨right, hright, h⟩ := bind_eq_ok.mp h
      refine ⟨w, op, out, left, right, hop, Site.outXmm_eq_ok.mp hout, Site.inXmm_eq_ok.mp hleft,
        Site.inXmm_eq_ok.mp hright, ?_⟩
      cases op <;> exact (Except.ok.inj h).symm
  · exact absurd h (by simp)

theorem floatUnary_ok (h : floatUnary s = .ok is) : ∃ w op out input,
    s.op = .floatUnary w op ∧ s.output = some (.xmm out) ∧ s.inputs[0]? = some (.xmm input) ∧
    is = match op with
      | .sqrt => [.xmms (.sqrt w) out input]
      | .round mode => [.round (.round w) mode out input]
      | .abs =>
        [allOnes, .xmmImm .psrlq Xmm.maskScratch (BitVec.ofNat 64 (64 - w.bits + 1))]
          ++ (if out = input then [] else [.xmms (.movs w) out input])
          ++ [.xmms .andpd out Xmm.maskScratch]
      | .neg =>
        [allOnes, .xmmImm .psllq Xmm.maskScratch (BitVec.ofNat 64 (w.bits - 1))]
          ++ (if out = input then [] else [.xmms (.movs w) out input])
          ++ [.xmms .xorpd out Xmm.maskScratch] := by
  unfold floatUnary at h
  split at h
  · next w op hop =>
      obtain ⟨out, hout, h⟩ := bind_eq_ok.mp h
      obtain ⟨input, hinput, h⟩ := bind_eq_ok.mp h
      refine ⟨w, op, out, input, hop, Site.outXmm_eq_ok.mp hout, Site.inXmm_eq_ok.mp hinput, ?_⟩
      cases op <;> exact (Except.ok.inj h).symm
  · exact absurd h (by simp)

theorem floatConst_ok (h : floatConst s = .ok is) : ∃ v out, s.output = some (.xmm out) ∧
    is = [.movImm .s64 Gpr.scratch v, .movqToXmm out Gpr.scratch] := by
  obtain ⟨l, -, h⟩ := bind_eq_ok.mp h
  split at h
  · obtain ⟨out, hout, h⟩ := bind_eq_ok.mp h
    exact ⟨_, out, Site.outXmm_eq_ok.mp hout, (Except.ok.inj h).symm⟩
  · exact absurd h (by simp)

theorem floatBool_ok (h : floatBool s = .ok is) : ∃ w out input, s.op = .bool (.float w) ∧
    s.output = some (.gpr out) ∧ s.inputs[0]? = some (.xmm input) ∧
    is = [Inst.movqToGpr out input,
        Inst.gprs (.arith .add) (match w with | .single => .s32 | .double => .s64) out out]
      ++ materialize .ne out := by
  unfold floatBool at h
  split at h
  · next w hop =>
      obtain ⟨out, hout, h⟩ := bind_eq_ok.mp h
      obtain ⟨input, hinput, h⟩ := bind_eq_ok.mp h
      exact ⟨w, out, input, hop, Site.outGpr_eq_ok.mp hout, Site.inXmm_eq_ok.mp hinput,
        (Except.ok.inj h).symm⟩
  · exact absurd h (by simp)

theorem context_ok (h : context s = .ok is) : ∃ disp out base, contextOffset s = .ok disp ∧
    s.output = some (.gpr out) ∧ s.inputs[0]? = some (.gpr base) ∧
    is = [.load .s64 out { base, disp }] := by
  obtain ⟨disp, hdisp, h⟩ := bind_eq_ok.mp h
  obtain ⟨out, hout, h⟩ := bind_eq_ok.mp h
  obtain ⟨base, hbase, h⟩ := bind_eq_ok.mp h
  exact ⟨disp, out, base, hdisp, Site.outGpr_eq_ok.mp hout, Site.inGpr_eq_ok.mp hbase,
    (Except.ok.inj h).symm⟩

theorem checkWidth_ok {disp : BitVec 32} (h : checkWidth s = .ok disp) :
    ∃ l, s.node.literals.head? = some l ∧ disp.signExtend 64 = l.toInt := by
  obtain ⟨l, hl, h⟩ := bind_eq_ok.mp h
  dsimp only at h
  split at h
  · next hwidth =>
      refine ⟨l, Site.literal_eq_ok.mp hl, ?_⟩
      rw [← Except.ok.inj h]
      exact hwidth
  · exact absurd h (by simp)

/-- Jumps to the trap if the end of an access wraps or passes the size, and copies the address. -/
def checkEnd (disp : BitVec 32) (out addr size stop : Gpr) (trap : Nat) : List Inst :=
  [.lea stop { base := addr, disp }, .gprs .cmp .s64 stop addr, .jumpIf .b trap,
    .gprs .cmp .s64 stop size, .jumpIf .a trap] ++ if out = addr then [] else [.mov .s64 out addr]

theorem boundsCheck_ok (h : boundsCheck s = .ok is) : ∃ disp l out addr size stop,
    s.node.literals.head? = some l ∧ disp.signExtend 64 = l.toInt ∧ s.output = some (Reg.gpr out) ∧
    s.inputs[1]? = some (Reg.gpr addr) ∧ s.inputs[2]? = some (Reg.gpr size) ∧
    s.scratches[0]? = some (Reg.gpr stop) ∧ is = checkEnd disp out addr size stop s.trap := by
  obtain ⟨disp, hdisp, h⟩ := bind_eq_ok.mp h
  obtain ⟨out, hout, h⟩ := bind_eq_ok.mp h
  obtain ⟨addr, haddr, h⟩ := bind_eq_ok.mp h
  obtain ⟨size, hsize, h⟩ := bind_eq_ok.mp h
  obtain ⟨stop, hstop, h⟩ := bind_eq_ok.mp h
  obtain ⟨l, hl, hwidth⟩ := checkWidth_ok hdisp
  exact ⟨disp, l, out, addr, size, stop, hl, hwidth, Site.outGpr_eq_ok.mp hout,
    Site.inGpr_eq_ok.mp haddr, Site.inGpr_eq_ok.mp hsize, Site.scratchGpr_eq_ok.mp hstop,
    (Except.ok.inj h).symm⟩

theorem accessAddress_ok {addr : Address} (h : accessAddress s = .ok addr) : ∃ base index,
    s.inputs[1]? = some (.gpr base) ∧ s.inputs[2]? = some (.gpr index) ∧
    addr = { base, index := some index } := by
  obtain ⟨base, hbase, h⟩ := bind_eq_ok.mp h
  obtain ⟨index, hindex, h⟩ := bind_eq_ok.mp h
  exact ⟨base, index, Site.inGpr_eq_ok.mp hbase, Site.inGpr_eq_ok.mp hindex,
    (Except.ok.inj h).symm⟩

/-- The instruction that loads an integer. -/
def intLoad (access : TargetLoad) (out : Gpr) (addr : Address) : Inst :=
  match access with
  | .word w => .load (.ofWidth w) out addr
  | .extended .p8 signed => .extend (.widen (if signed then .signed8 else .unsigned8)) out (.mem addr)
  | .extended .p16 signed =>
    .extend (.widen (if signed then .signed16 else .unsigned16)) out (.mem addr)
  | .extended .p32 true => .extend (.widen .signed32) out (.mem addr)
  | _ => .load .s32 out addr

theorem load_ok (h : load s = .ok is) : ∃ access base index, s.op = .target (.load access) ∧
    s.inputs[1]? = some (.gpr base) ∧ s.inputs[2]? = some (.gpr index) ∧
    ((∃ w out, access = .float w ∧ s.output = some (.xmm out) ∧
        is = [.loadXmm (.movs w) out { base, index := some index }]) ∨
      (access.cls = .int ∧ ∃ out, s.output = some (.gpr out) ∧
        is = [intLoad access out { base, index := some index }])) := by
  unfold load at h
  split at h
  · next access hop =>
      obtain ⟨addr, haddr, h⟩ := bind_eq_ok.mp h
      obtain ⟨base, index, hbase, hindex, rfl⟩ := accessAddress_ok haddr
      refine ⟨access, base, index, hop, hbase, hindex, ?_⟩
      cases access with
      | float w =>
          obtain ⟨out, hout, h⟩ := bind_eq_ok.mp h
          exact .inl ⟨w, out, rfl, Site.outXmm_eq_ok.mp hout, (Except.ok.inj h).symm⟩
      | word w =>
          obtain ⟨out, hout, h⟩ := bind_eq_ok.mp h
          exact .inr ⟨rfl, out, Site.outGpr_eq_ok.mp hout, (Except.ok.inj h).symm⟩
      | extended part signed =>
          refine .inr ⟨rfl, ?_⟩
          cases part <;> cases signed
          all_goals
            obtain ⟨out, hout, h⟩ := bind_eq_ok.mp h
            exact ⟨out, Site.outGpr_eq_ok.mp hout, (Except.ok.inj h).symm⟩
  · exact absurd h (by simp)

theorem store_ok (h : store s = .ok is) : ∃ access base index, s.op = .target (.store access) ∧
    s.inputs[1]? = some (Reg.gpr base) ∧ s.inputs[2]? = some (Reg.gpr index) ∧
    ((∃ w src, access = .float w ∧ s.inputs[3]? = some (Reg.xmm src) ∧
        is = [Inst.storeXmm (.movs w) { base, index := some index } src]) ∨
      ∃ size src, access = .int size ∧ s.inputs[3]? = some (Reg.gpr src) ∧
        is = [Inst.store size { base, index := some index } src]) := by
  unfold store at h
  split at h
  · next access hop =>
      obtain ⟨addr, haddr, h⟩ := bind_eq_ok.mp h
      obtain ⟨base, index, hbase, hindex, rfl⟩ := accessAddress_ok haddr
      refine ⟨access, base, index, hop, hbase, hindex, ?_⟩
      cases access with
      | float w =>
          obtain ⟨src, hsrc, h⟩ := bind_eq_ok.mp h
          exact .inl ⟨w, src, rfl, Site.inXmm_eq_ok.mp hsrc, (Except.ok.inj h).symm⟩
      | int size =>
          obtain ⟨src, hsrc, h⟩ := bind_eq_ok.mp h
          exact .inr ⟨size, src, rfl, Site.inGpr_eq_ok.mp hsrc, (Except.ok.inj h).symm⟩
  · exact absurd h (by simp)

theorem updateState_ok (h : updateState s = .ok is) : ∃ out state, s.output = some (.gpr out) ∧
    s.inputs[0]? = some (.gpr state) ∧
    is = if out = state then [] else [.mov .s64 out state] := by
  obtain ⟨out, hout, h⟩ := bind_eq_ok.mp h
  obtain ⟨state, hstate, h⟩ := bind_eq_ok.mp h
  exact ⟨out, state, Site.outGpr_eq_ok.mp hout, Site.inGpr_eq_ok.mp hstate, (Except.ok.inj h).symm⟩

/-- The jumps of a branch whose successors are `t` and `o`. -/
def jumps (s : Site) (c : Condition) (t o : Nat) : List Inst :=
  if s.fallthrough = some t then
    if s.fallthrough = some o then [] else [.jumpIf c.inverse o]
  else if s.fallthrough = some o then [.jumpIf c t]
  else [.jumpIf c t, .jmp o]

theorem branchTo_ok {c : Condition} (h : branchTo s c = .ok is) : ∃ t o,
    s.successors[0]? = some t ∧ s.successors[1]? = some o ∧ is = jumps s c t o := by
  obtain ⟨taken, htaken, h⟩ := bind_eq_ok.mp h
  obtain ⟨other, hother, h⟩ := bind_eq_ok.mp h
  obtain ⟨t, ht, rfl⟩ := Site.successor_eq_ok.mp htaken
  obtain ⟨o, ho, rfl⟩ := Site.successor_eq_ok.mp hother
  refine ⟨t, o, ht, ho, ?_⟩
  rw [← Except.ok.inj h, jumps]
  by_cases hft : s.fallthrough = some t
  · by_cases hfo : s.fallthrough = some o
    · simp only [if_pos hft, if_pos hfo]
    · simp only [if_pos hft, if_neg hfo]
  · by_cases hfo : s.fallthrough = some o
    · simp only [if_neg hft, if_pos hfo]
    · simp only [if_neg hft, if_neg hfo]

theorem branchAfter_ok {test : Inst} {c : Condition} (h : branchAfter s test c = .ok is) : ∃ t o,
    s.successors[0]? = some t ∧ s.successors[1]? = some o ∧ is = test :: jumps s c t o := by
  unfold branchAfter at h
  split at h
  · next js hjs =>
      obtain ⟨t, o, ht, ho, rfl⟩ := branchTo_ok hjs
      exact ⟨t, o, ht, ho, (Except.ok.inj h).symm⟩
  · exact absurd h (by simp)

theorem branch_ok (h : branch s = .ok is) : ∃ predicate t o,
    s.inputs[0]? = some (.gpr predicate) ∧ s.successors[0]? = some t ∧ s.successors[1]? = some o ∧
    is = .gprs .test .s64 predicate predicate :: jumps s .ne t o := by
  obtain ⟨predicate, hpredicate, h⟩ := bind_eq_ok.mp h
  obtain ⟨t, o, ht, ho, his⟩ := branchAfter_ok h
  exact ⟨predicate, t, o, Site.inGpr_eq_ok.mp (Emission.mapError_eq_ok.mp hpredicate), ht, ho, his⟩

theorem branchOn_ok (h : branchOn s = .ok is) : ∃ c left right t o,
    s.op = .target (.branchOn c) ∧ s.inputs[0]? = some (.gpr left) ∧
    s.inputs[1]? = some (.gpr right) ∧ s.successors[0]? = some t ∧ s.successors[1]? = some o ∧
    is = .gprs .cmp .s64 left right :: jumps s (.ofComparison c) t o := by
  unfold branchOn at h
  split at h
  · next c hop =>
      obtain ⟨left, hleft, h⟩ := bind_eq_ok.mp h
      obtain ⟨right, hright, h⟩ := bind_eq_ok.mp h
      obtain ⟨t, o, ht, ho, his⟩ := branchAfter_ok h
      exact ⟨c, left, right, t, o, hop, Site.inGpr_eq_ok.mp (Emission.mapError_eq_ok.mp hleft),
        Site.inGpr_eq_ok.mp (Emission.mapError_eq_ok.mp hright), ht, ho, his⟩
  · exact absurd h (by simp)

theorem jump_ok (h : jump s = .ok is) : ∃ t, s.successors[0]? = some t ∧
    is = if s.fallthrough = some t then [] else [.jmp t] := by
  obtain ⟨target, htarget, h⟩ := bind_eq_ok.mp h
  obtain ⟨t, ht, rfl⟩ := Site.successor_eq_ok.mp htarget
  refine ⟨t, ht, ?_⟩
  rw [← Except.ok.inj h]
  by_cases hft : s.fallthrough = some t <;> simp [hft]

end Emit

/-- The families that end a block. -/
def Family.isTerminator : Family → Bool
  | ret | intRet | floatRet | branch | branchOn | jump => true
  | _ => false

/-- The families that read or write memory. -/
def Family.isAccess : Family → Bool
  | context | load | store => true
  | _ => false

namespace Operator

/-- The operators of a family. -/
theorem of_family? {op : Operator} {f : Family} (h : op.family? = some f) :
    op.isTerminator = f.isTerminator ∧
    match f with
    | .arith => (∃ o, op = .target (.int (.arith o))) ∨ ∃ o, op = .intBinary .w32 (.arith o)
    | .shift => op = .target (.int .shiftLeft) ∨ ∃ w o, op = .intBinary w (.shift o)
    | .division => ∃ w d, op = .intBinary w (.division d)
    | .bitCount => ∃ w o, op = .bitCount w o
    | .extend32 => ∃ signed, op = .target (.extend32 signed)
    | .intConst => ∃ w, op = .const (.int w)
    | .intBool => ∃ w, op = .bool (.int w)
    | .compare => ∃ c, op = .compare .w64 c
    | .floatBinary => ∃ w o, op = .floatBinary w o
    | .floatUnary => ∃ w o, op = .floatUnary w o
    | .floatConst => ∃ w, op = .const (.float w)
    | .floatBool => ∃ w, op = .bool (.float w)
    | .context => op = .target .memorySpace ∨ op = .target .memorySize
    | .boundsCheck => op = .target .boundsCheck
    | .load => ∃ a, op = .target (.load a)
    | .store => ∃ a, op = .target (.store a)
    | .state => op = .state
    | .updateState => op = .updateState
    | .ret => op = .ret
    | .intRet => op = .target .intRet
    | .floatRet => op = .target .floatRet
    | .branch => op = .branch
    | .branchOn => ∃ c, op = .target (.branchOn c)
    | .jump => op = .jump := by
  cases op with
  | target op =>
      rcases op with _ | (_ | _) | _ | _ | _ | _ | _ | _ | _ | _
      all_goals
        obtain rfl := Option.some.inj h
        exact ⟨rfl, by simp⟩
  | intBinary w op =>
      rcases w <;> rcases op with op | (_ | _ | _) | op
      all_goals
        first
          | cases h; done
          | obtain rfl := Option.some.inj h
            exact ⟨rfl, by simp⟩
  | compare w c =>
      cases w
      · exact absurd h (by simp [family?])
      · obtain rfl := Option.some.inj h
        exact ⟨rfl, by simp⟩
  | const ty | bool ty =>
      cases ty
      all_goals
        obtain rfl := Option.some.inj h
        exact ⟨rfl, by simp⟩
  | _ =>
      first
        | cases h; done
        | obtain rfl := Option.some.inj h
          exact ⟨rfl, by simp⟩

end Operator

/-- The registers that the instructions of a node may change. A return of any value moves it
besides. -/
def Site.written (s : Site) (f : Family) : List Reg :=
  (f.constraint s.node).overwritten ++ s.output.toList ++ s.scratches
    ++ if f = .ret then [.gpr .rax, .xmm .xmm0] else []

namespace Site

variable {s : Site} {f : Family} {r : Reg}

theorem output_written (h : s.output = some r) : r ∈ s.written f := by
  simp [written, h]

theorem scratch_written (h : r ∈ s.scratches) : r ∈ s.written f := by
  simp [written, h]

theorem overwritten_written (h : r ∈ (f.constraint s.node).overwritten) : r ∈ s.written f := by
  simp [written, h]

end Site

/-- An instruction writes at most the given registers, and reaches memory only if it is said to. -/
structure Inst.Within (i : Inst) (rs : List Reg) (stores accesses : Bool) : Prop where
  writes : i.writes ⊆ rs
  stores : i.stores = true → stores = true
  accesses : i.accesses = true → accesses = true

namespace Inst.Within

variable {i : Inst} {rs : List Reg} {r : Reg} {stores accesses : Bool}

theorem of_subset (hwrites : i.writes ⊆ rs) (hstores : i.stores = false)
    (haccesses : i.accesses = false ∨ accesses = true) : i.Within rs stores accesses where
  writes := hwrites
  stores h := absurd (hstores.symm.trans h) (by simp)
  accesses h := haccesses.resolve_left fun hnone => absurd (hnone.symm.trans h) (by simp)

/-- An instruction with one register as its destination. -/
theorem of_register (hwrites : i.writes = [r]) (hr : r ∈ rs) (hstores : i.stores = false)
    (haccesses : i.accesses = false ∨ accesses = true) : i.Within rs stores accesses := by
  refine of_subset ?_ hstores haccesses
  rw [hwrites]
  simpa using hr

/-- An instruction that changes only flags, if anything. -/
theorem of_none (hwrites : i.writes = []) (hstores : i.stores = false)
    (haccesses : i.accesses = false) : i.Within rs stores accesses := by
  refine of_subset ?_ hstores (.inl haccesses)
  rw [hwrites]
  exact List.nil_subset rs

/-- An instruction whose destination is the output. -/
theorem of_output {s : Site} {f : Family} (hwrites : i.writes = [r]) (hout : s.output = some r)
    (hstores : i.stores = false) (haccesses : i.accesses = false ∨ accesses = true) :
    i.Within (s.written f) stores accesses :=
  of_register hwrites (Site.output_written hout) hstores haccesses

/-- An instruction that is left out where nothing is to be done. -/
theorem optional {c : Prop} [Decidable c] (h : i.Within rs stores accesses) :
    ∀ j ∈ (if c then [] else [i]), j.Within rs stores accesses := by
  split
  · simp
  · exact List.forall_mem_singleton.mpr h

end Inst.Within

/-- What holds of the moves and of the operations, on the output or on the detour, holds of all. -/
theorem forall_mem_twoOperand {R : Type} [DecidableEq R] {isCommutative : Bool} {detour : R}
    {mov : R → R → Inst} {op : R → R → List Inst} {out left right : R} {P : Inst → Prop}
    (hmov : ∀ d src, d = out ∨ d = detour → P (mov d src))
    (hop : ∀ d src, d = out ∨ d = detour → ∀ i ∈ op d src, P i) :
    ∀ i ∈ twoOperand isCommutative detour mov op out left right, P i := by
  unfold twoOperand
  split
  · exact hop out right (.inl rfl)
  · split
    · split
      · exact hop out left (.inl rfl)
      · refine List.forall_mem_cons.mpr ⟨hmov detour left (.inr rfl), ?_⟩
        refine List.forall_mem_append.mpr ⟨hop detour right (.inr rfl), ?_⟩
        exact List.forall_mem_singleton.mpr (hmov out detour (.inl rfl))
    · exact List.forall_mem_cons.mpr ⟨hmov out left (.inl rfl), hop out right (.inl rfl)⟩

theorem overwritten_binary (cls : RegClass) (isCommutative : Bool) (detour : Reg) :
    (Constraint.binary cls isCommutative detour).overwritten = [detour] := by
  cases isCommutative <;> rfl

namespace Emit

variable {s : Site} {f : Family} {is : List Inst} {stores accesses : Bool}

/-- What an operation with two inputs does to the output or the detour is within what it may do. -/
theorem twoOperand_within {R : Type} [DecidableEq R] (reg : R → Reg) {isCommutative : Bool}
    {detour out left right : R} {mov : R → R → Inst} {op : R → R → List Inst}
    (hout : s.output = some (reg out)) (hdetour : reg detour ∈ (f.constraint s.node).overwritten)
    (hmov : ∀ d src, reg d ∈ s.written f → (mov d src).Within (s.written f) stores accesses)
    (hop : ∀ d src, reg d ∈ s.written f → ∀ i ∈ op d src, i.Within (s.written f) stores accesses) :
    ∀ i ∈ twoOperand isCommutative detour mov op out left right,
      i.Within (s.written f) stores accesses := by
  have hwritten (d : R) (hd : d = out ∨ d = detour) : reg d ∈ s.written f := by
    rcases hd with rfl | rfl
    · exact Site.output_written hout
    · exact Site.overwritten_written hdetour
  exact forall_mem_twoOperand (fun d src hd => hmov d src (hwritten d hd))
    fun d src hd => hop d src (hwritten d hd)

theorem materialize_within {c : Condition} {out : Gpr} (hout : s.output = some (.gpr out)) :
    ∀ i ∈ materialize c out, i.Within (s.written f) stores accesses := by
  refine List.forall_mem_cons.mpr ⟨?_, List.forall_mem_singleton.mpr ?_⟩
  · exact .of_output rfl hout rfl (.inl rfl)
  · exact .of_output rfl hout rfl (.inl rfl)

theorem jumps_within {rs : List Reg} {c : Condition} {t o : Nat} :
    ∀ i ∈ jumps s c t o, i.Within rs stores accesses := by
  have hjumpIf (c : Condition) (l : Nat) : (Inst.jumpIf c l).Within rs stores accesses :=
    .of_none rfl rfl rfl
  have hjmp (l : Nat) : (Inst.jmp l).Within rs stores accesses := .of_none rfl rfl rfl
  unfold jumps
  split
  · split
    · simp
    · exact List.forall_mem_singleton.mpr (hjumpIf _ _)
  · split
    · exact List.forall_mem_singleton.mpr (hjumpIf _ _)
    · exact List.forall_mem_cons.mpr ⟨hjumpIf _ _, List.forall_mem_singleton.mpr (hjmp _)⟩

theorem checkEnd_within {rs : List Reg} {disp : BitVec 32} {out addr size stop : Gpr} {trap : Nat}
    (hout : .gpr out ∈ rs) (hstop : .gpr stop ∈ rs) :
    ∀ i ∈ checkEnd disp out addr size stop trap, i.Within rs stores accesses := by
  refine List.forall_mem_append.mpr ⟨?_, ?_⟩
  · refine List.forall_mem_cons.mpr ⟨.of_register rfl hstop rfl (.inl rfl), ?_⟩
    refine List.forall_mem_cons.mpr ⟨.of_none rfl rfl rfl, ?_⟩
    refine List.forall_mem_cons.mpr ⟨.of_none rfl rfl rfl, ?_⟩
    refine List.forall_mem_cons.mpr ⟨.of_none rfl rfl rfl, ?_⟩
    exact List.forall_mem_singleton.mpr (.of_none rfl rfl rfl)
  · exact .optional (.of_register rfl hout rfl (.inl rfl))

theorem copySign_within {rs : List Reg} {w : FloatWidth} {d sign : Xmm}
    (hmask : Reg.xmm Xmm.maskScratch ∈ rs) (hd : Reg.xmm d ∈ rs) :
    ∀ i ∈ copySign w d sign, i.Within rs stores accesses := by
  refine List.forall_mem_cons.mpr ⟨.of_register rfl hmask rfl (.inl rfl), ?_⟩
  refine List.forall_mem_cons.mpr ⟨.of_register rfl hmask rfl (.inl rfl), ?_⟩
  refine List.forall_mem_cons.mpr ⟨.of_register rfl hmask rfl (.inl rfl), ?_⟩
  exact List.forall_mem_singleton.mpr (.of_register rfl hd rfl (.inl rfl))

theorem intLoad_within {rs : List Reg} {access : TargetLoad} {out : Gpr} {addr : Address}
    (hout : Reg.gpr out ∈ rs) : (intLoad access out addr).Within rs stores true := by
  unfold intLoad
  split <;> exact .of_register rfl hout rfl (.inr rfl)

theorem ret_within : ∀ i ∈ ret s, i.Within (s.written .ret) stores accesses := by
  have hrax : Reg.gpr .rax ∈ s.written .ret := by simp [Site.written]
  have hxmm0 : Reg.xmm .xmm0 ∈ s.written .ret := by simp [Site.written]
  refine List.forall_mem_append.mpr ⟨?_, List.forall_mem_singleton.mpr (.of_none rfl rfl rfl)⟩
  split
  · exact .optional (.of_register rfl hrax rfl (.inl rfl))
  · exact .optional (.of_register rfl hxmm0 rfl (.inl rfl))
  · simp

/-- A division writes both halves of the dividend. -/
theorem divideBy_within {rs : List Reg} {w : IntWidth} {signed : Bool} {divisor : Gpr}
    (hrax : Reg.gpr .rax ∈ rs) (hrdx : Reg.gpr .rdx ∈ rs) :
    ∀ i ∈ divideBy w signed divisor, i.Within rs stores accesses := by
  refine List.forall_mem_cons.mpr ⟨?_, List.forall_mem_singleton.mpr ?_⟩
  · unfold extendDividend
    split
    · cases w <;> exact .of_register rfl hrdx rfl (.inl rfl)
    · exact .of_register rfl hrdx rfl (.inl rfl)
  · exact .of_subset (List.cons_subset.mpr ⟨hrax, List.cons_subset.mpr ⟨hrdx, List.nil_subset rs⟩⟩) rfl
      (.inl rfl)

theorem floatBinary_within (h : floatBinary s = .ok is) :
    ∀ i ∈ is, i.Within (s.written .floatBinary) stores accesses := by
  obtain ⟨w, op, out, left, right, hop, hout, -, -, rfl⟩ := floatBinary_ok h
  change s.node.op = _ at hop
  refine twoOperand_within .xmm hout ?_ (fun d _ hd => .of_register rfl hd rfl (.inl rfl)) ?_
  · simp only [Family.constraint, hop]
    cases op with
    | copysign => exact List.mem_cons_self
    | arith op =>
        rw [overwritten_binary]
        exact List.mem_singleton_self _
  · intro d sign hd
    cases op with
    | copysign =>
        refine copySign_within (Site.overwritten_written ?_) hd
        simp only [Family.constraint, hop]
        exact List.mem_cons_of_mem _ (List.mem_singleton_self _)
    | arith op => exact List.forall_mem_singleton.mpr (.of_register rfl hd rfl (.inl rfl))

/-- A mask is made in its register and then applied to a copy of the input. -/
theorem masked_within {rs : List Reg} {w : FloatWidth} {out input : Xmm} {shift logic : Mnemonic}
    {count : BitVec 64} (hmask : Reg.xmm Xmm.maskScratch ∈ rs) (hout : Reg.xmm out ∈ rs)
    (hshift : (Inst.xmmImm shift Xmm.maskScratch count).Within rs stores accesses)
    (hlogic : (Inst.xmms logic out Xmm.maskScratch).Within rs stores accesses) :
    ∀ i ∈ [allOnes, .xmmImm shift Xmm.maskScratch count]
        ++ (if out = input then [] else [.xmms (.movs w) out input])
        ++ [.xmms logic out Xmm.maskScratch], i.Within rs stores accesses := by
  refine List.forall_mem_append.mpr ⟨List.forall_mem_append.mpr ⟨?_, ?_⟩, ?_⟩
  · refine List.forall_mem_cons.mpr ⟨.of_register rfl hmask rfl (.inl rfl), ?_⟩
    exact List.forall_mem_singleton.mpr hshift
  · exact .optional (.of_register rfl hout rfl (.inl rfl))
  · exact List.forall_mem_singleton.mpr hlogic

theorem floatUnary_within (h : floatUnary s = .ok is) :
    ∀ i ∈ is, i.Within (s.written .floatUnary) stores accesses := by
  obtain ⟨w, op, out, input, hop, hout, -, rfl⟩ := floatUnary_ok h
  change s.node.op = _ at hop
  have hwritten : Reg.xmm out ∈ s.written .floatUnary := Site.output_written hout
  -- only the two operations on signs have the mask register among those they overwrite
  have hmask (hsign : op = .abs ∨ op = .neg) : Reg.xmm Xmm.maskScratch ∈ s.written .floatUnary := by
    refine Site.overwritten_written ?_
    rcases hsign with rfl | rfl
    · simp only [Family.constraint, hop]
      exact List.mem_singleton_self _
    · simp only [Family.constraint, hop]
      exact List.mem_singleton_self _
  cases op with
  | sqrt => exact List.forall_mem_singleton.mpr (.of_output rfl hout rfl (.inl rfl))
  | round mode => exact List.forall_mem_singleton.mpr (.of_output rfl hout rfl (.inl rfl))
  | abs =>
      have hmask := hmask (.inl rfl)
      exact masked_within hmask hwritten (.of_register rfl hmask rfl (.inl rfl))
        (.of_output rfl hout rfl (.inl rfl))
  | neg =>
      have hmask := hmask (.inr rfl)
      exact masked_within hmask hwritten (.of_register rfl hmask rfl (.inl rfl))
        (.of_output rfl hout rfl (.inl rfl))

end Emit

namespace Family

variable {f : Family} {s : Site} {is : List Inst}

/-- The instructions of a node stay within what they may write and reach. -/
theorem emit_within (h : f.emit s = .ok is) :
    ∀ i ∈ is, i.Within (s.written f) (f == .store) f.isAccess := by
  cases f
  case arith =>
    obtain ⟨op, size, out, left, right, -, hout, -, -, rfl⟩ := Emit.arith_ok (Emit.whole_eq_ok.mp h)
    refine Emit.twoOperand_within .gpr hout ?_ (fun d _ hd => .of_register rfl hd rfl (.inl rfl))
      fun d _ hd => List.forall_mem_singleton.mpr (.of_register rfl hd rfl (.inl rfl))
    rw [constraint, overwritten_binary]
    exact List.mem_singleton_self _
  case shift =>
    obtain ⟨op, size, out, value, count, -, hout, -, -, rfl⟩ :=
      Emit.shift_ok (Emit.whole_eq_ok.mp h)
    refine Emit.twoOperand_within .gpr hout ?_ (fun d _ hd => .of_register rfl hd rfl (.inl rfl))
      fun d _ hd => List.forall_mem_singleton.mpr (.of_register rfl hd rfl (.inl rfl))
    exact List.mem_singleton_self _
  case division =>
    obtain ⟨w, signed, divisor, -, -, rfl⟩ := Emit.division_ok (Emit.whole_eq_ok.mp h)
    have hclobber {r : Reg} (hr : r ∈ [Reg.gpr .rax, .gpr .rdx]) : r ∈ s.written .division :=
      Site.overwritten_written (List.mem_cons_of_mem _ hr)
    exact Emit.divideBy_within (hclobber (by simp)) (hclobber (by simp))
  case bitCount =>
    obtain ⟨w, op, out, input, -, hout, -, rfl⟩ := Emit.bitCount_ok (Emit.whole_eq_ok.mp h)
    exact List.forall_mem_singleton.mpr (.of_output rfl hout rfl (.inl rfl))
  case extend32 =>
    obtain ⟨signed, out, input, -, hout, -, rfl⟩ := Emit.extend32_ok (Emit.whole_eq_ok.mp h)
    cases signed
    · exact List.forall_mem_singleton.mpr (.of_output rfl hout rfl (.inl rfl))
    · exact List.forall_mem_singleton.mpr (.of_output rfl hout rfl (.inl rfl))
  case intConst =>
    obtain ⟨l, out, -, hout, rfl⟩ := Emit.intConst_ok (Emit.whole_eq_ok.mp h)
    split
    · exact List.forall_mem_singleton.mpr (.of_output rfl hout rfl (.inl rfl))
    · exact List.forall_mem_singleton.mpr (.of_output rfl hout rfl (.inl rfl))
  case intBool =>
    obtain ⟨w, out, input, -, hout, -, rfl⟩ := Emit.intBool_ok (Emit.whole_eq_ok.mp h)
    exact List.forall_mem_cons.mpr ⟨.of_none rfl rfl rfl, Emit.materialize_within hout⟩
  case compare =>
    obtain ⟨c, out, left, right, -, hout, -, -, rfl⟩ := Emit.compare_ok (Emit.whole_eq_ok.mp h)
    exact List.forall_mem_cons.mpr ⟨.of_none rfl rfl rfl, Emit.materialize_within hout⟩
  case floatBinary => exact Emit.floatBinary_within (Emit.whole_eq_ok.mp h)
  case floatUnary => exact Emit.floatUnary_within (Emit.whole_eq_ok.mp h)
  case floatConst =>
    obtain ⟨v, out, hout, rfl⟩ := Emit.floatConst_ok (Emit.whole_eq_ok.mp h)
    refine List.forall_mem_cons.mpr ⟨?_, List.forall_mem_singleton.mpr ?_⟩
    · exact .of_register rfl (Site.overwritten_written (List.mem_singleton_self _)) rfl (.inl rfl)
    · exact .of_output rfl hout rfl (.inl rfl)
  case floatBool =>
    obtain ⟨w, out, input, -, hout, -, rfl⟩ := Emit.floatBool_ok (Emit.whole_eq_ok.mp h)
    refine List.forall_mem_append.mpr ⟨?_, Emit.materialize_within hout⟩
    refine List.forall_mem_cons.mpr ⟨?_, List.forall_mem_singleton.mpr ?_⟩
    · exact .of_output rfl hout rfl (.inl rfl)
    · exact .of_output rfl hout rfl (.inl rfl)
  case context =>
    obtain ⟨disp, out, base, -, hout, -, rfl⟩ := Emit.context_ok (Emit.whole_eq_ok.mp h)
    exact List.forall_mem_singleton.mpr (.of_output rfl hout rfl (.inr rfl))
  case boundsCheck =>
    obtain ⟨disp, l, out, addr, size, stop, -, -, hout, -, -, hstop, rfl⟩ :=
      Emit.boundsCheck_ok (Emit.whole_eq_ok.mp h)
    exact Emit.checkEnd_within (Site.output_written hout)
      (Site.scratch_written (List.mem_of_getElem? hstop))
  case load =>
    obtain ⟨access, base, index, -, -, -, ⟨w, out, -, hout, rfl⟩ | ⟨-, out, hout, rfl⟩⟩ :=
      Emit.load_ok (Emit.whole_eq_ok.mp h)
    · exact List.forall_mem_singleton.mpr (.of_output rfl hout rfl (.inr rfl))
    · exact List.forall_mem_singleton.mpr (Emit.intLoad_within (Site.output_written hout))
  case store =>
    -- a store writes no register, and is the one family that may change the heap
    obtain ⟨access, base, index, -, -, -, ⟨w, src, -, -, rfl⟩ | ⟨size, src, -, -, rfl⟩⟩ :=
      Emit.store_ok (Emit.whole_eq_ok.mp h)
    · exact List.forall_mem_singleton.mpr ⟨List.nil_subset _, fun _ => rfl, fun _ => rfl⟩
    · exact List.forall_mem_singleton.mpr ⟨List.nil_subset _, fun _ => rfl, fun _ => rfl⟩
  case state =>
    rw [← Except.ok.inj h]
    simp
  case updateState =>
    obtain ⟨out, state, hout, -, rfl⟩ := Emit.updateState_ok (Emit.whole_eq_ok.mp h)
    exact .optional (.of_output rfl hout rfl (.inl rfl))
  case ret =>
    rw [← Except.ok.inj h]
    exact Emit.ret_within
  case intRet =>
    rw [← Except.ok.inj h]
    exact List.forall_mem_singleton.mpr (.of_none rfl rfl rfl)
  case floatRet =>
    rw [← Except.ok.inj h]
    exact List.forall_mem_singleton.mpr (.of_none rfl rfl rfl)
  case branch =>
    obtain ⟨predicate, t, o, -, -, -, rfl⟩ := Emit.branch_ok h
    exact List.forall_mem_cons.mpr ⟨.of_none rfl rfl rfl, Emit.jumps_within⟩
  case branchOn =>
    obtain ⟨c, left, right, t, o, -, -, -, -, -, rfl⟩ := Emit.branchOn_ok h
    exact List.forall_mem_cons.mpr ⟨.of_none rfl rfl rfl, Emit.jumps_within⟩
  case jump =>
    obtain ⟨t, -, rfl⟩ := Emit.jump_ok (Emit.whole_eq_ok.mp h)
    exact .optional (.of_none rfl rfl rfl)

/-- The instructions of a node change no register but those that they may write, and the heap only if
they store. -/
theorem exec_changes (h : f.emit s = .ok is) (m : Machine) :
    Machine.Changes (s.written f) (f == .store) m (Machine.exec is m).2 :=
  Machine.exec_writes (fun i hi => (emit_within h i hi).writes)
    (fun i hi => (emit_within h i hi).stores) m

end Family

end Isel
