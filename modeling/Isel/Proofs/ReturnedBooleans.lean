import Isel.Proofs.SelectedNodes
import Isel.Proofs.Words

/-! Truth values that are only returned. The return is handed the operand instead. It is zero exactly if
the truth value is, unless the return reads 32 bits and all that is set in the operand lies above them. -/

namespace Isel

/-- The width at which a return of an integer reads it. -/
def Operator.returnWidth? : Operator → Option IntWidth
  | ret => some .w64
  | typedRet (.int w) => some w
  | _ => none

/-- Returns of integers are copied. -/
theorem Operator.copied?_of_returnWidth? {op : Operator} {w : IntWidth}
    (h : op.returnWidth? = some w) :
    ∃ op', op.copied? = some op' ∧ (op' = .ret ∨ op' = .target .intRet) := by
  cases op with
  | ret => exact ⟨.ret, rfl, .inl rfl⟩
  | typedRet ty =>
      cases ty with
      | int => exact ⟨.target .intRet, rfl, .inr rfl⟩
      | float => exact absurd h (by simp [returnWidth?])
  | _ => exact absurd h (by simp [returnWidth?])

/-- The one use of a truth value that is dropped is in a return. -/
theorem Graph.return_of_drops {g : Graph} {config : Config} {id : Nat} (h : g.drops config id = true) :
    ∃ user k a m w, g.usesOf id = [⟨user, .input k⟩] ∧ g.nodes[user]? = some ⟨a, m⟩ ∧
      m.inputs[k]? = some id ∧ m.op.returnWidth? = some w := by
  obtain ⟨-, hreturned⟩ := Bool.and_eq_true_iff.mp h
  unfold isOnlyReturned at hreturned
  split at hreturned
  · next user k hsingle =>
      obtain ⟨m, hm, hinput⟩ := input_of_mem_usesOf (mem_usesOf_of_singleUse? hsingle)
      obtain ⟨a, ha⟩ := node?_eq_some.mp hm
      have hwidth : ∃ w, m.op.returnWidth? = some w := by
        rw [op?, hm, Option.map_some] at hreturned
        split at hreturned
        · next hop => exact ⟨.w64, by rw [Option.some.inj hop]; rfl⟩
        · next ty hop =>
            cases ty with
            | int w => exact ⟨w, by rw [Option.some.inj hop]; rfl⟩
            | float => exact absurd hreturned (by simp [ValueType.isInt])
        · exact absurd hreturned (by simp)
      obtain ⟨w, hw⟩ := hwidth
      exact ⟨user, k, a, m, w, usesOf_of_singleUse? hsingle, ha, hinput, hw⟩
  · exact absurd hreturned (by simp)

namespace Words

/-- A number and its truth value at a width are zero together, unless the number has bits above the
width only. -/
theorem truth_kept_iff (w : IntWidth) (v : Word) :
    (v.setWidth w.bits = 0 ↔ (ofBool (v != 0)).setWidth w.bits = 0) ↔
      ¬(w = .w32 ∧ v ≠ 0 ∧ v.setWidth w.bits = 0) := by
  by_cases hv : v = 0
  · subst hv
    cases w <;> decide
  · have htrue : (ofBool (v != 0)).setWidth w.bits ≠ 0 := by
      rw [bne_iff_ne.mpr hv]
      cases w <;> decide
    rw [iff_false_right htrue]
    cases w with
    | w32 => exact not_congr ⟨fun hzero => ⟨rfl, hv, hzero⟩, fun h => h.2.2⟩
    | w64 => simpa [IntWidth.bits] using hv

end Words

namespace Selected

open Lowering Schedule

variable {g g' : Graph} {config : Config} {stats : Stats} {l : Lowering} {id a : Nat} {m : Node}

/-- A return of an integer is selected as one of what stands for its inputs. -/
theorem returned (h : Selected g config g' stats l) {w : IntWidth} {k v i : Nat}
    (hm : g.nodes[id]? = some ⟨a, m⟩) (hwidth : m.op.returnWidth? = some w)
    (hk : m.inputs[k]? = some v) (hv : l.lowered.get? v = some i) :
    ∃ j op control inputs, selectedNode? g config id = some j ∧
      g'.nodes[j]? = some ⟨a, op, control, m.literals, inputs⟩ ∧ (op = .ret ∨ op = .target .intRet) ∧
      inputs[k]? = some (place g.blocks l.nodes i) := by
  have hnode := Graph.node?_eq_some.mpr ⟨a, hm⟩
  obtain ⟨op', hop', hreturn⟩ := Operator.copied?_of_returnWidth? hwidth
  have hne {op : Operator} (hop : op.returnWidth? = none) : m.op ≠ op := by
    rintro rfl
    exact absurd (hop.symm.trans hwidth) (by simp)
  have hfree : Select.absorbs g config id = false := absorbs_eq_false hnode fun _ _ => hne rfl
  have hkept : g.elides config id = false := by
    refine (Graph.elides_eq_false hnode).mpr ?_
    rintro (hop | hop | ⟨hop, -⟩) <;> exact hne rfl hop
  obtain ⟨l₁, m', j, hj, hkeeps, hform, hnew⟩ := h.form hm hfree hkept
  cases hform with
  | @copied op'' control inputs hop'' _ _ hinputs =>
      obtain rfl := Option.some.inj (hop'.symm.trans hop'')
      obtain ⟨i', hi', hlowered⟩ := forall₂_getElem? hinputs hk
      obtain rfl := Option.some.inj ((hkeeps.lowered hlowered).symm.trans hv)
      refine ⟨_, op', _, _, h.selected hj, h.node hnew, hreturn, ?_⟩
      exact (List.getElem?_map ..).trans (by rw [hi']; rfl)
  | compared hop | signed hop | loaded hop | stored hop => exact absurd hop (hne rfl)
  | fused hop | branched hop | branched32 hop => exact absurd hop (hne rfl)

end Selected

/-- A truth value that is dropped is replaced by its operand in the one return that uses it. Read at the
width of the return, the operand is zero exactly if the truth value is, but for numbers that a return of
32 bits takes for zero because their low half is. -/
theorem select_returns_operand {g g' : Graph} {config : Config} {stats : Stats} {id b : Nat} {n : Node}
    (hselect : select g config = .ok (g', stats)) (hn : g.nodes[id]? = some ⟨b, n⟩)
    (hop : n.op = .bool .i64) (hdrops : g.drops config id = true) :
    ∃ x user k a m w i j, n.inputs[0]? = some x ∧ g.usesOf id = [⟨user, .input k⟩] ∧
      g.nodes[user]? = some ⟨a, m⟩ ∧ m.op.returnWidth? = some w ∧
      selectedNode? g config x = some i ∧ selectedNode? g config id = some i ∧
      selectedNode? g config user = some j ∧
      (∃ op control inputs, g'.nodes[j]? = some ⟨a, op, control, m.literals, inputs⟩ ∧
        (op = .ret ∨ op = .target .intRet) ∧ inputs[k]? = some i) ∧
      ∀ v : Word, ∃ t, Words.pure? n [v] = some t ∧
        ((v.setWidth w.bits = 0 ↔ t.setWidth w.bits = 0) ↔
          ¬(w = .w32 ∧ v ≠ 0 ∧ v.setWidth w.bits = 0)) := by
  obtain ⟨l, h⟩ := exists_selected hselect
  have helides : g.elides config id = true :=
    (Graph.elides_eq_true (Graph.node?_eq_some.mpr ⟨b, hn⟩)).mpr (.inr (.inr ⟨hop, hdrops⟩))
  obtain ⟨x, i, hx, hi, hxi⟩ := h.stands hn helides
  obtain ⟨user, k, a, m, w, huses, hm, hk, hw⟩ := Graph.return_of_drops hdrops
  obtain ⟨j, op, control, inputs, hj, hnode, hreturn, hinput⟩ := h.returned hm hw hk hi
  refine ⟨x, user, k, a, m, w, _, j, hx, huses, hm, hw, h.selected hxi, h.selected hi, hj,
    ⟨op, control, inputs, hnode, hreturn, hinput⟩, fun v => ⟨Words.ofBool (v != 0), ?_, ?_⟩⟩
  · unfold Words.pure?
    rw [hop]
    exact congrArg (fun x : Word => some (Words.ofBool (x != 0))) (BitVec.setWidth_eq v)
  · exact Words.truth_kept_iff w v

/-- Returns the truth value of a number at a type. -/
def truthOf (number : Word) (ty : ValueType) : Graph :=
  .ofParts #[⟨"entry", []⟩]
    #[⟨0, .const .i64, [], [.int number], []⟩, ⟨0, .bool .i64, [], [], [0]⟩,
      ⟨0, .typedRet ty, [.block 0], [], [1]⟩]

/-- A return of 64 bits is handed the number itself, which is zero exactly if its truth value is. -/
theorem select_returns_operand_truthOf :
    ∃ g' stats, select (truthOf 4294967296 .i64) {} = .ok (g', stats) ∧
      (truthOf 4294967296 .i64).drops {} 1 = true ∧
      ∃ i j op control inputs, selectedNode? (truthOf 4294967296 .i64) {} 0 = some i ∧
        selectedNode? (truthOf 4294967296 .i64) {} 2 = some j ∧
        g'.nodes[j]? = some ⟨0, op, control, [], inputs⟩ ∧ inputs[0]? = some i ∧
        ∀ v : Word, ∃ t, Words.pure? ⟨.bool .i64, [], [], [0]⟩ [v] = some t ∧ (v = 0 ↔ t = 0) := by
  have hok : (select (truthOf 4294967296 .i64) {}).toOption.isSome = true := by decide +kernel
  have hdrops : (truthOf 4294967296 .i64).drops {} 1 = true := by decide +kernel
  have hbool : (truthOf 4294967296 .i64).nodes[1]? = some ⟨0, .bool .i64, [], [], [0]⟩ := by decide
  obtain ⟨⟨g', stats⟩, hok⟩ := Option.isSome_iff_exists.mp hok
  have hselect := toOption_eq_some.mp hok
  obtain ⟨x, user, k, a, m, w, i, j, hx, huses, hm, hw, hi, -, hj,
    ⟨op, control, inputs, hnode, -, hk⟩, htruth⟩ := select_returns_operand hselect hbool rfl hdrops
  obtain rfl : 0 = x := Option.some.inj hx
  have hone : (truthOf 4294967296 .i64).usesOf 1 = [⟨2, .input 0⟩] := by decide +kernel
  obtain ⟨rfl, rfl⟩ : user = 2 ∧ k = 0 := by simpa using huses.symm.trans hone
  have hreturn : (truthOf 4294967296 .i64).nodes[2]? = some ⟨0, .typedRet .i64, [.block 0], [], [1]⟩ := by
    decide
  obtain ⟨rfl, rfl⟩ := Placed.mk.inj (Option.some.inj (hm.symm.trans hreturn))
  obtain rfl : .w64 = w := Option.some.inj hw
  refine ⟨g', stats, hselect, hdrops, i, j, op, control, inputs, hi, hj, hnode, hk, fun v => ?_⟩
  obtain ⟨t, ht, hkept⟩ := htruth v
  exact ⟨t, ht, by simpa [IntWidth.bits] using hkept.mpr (by simp)⟩

/-- A return of 32 bits is handed a number that it takes for zero, where the truth value is one. -/
theorem select_returns_high_half :
    ∃ g' stats, select (truthOf 4294967296 .i32) {} = .ok (g', stats) ∧
      (truthOf 4294967296 .i32).op? 2 = some (.typedRet (.int .w32)) ∧
      g'.nodes = #[⟨0, .const .i64, [], [.int 4294967296], []⟩,
        ⟨0, .target .intRet, [.block 0], [], [0]⟩] ∧
      (4294967296 : Word).setWidth 32 = 0 ∧
      Words.pure? ⟨.bool .i64, [], [], [0]⟩ [4294967296] = some 1 := by
  have hnodes : (select (truthOf 4294967296 .i32) {}).toOption.map (fun r => r.1.nodes)
      = some #[⟨0, .const .i64, [], [.int 4294967296], []⟩,
        ⟨0, .target .intRet, [.block 0], [], [0]⟩] := by decide +kernel
  obtain ⟨⟨g', stats⟩, hok, hnodes⟩ := Option.map_eq_some_iff.mp hnodes
  exact ⟨g', stats, toOption_eq_some.mp hok, by decide, hnodes, by decide, by decide⟩

end Isel
