import Isel.Operator.Reader
import Isel.Proofs.Pieces

/-! The names of operators are exact. Whichever rule reads a name, what it reads is named like that, so
no operator is read from two names; and every operator is read from its own name, so no rule takes the
names that a later rule is there for. -/

namespace Isel

open Text

variable {name suffix : String}

/-! ### Parts of names -/

namespace Text

theorem after?_eq_some {word text rest : String} : after? word text = some rest ↔ text = word ++ rest := by
  simp only [after?, Option.map_eq_some_iff, List.isPrefixOf?_eq_some_iff_append_eq]
  constructor
  · rintro ⟨cs, hcs, rfl⟩
    rw [← String.toList_inj, String.toList_append, String.toList_ofList, hcs]
  · rintro rfl
    exact ⟨rest.toList, String.toList_append.symm, String.ofList_toList⟩

theorem eq_of_cutAt? {c : Char} {text before rest : String} (h : cutAt? c text = some (before, rest)) :
    text = before ++ String.singleton c ++ rest := by
  obtain ⟨⟨a, b⟩, hcut, heq⟩ := Option.map_eq_some_iff.mp h
  obtain ⟨rfl, rfl⟩ := Prod.mk.inj heq
  have happend := eq_append_of_cutChars hcut
  rw [← String.toList_inj, happend]
  simp

theorem cutAt?_append {c : Char} {before : String} (h : c ∉ before.toList) (rest : String) :
    cutAt? c (before ++ String.singleton c ++ rest) = some (before, rest) := by
  have hchars : (before ++ String.singleton c ++ rest).toList = before.toList ++ c :: rest.toList := by
    simp
  rw [cutAt?, hchars, cutChars_append h, Option.map_some]
  simp only [String.ofList_toList]

end Text

theorem name_of_named? {α : Type} {members : List α} {nameOf : α → String} {x : α}
    (h : named? members nameOf name = some x) : nameOf x = name := by
  simpa using List.find?_some h

theorem ValueType.name_of_ofName? {ty : ValueType} (h : ofName? name = some ty) : ty.name = name := by
  unfold ofName? at h
  split at h <;> cases h <;> rfl

theorem signName_of_signOf? {signed : Bool} (h : signOf? name = some signed) :
    signName signed = name := by
  unfold signOf? at h
  split at h <;> cases h <;> rfl

theorem Part.bits_of_ofBits? {part : Part} (h : ofBits? name = some part) :
    toString part.size.bits = name := by
  unfold ofBits? at h
  split at h <;> cases h <;> rfl

theorem Narrow.spec_of_of? {w : IntWidth} {part : Part} {n : Narrow} (h : of? w part = some n) :
    n.width = w ∧ n.part = part := by
  unfold of? at h
  split at h <;> cases h <;> exact ⟨rfl, rfl⟩

/-! ### Accesses -/

theorem Load.name_of_ofSuffix? {ty : ValueType} {l : Load} (h : ofSuffix? ty suffix = some l) :
    l.name = ty.name ++ "." ++ suffix := by
  obtain ⟨rest, hrest, h⟩ := Option.bind_eq_some_iff.mp h
  rw [after?_eq_some.mp hrest]
  split at h
  · rename_i hempty
    obtain rfl := Option.some.inj h
    rw [hempty, String.append_assoc]
    rfl
  · cases ty with
    | float w => exact absurd h (by simp)
    | int w =>
        obtain ⟨⟨bits, sign⟩, hcut, h⟩ := Option.bind_eq_some_iff.mp h
        obtain ⟨signed, hsign, h⟩ := Option.bind_eq_some_iff.mp h
        obtain ⟨part, hpart, h⟩ := Option.bind_eq_some_iff.mp h
        obtain ⟨n, hn, h⟩ := Option.bind_eq_some_iff.mp h
        obtain rfl := Option.some.inj h
        obtain ⟨rfl, rfl⟩ := Narrow.spec_of_of? hn
        rw [eq_of_cutAt? hcut, ← signName_of_signOf? hsign, ← Part.bits_of_ofBits? hpart]
        change n.width.name ++ ("." ++ "load") ++ toString n.part.size.bits ++ "_" ++ signName signed
          = n.width.name ++ "." ++ ("load" ++ (toString n.part.size.bits ++ "_" ++ signName signed))
        simp only [String.append_assoc]

theorem Store.name_of_ofSuffix? {ty : ValueType} {x : Store} (h : ofSuffix? ty suffix = some x) :
    x.name = ty.name ++ "." ++ suffix := by
  obtain ⟨rest, hrest, h⟩ := Option.bind_eq_some_iff.mp h
  rw [after?_eq_some.mp hrest]
  split at h
  · rename_i hempty
    obtain rfl := Option.some.inj h
    rw [hempty, String.append_assoc]
    rfl
  · cases ty with
    | float w => exact absurd h (by simp)
    | int w =>
        obtain ⟨part, hpart, h⟩ := Option.bind_eq_some_iff.mp h
        obtain ⟨n, hn, h⟩ := Option.bind_eq_some_iff.mp h
        obtain rfl := Option.some.inj h
        obtain ⟨rfl, rfl⟩ := Narrow.spec_of_of? hn
        rw [← Part.bits_of_ofBits? hpart]
        change n.width.name ++ ("." ++ "store") ++ toString n.part.size.bits
          = n.width.name ++ "." ++ ("store" ++ toString n.part.size.bits)
        simp only [String.append_assoc]

/-! ### Targets -/

theorem Fused.name_of_fused? {op : IntBinary} {f : Fused} (h : op.fused? = some f) :
    f.toBinary = op := by
  unfold IntBinary.fused? at h
  split at h <;> cases h <;> rfl

theorem Target.name_of_ofName? {op : Target} (h : ofName? name = some op) : op.name = name := by
  unfold ofName? at h
  split at h
  case h_8 =>
    split at h
    · rename_i rest hrest
      obtain ⟨f, hf, rfl⟩ := Option.map_eq_some_iff.mp h
      obtain ⟨x, hx, hfused⟩ := Option.bind_eq_some_iff.mp hf
      rw [after?_eq_some.mp hrest, ← name_of_named? hx, ← Fused.name_of_fused? hfused]
      rfl
    · split at h
      · rename_i rest hrest
        obtain ⟨c, hc, rfl⟩ := Option.map_eq_some_iff.mp h
        rw [after?_eq_some.mp hrest, ← name_of_named? hc]
        rfl
      · exact name_of_named? h
  all_goals cases h; rfl

/-! ### Operators -/

theorem IntWidth.mem_all (w : IntWidth) : w ∈ all := by cases w <;> decide

theorem FloatWidth.mem_all (w : FloatWidth) : w ∈ all := by cases w <;> decide

theorem Arith.mem_all (op : Arith) : op ∈ all := by cases op <;> decide

theorem Comparison.mem_all (c : Comparison) : c ∈ all := by cases c <;> decide

/-- The list of target operators leaves none out. -/
theorem Target.mem_all (op : Target) : op ∈ all := by
  cases op with
  | extend32 signed => cases signed <;> simp [all]
  | int op => cases op <;> simp [all, Fused.all, Arith.mem_all]
  | branchOn c => simp [all, c.mem_all]
  | load a =>
      have ha : a ∈ TargetLoad.all := by
        rcases a with w | ⟨p, signed⟩ | w
        · simp [TargetLoad.all, w.mem_all]
        · cases p <;> cases signed <;> decide
        · simp [TargetLoad.all, w.mem_all]
      simp [all, ha]
  | store a =>
      have ha : a ∈ TargetStore.all := by
        rcases a with s | w
        · cases s <;> decide
        · simp [TargetStore.all, w.mem_all]
      simp [all, ha]
  | _ => simp [all]

namespace Operator

theorem name_of_plain? {op : Operator} (h : plain? name = some op) : op.name = name := by
  unfold plain? at h
  split at h
  case h_11 =>
    obtain ⟨x, hx, rfl⟩ := Option.map_eq_some_iff.mp h
    rw [← name_of_named? hx]
    rfl
  all_goals cases h; rfl

/-- What is read from a suffix by its name is named by the type and the suffix. -/
theorem name_of_map_named? {α : Type} {members : List α} {nameOf : α → String} {f : α → Operator}
    {type : String} {op : Operator} (hf : ∀ x, (f x).name = type ++ "." ++ nameOf x)
    (h : (named? members nameOf suffix).map f = some op) : op.name = type ++ "." ++ suffix := by
  obtain ⟨x, hx, rfl⟩ := Option.map_eq_some_iff.mp h
  rw [hf, name_of_named? hx]

theorem name_of_numeric? {ty : ValueType} {op : Operator} (h : numeric? ty suffix = some op) :
    op.name = ty.name ++ "." ++ suffix := by
  cases ty with
  | int w =>
      rcases Option.or_eq_some_iff.mp h with h | ⟨-, h⟩
      · exact name_of_map_named? (fun _ => rfl) h
      rcases Option.or_eq_some_iff.mp h with h | ⟨-, h⟩
      · exact name_of_map_named? (fun _ => rfl) h
      · exact name_of_map_named? (fun _ => rfl) h
  | float w =>
      rcases Option.or_eq_some_iff.mp h with h | ⟨-, h⟩
      · exact name_of_map_named? (fun _ => rfl) h
      · exact name_of_map_named? (fun _ => rfl) h

theorem name_of_typed? {ty : ValueType} {op : Operator} (h : typed? ty suffix = some op) :
    op.name = ty.name ++ "." ++ suffix := by
  unfold typed? at h
  split at h
  case h_4 =>
    rcases Option.or_eq_some_iff.mp h with h | ⟨-, h⟩
    · exact name_of_numeric? h
    rcases Option.or_eq_some_iff.mp h with h | ⟨-, h⟩
    · obtain ⟨l, hl, rfl⟩ := Option.map_eq_some_iff.mp h
      exact Load.name_of_ofSuffix? hl
    · obtain ⟨x, hx, rfl⟩ := Option.map_eq_some_iff.mp h
      exact Store.name_of_ofSuffix? hx
  all_goals
    cases h
    rw [String.append_assoc]
    rfl

/-- What is read from a name is named like that. -/
theorem name_of_ofName? {op : Operator} (h : ofName? name = some op) : op.name = name := by
  unfold ofName? at h
  split at h
  · rename_i rest hrest
    obtain ⟨x, hx, rfl⟩ := Option.map_eq_some_iff.mp h
    rw [after?_eq_some.mp hrest, ← Target.name_of_ofName? hx]
    rfl
  · rcases Option.or_eq_some_iff.mp h with h | ⟨-, h⟩
    · exact name_of_plain? h
    · obtain ⟨⟨type, suffix⟩, hcut, h⟩ := Option.bind_eq_some_iff.mp h
      obtain ⟨ty, hty, h⟩ := Option.bind_eq_some_iff.mp h
      rw [name_of_typed? h, eq_of_cutAt? hcut, ValueType.name_of_ofName? hty]
      rfl

/-- The list of operators leaves none out. -/
theorem mem_all (op : Operator) : op ∈ all := by
  have htype (ty : ValueType) : ty ∈ ValueType.all := by rcases ty with (_ | _) | (_ | _) <;> decide
  have hnarrow (x : Narrow) : x ∈ Narrow.all := by cases x <;> decide
  have hint {w : IntWidth} {x : Operator} (hx : x ∈ IntBinary.all.map (intBinary w) ++
      BitCount.all.map (bitCount w) ++ Comparison.all.map (compare w)) : x ∈ all := by
    have hmem : x ∈ IntWidth.all.flatMap fun w => IntBinary.all.map (intBinary w) ++
        BitCount.all.map (bitCount w) ++ Comparison.all.map (compare w) :=
      List.mem_flatMap.mpr ⟨w, w.mem_all, hx⟩
    simp only [all, List.mem_append, hmem, true_or, or_true]
  have hfloat {w : FloatWidth} {x : Operator} (hx : x ∈ FloatBinary.all.map (floatBinary w) ++
      FloatUnary.all.map (floatUnary w)) : x ∈ all := by
    have hmem : x ∈ FloatWidth.all.flatMap fun w => FloatBinary.all.map (floatBinary w) ++
        FloatUnary.all.map (floatUnary w) :=
      List.mem_flatMap.mpr ⟨w, w.mem_all, hx⟩
    simp only [all, List.mem_append, hmem, true_or, or_true]
  cases op with
  | state | updateState | wrap | ret | branch | jump =>
      simp only [all, List.mem_append, List.mem_cons, true_or, or_true]
  | extend signed =>
      cases signed <;> simp only [all, List.mem_append, List.mem_cons, true_or, or_true]
  | const ty =>
      have hmem := List.mem_map_of_mem (f := const) (htype ty)
      simp only [all, List.mem_append, hmem, true_or, or_true]
  | bool ty =>
      have hmem := List.mem_map_of_mem (f := bool) (htype ty)
      simp only [all, List.mem_append, hmem, true_or, or_true]
  | typedRet ty =>
      have hmem := List.mem_map_of_mem (f := typedRet) (htype ty)
      simp only [all, List.mem_append, hmem, true_or, or_true]
  | address w =>
      have hmem := List.mem_map_of_mem (f := address) w.mem_all
      simp only [all, List.mem_append, hmem, true_or, or_true]
  | intBinary w op =>
      have hop : op ∈ IntBinary.all := by
        rcases op with op | op | op
        · exact List.mem_append_left _ (List.mem_append_left _ (List.mem_map_of_mem op.mem_all))
        all_goals cases op <;> decide
      exact hint (List.mem_append_left _ (List.mem_append_left _ (List.mem_map_of_mem hop)))
  | bitCount w op =>
      have hop : op ∈ BitCount.all := by cases op <;> decide
      exact hint (List.mem_append_left _ (List.mem_append_right _ (List.mem_map_of_mem hop)))
  | compare w op => exact hint (List.mem_append_right _ (List.mem_map_of_mem op.mem_all))
  | floatBinary w op =>
      have hop : op ∈ FloatBinary.all := by
        rcases op with op | _
        · cases op <;> decide
        · decide
      exact hfloat (List.mem_append_left _ (List.mem_map_of_mem hop))
  | floatUnary w op =>
      have hop : op ∈ FloatUnary.all := by
        rcases op with _ | _ | _ | mode
        all_goals first | decide | cases mode <;> decide
      exact hfloat (List.mem_append_right _ (List.mem_map_of_mem hop))
  | load op =>
      have hop : op ∈ Load.all := by
        rcases op with ty | ⟨n, signed⟩
        · simp [Load.all, htype]
        · cases signed <;> simp [Load.all, hnarrow]
      have hmem := List.mem_map_of_mem (f := load) hop
      simp only [all, List.mem_append, hmem, true_or, or_true]
  | store op =>
      have hop : op ∈ Store.all := by cases op <;> simp [Store.all, htype, hnarrow]
      have hmem := List.mem_map_of_mem (f := store) hop
      simp only [all, List.mem_append, hmem, true_or, or_true]
  | convert op =>
      have hop : op ∈ Conversion.all := by cases op <;> decide
      have hmem := List.mem_map_of_mem (f := convert) hop
      simp only [all, List.mem_append, hmem, true_or, or_true]
  | target op =>
      have hmem := List.mem_map_of_mem (f := target) op.mem_all
      simp only [all, List.mem_append, hmem, or_true]

/-! ### All names -/

theorem ofName?_marked (rest : String) : ofName? ("x64:" ++ rest) = (Target.ofName? rest).map target := by
  rw [ofName?, after?_eq_some.mpr rfl]

/-- A name that starts with a type is read by its suffix, if it does not stand for itself. -/
theorem ofName?_typed {ty : ValueType} (h : plain? (ty.name ++ "." ++ suffix) = none) :
    ofName? (ty.name ++ "." ++ suffix) = typed? ty suffix := by
  have hmark : after? "x64:" (ty.name ++ "." ++ suffix) = none := by
    refine Option.eq_none_iff_forall_ne_some.mpr fun rest hrest => ?_
    have hchars := congrArg String.toList (after?_eq_some.mp hrest)
    rcases ty with (_ | _) | (_ | _) <;> simp [ValueType.name, IntWidth.name, FloatWidth.name] at hchars
  have hpoint : '.' ∉ ty.name.toList := by rcases ty with (_ | _) | (_ | _) <;> decide
  have htype : ValueType.ofName? ty.name = some ty := by rcases ty with (_ | _) | (_ | _) <;> rfl
  have hcut : cutAt? '.' (ty.name ++ "." ++ suffix) = some (ty.name, suffix) :=
    cutAt?_append hpoint suffix
  rw [ofName?, hmark]
  simp only [h, hcut, htype, Option.none_or, Option.bind_eq_bind, Option.bind_some]

/-- The operators whose names stand for themselves. -/
def isPlain : Operator → Bool
  | state | updateState | ret | branch | jump | extend _ | wrap | address _ | convert _ => true
  | _ => false

theorem plain?_name (op : Operator) : plain? op.name = if op.isPlain then some op else none := by
  have hall : all.all (fun op => plain? op.name == if op.isPlain then some op else none) = true := by
    decide +kernel
  simpa using List.all_eq_true.mp hall op op.mem_all

theorem ofName?_target (x : Target) : Target.ofName? x.name = some x := by
  have hall : Target.all.all (fun x => Target.ofName? x.name == some x) = true := by decide +kernel
  simpa using List.all_eq_true.mp hall x x.mem_all

/-- Every operator is read from its name. -/
theorem ofName?_name (op : Operator) : ofName? op.name = some op := by
  have htyped (ty : ValueType) (suffix : String) (hplain : op.isPlain = false)
      (hname : op.name = ty.name ++ "." ++ suffix) (h : typed? ty suffix = some op) :
      ofName? op.name = some op := by
    have hnone : plain? op.name = none := by rw [plain?_name, if_neg (by simp [hplain])]
    rw [hname] at hnone ⊢
    rw [ofName?_typed hnone, h]
  cases op with
  | state | updateState | ret | branch | jump | wrap => decide
  | extend signed => cases signed <;> decide
  | address w => cases w <;> decide
  | convert x => cases x <;> decide
  | const ty => exact htyped ty "const" rfl (by rw [String.append_assoc]; rfl) rfl
  | bool ty => exact htyped ty "bool" rfl (by rw [String.append_assoc]; rfl) rfl
  | typedRet ty => exact htyped ty "ret" rfl (by rw [String.append_assoc]; rfl) rfl
  | intBinary w x =>
      refine htyped (.int w) _ rfl rfl ?_
      rcases x with x | x | x <;> cases x <;> rfl
  | bitCount w x => exact htyped (.int w) _ rfl rfl (by cases x <;> rfl)
  | compare w x => exact htyped (.int w) _ rfl rfl (by cases x <;> rfl)
  | floatBinary w x =>
      refine htyped (.float w) _ rfl rfl ?_
      rcases x with x | _
      · cases x <;> rfl
      · rfl
  | floatUnary w x =>
      refine htyped (.float w) _ rfl rfl ?_
      rcases x with _ | _ | _ | mode
      case round => cases mode <;> rfl
      all_goals rfl
  | load x =>
      rcases x with ty | ⟨n, signed⟩
      · refine htyped ty "load" rfl (by rw [String.append_assoc]; rfl) ?_
        cases ty <;> rfl
      · refine htyped (.int n.width)
          ("load" ++ toString n.part.size.bits ++ "_" ++ signName signed) rfl ?_ ?_
        all_goals cases n <;> cases signed <;> decide
  | store x =>
      rcases x with ty | n
      · refine htyped ty "store" rfl (by rw [String.append_assoc]; rfl) ?_
        cases ty <;> rfl
      · refine htyped (.int n.width) ("store" ++ toString n.part.size.bits) rfl ?_ ?_
        all_goals cases n <;> decide
  | target x =>
      change ofName? ("x64:" ++ x.name) = _
      rw [ofName?_marked, ofName?_target, Option.map_some]

/-- Names are unambiguous: a text is read as an operator if and only if it is the name of the operator.
So different texts are read as different operators, and an operator that was read is read again from its
name. -/
theorem names_unambiguous (s : String) (op : Operator) :
    (ofName? s = some op ↔ op.name = s) ∧
    (ofName? s = some op → ofName? op.name = some op ∧
      ∀ (t : String) (op' : Operator), ofName? t = some op' → (op = op' ↔ s = t)) := by
  refine ⟨⟨name_of_ofName?, fun h => h ▸ op.ofName?_name⟩, fun h => ⟨op.ofName?_name, ?_⟩⟩
  intro t op' h'
  constructor
  · rintro rfl
    exact (name_of_ofName? h).symm.trans (name_of_ofName? h')
  · rintro rfl
    exact Option.some.inj (h.symm.trans h')

/-- A load of the target and a load of a type that end alike have a name each. -/
theorem names_unambiguous_loads :
    ofName? "x64:load32_s" = some (.target (.load (.extended .p32 true))) ∧
    ofName? "i64.load32_s" = some (.load (.narrow .i64of32 true)) ∧
    ∀ t : String, ofName? t = some (.load (.narrow .i64of32 true)) → "i64.load32_s" = t := by
  have htyped : ofName? "i64.load32_s" = some (.load (.narrow .i64of32 true)) := by decide
  refine ⟨by decide, htyped, fun t ht => ?_⟩
  exact (((names_unambiguous _ _).2 htyped).2 t _ ht).mp rfl

-- a sign on a whole value, a part as wide as the type and a number of bits with a zero in front
example : ["i64.load_s", "i32.load32_u", "i64.store08", "x64:int.div_s", "i64..add"].map ofName?
    = [none, none, none, none, none] := by decide

end Operator

end Isel
