import Isel.Proofs.Layout

/-! Kinds of values. The states of memory are kept apart from numbers: they come from `state` and
`updateState` only, and only operators that work on memory take them. -/

namespace Isel

/-- What the value of a node is. -/
inductive Kind
  | state
  | number (ty : ValueType)
deriving DecidableEq, Repr

/-- The type of the operand of a conversion. -/
def Conversion.operandType : Conversion → ValueType
  | .truncateSigned | .truncateUnsigned => .f64
  | .ofSigned | .ofUnsigned => .i64

namespace Operator

/-- The kind of the value, if there is one. -/
def kind? : Operator → Option Kind
  | state | updateState => some .state
  | op => op.resultType.map .number

theorem resultType_of_kind? {op : Operator} {ty : ValueType} (h : op.kind? = some (.number ty)) :
    op.resultType = some ty := by
  cases op <;> simp [kind?] at h <;> exact h

theorem isTerminator_of_kind? {op : Operator} {k : Kind} (h : op.kind? = some k) :
    op.isTerminator = false := by
  cases op with
  | target op => cases op <;> first | rfl | exact absurd h (by simp [kind?, resultType])
  | _ => first | rfl | exact absurd h (by simp [kind?, resultType])

/-- Whether a generic operator takes operands of the given kinds. -/
def accepts : Operator → List Kind → Prop
  | state, ks | const _, ks | jump, ks => ks = []
  | updateState, ks => ks = [.state]
  | intBinary w _, ks | compare w _, ks => ks = [.number (.int w), .number (.int w)]
  | bitCount w _, ks | address w, ks => ks = [.number (.int w)]
  | floatBinary w _, ks => ks = [.number (.float w), .number (.float w)]
  | floatUnary w _, ks => ks = [.number (.float w)]
  | bool ty, ks | typedRet ty, ks => ks = [.number ty]
  | extend _, ks => ks = [.number .i32]
  | wrap, ks => ks = [.number .i64]
  | load _, ks => ks = [.state, .number .i64]
  | store op, ks => ks = [.state, .number .i64, .number op.type]
  | convert op, ks => ks = [.number op.operandType]
  | ret, ks => ks = [] ∨ ∃ ty, ks = [.number ty]
  | branch, ks => ∃ w, ks = [.number (.int w)]
  | target _, _ => False

instance (op : Operator) (ks : List Kind) : Decidable (op.accepts ks) :=
  match op with
  | state | const _ | jump => inferInstanceAs (Decidable (ks = []))
  | updateState => inferInstanceAs (Decidable (ks = [.state]))
  | intBinary w _ | compare w _ =>
    inferInstanceAs (Decidable (ks = [.number (.int w), .number (.int w)]))
  | bitCount w _ | address w => inferInstanceAs (Decidable (ks = [.number (.int w)]))
  | floatBinary w _ => inferInstanceAs (Decidable (ks = [.number (.float w), .number (.float w)]))
  | floatUnary w _ => inferInstanceAs (Decidable (ks = [.number (.float w)]))
  | bool ty | typedRet ty => inferInstanceAs (Decidable (ks = [.number ty]))
  | extend _ => inferInstanceAs (Decidable (ks = [.number .i32]))
  | wrap => inferInstanceAs (Decidable (ks = [.number .i64]))
  | load _ => inferInstanceAs (Decidable (ks = [.state, .number .i64]))
  | store op => inferInstanceAs (Decidable (ks = [.state, .number .i64, .number op.type]))
  | convert op => inferInstanceAs (Decidable (ks = [.number op.operandType]))
  | ret =>
    match ks with
    | [] => isTrue (.inl rfl)
    | [.number ty] => isTrue (.inr ⟨ty, rfl⟩)
    | [.state] | _ :: _ :: _ => isFalse (by simp [accepts])
  | branch =>
    match ks with
    | [.number (.int w)] => isTrue ⟨w, rfl⟩
    | [] | [.state] | [.number (.float _)] | _ :: _ :: _ => isFalse (by simp [accepts])
  | target _ => isFalse id

/-- Operators on integers, memory and control. -/
def isInteger : Operator → Bool
  | const ty | bool ty | typedRet ty => ty.isInt
  | load op => op.type.isInt
  | store op => op.type.isInt
  | floatBinary _ _ | floatUnary _ _ | convert _ | target _ => false
  | _ => true

/-- The number of successors that a terminator chooses from. -/
def successorCount : Operator → Nat
  | branch | target (.branchOn _) => 2
  | jump => 1
  | _ => 0

end Operator

namespace Graph

variable {g : Graph}

/-- The kind of the value of a node. -/
def kindOf? (g : Graph) (id : Nat) : Option Kind := (g.node? id).bind (·.op.kind?)

/-- Every node has operands of the kinds that its operator takes, and a constant has its literal. -/
def WellTyped (g : Graph) : Prop :=
  ∀ id n, g.node? id = some n →
    (∃ ks, List.Forall₂ (fun v k => g.kindOf? v = some k) n.inputs ks ∧ n.op.accepts ks) ∧
    (∀ ty, n.op = .const ty → n.literals ≠ [])

theorem forall₂_kindOf? {vs : List Nat} {ks : List Kind} :
    List.Forall₂ (fun v k => g.kindOf? v = some k) vs ks ↔
      (∀ v ∈ vs, (g.kindOf? v).isSome = true) ∧ vs.filterMap g.kindOf? = ks := by
  induction vs generalizing ks with
  | nil =>
      rw [List.forall₂_nil_left_iff]
      exact ⟨fun h => ⟨by simp, h.symm⟩, fun h => h.2.symm⟩
  | cons v vs ih =>
      rw [List.forall₂_cons_left_iff, List.forall_mem_cons]
      constructor
      · rintro ⟨k, ks', hk, hks, rfl⟩
        obtain ⟨hsome, rfl⟩ := ih.mp hks
        exact ⟨⟨by rw [hk]; rfl, hsome⟩, by rw [List.filterMap_cons_some hk]⟩
      · rintro ⟨⟨hv, hsome⟩, rfl⟩
        obtain ⟨k, hk⟩ := Option.isSome_iff_exists.mp hv
        rw [List.filterMap_cons_some hk]
        exact ⟨k, _, hk, ih.mpr ⟨hsome, rfl⟩, rfl⟩

instance (g : Graph) : Decidable g.WellTyped :=
  decidable_of_iff (∀ id < g.nodes.size, ∀ n ∈ g.node? id,
    ((∀ v ∈ n.inputs, (g.kindOf? v).isSome = true) ∧ n.op.accepts (n.inputs.filterMap g.kindOf?)) ∧
    ∀ ty ∈ ValueType.all, n.op = .const ty → n.literals ≠ []) <| by
  refine forall_node?.trans (forall₃_congr fun id n _ => and_congr ?_ ?_)
  · simp only [forall₂_kindOf?]
    exact ⟨fun ⟨hsome, h⟩ => ⟨_, ⟨hsome, rfl⟩, h⟩, fun ⟨_, ⟨hsome, heq⟩, h⟩ => ⟨hsome, heq ▸ h⟩⟩
  · refine ⟨fun h ty => h ty ?_, fun h ty _ => h ty⟩
    rcases ty with (_ | _) | (_ | _) <;> decide

/-- Every operator works on integers, memory or control. -/
def IsInteger (g : Graph) : Prop := ∀ id n, g.node? id = some n → n.op.isInteger = true

instance (g : Graph) : Decidable g.IsInteger :=
  decidable_of_iff (∀ id < g.nodes.size, ∀ n ∈ g.node? id, n.op.isInteger = true) forall_node?

/-- Every block has the successors that its terminator chooses from. -/
def Supplied (g : Graph) : Prop :=
  ∀ (id b : Nat) (n : Node) (block : Block), g.nodes[id]? = some ⟨b, n⟩ → g.block? b = some block →
    n.op.successorCount ≤ block.successors.length

instance (g : Graph) : Decidable g.Supplied :=
  decidable_of_iff (∀ id < g.nodes.size, ∀ p ∈ g.nodes[id]?, ∀ block ∈ g.block? p.block,
    p.node.op.successorCount ≤ block.successors.length) <| by
  constructor
  · intro h id b n block hn hblock
    exact h id (Array.getElem?_eq_some_iff.mp hn).1 ⟨b, n⟩ hn block hblock
  · exact fun h id _ p hp block hblock => h id p.block p.node block hp hblock

/-- A terminator finds each successor that it chooses from. -/
theorem exists_successor (hg : g.flaw? = none) (hs : g.Supplied) {id b k : Nat} {n : Node}
    (hn : g.nodes[id]? = some ⟨b, n⟩) (hk : k < n.op.successorCount) :
    ∃ c, (g.block? b).bind (·.successors[k]?) = some c ∧ c < g.blocks.size := by
  have hlt := blockOf?_lt (blockOf?_eq_some.mpr ⟨n, hn⟩)
  have hget : g.block? b = some g.blocks[b] := by
    rw [block?, Array.getElem?_eq_getElem hlt]
  have hcount := hs id b n _ hn hget
  have hlength : k < g.blocks[b].successors.length := by omega
  refine ⟨g.blocks[b].successors[k], ?_, ?_⟩
  · rw [hget, Option.bind_some, List.getElem?_eq_getElem hlength]
  · exact Edge.lt ⟨_, hget, List.getElem_mem hlength⟩ hg

end Graph

end Isel
