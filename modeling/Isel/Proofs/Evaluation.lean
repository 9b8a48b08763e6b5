import Isel.Graph.Basic
import Isel.Machine.Step
import Mathlib.Data.List.Forall2

/-! Running a graph. A run goes through the blocks from a given one on; within a block it takes the
nodes in order, gives each the value that its operator has for the values of its inputs, and leaves
the block as the terminator says. What values are, and how operators compute on them and on memory,
is a parameter: a `Meaning`. -/

namespace Isel

/-- How a run stops without returning. -/
inductive Halt
  /-- A trap, and memory as it is then. -/
  | trapped (t : Trap) (memory : Array Byte)
  /-- Something without a meaning: an operand that has no value, or operands of the wrong kind. -/
  | stuck
deriving DecidableEq, Repr

def orStuck {α : Type} (x : Option α) : Except Halt α :=
  match x with
  | some a => .ok a
  | none => .error .stuck

@[simp] theorem orStuck_eq_ok {α : Type} {x : Option α} {a : α} :
    orStuck x = .ok a ↔ x = some a := by
  cases x <;> simp [orStuck]

theorem bind_eq_ok {ε α β : Type} {x : Except ε α} {f : α → Except ε β} {b : β} :
    (x >>= f) = .ok b ↔ ∃ a, x = .ok a ∧ f a = .ok b := by
  cases x <;> simp [bind, Except.bind]

theorem map_eq_ok {ε α β : Type} {x : Except ε α} {f : α → β} {b : β} :
    x.map f = .ok b ↔ ∃ a, x = .ok a ∧ f a = b := by
  cases x <;> simp [Except.map]

theorem toOption_eq_some {ε α : Type} {x : Except ε α} {v : α} : x.toOption = some v ↔ x = .ok v := by
  cases x <;> simp [Except.toOption]

theorem mapM_eq_ok {ε α β : Type} {f : α → Except ε β} {xs : List α} {ys : List β} :
    xs.mapM f = .ok ys ↔ List.Forall₂ (fun x y => f x = .ok y) xs ys := by
  induction xs generalizing ys with
  | nil =>
      rw [List.mapM_nil, List.forall₂_nil_left_iff]
      exact ⟨fun h => (Except.ok.inj h).symm, fun h => h ▸ rfl⟩
  | cons x xs ih =>
      rw [List.mapM_cons, bind_eq_ok, List.forall₂_cons_left_iff]
      constructor
      · rintro ⟨y, hy, hrest⟩
        obtain ⟨zs, hzs, hcons⟩ := bind_eq_ok.mp hrest
        exact ⟨y, zs, hy, ih.mp hzs, (Except.ok.inj hcons).symm⟩
      · rintro ⟨y, zs, hy, hzs, rfl⟩
        exact ⟨y, hy, bind_eq_ok.mpr ⟨zs, ih.mpr hzs, rfl⟩⟩

/-- Where the results are those of a function, the list of results is its map. -/
theorem map_of_mapM_eq_ok {ε α β : Type} {f : α → Except ε β} {g : α → β} {xs : List α} {ys : List β}
    (h : xs.mapM f = .ok ys) (hg : ∀ x ∈ xs, ∀ y, f x = .ok y → g x = y) :
    ys = xs.map g ∧ ∀ x ∈ xs, f x = .ok (g x) := by
  rw [mapM_eq_ok] at h
  induction h with
  | nil => exact ⟨rfl, fun x hx => absurd hx List.not_mem_nil⟩
  | @cons x y xs ys hxy _ ih =>
      obtain ⟨hys, hall⟩ := ih fun z hz => hg z (List.mem_cons_of_mem x hz)
      have hx := hg x List.mem_cons_self y hxy
      refine ⟨by rw [List.map_cons, hx, hys], fun z hz => ?_⟩
      rcases List.mem_cons.mp hz with rfl | hz
      · rw [hx]
        exact hxy
      · exact hall z hz

theorem mapM_congr {ε α β : Type} {f g : α → Except ε β} {xs : List α}
    (h : ∀ x ∈ xs, f x = g x) : xs.mapM f = xs.mapM g := by
  induction xs with
  | nil => rfl
  | cons x xs ih =>
      rw [List.mapM_cons, List.mapM_cons, h x List.mem_cons_self,
        ih fun y hy => h y (List.mem_cons_of_mem x hy)]

theorem exists_of_forall₂_right {α β : Type} {R : α → β → Prop} {xs : List α} {ys : List β} {y : β}
    (h : List.Forall₂ R xs ys) (hy : y ∈ ys) : ∃ x ∈ xs, R x y := by
  induction h with
  | nil => exact absurd hy List.not_mem_nil
  | @cons x z xs ys hxz _ ih =>
      rcases List.mem_cons.mp hy with rfl | hy
      · exact ⟨x, List.mem_cons_self, hxz⟩
      · obtain ⟨w, hw, hwy⟩ := ih hy
        exact ⟨w, List.mem_cons_of_mem x hw, hwy⟩

/-- How control leaves a block. -/
inductive Exit (α : Type)
  /-- To the successor with this number. -/
  | goto (index : Nat)
  | leave (value : Option α)
deriving DecidableEq, Repr

/-- How operators compute on values of a type. -/
structure Meaning (α : Type) where
  /-- The value of a node from the values of its inputs, with memory after it. -/
  compute : Node → List α → Array Byte → Except Halt (Option α × Array Byte)
  /-- Where a terminator leads. -/
  exit : Node → List α → Except Halt (Exit α)

/-- The values that nodes have, and memory. -/
structure Env (α : Type) where
  values : Nat → Option α
  memory : Array Byte

namespace Env

variable {α : Type}

/-- Nothing has a value yet. -/
def start (memory : Array Byte) : Env α := { values := fun _ => none, memory }

def set (e : Env α) (id : Nat) (v : Option α) (memory : Array Byte) : Env α where
  values := fun i => if i = id then v else e.values i
  memory := memory

/-- The values of the inputs of a node. -/
def operands (e : Env α) (n : Node) : Except Halt (List α) :=
  n.inputs.mapM fun v => orStuck (e.values v)

theorem operands_eq_ok {e : Env α} {n : Node} {xs : List α} :
    e.operands n = .ok xs ↔ List.Forall₂ (fun v x => e.values v = some x) n.inputs xs := by
  simp only [operands, mapM_eq_ok, orStuck_eq_ok]

@[simp] theorem set_memory (e : Env α) (id : Nat) (v : Option α) (memory : Array Byte) :
    (e.set id v memory).memory = memory := rfl

@[simp] theorem set_values_self (e : Env α) (id : Nat) (v : Option α) (memory : Array Byte) :
    (e.set id v memory).values id = v := if_pos rfl

theorem set_values_of_ne (e : Env α) {id i : Nat} (h : i ≠ id) (v : Option α)
    (memory : Array Byte) : (e.set id v memory).values i = e.values i := if_neg h

/-- Operands other than the node that gets a value are the same afterwards. -/
theorem operands_set_of_notMem {e : Env α} {n : Node} {id : Nat} (h : id ∉ n.inputs)
    (v : Option α) (memory : Array Byte) : (e.set id v memory).operands n = e.operands n := by
  refine mapM_congr fun i hi => ?_
  have hne : i ≠ id := fun heq => h (heq ▸ hi)
  rw [set_values_of_ne e hne]

end Env

/-- Where a run has come to. -/
inductive Outcome (α : Type)
  /-- In front of a block. -/
  | running (block : Nat) (e : Env α)
  | returned (value : Option α) (memory : Array Byte)
  | halted (h : Halt)

/-- Two runs have come to the same: both stand in front of the same block, both have returned with
values that are in relation, or both have trapped. Unless they have trapped, the memory of the second
is what `view` makes of the memory of the first. Which of the traps of a block comes first, and what is
stored before it, can depend on the order of its nodes. -/
inductive Outcome.Agrees {α β : Type} (R : α → β → Prop) (view : Array Byte → Array Byte) :
    Outcome α → Outcome β → Prop
  | running {b : Nat} {e : Env α} {f : Env β} (memory : f.memory = view e.memory) :
      Agrees R view (.running b e) (.running b f)
  | returned {v : Option α} {w : Option β} {memory : Array Byte} (value : Option.Rel R v w) :
      Agrees R view (.returned v memory) (.returned w (view memory))
  | trapped {t u : Trap} {memory₁ memory₂ : Array Byte} :
      Agrees R view (.halted (.trapped t memory₁)) (.halted (.trapped u memory₂))

theorem Outcome.Agrees.trans_eq {α β : Type} {R : α → β → Prop} {view : Array Byte → Array Byte}
    {a : Outcome α} {b c : Outcome β} (h : Agrees R view a b) (h' : Agrees (· = ·) id b c) :
    Agrees R view a c := by
  cases h with
  | running hmemory =>
      cases h' with
      | running hmemory' => exact .running (hmemory'.trans hmemory)
  | returned hvalue =>
      cases h' with
      | returned hvalue' =>
          refine .returned ?_
          cases hvalue with
          | none =>
              cases hvalue'
              exact .none
          | some hab =>
              cases hvalue' with
              | some heq => exact .some (heq ▸ hab)
  | trapped =>
      cases h'
      exact .trapped

namespace Meaning

variable {α : Type} (M : Meaning α)

/-- Gives a node its value. -/
def execNode (e : Env α) (id : Nat) (n : Node) : Except Halt (Env α) := do
  let xs ← e.operands n
  let (v, memory) ← M.compute n xs e.memory
  return e.set id v memory

/-- Runs nodes up to the terminator. -/
def execNodes (node? : Nat → Option Node) : List Nat → Env α → Except Halt (Env α × Exit α)
  | [], _ => .error .stuck
  | id :: ids, e =>
    match node? id with
    | none => .error .stuck
    | some n =>
      if n.op.isTerminator then do
        let xs ← e.operands n
        return (e, ← M.exit n xs)
      else do
        let e ← M.execNode e id n
        execNodes node? ids e

/-- Runs nodes none of which is a terminator. -/
def execBody (node? : Nat → Option Node) : List Nat → Env α → Except Halt (Env α)
  | [], e => .ok e
  | id :: ids, e => do
    let n ← orStuck (node? id)
    let e ← M.execNode e id n
    execBody node? ids e

/-- The blocks that a run enters from block `b` on, at most `fuel` of them, and where it has come
to then. -/
def runFrom (g : Graph) : Nat → Nat → Env α → List Nat × Outcome α
  | 0, b, e => ([], .running b e)
  | fuel + 1, b, e =>
    match M.execNodes g.node? (g.members b) e with
    | .error h => ([b], .halted h)
    | .ok (e, .leave v) => ([b], .returned v e.memory)
    | .ok (e, .goto k) =>
      match (g.block? b).bind (·.successors[k]?) with
      | none => ([b], .halted .stuck)
      | some c =>
        let (blocks, outcome) := runFrom g fuel c e
        (b :: blocks, outcome)

/-- A run from the first block. -/
def run (g : Graph) (fuel : Nat) (memory : Array Byte) : List Nat × Outcome α :=
  M.runFrom g fuel 0 (.start memory)

variable {M} {node? : Nat → Option Node}

theorem execNode_eq_ok {e e' : Env α} {id : Nat} {n : Node} :
    M.execNode e id n = .ok e' ↔ ∃ xs v memory, e.operands n = .ok xs ∧
      M.compute n xs e.memory = .ok (v, memory) ∧ e' = e.set id v memory := by
  simp only [execNode, bind_eq_ok, Prod.exists]
  constructor
  · rintro ⟨xs, hxs, v, memory, hcompute, heq⟩
    exact ⟨xs, v, memory, hxs, hcompute, (Except.ok.inj heq).symm⟩
  · rintro ⟨xs, v, memory, hxs, hcompute, rfl⟩
    exact ⟨xs, hxs, v, memory, hcompute, rfl⟩

theorem execNode_of_operands {e : Env α} {id : Nat} {n : Node} {xs : List α}
    (h : e.operands n = .ok xs) :
    M.execNode e id n = (M.compute n xs e.memory).map fun r => e.set id r.1 r.2 := by
  rw [execNode, h]
  change (M.compute n xs e.memory >>= _) = _
  cases M.compute n xs e.memory <;> rfl

theorem execBody_cons_eq_ok {e e' : Env α} {id : Nat} {ids : List Nat} :
    M.execBody node? (id :: ids) e = .ok e' ↔ ∃ n e₁, node? id = some n ∧
      M.execNode e id n = .ok e₁ ∧ M.execBody node? ids e₁ = .ok e' := by
  simp only [execBody, bind_eq_ok, orStuck_eq_ok]
  constructor
  · rintro ⟨n, hn, e₁, hfirst, hrest⟩
    exact ⟨n, e₁, hn, hfirst, hrest⟩
  · rintro ⟨n, e₁, hn, hfirst, hrest⟩
    exact ⟨n, hn, e₁, hfirst, hrest⟩

/-- Running nodes changes no other values. -/
theorem values_of_execBody {e e' : Env α} {ids : List Nat} {i : Nat}
    (h : M.execBody node? ids e = .ok e') (hi : i ∉ ids) : e'.values i = e.values i := by
  induction ids generalizing e with
  | nil => rw [Except.ok.inj h]
  | cons id ids ih =>
      obtain ⟨n, e₁, -, hfirst, hrest⟩ := execBody_cons_eq_ok.mp h
      obtain ⟨xs, v, memory, -, -, rfl⟩ := execNode_eq_ok.mp hfirst
      obtain ⟨hne, hi⟩ := not_or.mp (List.mem_cons.not.mp hi)
      rw [ih hrest hi, Env.set_values_of_ne e hne]

theorem execBody_append {front back : List Nat} {e : Env α} :
    M.execBody node? (front ++ back) e = M.execBody node? front e >>= M.execBody node? back := by
  induction front generalizing e with
  | nil => rfl
  | cons id front ih =>
      simp only [List.cons_append, execBody, bind_assoc, ih]

/-- A block of computations and a terminator. -/
theorem execNodes_append {body : List Nat} {id : Nat} {n : Node} {e : Env α}
    (hbody : ∀ i ∈ body, ∃ m, node? i = some m ∧ m.op.isTerminator = false)
    (hn : node? id = some n) (ht : n.op.isTerminator = true) :
    M.execNodes node? (body ++ [id]) e = do
      let e ← M.execBody node? body e
      let xs ← e.operands n
      return (e, ← M.exit n xs) := by
  induction body generalizing e with
  | nil =>
      simp only [List.nil_append, execNodes, hn, ht, if_true, execBody]
      rfl
  | cons i body ih =>
      obtain ⟨m, hm, hterm⟩ := hbody i List.mem_cons_self
      have hrest := fun e => @ih e fun j hj => hbody j (List.mem_cons_of_mem i hj)
      simp only [List.cons_append, execNodes, hm, hterm, execBody, Bool.false_eq_true, if_false,
        hrest, bind_assoc]
      rfl

variable {g : Graph} {fuel b : Nat} {e e' : Env α}

theorem runFrom_error {h : Halt} (hrun : M.execNodes g.node? (g.members b) e = .error h) :
    M.runFrom g (fuel + 1) b e = ([b], .halted h) := by
  rw [runFrom, hrun]

theorem runFrom_leave {v : Option α}
    (hrun : M.execNodes g.node? (g.members b) e = .ok (e', .leave v)) :
    M.runFrom g (fuel + 1) b e = ([b], .returned v e'.memory) := by
  rw [runFrom, hrun]

theorem runFrom_goto {k c : Nat} (hrun : M.execNodes g.node? (g.members b) e = .ok (e', .goto k))
    (hc : (g.block? b).bind (·.successors[k]?) = some c) :
    M.runFrom g (fuel + 1) b e
      = (b :: (M.runFrom g fuel c e').1, (M.runFrom g fuel c e').2) := by
  simp only [runFrom, hrun, hc]

end Meaning

/-- The number that `n` bytes stand for, if they are there. -/
def readBytes? (bytes : Array Byte) (start n : Nat) : Option Nat :=
  if start + n ≤ bytes.size then some (littleEndian (bytes.extract start (start + n)).toList)
  else none

/-- Replaces `n` bytes by the low bytes of a number, if they are there. -/
def replaceBytes? (bytes : Array Byte) (start n value : Nat) : Option (Array Byte) :=
  if start + n ≤ bytes.size then some (writeBytes bytes start (bytesOf n value)) else none

end Isel
