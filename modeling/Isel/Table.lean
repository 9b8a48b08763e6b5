/-! Finite maps as lists of keys with values. -/

namespace Isel

/-- A finite map. -/
structure Table (α β : Type) where
  entries : List (α × β) := []
deriving DecidableEq, Repr

namespace Table

variable {α β : Type} [DecidableEq α]

def get? (t : Table α β) (k : α) : Option β := (t.entries.find? (·.1 = k)).map Prod.snd

def contains (t : Table α β) (k : α) : Bool := (t.get? k).isSome

/-- Sets the value of a key, in place of an earlier one. -/
def set (t : Table α β) (k : α) (v : β) : Table α β := ⟨(k, v) :: t.entries.filter (·.1 ≠ k)⟩

/-- Sets the value of a key that has none. -/
def setIfNew (t : Table α β) (k : α) (v : β) : Table α β := if t.contains k then t else t.set k v

@[simp] theorem get?_empty (k : α) : ({} : Table α β).get? k = none := rfl

theorem get?_set (t : Table α β) (k j : α) (v : β) :
    (t.set k v).get? j = if j = k then some v else t.get? j := by
  simp only [get?, set, List.find?_cons, List.find?_filter]
  by_cases h : j = k
  · subst h
    simp
  · have hk : ¬k = j := fun heq => h heq.symm
    have hfind : (fun e : α × β => decide (decide (e.1 ≠ k) = true ∧ decide (e.1 = j) = true))
        = fun e => decide (e.1 = j) := by
      funext e
      by_cases he : e.1 = j
      · simp [he, h]
      · simp [he]
    simp only [hk, decide_false, hfind, if_neg h]

@[simp] theorem get?_set_self (t : Table α β) (k : α) (v : β) : (t.set k v).get? k = some v := by
  rw [get?_set, if_pos rfl]

theorem get?_set_of_ne (t : Table α β) {k j : α} (v : β) (h : j ≠ k) :
    (t.set k v).get? j = t.get? j := by
  rw [get?_set, if_neg h]

theorem get?_setIfNew (t : Table α β) (k j : α) (v : β) :
    (t.setIfNew k v).get? j = if j = k then some ((t.get? k).getD v) else t.get? j := by
  unfold setIfNew contains
  cases hk : t.get? k with
  | none => simp [get?_set]
  | some u =>
      by_cases h : j = k
      · subst h
        simp [hk]
      · simp [h]

end Table

end Isel
