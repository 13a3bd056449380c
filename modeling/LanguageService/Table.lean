namespace LanguageService

structure Table (α : Type) where
  slots : Array (Option α)

namespace Table

variable {α : Type}

def empty : Table α := ⟨#[]⟩

def get? (t : Table α) (i : Nat) : Option α := (t.slots[i]?).join

def contains (t : Table α) (i : Nat) : Bool := (t.get? i).isSome

def put (t : Table α) (i : Nat) (a : Option α) : Table α :=
  if i < t.slots.size then ⟨t.slots.setIfInBounds i a⟩
  else ⟨(t.slots ++ Array.replicate (i - t.slots.size) none).push a⟩

def insert (t : Table α) (i : Nat) (a : α) : Table α := t.put i (some a)

def erase (t : Table α) (i : Nat) : Table α := t.put i none

@[simp]
theorem get?_empty (i : Nat) : (empty : Table α).get? i = none := rfl

theorem get?_put (t : Table α) (i j : Nat) (a : Option α) :
    (t.put i a).get? j = if i = j then a else t.get? j := by
  unfold put get?
  split
  · rename_i h
    rw [Array.getElem?_setIfInBounds]
    by_cases hij : i = j
    · subst hij; simp [h]
    · simp [hij]
  · rename_i h
    have hi : (t.slots ++ Array.replicate (i - t.slots.size) none).size = i := by
      simp; omega
    rw [Array.getElem?_push, hi]
    by_cases hij : i = j
    · subst hij; simp
    · rw [if_neg (Ne.symm hij), if_neg hij, Array.getElem?_append]
      split
      · rfl
      · rename_i hj
        have hnone : t.slots[j]? = none := Array.getElem?_eq_none (by omega)
        rw [hnone, Array.getElem?_replicate]
        split <;> rfl

@[simp]
theorem get?_insert (t : Table α) (i j : Nat) (a : α) :
    (t.insert i a).get? j = if i = j then some a else t.get? j := get?_put t i j (some a)

@[simp]
theorem get?_erase (t : Table α) (i j : Nat) :
    (t.erase i).get? j = if i = j then none else t.get? j := get?_put t i j none

def toList (t : Table α) : List (Nat × α) :=
  (List.range t.slots.size).filterMap fun i => (t.get? i).map fun a => (i, a)

def size (t : Table α) : Nat := t.toList.length

end Table

end LanguageService
