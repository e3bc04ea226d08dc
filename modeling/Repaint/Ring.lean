/-!
# Rings

A ring holds a fixed number of values. A new value takes the place of the oldest one, so the place of the
value of a given age is found by counting back from the newest, around the end.
-/

namespace Repaint

/-- A fixed number of values, of which the one at place `newest` came last. -/
structure Ring (α : Type) where
  /-- The values, in places that never move. -/
  slots : List α
  /-- The place of the newest value. -/
  newest : Nat
  /-- There is a value at that place. -/
  newest_lt : newest < slots.length
deriving DecidableEq

namespace Ring

variable {α : Type}

/-- A ring of `extra + 1` copies of a value. -/
def replicate (extra : Nat) (a : α) : Ring α := ⟨List.replicate (extra + 1) a, 0, by simp⟩

/-- The number of values. -/
def capacity (r : Ring α) : Nat := r.slots.length

theorem capacity_pos (r : Ring α) : 0 < r.slots.length := Nat.zero_lt_of_lt r.newest_lt

/-- The place of the value that is `age` steps older than the newest. -/
def slotOf (r : Ring α) (age : Nat) : Nat :=
  (r.newest + r.slots.length - age) % r.slots.length

theorem slotOf_lt (r : Ring α) (age : Nat) : r.slotOf age < r.slots.length :=
  Nat.mod_lt _ r.capacity_pos

/-- The value that is `age` steps older than the newest. -/
def get (r : Ring α) (age : Nat) : α := r.slots.get ⟨r.slotOf age, r.slotOf_lt age⟩

/-- The place of the oldest value, which the next one takes. -/
def nextSlot (r : Ring α) : Nat := (r.newest + 1) % r.slots.length

theorem nextSlot_lt (r : Ring α) : r.nextSlot < r.slots.length := Nat.mod_lt _ r.capacity_pos

/-- The oldest value. -/
def oldest (r : Ring α) : α := r.slots.get ⟨r.nextSlot, r.nextSlot_lt⟩

/-- The ring with another newest value. -/
def replaceNewest (r : Ring α) (a : α) : Ring α :=
  ⟨r.slots.set r.newest a, r.newest, by simpa using r.newest_lt⟩

/-- The ring with a new value in the place of the oldest. -/
def push (r : Ring α) (a : α) : Ring α :=
  ⟨r.slots.set r.nextSlot a, r.nextSlot, by simpa using r.nextSlot_lt⟩

/-! ## What the operations do to the values of every age -/

@[simp] theorem capacity_replicate (extra : Nat) (a : α) :
    (replicate extra a).capacity = extra + 1 := by
  simp [capacity, replicate]

@[simp] theorem capacity_replaceNewest (r : Ring α) (a : α) :
    (r.replaceNewest a).capacity = r.capacity := by
  simp [capacity, replaceNewest]

@[simp] theorem capacity_push (r : Ring α) (a : α) : (r.push a).capacity = r.capacity := by
  simp [capacity, push]

/-- The place that the next value takes is the one of the greatest age. -/
theorem nextSlot_eq_slotOf (r : Ring α) : r.nextSlot = r.slotOf (r.capacity - 1) := by
  have hn := r.newest_lt
  unfold nextSlot slotOf capacity
  congr 1
  omega

/-- The oldest value is the one of the greatest age. -/
theorem oldest_eq_get (r : Ring α) : r.oldest = r.get (r.capacity - 1) := by
  simp [oldest, get, r.nextSlot_eq_slotOf]

/-- Two different ages below the capacity are two different places. -/
theorem slotOf_inj (r : Ring α) {a b : Nat} (ha : a < r.capacity) (hb : b < r.capacity)
    (h : r.slotOf a = r.slotOf b) : a = b := by
  have hn := r.newest_lt
  unfold slotOf capacity at *
  have split (c : Nat) (hc : c < r.slots.length) :
      (r.newest + r.slots.length - c) % r.slots.length
        = if c ≤ r.newest then r.newest - c else r.newest + r.slots.length - c := by
    split
    · rw [show r.newest + r.slots.length - c = r.newest - c + r.slots.length from by omega,
        Nat.add_mod_right, Nat.mod_eq_of_lt (by omega)]
    · exact Nat.mod_eq_of_lt (by omega)
  rw [split a ha, split b hb] at h
  split at h <;> split at h <;> omega

theorem slotOf_zero (r : Ring α) : r.slotOf 0 = r.newest := by
  simp [slotOf, Nat.mod_eq_of_lt r.newest_lt]

@[simp] theorem get_replicate (extra : Nat) (a : α) (age : Nat) :
    (replicate extra a).get age = a := by
  simp [get, replicate]

/-- The newest value after it was replaced. -/
@[simp] theorem get_replaceNewest_zero (r : Ring α) (a : α) : (r.replaceNewest a).get 0 = a := by
  have h : (r.replaceNewest a).slotOf 0 = r.newest := slotOf_zero _
  simp [get, h]
  simp [replaceNewest]

/-- Replacing the newest value changes no older one. -/
theorem get_replaceNewest (r : Ring α) (a : α) {age : Nat} (hpos : 0 < age)
    (hage : age < r.capacity) : (r.replaceNewest a).get age = r.get age := by
  have hslot : (r.replaceNewest a).slotOf age = r.slotOf age := by
    simp [slotOf, replaceNewest]
  have hne : r.newest ≠ r.slotOf age := by
    rw [← r.slotOf_zero]
    intro h
    exact absurd (r.slotOf_inj r.capacity_pos hage h) (by omega)
  simp only [get, List.get_eq_getElem, hslot]
  simp [replaceNewest, hne]

/-- A pushed value is the newest. -/
@[simp] theorem get_push_zero (r : Ring α) (a : α) : (r.push a).get 0 = a := by
  have h : (r.push a).slotOf 0 = r.nextSlot := slotOf_zero _
  simp [get, h]
  simp [push]

/-- A push makes every value but the oldest one step older. -/
theorem get_push_succ (r : Ring α) (a : α) {age : Nat} (h : age + 1 < r.capacity) :
    (r.push a).get (age + 1) = r.get age := by
  have hn := r.newest_lt
  have hcap : age + 1 < r.slots.length := h
  have hslot : (r.push a).slotOf (age + 1) = r.slotOf age := by
    simp only [slotOf, push, nextSlot, List.length_set]
    by_cases hwrap : r.newest + 1 < r.slots.length
    · rw [Nat.mod_eq_of_lt hwrap]
      congr 1
      omega
    · have hlast : r.newest + 1 = r.slots.length := by omega
      rw [hlast, Nat.mod_self, Nat.zero_add, Nat.mod_eq_of_lt (by omega),
        show r.newest + r.slots.length - age = r.newest - age + r.slots.length from by omega,
        Nat.add_mod_right, Nat.mod_eq_of_lt (by omega)]
      omega
  have hne : r.nextSlot ≠ r.slotOf age := by
    rw [r.nextSlot_eq_slotOf]
    intro heq
    have := r.slotOf_inj (by have := r.capacity_pos; unfold capacity; omega) (by omega) heq
    omega
  simp only [get, List.get_eq_getElem, hslot]
  simp [push, hne]

end Ring

end Repaint
