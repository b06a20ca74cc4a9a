import Mathlib.Data.Finset.Card
import Mathlib.Data.Finset.Range
import Mathlib.Logic.Function.Basic

/-!
# Tables with a lowest free slot

A table gives what is in a slot, if anything is.  `lowestFree` searches the first free
slot; what it finds for a table and for the tables it becomes is settled by counting the
free slots below a bound.
-/

namespace Fspy.Lib.Slots

/-- What is in the slots. -/
abbrev Table (α : Type) := Nat → Option α

variable {α : Type} {table : Table α} {n i k bound : Nat} {a : α}

/-- The first free of `k` slots, from the slot `n` on. -/
def lowestFree (table : Table α) : Nat → Nat → Option Nat
  | 0, _ => none
  | k + 1, n => if (table n).isNone then some n else lowestFree table k (n + 1)

theorem lowestFree_eq_some (h : lowestFree table k n = some i) :
    n ≤ i ∧ i < n + k ∧ table i = none ∧ ∀ j, n ≤ j → j < i → table j ≠ none := by
  induction k generalizing n with
  | zero => cases h
  | succ k ih =>
      rw [lowestFree] at h
      split at h
      · rename_i hfree
        cases h
        exact ⟨Nat.le_refl _, by omega, Option.isNone_iff_eq_none.mp hfree, fun j _ _ ↦ by omega⟩
      · rename_i htaken
        obtain ⟨hle, hlt, hfree, hbelow⟩ := ih h
        refine ⟨by omega, by omega, hfree, ?_⟩
        intro j hj hji
        by_cases hjn : j = n
        · rintro hnone
          rw [hjn] at hnone
          exact htaken (Option.isNone_iff_eq_none.mpr hnone)
        · exact hbelow j (by omega) hji

/-- The free slots below a bound. -/
def free (table : Table α) (bound : Nat) : Finset Nat :=
  (Finset.range bound).filter fun i ↦ (table i).isNone

/-- Their number. -/
def freeBelow (table : Table α) (bound : Nat) : Nat := (free table bound).card

@[simp] theorem mem_free : i ∈ free table bound ↔ i < bound ∧ table i = none := by
  simp [free]

/-- Taking a slot below the bound leaves one free slot less. -/
theorem freeBelow_take (h : table i = none) (hi : i < bound) :
    freeBelow (Function.update table i (some a)) bound + 1 = freeBelow table bound := by
  have herase : free (Function.update table i (some a)) bound = (free table bound).erase i := by
    ext j
    rw [Finset.mem_erase, mem_free, mem_free]
    by_cases hj : j = i
    · subst hj
      simp
    · rw [Function.update_of_ne hj]
      simp [hj]
  rw [freeBelow, herase]
  exact Finset.card_erase_add_one (mem_free.mpr ⟨hi, h⟩)

/-- Giving one back leaves one more. -/
theorem freeBelow_release (h : table i ≠ none) (hi : i < bound) :
    freeBelow (Function.update table i none) bound = freeBelow table bound + 1 := by
  have hinsert : free (Function.update table i none) bound = insert i (free table bound) := by
    ext j
    rw [Finset.mem_insert, mem_free, mem_free]
    by_cases hj : j = i
    · subst hj
      simp [hi]
    · rw [Function.update_of_ne hj]
      simp [hj]
  rw [freeBelow, hinsert]
  exact Finset.card_insert_of_notMem fun hmem ↦ h (mem_free.mp hmem).2

/-- What is in the slots from the bound on does not matter. -/
theorem freeBelow_update_of_le (hi : bound ≤ i) (slot : Option α) :
    freeBelow (Function.update table i slot) bound = freeBelow table bound := by
  have heq : free (Function.update table i slot) bound = free table bound := by
    ext j
    rw [mem_free, mem_free]
    apply and_congr_right
    intro hj
    rw [Function.update_of_ne (by omega)]
  rw [freeBelow, heq, freeBelow]

/-- The lowest free slot is below a bound if any slot is. -/
theorem lowestFree_lt_iff (h : lowestFree table k 0 = some i) :
    i < bound ↔ 0 < freeBelow table bound := by
  obtain ⟨-, -, hfree, hbelow⟩ := lowestFree_eq_some h
  rw [freeBelow, Finset.card_pos]
  constructor
  · exact fun hi ↦ ⟨i, mem_free.mpr ⟨hi, hfree⟩⟩
  · rintro ⟨j, hj⟩
    obtain ⟨hj, hnone⟩ := mem_free.mp hj
    by_contra hi
    exact hbelow j (Nat.zero_le j) (by omega) hnone

/-- Taking the lowest free slot leaves one free slot less, if there was any. -/
theorem freeBelow_takeLowest (a : α) (bound : Nat) (h : lowestFree table k 0 = some i) :
    freeBelow (Function.update table i (some a)) bound = freeBelow table bound - 1 := by
  obtain ⟨-, -, hfree, -⟩ := lowestFree_eq_some h
  by_cases hi : i < bound
  · have htake := freeBelow_take (a := a) hfree hi
    omega
  · have hnone : ¬0 < freeBelow table bound := fun hpos ↦ hi ((lowestFree_lt_iff h).mpr hpos)
    rw [freeBelow_update_of_le (Nat.not_lt.mp hi)]
    omega

end Fspy.Lib.Slots
