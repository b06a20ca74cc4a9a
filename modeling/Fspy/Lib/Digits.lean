import Mathlib.Data.List.Basic

/-!
# Numbers written in digits

A name made of numbers tells them apart: the digits of a number determine it, and there
is no underscore among them, so an underscore separates two numbers.
-/

namespace Fspy.Lib

variable {b n m : Nat}

theorem digitChar_inj : ∀ n < 16, ∀ m < 16, n.digitChar = m.digitChar → n = m := by decide

theorem underscore_ne_digitChar : ∀ n < 16, '_' ≠ n.digitChar := by decide

theorem underscore_not_mem_toDigits (hb : 1 < b) (hb' : b ≤ 16) : '_' ∉ Nat.toDigits b n := by
  induction n using Nat.strongRecOn with
  | _ n ih =>
      rw [Nat.toDigits_eq_if hb]
      split
      · rename_i hlt
        rw [List.mem_singleton]
        exact underscore_ne_digitChar n (by omega)
      · rename_i hge
        have hmod : n % b < b := Nat.mod_lt _ (by omega)
        rw [List.mem_append, List.mem_singleton]
        rintro (hmem | heq)
        · exact ih (n / b) (Nat.div_lt_self (by omega) hb) hmem
        · exact underscore_ne_digitChar (n % b) (by omega) heq

/-- Two digits and one are different. -/
theorem toDigits_append_ne_singleton (c d : Char) : Nat.toDigits b n ++ [c] ≠ [d] := by
  intro h
  have hlen := congrArg List.length h
  have hpos : 0 < (Nat.toDigits b n).length := Nat.length_toDigits_pos
  simp only [List.length_append, List.length_singleton] at hlen
  omega

theorem toDigits_injective (hb : 1 < b) (hb' : b ≤ 16)
    (h : Nat.toDigits b n = Nat.toDigits b m) : n = m := by
  induction n using Nat.strongRecOn generalizing m with
  | _ n ih =>
      rw [Nat.toDigits_eq_if hb, Nat.toDigits_eq_if (n := m) hb] at h
      split at h
      · split at h
        · exact digitChar_inj n (by omega) m (by omega) (List.cons.inj h).1
        · exact absurd h.symm (toDigits_append_ne_singleton _ _)
      · split at h
        · exact absurd h (toDigits_append_ne_singleton _ _)
        · have hn : n % b < b := Nat.mod_lt _ (by omega)
          have hm : m % b < b := Nat.mod_lt _ (by omega)
          obtain ⟨hdiv, hmod⟩ := List.append_inj' h rfl
          have hquot := ih (n / b) (Nat.div_lt_self (by omega) hb) hdiv
          have hrem := digitChar_inj _ (by omega) _ (by omega) (List.cons.inj hmod).1
          calc
            n = b * (n / b) + n % b := (Nat.div_add_mod n b).symm
            _ = b * (m / b) + m % b := by rw [hquot, hrem]
            _ = m := Nat.div_add_mod m b

/-- Two lists with a separator that stands nowhere before it are split in one way. -/
theorem append_cons_inj {α : Type} {sep : α} {as bs xs ys : List α} (has : sep ∉ as)
    (hbs : sep ∉ bs) (h : as ++ sep :: xs = bs ++ sep :: ys) : as = bs ∧ xs = ys := by
  induction as generalizing bs with
  | nil =>
      cases bs with
      | nil => exact ⟨rfl, (List.cons.inj h).2⟩
      | cons b bs =>
          obtain ⟨rfl, -⟩ := List.cons.inj h
          exact absurd List.mem_cons_self hbs
  | cons a as ih =>
      cases bs with
      | nil =>
          obtain ⟨rfl, -⟩ := List.cons.inj h
          exact absurd List.mem_cons_self has
      | cons b bs =>
          obtain ⟨rfl, htail⟩ := List.cons.inj h
          obtain ⟨rfl, hrest⟩ := ih (fun hmem ↦ has (List.mem_cons_of_mem _ hmem))
            (fun hmem ↦ hbs (List.mem_cons_of_mem _ hmem)) htail
          exact ⟨rfl, hrest⟩

end Fspy.Lib
