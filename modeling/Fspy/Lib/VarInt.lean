import Mathlib.Algebra.Ring.Nat
import Mathlib.Data.List.Basic

/-!
# Integers of variable length

A number below 251 is one byte.  A larger one is a byte that tells a width, and the
number itself in so many bytes, the lowest first.  Both directions are given for
numbers below `2 ^ 64`; what is decoded does not depend on what follows.
-/

namespace Fspy.Lib.VarInt

/-- The lowest `k` bytes of a number. -/
def leBytes : Nat → Nat → List UInt8
  | 0, _ => []
  | k + 1, n => UInt8.ofNat n :: leBytes k (n / 256)

/-- The number of some bytes. -/
def ofLe : List UInt8 → Nat
  | [] => 0
  | b :: bs => b.toNat + 256 * ofLe bs

@[simp] theorem length_leBytes (k n : Nat) : (leBytes k n).length = k := by
  induction k generalizing n with
  | zero => rfl
  | succ k ih => rw [leBytes, List.length_cons, ih]

theorem ofLe_leBytes {k n : Nat} (h : n < 256 ^ k) : ofLe (leBytes k n) = n := by
  induction k generalizing n with
  | zero =>
      have hn : n = 0 := by simpa using h
      rw [hn]
      rfl
  | succ k ih =>
      have hdiv : n / 256 < 256 ^ k := by
        rw [Nat.pow_succ] at h
        omega
      rw [leBytes, ofLe, ih hdiv, UInt8.toNat_ofNat']
      omega

def encode (n : Nat) : List UInt8 :=
  if n < 251 then [UInt8.ofNat n]
  else if n < 2 ^ 16 then 251 :: leBytes 2 n
  else if n < 2 ^ 32 then 252 :: leBytes 4 n
  else 253 :: leBytes 8 n

/-- The width that a first byte tells. -/
def width (b : UInt8) : Option Nat :=
  if b = 251 then some 2 else if b = 252 then some 4 else if b = 253 then some 8 else none

/-- The number at the front of some bytes, and how many it takes. -/
def decode : List UInt8 → Option (Nat × Nat)
  | [] => none
  | b :: rest =>
      if b < 251 then some (b.toNat, 1)
      else match width b with
        | none => none
        | some k => if k ≤ rest.length then some (ofLe (rest.take k), k + 1) else none

/-- A number after the byte that tells its width. -/
theorem decode_wide {b : UInt8} {k n : Nat} (hb : ¬b < 251) (hk : width b = some k)
    (hn : n < 256 ^ k) (rest : List UInt8) :
    decode (b :: leBytes k n ++ rest) = some (n, (b :: leBytes k n).length) := by
  have htake : (leBytes k n ++ rest).take k = leBytes k n := by
    have h : (leBytes k n ++ rest).take (leBytes k n).length = leBytes k n := List.take_left
    rwa [length_leBytes] at h
  rw [List.cons_append, decode, if_neg hb, hk]
  dsimp only
  rw [if_pos (by simp), htake, ofLe_leBytes hn, List.length_cons, length_leBytes]

theorem decode_encode {n : Nat} (h : n < 2 ^ 64) (rest : List UInt8) :
    decode (encode n ++ rest) = some (n, (encode n).length) := by
  rw [encode]
  split
  · rename_i hn
    have htoNat : (UInt8.ofNat n).toNat = n := by
      rw [UInt8.toNat_ofNat']
      omega
    have hlt : UInt8.ofNat n < 251 := by
      rw [UInt8.lt_iff_toNat_lt, htoNat]
      exact hn
    rw [List.singleton_append, decode, if_pos hlt, htoNat]
    rfl
  · split
    · rename_i hn
      exact decode_wide (by decide) rfl hn rest
    · split
      · rename_i hn
        exact decode_wide (by decide) rfl hn rest
      · exact decode_wide (by decide) rfl h rest

/-- What is decoded stands in the bytes that it takes. -/
theorem decode_append {p : List UInt8} {n k : Nat} (h : decode p = some (n, k)) :
    k ≤ p.length ∧ ∀ s, decode (p ++ s) = some (n, k) := by
  cases p with
  | nil => cases h
  | cons b p =>
      rw [decode] at h
      split at h
      · rename_i hb
        cases h
        refine ⟨by simp, fun s ↦ ?_⟩
        rw [List.cons_append, decode, if_pos hb]
      · rename_i hb
        split at h
        · cases h
        · rename_i width hwidth
          split at h
          · rename_i hlen
            cases h
            refine ⟨Nat.succ_le_succ hlen, fun s ↦ ?_⟩
            rw [List.cons_append, decode, if_neg hb, hwidth]
            dsimp only
            rw [if_pos (by rw [List.length_append]; omega), List.take_append_of_le_length hlen]
          · cases h

/-- What follows the bytes that were taken does not matter. -/
theorem decode_take {p : List UInt8} {n k : Nat} (h : decode p = some (n, k)) (s : List UInt8) :
    decode (p.take k ++ s) = some (n, k) := by
  cases p with
  | nil => cases h
  | cons b p =>
      rw [decode] at h
      split at h
      · rename_i hb
        cases h
        rw [List.take_succ_cons, List.cons_append, decode, if_pos hb]
      · rename_i hb
        split at h
        · cases h
        · rename_i width hwidth
          split at h
          · rename_i hlen
            cases h
            have htake : (p.take width ++ s).take width = p.take width :=
              List.take_left' (by rw [List.length_take, Nat.min_eq_left hlen])
            rw [List.take_succ_cons, List.cons_append, decode, if_neg hb, hwidth]
            dsimp only
            rw [if_pos (by rw [List.length_append, List.length_take]; omega), htake]
          · cases h

theorem pos_of_decode {p : List UInt8} {n k : Nat} (h : decode p = some (n, k)) : 0 < k := by
  cases p with
  | nil => cases h
  | cons b p =>
      rw [decode] at h
      split at h
      · cases h
        exact Nat.one_pos
      · split at h
        · cases h
        · split at h <;> cases h
          exact Nat.succ_pos _

theorem width_of_lt {b : UInt8} (h : b < 251) : width b = none := by
  have hne : ∀ c : UInt8, ¬c < 251 → b ≠ c := fun c hc heq ↦ hc (heq ▸ h)
  rw [width, if_neg (hne 251 (by decide)), if_neg (hne 252 (by decide)),
    if_neg (hne 253 (by decide))]

end Fspy.Lib.VarInt
