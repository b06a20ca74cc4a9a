import Mathlib.Data.List.TakeWhile

/-!
# C strings and null-terminated arrays of them

The memory behind a `char *` is a list of bytes that may go on after the terminator;
what the pointer denotes is the bytes before the first zero.  An array of pointers
is a list whose entries may be null, and denotes the entries before the first null.
-/

namespace Fspy.Lib

/-- What a pointer to these bytes denotes. -/
def cstr (mem : List UInt8) : List UInt8 := mem.takeWhile (· != 0)

/-- A string with its terminator. -/
def toCStr (s : List UInt8) : List UInt8 := s ++ [0]

/-- A string that a C string can denote. -/
def NulFree (s : List UInt8) : Prop := (0 : UInt8) ∉ s

instance (s : List UInt8) : Decidable (NulFree s) := inferInstanceAs (Decidable (_ ∉ _))

theorem nulFree_cstr (mem : List UInt8) : NulFree (cstr mem) := by
  intro h
  have := List.mem_takeWhile_imp h
  simp at this

theorem cstr_of_nulFree {s : List UInt8} (h : NulFree s) : cstr s = s := by
  apply List.takeWhile_eq_self_iff.mpr
  intro b hb
  simp only [bne_iff_ne, ne_eq]
  rintro rfl
  exact h hb

/-- Passing a string to C cuts it at its first zero byte, if it has one. -/
@[simp] theorem cstr_toCStr (s : List UInt8) : cstr (toCStr s) = cstr s := by
  induction s with
  | nil => rfl
  | cons b s ih =>
      simp only [toCStr, cstr, List.cons_append, List.takeWhile_cons] at ih ⊢
      rw [ih]

@[simp] theorem cstr_cstr (mem : List UInt8) : cstr (cstr mem) = cstr mem :=
  cstr_of_nulFree (nulFree_cstr mem)

/-- What a pointer to an array of strings denotes. -/
def cstrs : List (Option (List UInt8)) → List (List UInt8)
  | [] => []
  | none :: _ => []
  | some mem :: rest => cstr mem :: cstrs rest

/-- The array of these strings, with its terminator. -/
def toCStrs (strs : List (List UInt8)) : List (Option (List UInt8)) :=
  strs.map (fun s ↦ some (toCStr s)) ++ [none]

@[simp] theorem cstrs_toCStrs (strs : List (List UInt8)) :
    cstrs (toCStrs strs) = strs.map cstr := by
  induction strs with
  | nil => rfl
  | cons s strs ih => simpa [toCStrs, cstrs] using ih

theorem nulFree_of_mem_cstrs {mem : List (Option (List UInt8))} {s : List UInt8}
    (h : s ∈ cstrs mem) : NulFree s := by
  induction mem with
  | nil => cases h
  | cons p mem ih =>
      cases p with
      | none => cases h
      | some bytes =>
          rcases List.mem_cons.mp h with rfl | h
          · exact nulFree_cstr bytes
          · exact ih h

theorem map_cstr_of_nulFree {strs : List (List UInt8)} (h : ∀ s ∈ strs, NulFree s) :
    strs.map cstr = strs :=
  (List.map_congr_left fun s hs ↦ cstr_of_nulFree (h s hs)).trans (List.map_id _)

end Fspy.Lib
