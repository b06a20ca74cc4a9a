import Mathlib.Data.List.Basic

/-!
# Byte strings and error numbers

Paths, arguments and environment strings are byte strings throughout: nothing in
the program looks at their encoding.  `Errno` lists the error numbers the source
tells apart; every other one is `other`.
-/

namespace Fspy

/-- A byte string (`BStr`, `OsStr`, `&[u8]`). -/
abbrev Bytes := List UInt8

/-- The bytes of an ASCII literal. -/
def ascii (s : String) : Bytes := s.toList.map fun c ↦ UInt8.ofNat c.toNat

/-- The error numbers of `nix::Error` that the source names. -/
inductive Errno where
  | EACCES | EBADF | EBUSY | EINTR | EINVAL | EISDIR | ENAMETOOLONG | ENODEV | ENOENT
  | ENOEXEC | ENOTDIR | EWOULDBLOCK
  | other (code : Nat)
deriving DecidableEq, Repr

/-- How a call that does not return a value ends: with an error number, or by
unwinding out of the hook, which aborts the program. -/
inductive Stop where
  | errno (e : Errno)
  | panic
deriving DecidableEq, Repr

instance exceptDecidableEq {ε α : Type} [DecidableEq ε] [DecidableEq α] : DecidableEq (Except ε α)
  | .ok a, .ok b => decidable_of_iff (a = b) (by simp)
  | .error a, .error b => decidable_of_iff (a = b) (by simp)
  | .ok _, .error _ => .isFalse (by simp)
  | .error _, .ok _ => .isFalse (by simp)

/-- `?` after a computation that returns. -/
theorem except_bind_of_ok {ε α β : Type} {x : Except ε α} {k : α → Except ε β} {a : α}
    (h : x = .ok a) : x >>= k = k a := by
  rw [h]
  rfl

/-- `?` goes on with what a computation returns. -/
theorem bind_eq_ok {ε α β : Type} {x : Except ε α} {k : α → Except ε β} {b : β} :
    x >>= k = .ok b ↔ ∃ a, x = .ok a ∧ k a = .ok b := by
  cases x <;> simp [bind, Except.bind]

@[simp] theorem mapError_eq_ok {ε ε' α : Type} {f : ε → ε'} {x : Except ε α} {a : α} :
    x.mapError f = .ok a ↔ x = .ok a := by
  cases x <;> simp [Except.mapError]

theorem mapError_eq_error {ε ε' α : Type} {f : ε → ε'} {x : Except ε α} {e : ε'} :
    x.mapError f = .error e ↔ ∃ e₀, x = .error e₀ ∧ f e₀ = e := by
  cases x <;> simp [Except.mapError]

@[simp] theorem exists_ok_unit {ε : Type} {x : Except ε Unit} :
    (∃ u, x = .ok u) ↔ x = .ok () :=
  ⟨fun ⟨_, h⟩ ↦ h, fun h ↦ ⟨(), h⟩⟩

/-- `f` was called and did not panic. -/
def NoPanic {α : Type} (x : Except Stop α) : Prop := x ≠ .error .panic

instance {α : Type} [DecidableEq α] (x : Except Stop α) : Decidable (NoPanic x) :=
  inferInstanceAs (Decidable (x ≠ .error .panic))

@[simp] theorem noPanic_ok {α : Type} (a : α) : NoPanic (.ok a : Except Stop α) := by
  simp [NoPanic]

@[simp] theorem noPanic_errno {α : Type} (e : Errno) :
    NoPanic (.error (.errno e) : Except Stop α) := by
  simp [NoPanic]

@[simp] theorem not_noPanic_panic {α : Type} : ¬NoPanic (.error .panic : Except Stop α) := by
  simp [NoPanic]

end Fspy
