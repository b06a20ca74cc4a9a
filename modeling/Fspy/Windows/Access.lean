import Fspy.Ipc.Access
import Fspy.Lib.VarInt

/-!
# Accesses on windows

A path is either the bytes of an ANSI string or those of a wide one, and keeps which of
the two.  `bincode` is the format of the pipe: the variant index of the mode, the flag,
the length of the data, and the data.
-/

namespace Fspy.Windows

open Lib

/-- `NativeStr`; the data is a slice. -/
structure NativeStr where
  is_wide : Bool
  data : Bytes
  length_lt : data.length < 2 ^ 64
deriving DecidableEq

/-- The bytes of wide characters (`must_cast_slice`). -/
def castSlice (wide : List UInt16) : Bytes :=
  wide.flatMap fun (c : UInt16) ↦ [c.toUInt8, (c >>> 8).toUInt8]

@[simp] theorem length_castSlice (wide : List UInt16) :
    (castSlice wide).length = 2 * wide.length := by
  induction wide with
  | nil => rfl
  | cons c wide ih =>
      rw [castSlice, List.flatMap_cons, List.length_append, ← castSlice, ih]
      simp only [List.length_cons, List.length_nil]
      omega

namespace NativeStr

/-- `NativeStr::from_bytes`. -/
def from_bytes (bytes : Bytes) (h : bytes.length < 2 ^ 64) : NativeStr := ⟨false, bytes, h⟩

/-- `NativeStr::from_wide`. -/
def from_wide (wide : List UInt16) (h : 2 * wide.length < 2 ^ 64) : NativeStr :=
  ⟨true, castSlice wide, by rwa [length_castSlice]⟩

end NativeStr

/-- `PathAccess`. -/
structure PathAccess where
  mode : AccessMode
  path : NativeStr
deriving DecidableEq

/-! ## The format -/

def boolOfByte : UInt8 → Option Bool
  | 0 => some false
  | 1 => some true
  | _ => none

/-- The path at the front of some bytes, and how many it takes. -/
def decodePath (is_wide : Bool) (bytes : Bytes) : Option (NativeStr × Nat) :=
  match VarInt.decode bytes with
  | none => none
  | some (len, k) =>
      if h : len < 2 ^ 64 ∧ k + len ≤ bytes.length then
        some (⟨is_wide, (bytes.drop k).take len, by rw [List.length_take]; omega⟩, k + len)
      else none

theorem decodePath_encode (path : NativeStr) (rest : Bytes) :
    decodePath path.is_wide (VarInt.encode path.data.length ++ path.data ++ rest) =
      some (path, (VarInt.encode path.data.length ++ path.data).length) := by
  rw [decodePath, List.append_assoc, VarInt.decode_encode path.length_lt]
  dsimp only
  rw [dif_pos ⟨path.length_lt, by simp only [List.length_append]; omega⟩]
  simp only [List.drop_left, List.take_left, List.length_append]

theorem decodePath_append {is_wide : Bool} {p : Bytes} {path : NativeStr} {n : Nat}
    (h : decodePath is_wide p = some (path, n)) :
    n ≤ p.length ∧ ∀ s, decodePath is_wide (p ++ s) = some (path, n) := by
  rw [decodePath] at h
  split at h
  · cases h
  · rename_i len k hlen
    obtain ⟨-, happend⟩ := VarInt.decode_append hlen
    split at h
    · rename_i hfits
      cases h
      refine ⟨hfits.2, fun s ↦ ?_⟩
      rw [decodePath, happend s]
      dsimp only
      rw [dif_pos ⟨hfits.1, by rw [List.length_append]; omega⟩]
      congr 3
      rw [List.drop_append_of_le_length (by omega), List.take_append_of_le_length]
      rw [List.length_drop]
      omega
    · cases h

/-- Bincode's standard configuration. -/
def bincode : Codec PathAccess where
  encode a := Fspy.PathAccess.modeByte a.mode :: (if a.path.is_wide then 1 else 0) ::
    (VarInt.encode a.path.data.length ++ a.path.data)
  decode
    | mode :: is_wide :: rest => do
        let mode ← Fspy.PathAccess.modeOfByte mode
        let is_wide ← boolOfByte is_wide
        let (path, n) ← decodePath is_wide rest
        return (⟨mode, path⟩, n + 2)
    | _ => none
  decode_encode a rest := by
    have hbool : boolOfByte (if a.path.is_wide then 1 else 0) = some a.path.is_wide := by
      cases a.path.is_wide <;> rfl
    simp only [List.cons_append, Fspy.PathAccess.modeOfByte_modeByte, hbool, decodePath_encode,
      Option.bind_eq_bind, Option.bind_some, Option.pure_def, List.length_cons]

theorem strict_bincode : bincode.Strict where
  encode_ne_nil _ := List.cons_ne_nil _ _
  decode_append {p a n} h := by
    rcases p with _ | ⟨mode, _ | ⟨is_wide, p⟩⟩
    · cases h
    · cases h
    · simp only [bincode, Option.bind_eq_bind, Option.bind_eq_some_iff, Option.pure_def,
        Option.some.injEq, Prod.mk.injEq] at h
      obtain ⟨m, hm, w, hw, ⟨path, k⟩, hpath, rfl, rfl⟩ := h
      obtain ⟨hle, happend⟩ := decodePath_append hpath
      refine ⟨by simp only [List.length_cons]; omega, fun s ↦ ?_⟩
      simp only [bincode, List.cons_append, hm, hw, happend s, Option.bind_eq_bind,
        Option.bind_some, Option.pure_def]

/-- What the format adds to the data. -/
theorem size_bincode (a : PathAccess) :
    bincode.size a = 2 + (VarInt.encode a.path.data.length).length + a.path.data.length := by
  simp only [Codec.size, bincode, List.length_cons, List.length_append]
  omega

end Fspy.Windows
