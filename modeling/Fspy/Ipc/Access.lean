import Fspy.Basic
import Fspy.Lib.Framing

/-!
# Recorded accesses

`PathAccess` is the record every tracker produces: an access mode and the bytes of
a path (`NativeStr` on unix is just its bytes).  In the shared-memory log and in
the payload it travels in bincode's standard configuration, which the development
takes as a parameter `Codec PathAccess`: all it relies on is that the encoding is
self-delimiting.  `PathAccess.shortCodec` is one such codec; it writes the same
bytes as bincode for every path of at most 250 bytes.
-/

namespace Fspy

inductive AccessMode where
  | Read
  | Write
  | ReadWrite
  | ReadDir
deriving DecidableEq, Repr

structure PathAccess where
  mode : AccessMode
  path : Bytes
deriving DecidableEq, Repr

namespace PathAccess

/-- `PathAccess::read`. -/
def read (path : Bytes) : PathAccess := ⟨.Read, path⟩

/-! ## A codec -/

/-- The variant index of a mode. -/
def modeByte : AccessMode → UInt8
  | .Read => 0
  | .Write => 1
  | .ReadWrite => 2
  | .ReadDir => 3

def modeOfByte : UInt8 → Option AccessMode
  | 0 => some .Read
  | 1 => some .Write
  | 2 => some .ReadWrite
  | 3 => some .ReadDir
  | _ => none

@[simp] theorem modeOfByte_modeByte (m : AccessMode) : modeOfByte (modeByte m) = some m := by
  cases m <;> rfl

/-- A length: one byte below 251, as in bincode's variable-length integers; above,
an escape and a unary count, which is not bincode's format but keeps the codec total. -/
def lenBytes (n : Nat) : Bytes :=
  if n < 251 then [UInt8.ofNat n] else 255 :: (List.replicate n 1 ++ [0])

/-- The length at the front of a byte string and the number of bytes it takes. -/
def decodeLen : Bytes → Option (Nat × Nat)
  | [] => none
  | b :: rest =>
      if b < 251 then some (b.toNat, 1)
      else if b = 255 then
        let n := (rest.takeWhile (· == 1)).length
        some (n, n + 2)
      else none

theorem decodeLen_lenBytes (n : Nat) (rest : Bytes) :
    decodeLen (lenBytes n ++ rest) = some (n, (lenBytes n).length) := by
  unfold lenBytes
  split
  · rename_i h
    have hn : (UInt8.ofNat n).toNat = n := by
      rw [UInt8.toNat_ofNat']
      omega
    have hlt : UInt8.ofNat n < 251 := by
      rw [UInt8.lt_iff_toNat_lt, hn]
      exact h
    rw [List.singleton_append, decodeLen, if_pos hlt, hn]
    rfl
  · have htake : ((List.replicate n 1 ++ [0]) ++ rest).takeWhile (· == (1 : UInt8))
        = List.replicate n 1 := by
      rw [List.append_assoc, List.takeWhile_append_of_pos (by simp)]
      simp
    rw [List.cons_append, decodeLen, if_neg (by decide), if_pos rfl]
    simp only [htake, List.length_replicate]
    simp

/-- A self-delimiting codec for accesses: variant index, path length, path. -/
def shortCodec : Lib.Codec PathAccess where
  encode a := modeByte a.mode :: (lenBytes a.path.length ++ a.path)
  decode
    | [] => none
    | m :: rest => do
        let mode ← modeOfByte m
        let (len, k) ← decodeLen rest
        if len ≤ (rest.drop k).length then some (⟨mode, (rest.drop k).take len⟩, 1 + k + len)
        else none
  decode_encode a rest := by
    simp only [List.cons_append, List.append_assoc, modeOfByte_modeByte, decodeLen_lenBytes,
      Option.bind_eq_bind, Option.bind_some, List.drop_left, List.length_append,
      Nat.le_add_right, if_true, List.take_left, List.length_cons]
    congr 2
    omega

end PathAccess

end Fspy
