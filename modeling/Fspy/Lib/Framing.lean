import Mathlib.Data.List.Basic

/-!
# Append-only logs of self-delimiting records with flag-last publication

A log region is a list of bytes in which records stand one after the other, each
as a flag byte followed by its encoding.  A writer first puts the encoding in
place and stores the flag byte last, so the region is at every moment

* `Quiet`: the published records, then zeroes; or
* `Pending`: the published records, a zero flag byte, some bytes of one more
  encoding, then zeroes.

A reader that stops at the first zero flag byte (`Codec.scan`) therefore always
sees exactly the published records: `Quiet.scan`, `Pending.scan`.  The writer's
moves are `Quiet.reserve`, `Pending.write` and `Pending.publish`.
-/

namespace Fspy.Lib

/-- A self-delimiting encoding: a record is recognised at the front of any byte
string, together with its length. -/
structure Codec (α : Type*) where
  /-- The bytes of a record. -/
  encode : α → List UInt8
  /-- The record at the front of a byte string, and how many bytes it takes. -/
  decode : List UInt8 → Option (α × Nat)
  /-- What was encoded is decoded, whatever follows. -/
  decode_encode : ∀ a rest, decode (encode a ++ rest) = some (a, (encode a).length)

namespace Codec

variable {α : Type*} (c : Codec α)

/-- The number of bytes of an encoded record. -/
def size (a : α) : Nat := (c.encode a).length

/-- A published record: the flag byte, then the encoding. -/
def frame (a : α) : List UInt8 := 1 :: c.encode a

/-- The published records of a region, in order. -/
def frames (as : List α) : List UInt8 := as.flatMap c.frame

@[simp] theorem frames_nil : c.frames [] = [] := rfl

@[simp] theorem frames_cons (a : α) (as : List α) :
    c.frames (a :: as) = 1 :: (c.encode a ++ c.frames as) := rfl

theorem encode_injective {a b : α} (h : c.encode a = c.encode b) : a = b := by
  have ha := c.decode_encode a []
  rw [h, c.decode_encode b []] at ha
  exact (congrArg Prod.fst (Option.some.inj ha)).symm

/-- A record is told by its bytes. -/
theorem frame_injective {a b : α} (h : c.frame a = c.frame b) : a = b :=
  c.encode_injective (List.cons.inj h).2

theorem frames_append (as bs : List α) : c.frames (as ++ bs) = c.frames as ++ c.frames bs :=
  List.flatMap_append

theorem length_frames_snoc (as : List α) (a : α) :
    (c.frames (as ++ [a])).length = (c.frames as).length + (1 + c.size a) := by
  simp [frames_append, size]
  omega

/-- The decoder looks at no more bytes than it takes, and a record takes some. -/
structure Strict : Prop where
  encode_ne_nil : ∀ a, c.encode a ≠ []
  decode_append : ∀ {p a n}, c.decode p = some (a, n) →
    n ≤ p.length ∧ ∀ s, c.decode (p ++ s) = some (a, n)

variable {c} in
/-- A record that is cut off does not decode. -/
theorem Strict.decode_of_prefix (h : c.Strict) {a : α} {p : List UInt8} (hp : p <+: c.encode a)
    (hne : p ≠ c.encode a) : c.decode p = none := by
  cases hdecode : c.decode p with
  | none => rfl
  | some out =>
      obtain ⟨b, n⟩ := out
      obtain ⟨s, hs⟩ := hp
      obtain ⟨hle, happend⟩ := h.decode_append hdecode
      have hwhole := c.decode_encode a []
      rw [List.append_nil, ← hs, happend s] at hwhole
      have hn : n = (p ++ s).length := congrArg Prod.snd (Option.some.inj hwhole)
      rw [List.length_append] at hn
      have hnil : s = [] := List.length_eq_zero_iff.mp (by omega)
      rw [hnil, List.append_nil] at hs
      exact absurd hs hne

/-- Read records until the first zero flag byte or the end of the region.  `none`
is a flagged record that does not decode, or decodes to more bytes than there are. -/
def scan : List UInt8 → Option (List α)
  | [] => some []
  | flag :: data =>
      if flag = 0 then some []
      else match c.decode data with
        | none => none
        | some (a, n) => if n ≤ data.length then (scan (data.drop n)).map (a :: ·) else none
termination_by buf => buf.length
decreasing_by simp only [List.length_drop, List.length_cons]; omega

/-- The end of the published records: nothing, or a zero flag byte. -/
def Unpublished : List UInt8 → Prop
  | [] => True
  | flag :: _ => flag = 0

theorem scan_unpublished {buf : List UInt8} (h : Unpublished buf) : c.scan buf = some [] := by
  cases buf with
  | nil => rw [scan]
  | cons flag data => rw [scan, if_pos (show flag = 0 from h)]

/-- The reader returns exactly the published records. -/
theorem scan_frames (as : List α) {tail : List UInt8} (h : Unpublished tail) :
    c.scan (c.frames as ++ tail) = some as := by
  induction as with
  | nil => simpa using c.scan_unpublished h
  | cons a as ih =>
      rw [frames_cons, List.cons_append, scan, if_neg (by decide), List.append_assoc,
        c.decode_encode]
      simp only [List.drop_left, List.length_append, Nat.le_add_right, if_true]
      rw [ih]
      rfl

/-! ## The two shapes of a region -/

/-- The published records, then `room` zero bytes. -/
def Quiet (as : List α) (room : Nat) (buf : List UInt8) : Prop :=
  buf = c.frames as ++ List.replicate room 0

/-- The published records, then a record `a` in the making: its flag byte still
zero, `n` bytes of its encoding in place, and `room` bytes left after it. -/
def Pending (as : List α) (a : α) (n room : Nat) (buf : List UInt8) : Prop :=
  buf = c.frames as ++
    0 :: ((c.encode a).take n ++ (List.replicate (c.size a - n) 0 ++ List.replicate room 0))

variable {c} {as : List α} {a : α} {n room : Nat} {buf : List UInt8}

theorem Quiet.scan (h : c.Quiet as room buf) : c.scan buf = some as := by
  rw [h]
  apply c.scan_frames as
  cases room <;> simp [Unpublished, List.replicate_succ]

theorem Pending.scan (h : c.Pending as a n room buf) : c.scan buf = some as := by
  rw [h]
  exact c.scan_frames as rfl

theorem Quiet.length_eq (h : c.Quiet as room buf) :
    buf.length = (c.frames as).length + room := by
  simp [show buf = _ from h]

theorem quiet_zeros (room : Nat) : c.Quiet [] room (List.replicate room 0) := by
  simp [Quiet]

/-- Reserving space changes no byte: the zeroes are a record of which nothing is
written yet. -/
theorem Quiet.reserve (h : c.Quiet as (1 + c.size a + room) buf) :
    c.Pending as a 0 room buf := by
  rw [Pending, show buf = _ from h, Nat.add_comm 1, Nat.add_right_comm, List.replicate_succ]
  simp [List.replicate_append_replicate]

/-- Writing the next byte of the encoding. -/
theorem Pending.write (h : c.Pending as a n room buf) {b : UInt8}
    (hb : (c.encode a)[n]? = some b) :
    c.Pending as a (n + 1) room (buf.set ((c.frames as).length + 1 + n) b) := by
  obtain ⟨hn, rfl⟩ := List.getElem?_eq_some_iff.mp hb
  have hm : c.size a - n = (c.size a - (n + 1)) + 1 := by simp only [size]; omega
  have hlen : ((c.encode a).take n).length = n := List.length_take_of_le (Nat.le_of_lt hn)
  rw [Pending, show buf = _ from h, hm, List.replicate_succ, Nat.add_assoc,
    List.set_append_right _ _ (Nat.le_add_right _ _), Nat.add_sub_cancel_left,
    Nat.add_comm 1 n, List.set_cons_succ, List.set_append_right _ _ (Nat.le_of_eq hlen), hlen,
    Nat.sub_self, List.cons_append, List.set_cons_zero, List.take_succ_eq_append_getElem hn,
    List.append_assoc, List.singleton_append]

/-- Storing the flag byte of a completely written record publishes it. -/
theorem Pending.publish (h : c.Pending as a (c.size a) room buf) :
    c.Quiet (as ++ [a]) room (buf.set (c.frames as).length 1) := by
  rw [Quiet, show buf = _ from h, List.set_append_right _ _ (Nat.le_refl _)]
  simp only [Nat.sub_self, List.set_cons_zero, frames_append]
  simp [size]

end Codec

end Fspy.Lib
