import Fspy.Lib.VarInt

/-!
# Formats

A format writes a value as bytes, and reads one off the front of any bytes.  `Lawful` says
that what was written is read again whatever follows, and that reading looks at nothing
past what it takes.  Formats are put together from bytes, integers of variable length,
pairs and lists; the laws go along.
-/

namespace Fspy.Lib

structure Format (α : Type) where
  write : α → List UInt8
  /-- The value at the front of some bytes, and the bytes after it. -/
  read : List UInt8 → Option (α × List UInt8)

namespace Format

variable {α β : Type} {f : Format α} {g : Format β} {P : α → Prop} {Q : β → Prop}

/-- The laws, for values that `P` allows. -/
structure Lawful (f : Format α) (P : α → Prop) : Prop where
  read_write : ∀ a, P a → ∀ rest, f.read (f.write a ++ rest) = some (a, rest)
  read_front : ∀ {p a rest}, f.read p = some (a, rest) →
    ∃ q, p = q ++ rest ∧ ∀ s, f.read (q ++ s) = some (a, s)

theorem Lawful.mono {P' : α → Prop} (h : f.Lawful P) (hP : ∀ a, P' a → P a) : f.Lawful P' where
  read_write a ha := h.read_write a (hP a ha)
  read_front := h.read_front

/-- What is cut off does not read. -/
theorem Lawful.read_of_prefix (h : f.Lawful P) {a : α} {p : List UInt8} (ha : P a)
    (hp : p <+: f.write a) (hne : p ≠ f.write a) : f.read p = none := by
  cases hread : f.read p with
  | none => rfl
  | some out =>
      obtain ⟨b, rest⟩ := out
      obtain ⟨s, hs⟩ := hp
      obtain ⟨q, rfl, hfront⟩ := h.read_front hread
      have hwhole := h.read_write a ha []
      rw [List.append_nil, ← hs, List.append_assoc, hfront, Option.some.injEq,
        Prod.mk.injEq] at hwhole
      have hnil : s = [] := (List.append_eq_nil_iff.mp hwhole.2).2
      rw [hnil, List.append_nil] at hs
      exact absurd hs hne

/-! ## Bytes -/

/-- One byte. -/
def u8 : Format UInt8 where
  write b := [b]
  read
    | [] => none
    | b :: rest => some (b, rest)

theorem lawful_u8 : u8.Lawful fun _ ↦ True where
  read_write _ _ _ := rfl
  read_front {p b rest} h := by
    cases p with
    | nil => cases h
    | cons b' p =>
        cases h
        exact ⟨[b], rfl, fun _ ↦ rfl⟩

/-- An integer of at most `k` bytes. -/
def varint (k : Nat) : Format Nat where
  write := VarInt.encode
  read p :=
    if (p.head?.bind VarInt.width).getD 0 ≤ k then
      (VarInt.decode p).map fun decoded ↦ (decoded.1, p.drop decoded.2)
    else none

/-- A byte that says how wide an integer is says no more than is needed. -/
theorem width_encode {k n : Nat} (hk : k = 2 ∨ k = 4 ∨ k = 8) (hn : n < 256 ^ k) :
    ∃ b rest, VarInt.encode n = b :: rest ∧ (VarInt.width b).getD 0 ≤ k := by
  rw [VarInt.encode]
  split
  · rename_i hlt
    have hbyte : UInt8.ofNat n < 251 := by
      rw [UInt8.lt_iff_toNat_lt, UInt8.toNat_ofNat', Nat.mod_eq_of_lt (by omega)]
      exact hlt
    refine ⟨_, _, rfl, ?_⟩
    rw [VarInt.width_of_lt hbyte]
    exact Nat.zero_le k
  · split
    · exact ⟨_, _, rfl, by rcases hk with rfl | rfl | rfl <;> decide⟩
    · rename_i h₂
      split
      · refine ⟨_, _, rfl, ?_⟩
        rcases hk with rfl | rfl | rfl
        · exact absurd hn h₂
        · decide
        · decide
      · rename_i h₄
        refine ⟨_, _, rfl, ?_⟩
        rcases hk with rfl | rfl | rfl
        · exact absurd hn h₂
        · exact absurd hn h₄
        · decide

theorem lawful_varint {k : Nat} (hk : k = 2 ∨ k = 4 ∨ k = 8) :
    (varint k).Lawful fun n ↦ n < 256 ^ k where
  read_write n hn rest := by
    have h64 : n < 2 ^ 64 := by
      refine Nat.lt_of_lt_of_le hn ?_
      rcases hk with rfl | rfl | rfl <;> decide
    obtain ⟨b, tail, hencode, hwidth⟩ := width_encode hk hn
    have hhead : ((VarInt.encode n ++ rest).head?.bind VarInt.width).getD 0 ≤ k := by
      rw [hencode]
      exact hwidth
    rw [varint]
    dsimp only
    rw [if_pos hhead, VarInt.decode_encode h64, Option.map_some, List.drop_left]
  read_front {p n rest} h := by
    obtain ⟨hhead, h⟩ := Option.ite_none_right_eq_some.mp h
    obtain ⟨⟨n', m⟩, hdecode, h⟩ := Option.map_eq_some_iff.mp h
    cases h
    refine ⟨p.take m, (List.take_append_drop m p).symm, fun s ↦ ?_⟩
    have hle := (VarInt.decode_append hdecode).1
    have hsame : (p.take m ++ s).head? = p.head? := by
      obtain ⟨m, rfl⟩ := Nat.exists_eq_succ_of_ne_zero (Nat.pos_iff_ne_zero.mp
        (VarInt.pos_of_decode hdecode))
      cases p with
      | nil => cases hdecode
      | cons b p => rfl
    rw [varint]
    dsimp only
    rw [hsame, if_pos hhead, VarInt.decode_take hdecode, Option.map_some,
      List.drop_left' (by rw [List.length_take, Nat.min_eq_left hle])]

/-! ## Other values of the same bytes -/

/-- `unpack` says what is written for a value, `pack` what is made of what was read. -/
def map (f : Format α) (pack : α → β) (unpack : β → α) : Format β where
  write b := f.write (unpack b)
  read p := (f.read p).map fun out ↦ (pack out.1, out.2)

theorem Lawful.map {pack : α → β} {unpack : β → α} (h : f.Lawful P)
    (hpack : ∀ b, Q b → P (unpack b) ∧ pack (unpack b) = b) : (f.map pack unpack).Lawful Q where
  read_write b hb rest := by
    obtain ⟨ha, heq⟩ := hpack b hb
    rw [Format.map]
    dsimp only
    rw [h.read_write _ ha, Option.map_some, heq]
  read_front {p b rest} hread := by
    obtain ⟨⟨a, rest'⟩, ha, heq⟩ := Option.map_eq_some_iff.mp hread
    cases heq
    obtain ⟨q, rfl, hfront⟩ := h.read_front ha
    refine ⟨q, rfl, fun s ↦ ?_⟩
    rw [Format.map]
    dsimp only
    rw [hfront, Option.map_some]

/-! ## Pairs -/

def pair (f : Format α) (g : Format β) : Format (α × β) where
  write ab := f.write ab.1 ++ g.write ab.2
  read p := do
    let (a, p) ← f.read p
    let (b, p) ← g.read p
    return ((a, b), p)

theorem read_pair {p rest : List UInt8} {a : α} {b : β} :
    (f.pair g).read p = some ((a, b), rest) ↔
      ∃ p', f.read p = some (a, p') ∧ g.read p' = some (b, rest) := by
  simp only [pair, bind, pure, Option.bind_eq_some_iff, Option.some.injEq, Prod.mk.injEq]
  constructor
  · rintro ⟨⟨a', p'⟩, ha, ⟨b', p''⟩, hb, ⟨rfl, rfl⟩, rfl⟩
    exact ⟨p', ha, hb⟩
  · rintro ⟨p', ha, hb⟩
    exact ⟨(a, p'), ha, (b, rest), hb, ⟨rfl, rfl⟩, rfl⟩

theorem Lawful.pair (hf : f.Lawful P) (hg : g.Lawful Q) :
    (f.pair g).Lawful fun ab ↦ P ab.1 ∧ Q ab.2 where
  read_write := by
    rintro ⟨a, b⟩ ⟨ha, hb⟩ rest
    refine read_pair.mpr ⟨g.write b ++ rest, ?_, hg.read_write b hb rest⟩
    change f.read (f.write a ++ g.write b ++ rest) = _
    rw [List.append_assoc]
    exact hf.read_write a ha _
  read_front := by
    rintro p ⟨a, b⟩ rest h
    obtain ⟨p', ha, hb⟩ := read_pair.mp h
    obtain ⟨q, rfl, hfrontf⟩ := hf.read_front ha
    obtain ⟨q', rfl, hfrontg⟩ := hg.read_front hb
    refine ⟨q ++ q', (List.append_assoc ..).symm, fun s ↦ read_pair.mpr ⟨q' ++ s, ?_, hfrontg s⟩⟩
    rw [List.append_assoc]
    exact hfrontf (q' ++ s)

/-! ## Lists -/

/-- So many values, one after the other. -/
def readMany (f : Format α) : Nat → List UInt8 → Option (List α × List UInt8)
  | 0, p => some ([], p)
  | n + 1, p => do
      let (a, p) ← f.read p
      let (as, p) ← f.readMany n p
      return (a :: as, p)

/-- The length, then the values. -/
def list (f : Format α) : Format (List α) where
  write as := VarInt.encode as.length ++ as.flatMap f.write
  read p := do
    let (n, p) ← (varint 8).read p
    f.readMany n p

theorem readMany_succ {n : Nat} {p rest : List UInt8} {as : List α} :
    f.readMany (n + 1) p = some (as, rest) ↔
      ∃ a as' p', as = a :: as' ∧ f.read p = some (a, p') ∧
        f.readMany n p' = some (as', rest) := by
  simp only [readMany, bind, pure, Option.bind_eq_some_iff, Option.some.injEq, Prod.mk.injEq]
  constructor
  · rintro ⟨⟨a, p'⟩, ha, ⟨as', p''⟩, has, rfl, rfl⟩
    exact ⟨a, as', p', rfl, ha, has⟩
  · rintro ⟨a, as', p', rfl, ha, has⟩
    exact ⟨(a, p'), ha, (as', rest), has, rfl, rfl⟩

theorem read_list {p rest : List UInt8} {as : List α} : f.list.read p = some (as, rest) ↔
    ∃ n p', (varint 8).read p = some (n, p') ∧ f.readMany n p' = some (as, rest) := by
  simp only [list, bind, Option.bind_eq_some_iff]
  exact ⟨fun ⟨⟨n, p'⟩, hn, has⟩ ↦ ⟨n, p', hn, has⟩, fun ⟨n, p', hn, has⟩ ↦ ⟨(n, p'), hn, has⟩⟩

theorem Lawful.readMany_write (h : f.Lawful P) {as : List α} (has : ∀ a ∈ as, P a)
    (rest : List UInt8) : f.readMany as.length (as.flatMap f.write ++ rest) = some (as, rest) := by
  induction as with
  | nil => rfl
  | cons a as ih =>
      obtain ⟨ha, has⟩ := List.forall_mem_cons.mp has
      refine readMany_succ.mpr ⟨a, as, as.flatMap f.write ++ rest, rfl, ?_, ih has⟩
      rw [List.flatMap_cons, List.append_assoc]
      exact h.read_write a ha _

theorem Lawful.readMany_front (h : f.Lawful P) {n : Nat} {p rest : List UInt8} {as : List α}
    (hread : f.readMany n p = some (as, rest)) :
    ∃ q, p = q ++ rest ∧ ∀ s, f.readMany n (q ++ s) = some (as, s) := by
  induction n generalizing p as with
  | zero =>
      cases hread
      exact ⟨[], rfl, fun _ ↦ rfl⟩
  | succ n ih =>
      obtain ⟨a, as', p', rfl, ha, has⟩ := readMany_succ.mp hread
      obtain ⟨q, rfl, hfront⟩ := h.read_front ha
      obtain ⟨q', rfl, hfront'⟩ := ih has
      refine ⟨q ++ q', (List.append_assoc ..).symm, fun s ↦ readMany_succ.mpr
        ⟨a, as', q' ++ s, rfl, ?_, hfront' s⟩⟩
      rw [List.append_assoc]
      exact hfront (q' ++ s)

theorem Lawful.list (h : f.Lawful P) :
    f.list.Lawful fun as ↦ as.length < 2 ^ 64 ∧ ∀ a ∈ as, P a where
  read_write := by
    rintro as ⟨hlength, has⟩ rest
    have hn : as.length < 256 ^ 8 := Nat.lt_of_lt_of_le hlength (by decide)
    refine read_list.mpr ⟨as.length, as.flatMap f.write ++ rest, ?_, h.readMany_write has rest⟩
    change (varint 8).read (VarInt.encode as.length ++ as.flatMap f.write ++ rest) = _
    rw [List.append_assoc]
    exact (lawful_varint (.inr (.inr rfl))).read_write as.length hn _
  read_front := by
    intro p as rest hread
    obtain ⟨n, p', hn, has⟩ := read_list.mp hread
    obtain ⟨q, rfl, hfront⟩ := (lawful_varint (.inr (.inr rfl))).read_front hn
    obtain ⟨q', rfl, hfront'⟩ := h.readMany_front has
    refine ⟨q ++ q', (List.append_assoc ..).symm, fun s ↦ read_list.mpr ⟨n, q' ++ s, ?_, hfront' s⟩⟩
    rw [List.append_assoc]
    exact hfront (q' ++ s)

/-! ## Signed integers -/

/-- Numbers close to zero are small, whatever their sign. -/
def zigzag (v : Int) : Nat := if v < 0 then (-(2 * v) - 1).toNat else (2 * v).toNat

def unzigzag (n : Nat) : Int := if n % 2 = 0 then (n / 2 : Nat) else -((n / 2 : Nat) : Int) - 1

theorem unzigzag_zigzag (v : Int) : unzigzag (zigzag v) = v := by
  rw [zigzag]
  split
  · rw [unzigzag, if_neg (by omega)]
    omega
  · rw [unzigzag, if_pos (by omega)]
    omega

theorem zigzag_lt {v : Int} (h : -0x80000000 ≤ v ∧ v < 0x80000000) : zigzag v < 256 ^ 4 := by
  rw [zigzag]
  split <;> omega

/-- A signed integer of at most four bytes. -/
def int32 : Format Int := (varint 4).map unzigzag zigzag

theorem lawful_int32 : int32.Lawful fun v ↦ -0x80000000 ≤ v ∧ v < 0x80000000 :=
  (lawful_varint (.inr (.inl rfl))).map fun v hv ↦ ⟨zigzag_lt hv, unzigzag_zigzag v⟩

end Format

end Fspy.Lib
