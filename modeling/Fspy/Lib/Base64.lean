import Mathlib.Data.List.Basic

/-!
# Base 64, without padding

Three bytes are four letters of six bits each; one or two bytes at the end are two or three
letters, whose last bits are zero.  A text is decoded only if it is what some bytes are
encoded to (`encode_of_decode`), so a text that is cut off decodes, if at all, to bytes
that are cut off (`decode_of_prefix`).
-/

namespace Fspy.Lib.Base64

/-! ## Letters -/

/-- The letter of six bits. -/
def symbol (n : Nat) : UInt8 :=
  if n < 26 then UInt8.ofNat (n + 65) else if n < 52 then UInt8.ofNat (n + 71)
  else if n < 62 then UInt8.ofNat (n - 4) else if n = 62 then 43 else 47

/-- The six bits of a letter. -/
def value (b : UInt8) : Option Nat :=
  if 65 ≤ b ∧ b ≤ 90 then some (b.toNat - 65) else if 97 ≤ b ∧ b ≤ 122 then some (b.toNat - 71)
  else if 48 ≤ b ∧ b ≤ 57 then some (b.toNat + 4) else if b = 43 then some 62
  else if b = 47 then some 63 else none

theorem value_symbol : ∀ n < 64, value (symbol n) = some n := by decide

theorem symbol_value_of_lt :
    ∀ m < 256, ∀ n ∈ value (UInt8.ofNat m), n < 64 ∧ symbol n = UInt8.ofNat m := by
  decide +kernel

theorem symbol_value {b : UInt8} {n : Nat} (h : value b = some n) : n < 64 ∧ symbol n = b := by
  have hb : UInt8.ofNat b.toNat = b := UInt8.ofNat_toNat
  rw [← hb] at h ⊢
  exact symbol_value_of_lt _ (UInt8.toNat_lt b) n h

/-! ## Texts -/

def encode : List UInt8 → List UInt8
  | [] => []
  | [a] => [symbol (a.toNat / 4), symbol (a.toNat % 4 * 16)]
  | [a, b] => [symbol (a.toNat / 4), symbol (a.toNat % 4 * 16 + b.toNat / 16),
      symbol (b.toNat % 16 * 4)]
  | a :: b :: c :: rest =>
      symbol (a.toNat / 4) :: symbol (a.toNat % 4 * 16 + b.toNat / 16) ::
        symbol (b.toNat % 16 * 4 + c.toNat / 64) :: symbol (c.toNat % 64) :: encode rest

/-- The bytes of some letters; the bits that are left over must be zero. -/
def decode : List UInt8 → Option (List UInt8)
  | [] => some []
  | [_] => none
  | [w, x] => do
      let w ← value w
      let x ← value x
      if x % 16 = 0 then return [UInt8.ofNat (w * 4 + x / 16)] else none
  | [w, x, y] => do
      let w ← value w
      let x ← value x
      let y ← value y
      if y % 4 = 0 then
        return [UInt8.ofNat (w * 4 + x / 16), UInt8.ofNat (x % 16 * 16 + y / 4)]
      else none
  | w :: x :: y :: z :: rest => do
      let w ← value w
      let x ← value x
      let y ← value y
      let z ← value z
      let bytes ← decode rest
      return UInt8.ofNat (w * 4 + x / 16) :: UInt8.ofNat (x % 16 * 16 + y / 4) ::
        UInt8.ofNat (y % 4 * 64 + z) :: bytes

theorem ofNat_eq {a : UInt8} {n : Nat} (h : n = a.toNat) : UInt8.ofNat n = a := by
  rw [h, UInt8.ofNat_toNat]

theorem toNat_ofNat_of_lt {n : Nat} (h : n < 256) : (UInt8.ofNat n).toNat = n := by
  rw [UInt8.toNat_ofNat', Nat.mod_eq_of_lt h]

/-- What was encoded is decoded. -/
theorem decode_encode (bytes : List UInt8) : decode (encode bytes) = some bytes := by
  induction bytes using encode.induct with
  | case1 => rfl
  | case2 a =>
      have ha := UInt8.toNat_lt a
      have h₁ := value_symbol (a.toNat / 4) (by omega)
      have h₂ := value_symbol (a.toNat % 4 * 16) (by omega)
      simp only [encode, decode, h₁, h₂, Option.bind_eq_bind, Option.bind_some]
      rw [if_pos (by omega), ofNat_eq (a := a) (by omega)]
      rfl
  | case3 a b =>
      have ha := UInt8.toNat_lt a
      have hb := UInt8.toNat_lt b
      have h₁ := value_symbol (a.toNat / 4) (by omega)
      have h₂ := value_symbol (a.toNat % 4 * 16 + b.toNat / 16) (by omega)
      have h₃ := value_symbol (b.toNat % 16 * 4) (by omega)
      simp only [encode, decode, h₁, h₂, h₃, Option.bind_eq_bind, Option.bind_some]
      rw [if_pos (by omega), ofNat_eq (a := a) (by omega), ofNat_eq (a := b) (by omega)]
      rfl
  | case4 a b c rest ih =>
      have ha := UInt8.toNat_lt a
      have hb := UInt8.toNat_lt b
      have hc := UInt8.toNat_lt c
      have h₁ := value_symbol (a.toNat / 4) (by omega)
      have h₂ := value_symbol (a.toNat % 4 * 16 + b.toNat / 16) (by omega)
      have h₃ := value_symbol (b.toNat % 16 * 4 + c.toNat / 64) (by omega)
      have h₄ := value_symbol (c.toNat % 64) (by omega)
      simp only [encode, decode, h₁, h₂, h₃, h₄, ih, Option.bind_eq_bind, Option.bind_some]
      rw [ofNat_eq (a := a) (by omega), ofNat_eq (a := b) (by omega),
        ofNat_eq (a := c) (by omega)]
      rfl

/-- Only what bytes are encoded to is decoded. -/
theorem encode_of_decode {text bytes : List UInt8} (h : decode text = some bytes) :
    encode bytes = text := by
  induction text using decode.induct generalizing bytes with
  | case1 =>
      cases h
      rfl
  | case2 => cases h
  | case3 w x =>
      simp only [decode, bind, Option.bind_eq_some_iff, Option.ite_none_right_eq_some] at h
      obtain ⟨w', hw, x', hx, hzero, h⟩ := h
      cases h
      obtain ⟨hw', rfl⟩ := symbol_value hw
      obtain ⟨hx', rfl⟩ := symbol_value hx
      have h₁ : (w' * 4 + x' / 16) / 4 = w' := by omega
      have h₂ : (w' * 4 + x' / 16) % 4 * 16 = x' := by omega
      rw [encode, toNat_ofNat_of_lt (by omega), h₁, h₂]
  | case4 w x y =>
      simp only [decode, bind, Option.bind_eq_some_iff, Option.ite_none_right_eq_some] at h
      obtain ⟨w', hw, x', hx, y', hy, hzero, h⟩ := h
      cases h
      obtain ⟨hw', rfl⟩ := symbol_value hw
      obtain ⟨hx', rfl⟩ := symbol_value hx
      obtain ⟨hy', rfl⟩ := symbol_value hy
      have h₁ : (w' * 4 + x' / 16) / 4 = w' := by omega
      have h₂ : (w' * 4 + x' / 16) % 4 * 16 + (x' % 16 * 16 + y' / 4) / 16 = x' := by omega
      have h₃ : (x' % 16 * 16 + y' / 4) % 16 * 4 = y' := by omega
      rw [encode, toNat_ofNat_of_lt (by omega), toNat_ofNat_of_lt (by omega), h₁, h₂, h₃]
  | case5 w x y z rest ih =>
      simp only [decode, bind, pure, Option.bind_eq_some_iff] at h
      obtain ⟨w', hw, x', hx, y', hy, z', hz, bytes', hrest, h⟩ := h
      cases h
      obtain ⟨hw', rfl⟩ := symbol_value hw
      obtain ⟨hx', rfl⟩ := symbol_value hx
      obtain ⟨hy', rfl⟩ := symbol_value hy
      obtain ⟨hz', rfl⟩ := symbol_value hz
      have h₁ : (w' * 4 + x' / 16) / 4 = w' := by omega
      have h₂ : (w' * 4 + x' / 16) % 4 * 16 + (x' % 16 * 16 + y' / 4) / 16 = x' := by omega
      have h₃ : (x' % 16 * 16 + y' / 4) % 16 * 4 + (y' % 4 * 64 + z') / 64 = y' := by omega
      have h₄ : (y' % 4 * 64 + z') % 64 = z' := by omega
      rw [encode, toNat_ofNat_of_lt (by omega), toNat_ofNat_of_lt (by omega),
        toNat_ofNat_of_lt (by omega), h₁, h₂, h₃, h₄, ih hrest]

/-! ## What stands in a text -/

/-- The letters: neither a zero byte nor the padding is one. -/
theorem value_of_mem_encode {bytes : List UInt8} {b : UInt8} (h : b ∈ encode bytes) :
    ∃ n, value b = some n := by
  have hsymbol : ∀ n, n < 64 → b = symbol n → ∃ n, value b = some n :=
    fun n hn heq ↦ ⟨n, heq ▸ value_symbol n hn⟩
  induction bytes using encode.induct with
  | case1 => cases h
  | case2 a =>
      have ha := UInt8.toNat_lt a
      simp only [encode, List.mem_cons, List.not_mem_nil, or_false] at h
      rcases h with h | h
      · exact hsymbol _ (by omega) h
      · exact hsymbol _ (by omega) h
  | case3 a b' =>
      have ha := UInt8.toNat_lt a
      have hb := UInt8.toNat_lt b'
      simp only [encode, List.mem_cons, List.not_mem_nil, or_false] at h
      rcases h with h | h | h
      · exact hsymbol _ (by omega) h
      · exact hsymbol _ (by omega) h
      · exact hsymbol _ (by omega) h
  | case4 a b' c rest ih =>
      have ha := UInt8.toNat_lt a
      have hb := UInt8.toNat_lt b'
      have hc := UInt8.toNat_lt c
      simp only [encode, List.mem_cons] at h
      rcases h with h | h | h | h | h
      · exact hsymbol _ (by omega) h
      · exact hsymbol _ (by omega) h
      · exact hsymbol _ (by omega) h
      · exact hsymbol _ (by omega) h
      · exact ih h

/-! ## A text that is cut off -/

theorem decode_front {text rest bytes bytes' : List UInt8} (h : decode text = some bytes)
    (h' : decode (text ++ rest) = some bytes') : bytes <+: bytes' := by
  induction text using decode.induct generalizing bytes bytes' with
  | case1 =>
      cases h
      exact List.nil_prefix
  | case2 => cases h
  | case3 w x =>
      simp only [decode, bind, Option.bind_eq_some_iff, Option.ite_none_right_eq_some] at h
      obtain ⟨w', hw, x', hx, hzero, h⟩ := h
      cases h
      rcases rest with _ | ⟨y, _ | ⟨z, rest⟩⟩
      · simp only [List.append_nil, decode, bind, hw, hx, Option.bind_some, if_pos hzero] at h'
        cases h'
        exact List.prefix_rfl
      · simp only [List.cons_append, List.nil_append, decode, bind, hw, hx, Option.bind_some,
          Option.bind_eq_some_iff, Option.ite_none_right_eq_some] at h'
        obtain ⟨y', -, -, h'⟩ := h'
        cases h'
        exact ⟨_, rfl⟩
      · simp only [List.cons_append, List.nil_append, decode, bind, hw, hx, Option.bind_some,
          Option.bind_eq_some_iff] at h'
        obtain ⟨y', -, z', -, bytes'', -, h'⟩ := h'
        cases h'
        exact ⟨_, rfl⟩
  | case4 w x y =>
      simp only [decode, bind, Option.bind_eq_some_iff, Option.ite_none_right_eq_some] at h
      obtain ⟨w', hw, x', hx, y', hy, hzero, h⟩ := h
      cases h
      rcases rest with _ | ⟨z, rest⟩
      · simp only [List.append_nil, decode, bind, hw, hx, hy, Option.bind_some,
          if_pos hzero] at h'
        cases h'
        exact List.prefix_rfl
      · simp only [List.cons_append, List.nil_append, decode, bind, hw, hx, hy, Option.bind_some,
          Option.bind_eq_some_iff] at h'
        obtain ⟨z', -, bytes'', -, h'⟩ := h'
        cases h'
        exact ⟨_, rfl⟩
  | case5 w x y z text ih =>
      simp only [decode, bind, pure, Option.bind_eq_some_iff] at h
      obtain ⟨w', hw, x', hx, y', hy, z', hz, bytes₁, htext, h⟩ := h
      cases h
      simp only [List.cons_append, decode, bind, pure, hw, hx, hy, hz, Option.bind_some,
        Option.bind_eq_some_iff] at h'
      obtain ⟨bytes₂, hrest, h'⟩ := h'
      cases h'
      exact (List.prefix_cons_inj _).mpr ((List.prefix_cons_inj _).mpr
        ((List.prefix_cons_inj _).mpr (ih htext hrest)))

/-- A text that is cut off decodes, if at all, to bytes that are cut off. -/
theorem decode_of_prefix {text bytes bytes' : List UInt8} (hfront : text <+: encode bytes')
    (hne : text ≠ encode bytes') (h : decode text = some bytes) :
    bytes <+: bytes' ∧ bytes ≠ bytes' := by
  obtain ⟨rest, hrest⟩ := hfront
  have h' : decode (text ++ rest) = some bytes' := hrest ▸ decode_encode bytes'
  refine ⟨decode_front h h', ?_⟩
  rintro rfl
  exact hne (encode_of_decode h).symm

end Fspy.Lib.Base64
