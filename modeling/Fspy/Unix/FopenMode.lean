import Fspy.Unix.Open

/-!
# The mode of `fopen`

`fopen` takes its mode as a string and `open` as flags.  The hooks turn both into an
access mode: the flags by their value, the string by the letters that occur anywhere in
it.  A mode is what the string says; the flags are those that `fopen` passes on.
-/

namespace Fspy.Unix

open Fspy.Lib

namespace FopenMode

/-- The first letter. -/
inductive First where
  | r
  | w
  | a
deriving DecidableEq, Repr

/-- The letters that may follow it, in any order and number. -/
inductive Modifier where
  | plus
  | b
  | c
  | e
  | m
  | x
deriving DecidableEq, Repr

def First.byte : First → UInt8
  | r => 114
  | w => 119
  | a => 97

def Modifier.byte : Modifier → UInt8
  | plus => 43
  | b => 98
  | c => 99
  | e => 101
  | m => 109
  | x => 120

end FopenMode

open FopenMode

/-- A valid mode of `fopen`. -/
structure FopenMode where
  first : First
  modifiers : List Modifier
  /-- What follows `,ccs=`. -/
  charset : Option Bytes
  charset_nulFree : ∀ name ∈ charset, NulFree name

namespace FopenMode

/-- The suffix with the charset. -/
def suffix : Option Bytes → Bytes
  | none => []
  | some name => ascii ",ccs=" ++ name

variable (mode : FopenMode)

/-- The mode as a string. -/
def text : Bytes := mode.first.byte :: (mode.modifiers.map Modifier.byte ++ suffix mode.charset)

def O_CREAT : BitVec 32 := 0x40
def O_EXCL : BitVec 32 := 0x80
def O_TRUNC : BitVec 32 := 0x200
def O_APPEND : BitVec 32 := 0x400
def O_CLOEXEC : BitVec 32 := 0x80000

/-- How the file is accessed. -/
def accessFlags : BitVec 32 :=
  if .plus ∈ mode.modifiers then O_RDWR
  else match mode.first with
    | .r => 0
    | .w | .a => O_WRONLY

/-- How the file is opened. -/
def creationFlags : BitVec 32 :=
  match mode.first with
  | .r => 0
  | .w => O_CREAT ||| O_TRUNC
  | .a => O_CREAT ||| O_APPEND

/-- The flags that `fopen` passes to `open`. -/
def flags : BitVec 32 :=
  mode.accessFlags ||| (mode.creationFlags |||
    ((if .x ∈ mode.modifiers then O_EXCL else 0) |||
      if .e ∈ mode.modifiers then O_CLOEXEC else 0))

/-- The letters of the charset that the string conversion takes for another mode. -/
def misread : First → List UInt8
  | .r => [119, 97]
  | .w | .a => [114]

variable {mode}

/-- The other flags leave the access mode alone. -/
theorem flags_and_accmode : mode.flags &&& O_ACCMODE = mode.accessFlags := by
  rw [flags, creationFlags, accessFlags]
  cases mode.first <;> by_cases hplus : Modifier.plus ∈ mode.modifiers <;>
    by_cases hx : Modifier.x ∈ mode.modifiers <;> by_cases he : Modifier.e ∈ mode.modifiers <;>
    simp only [hplus, hx, he, if_true, if_false] <;> decide

theorem openFlags_to_access_mode : (ModeArg.openFlags mode.flags).to_access_mode =
    if .plus ∈ mode.modifiers then .ReadWrite
    else if mode.first = .r then .Read else .Write := by
  rw [ModeArg.to_access_mode, flags_and_accmode, accessFlags]
  by_cases hplus : Modifier.plus ∈ mode.modifiers
  · simp only [hplus, if_true]
  · simp only [hplus, if_false]
    cases mode.first <;> decide

theorem nulFree_text : NulFree mode.text := by
  intro h
  rw [text, List.mem_cons, List.mem_append, List.mem_map] at h
  rcases h with h | ⟨letter, -, h⟩ | h
  · cases hfirst : mode.first <;> rw [hfirst] at h <;> cases h
  · cases letter <;> cases h
  · cases hcharset : mode.charset with
    | none =>
        rw [hcharset] at h
        cases h
    | some name =>
        rw [hcharset, suffix, List.mem_append] at h
        rcases h with h | h
        · exact absurd h (by decide)
        · exact mode.charset_nulFree name hcharset h

/-- The string as `ModeStr` sees it in memory. -/
theorem cstr_text (after : Bytes) : cstr (mode.text ++ 0 :: after) = mode.text := by
  rw [cstr, List.takeWhile_append_of_pos, List.takeWhile_cons_of_neg (by simp), List.append_nil]
  intro c hc
  rw [bne_iff_ne]
  rintro rfl
  exact nulFree_text hc

/-- A letter of the access modes stands first, or in the charset. -/
theorem mem_text {letter : UInt8} (h : letter ∈ [(114 : UInt8), 119, 97]) :
    letter ∈ mode.text ↔ letter = mode.first.byte ∨ letter ∈ mode.charset.getD [] := by
  have hmodifiers : letter ∉ mode.modifiers.map Modifier.byte := by
    rw [List.mem_map]
    rintro ⟨modifier, -, rfl⟩
    cases modifier <;> exact absurd h (by decide)
  have hsuffix : letter ∈ suffix mode.charset ↔ letter ∈ mode.charset.getD [] := by
    cases mode.charset with
    | none => exact Iff.rfl
    | some name =>
        rw [suffix, List.mem_append]
        refine or_iff_right fun hprefix ↦ ?_
        simp only [List.mem_cons, List.not_mem_nil, or_false] at h
        rcases h with rfl | rfl | rfl <;> exact absurd hprefix (by decide)
  rw [text, List.mem_cons, List.mem_append, hsuffix]
  exact or_congr_right (or_iff_right hmodifiers)

theorem contains_text {letter : UInt8} (h : letter ∈ [(114 : UInt8), 119, 97]) :
    mode.text.contains letter =
      decide (letter = mode.first.byte ∨ letter ∈ mode.charset.getD []) := by
  rw [List.contains_eq_mem, decide_eq_decide]
  exact mem_text h

/-- What `ModeStr` makes of a mode: the charset counts, a `+` does not. -/
theorem modeStr_to_access_mode (after : Bytes) :
    (ModeArg.modeStr (mode.text ++ 0 :: after)).to_access_mode =
      if ∃ letter ∈ misread mode.first, letter ∈ mode.charset.getD [] then .ReadWrite
      else if mode.first = .r then .Read else .Write := by
  have hr : mode.text.contains 114 = _ := contains_text (by decide)
  have hw : mode.text.contains 119 = _ := contains_text (by decide)
  have ha : mode.text.contains 97 = _ := contains_text (by decide)
  rw [ModeArg.to_access_mode]
  simp only [cstr_text, hr, hw, ha]
  cases mode.first with
  | r =>
      by_cases hwrite : (119 : UInt8) ∈ mode.charset.getD [] <;>
        by_cases happend : (97 : UInt8) ∈ mode.charset.getD [] <;>
        simp [First.byte, misread, hwrite, happend]
  | w =>
      by_cases hmisread : (114 : UInt8) ∈ mode.charset.getD [] <;>
        simp [First.byte, misread, hmisread]
  | a =>
      by_cases hmisread : (114 : UInt8) ∈ mode.charset.getD [] <;>
        simp [First.byte, misread, hmisread]

end FopenMode

/-- **When `fopen` and `open` report the same access mode**: where the charset has a letter
that is taken for another mode exactly if the mode has a `+`. -/
theorem fopen_mode_eq_iff (mode : FopenMode) (after : Bytes) :
    (ModeArg.modeStr (mode.text ++ 0 :: after)).to_access_mode =
        (ModeArg.openFlags mode.flags).to_access_mode ↔
      (.plus ∈ mode.modifiers ↔
        ∃ letter ∈ misread mode.first, letter ∈ mode.charset.getD []) := by
  rw [FopenMode.modeStr_to_access_mode, FopenMode.openFlags_to_access_mode]
  by_cases hplus : Modifier.plus ∈ mode.modifiers <;>
    by_cases hmisread : ∃ letter ∈ misread mode.first, letter ∈ mode.charset.getD [] <;>
    by_cases hfirst : mode.first = .r <;> simp [hplus, hmisread, hfirst]

/-- `"r+"`, the mode of a file that is read and written. -/
def readPlus : FopenMode := ⟨.r, [.plus], none, by simp⟩

theorem fopen_readPlus :
    readPlus.text = ascii "r+" ∧
      (ModeArg.modeStr (toCStr (ascii "r+"))).to_access_mode = .Read ∧
      (ModeArg.openFlags readPlus.flags).to_access_mode = .ReadWrite ∧
      (ModeArg.modeStr (readPlus.text ++ 0 :: [])).to_access_mode ≠
        (ModeArg.openFlags readPlus.flags).to_access_mode := by
  decide

end Fspy.Unix
