import Fspy.Unix.System

/-!
# Telling dynamically linked programs apart

The `elf` crate is a parameter: what `minimal_parse` returns, with the two questions
the program asks of it.
-/

namespace Fspy.Unix

/-- A program header. -/
structure ProgramHeader where
  p_type : Nat
  p_offset : Nat
  p_filesz : Nat
deriving DecidableEq, Repr

/-- `elf::ElfBytes`. -/
structure ElfBytes where
  /-- The program headers, if the file has a table of them. -/
  segments : Option (List ProgramHeader)
  /-- The bytes of a segment, if they lie in the file. -/
  segment_data : ProgramHeader → Option Bytes

/-- `ElfBytes::minimal_parse`. -/
abbrev ElfCrate := Bytes → Option ElfBytes

def PT_INTERP : Nat := 3

/-- `get_interp`. -/
def get_interp (minimal_parse : ElfCrate) (executable : Bytes) : Except Errno (Option Bytes) :=
  match minimal_parse executable with
  | none => .error .ENOEXEC
  | some elf => match elf.segments with
    | none => .ok none
    | some headers => match headers.find? (·.p_type = PT_INTERP) with
      | none => .ok none
      | some interp_header => match elf.segment_data interp_header with
        | none => .error .ENOEXEC
        | some interp => .ok (some (Lib.cstr interp))

/-- `is_dynamically_linked_to_libc`. -/
def is_dynamically_linked_to_libc (minimal_parse : ElfCrate) (executable : Bytes) :
    Except Errno Bool := do
  match ← get_interp minimal_parse executable with
  | none => return false
  | some interp => match Lib.Path.fileName interp with
    | none => return false
    | some interp_filename =>
        return (ascii "ld-").isPrefixOf interp_filename || (ascii "ld.").isPrefixOf interp_filename

/-- A small ELF file: the file header, one program header of type `PT_INTERP`, and the
path of the dynamic linker. -/
def sampleElf : Bytes :=
  [0x7f, 0x45, 0x4c, 0x46, 2, 1, 1, 0, 0, 0, 0, 0, 0, 0, 0, 0,
    2, 0, 0x3e, 0, 1, 0, 0, 0, 0, 0, 0, 0, 0, 0, 0, 0,
    64, 0, 0, 0, 0, 0, 0, 0, 0, 0, 0, 0, 0, 0, 0, 0,
    0, 0, 0, 0, 64, 0, 56, 0, 1, 0, 64, 0, 0, 0, 0, 0,
    3, 0, 0, 0, 4, 0, 0, 0, 120, 0, 0, 0, 0, 0, 0, 0,
    0, 0, 0, 0, 0, 0, 0, 0, 0, 0, 0, 0, 0, 0, 0, 0,
    28, 0, 0, 0, 0, 0, 0, 0, 28, 0, 0, 0, 0, 0, 0, 0, 1, 0, 0, 0, 0, 0, 0, 0] ++
  ascii "/lib64/ld-linux-x86-64.so.2" ++ [0]

/-- What the crate makes of `sampleElf`; anything else is not parsed. -/
def sampleCrate : ElfCrate := fun bytes ↦
  if bytes = sampleElf then
    some ⟨some [⟨PT_INTERP, 120, 28⟩], fun header ↦
      some ((bytes.drop header.p_offset).take header.p_filesz)⟩
  else none

example : is_dynamically_linked_to_libc sampleCrate sampleElf = .ok true := by decide +kernel

end Fspy.Unix
