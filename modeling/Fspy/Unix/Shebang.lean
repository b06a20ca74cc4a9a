import Fspy.Unix.System
import Fspy.Ipc.Access
import Fspy.Lib.Traced

/-!
# Parsing the first line of a script

`parse_shebang` peeks at most `PEEK_SIZE` bytes of an executable and takes them
apart.  The parser itself is `parseLine`, a function of the peeked bytes; it does
not fail, since `slice::split` yields at least one piece.
-/

namespace Fspy.Unix

/-- What resolution does: return, fail with an error number or panic, and report the
accesses it makes before it ends. -/
abbrev ExecM (α : Type) := Lib.Traced PathAccess Stop α

/-- `?` on a `nix::Result`. -/
def nixResult {α : Type} (x : Except Errno α) : ExecM α := .ofExcept (x.mapError .errno)

theorem nixResult_eq_ok {α : Type} {x : Except Errno α} {a : α} :
    (nixResult x).result = .ok a ↔ x = .ok a := mapError_eq_ok

/-- `?` goes through a computation step by step. -/
theorem nixResult_bind {α β : Type} (x : Except Errno α) (k : α → Except Errno β) :
    nixResult (x >>= k) = nixResult x >>= fun a ↦ nixResult (k a) := by
  cases x <;> rfl

theorem nixResult_ne_panic {α : Type} {x : Except Errno α} :
    (nixResult x).result ≠ .error .panic := by
  intro h
  obtain ⟨e, -, he⟩ := mapError_eq_error.mp h
  cases he

structure Shebang where
  interpreter : Bytes
  arguments : List Bytes
deriving DecidableEq, Repr

/-- `is_whitespace`: what separates the words of a shebang line. -/
def is_whitespace (c : UInt8) : Bool := c == 32 || c == 9

/-- `u8::is_ascii_whitespace`. -/
def isAsciiWhitespace (c : UInt8) : Bool :=
  c == 32 || c == 9 || c == 10 || c == 12 || c == 13

/-- `<[u8]>::trim_ascii_start`. -/
def trim_ascii_start (s : Bytes) : Bytes := s.dropWhile isAsciiWhitespace

/-- `<[u8]>::trim_ascii`. -/
def trim_ascii (s : Bytes) : Bytes :=
  ((trim_ascii_start s).reverse.dropWhile isAsciiWhitespace).reverse

structure ParseShebangOptions where
  split_arguments : Bool
deriving DecidableEq, Repr

/-- `ParseShebangOptions::default`, not on an Apple target. -/
def ParseShebangOptions.default : ParseShebangOptions := ⟨false⟩

def PEEK_SIZE : Nat := 128

/-- What `parse_shebang` makes of the bytes it has peeked. -/
def parseLine (buf : Bytes) (options : ParseShebangOptions) : Except Errno (Option Shebang) :=
  if !(ascii "#!").isPrefixOf buf then .ok none
  else match ((buf.drop 2).splitOn 10).head? with
    | none => .error .ENOEXEC
    | some line =>
        let line := trim_ascii line
        match (line.splitOnP is_whitespace).head? with
        | none => .ok none
        | some interpreter =>
            let arguments_buf := trim_ascii_start (line.drop interpreter.length)
            let arguments :=
              if options.split_arguments then
                (arguments_buf.splitOnP is_whitespace).filterMap fun arg ↦
                  if (trim_ascii arg).isEmpty then none else some (trim_ascii arg)
              else if arguments_buf.isEmpty then [] else [arguments_buf]
            .ok (some ⟨interpreter, arguments⟩)

/-- `parse_shebang`. -/
def parse_shebang (peek_executable : Bytes → Nat → ExecM Bytes) (path : Bytes)
    (options : ParseShebangOptions) : ExecM (Option Shebang) := do
  let buf ← peek_executable path PEEK_SIZE
  nixResult (parseLine buf options)

/-- Both `split`s yield a first piece, so the parser returns. -/
theorem parseLine_ok (buf : Bytes) (options : ParseShebangOptions) :
    ∃ shebang, parseLine buf options = .ok shebang := by
  rw [parseLine]
  split
  · exact ⟨_, rfl⟩
  · cases h : ((buf.drop 2).splitOn 10).head? with
    | none => exact absurd (List.head?_eq_none_iff.mp h) (List.splitOn_ne_nil _ _)
    | some line =>
        dsimp only
        split
        · exact ⟨_, rfl⟩
        · exact ⟨_, rfl⟩

/-- The shebang of a file content. -/
def shebangOf (content : Bytes) (options : ParseShebangOptions) : Option Shebang :=
  (parseLine (content.take PEEK_SIZE) options).toOption.join

theorem parseLine_eq (content : Bytes) (options : ParseShebangOptions) :
    parseLine (content.take PEEK_SIZE) options = .ok (shebangOf content options) := by
  obtain ⟨shebang, h⟩ := parseLine_ok (content.take PEEK_SIZE) options
  rw [shebangOf, h]
  rfl

/-- The simplest script: an interpreter and no arguments. -/
example : parseLine (ascii "#! /bin/sh -e x \necho") .default =
    .ok (some ⟨ascii "/bin/sh", [ascii "-e x"]⟩) := by decide

end Fspy.Unix
