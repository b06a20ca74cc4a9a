import Fspy.Basic
import Fspy.Lib.CString
import Fspy.Lib.Path

/-!
# The system calls of a process that is about to execute a program

`System` is the world as one process sees it: what a path names for it (relative
paths included), whether it may execute or read that, its current directory, and its
`PATH`.  The functions are the few calls exec resolution makes.
-/

namespace Fspy.Unix

/-- What a path names, with the permissions the process has on it. -/
inductive Node where
  | file (content : Bytes) (executable readable : Bool)
  | dir (executable readable : Bool)
deriving DecidableEq, Repr

namespace Node

def executable : Node → Bool
  | file _ executable _ => executable
  | dir executable _ => executable

def readable : Node → Bool
  | file _ _ readable => readable
  | dir _ readable => readable

end Node

/-- What the system calls of a process see. -/
structure System where
  /-- What a non-empty path names. -/
  lookup : Bytes → Except Errno Node
  /-- `getcwd`. -/
  cwd : Except Errno Bytes
  /-- `getenv("PATH")`. -/
  PATH : Option Bytes

namespace System

variable (sys : System)

/-- Path lookup in the kernel: the empty path names nothing. -/
def node (path : Bytes) : Except Errno Node :=
  if path.isEmpty then .error .ENOENT else sys.lookup path

/-- The `NixPath` conversion: a path with a zero byte does not reach the kernel. -/
def nixPath (path : Bytes) : Except Errno Node :=
  if Lib.NulFree path then sys.node path else .error .EINVAL

/-- `access(path, X_OK)`. -/
def access (path : Bytes) : Except Errno Unit :=
  match sys.nixPath path with
  | .error e => .error e
  | .ok node => if node.executable then .ok () else .error .EACCES

/-- `open(path, O_RDONLY | O_CLOEXEC)`. -/
def openRdonly (path : Bytes) : Except Errno Node :=
  match sys.nixPath path with
  | .error e => .error e
  | .ok node => if node.readable then .ok node else .error .EACCES

/-- `open_executable`. -/
def open_executable (path : Bytes) : Except Errno Node := do
  sys.access path
  sys.openRdonly path

/-- `peek_executable`, with a buffer of `len` bytes: the loop reads until the buffer
is full or the file ends. -/
def peek_executable (path : Bytes) (len : Nat) : Except Errno Bytes := do
  match ← sys.open_executable path with
  | .file content _ _ => .ok (content.take len)
  | .dir _ _ => .error .EISDIR

/-- `open_executable`, then `Mmap::map`. -/
def mmap_executable (path : Bytes) : Except Errno Bytes := do
  match ← sys.open_executable path with
  | .file content _ _ => .ok content
  | .dir _ _ => .error .ENODEV

/-- `std::path::absolute`. -/
def absolute (path : Bytes) : Option Bytes := Lib.Path.absolute sys.cwd.toOption path

/-- A path that `absolute` fails on. -/
def Unanchored (path : Bytes) : Prop := sys.absolute path = none

instance (path : Bytes) : Decidable (sys.Unanchored path) :=
  inferInstanceAs (Decidable (_ = none))

variable {sys} {path : Bytes}

/-- A path is anchored nowhere if it is empty, or relative while the current directory
cannot be read. -/
theorem unanchored_iff :
    sys.Unanchored path ↔
      path = [] ∨ Lib.Path.isAbsolute path = false ∧ ∃ e, sys.cwd = .error e := by
  rw [Unanchored, absolute, Lib.Path.absolute_eq_none]
  cases sys.cwd <;> simp [Except.toOption]

theorem access_eq_ok :
    sys.access path = .ok () ↔ ∃ node, sys.nixPath path = .ok node ∧ node.executable := by
  rw [access]
  cases sys.nixPath path with
  | error e => simp
  | ok node => cases h : node.executable <;> simp [h]

theorem openRdonly_eq_ok {node : Node} :
    sys.openRdonly path = .ok node ↔ sys.nixPath path = .ok node ∧ node.readable := by
  rw [openRdonly]
  cases sys.nixPath path with
  | error e => simp
  | ok node' =>
      dsimp only
      by_cases h : node'.readable = true
      · rw [if_pos h]
        constructor
        · rintro ⟨rfl⟩
          exact ⟨rfl, h⟩
        · exact And.left
      · rw [if_neg h]
        constructor
        · rintro ⟨⟩
        · rintro ⟨⟨rfl⟩, hr⟩
          exact absurd hr h

/-- What `open_executable` opens. -/
theorem open_executable_eq_ok {node : Node} :
    sys.open_executable path = .ok node ↔
      sys.nixPath path = .ok node ∧ node.executable ∧ node.readable := by
  rw [open_executable, bind_eq_ok]
  constructor
  · rintro ⟨⟨⟩, haccess, hopen⟩
    obtain ⟨node', hnode', hx⟩ := access_eq_ok.mp haccess
    obtain ⟨hnode, hr⟩ := openRdonly_eq_ok.mp hopen
    rw [hnode] at hnode'
    cases hnode'
    exact ⟨hnode, hx, hr⟩
  · rintro ⟨hnode, hx, hr⟩
    exact ⟨(), access_eq_ok.mpr ⟨node, hnode, hx⟩, openRdonly_eq_ok.mpr ⟨hnode, hr⟩⟩

theorem peek_executable_eq_ok {len : Nat} {buf : Bytes} :
    sys.peek_executable path len = .ok buf ↔
      ∃ content, sys.nixPath path = .ok (.file content true true) ∧ buf = content.take len := by
  rw [peek_executable, bind_eq_ok]
  constructor
  · rintro ⟨node, hopen, hbuf⟩
    obtain ⟨hnode, hx, hr⟩ := open_executable_eq_ok.mp hopen
    cases node with
    | dir => cases hbuf
    | file content executable readable =>
        obtain rfl : executable = true := hx
        obtain rfl : readable = true := hr
        exact ⟨content, hnode, (Except.ok.inj hbuf).symm⟩
  · rintro ⟨content, hnode, rfl⟩
    exact ⟨_, open_executable_eq_ok.mpr ⟨hnode, rfl, rfl⟩, rfl⟩

theorem mmap_executable_eq_ok {content : Bytes} :
    sys.mmap_executable path = .ok content ↔
      sys.nixPath path = .ok (.file content true true) := by
  rw [mmap_executable, bind_eq_ok]
  constructor
  · rintro ⟨node, hopen, hcontent⟩
    obtain ⟨hnode, hx, hr⟩ := open_executable_eq_ok.mp hopen
    cases node with
    | dir => cases hcontent
    | file content' executable readable =>
        obtain rfl : executable = true := hx
        obtain rfl : readable = true := hr
        obtain rfl : content' = content := Except.ok.inj hcontent
        exact hnode
  · intro hnode
    exact ⟨_, open_executable_eq_ok.mpr ⟨hnode, rfl, rfl⟩, rfl⟩

/-- A path with a zero byte cannot be opened. -/
theorem nulFree_of_mmap {content : Bytes} (h : sys.mmap_executable path = .ok content) :
    Lib.NulFree path := by
  have hnode := mmap_executable_eq_ok.mp h
  rw [nixPath] at hnode
  split at hnode
  · assumption
  · cases hnode

/-- What is peeked is the front of what is mapped. -/
theorem peek_eq_ok_iff_mmap {len : Nat} {buf : Bytes} :
    sys.peek_executable path len = .ok buf ↔
      ∃ content, sys.mmap_executable path = .ok content ∧ buf = content.take len := by
  simp only [peek_executable_eq_ok, mmap_executable_eq_ok]

theorem nixPath_of_nulFree (h : Lib.NulFree path) : sys.nixPath path = sys.node path :=
  if_pos h

/-- A small file system, seen from its root. -/
def ofFiles (files : List (Bytes × Node)) : System where
  lookup path := match files.lookup path with
    | some node => .ok node
    | none => .error .ENOENT
  cwd := .ok (ascii "/")
  PATH := none

end System

end Fspy.Unix
