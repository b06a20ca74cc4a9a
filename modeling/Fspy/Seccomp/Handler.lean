import Fspy.Ipc.Access
import Fspy.Lib.CString
import Fspy.Seccomp.Supervisor

/-!
# The handler of the supervisor

`SyscallHandler` is what the supervisor does with a notification: it reads the
arguments of the system call out of the target, by its pid, and adds an access to its
arena.  What `process_vm_readv` answers is a schedule of calls, since it may read less
than it was asked for; a read of a string goes on until it meets a zero byte, fails, or
has filled its buffer.
-/

namespace Fspy.Seccomp

/-- One call of `process_vm_readv`: what it answers for a process, an address and a
length. -/
abbrev Readv := UInt32 → UInt64 → Nat → Except Errno Bytes

/-- What the supervisor sees of the processes of the system. -/
structure Remote where
  /-- The calls of `process_vm_readv` for one notification, in order. -/
  readv : List Readv
  /-- The link `/proc/<pid>/cwd`. -/
  cwd : UInt32 → Except Errno Bytes
  /-- The links `/proc/<pid>/fd/<fd>`. -/
  fd : UInt32 → Int → Except Errno Bytes

/-! ## Arguments -/

/-- `CStrPtr`. -/
structure CStrPtr where
  pid : UInt32
  remote_ptr : UInt64
deriving DecidableEq, Repr

namespace CStrPtr

/-- `CStrPtr::read` into a buffer that holds `buf` and has `room` bytes left; `none` is a
call that is still reading when the schedule ends. -/
def read (path : CStrPtr) : List Readv → Nat → Bytes → Option (Except IoError Bytes)
  | _, 0, _ => some (.error .invalidFilename)
  | [], _ + 1, _ => none
  | process_vm_readv :: rest, room + 1, buf =>
      -- the address does not move with what was read before
      match process_vm_readv path.pid path.remote_ptr (room + 1) with
      | .error e => some (.error (.os e))
      | .ok chunk => match chunk.idxOf? 0 with
          | none => path.read rest (room + 1 - chunk.length) (buf ++ chunk)
          | some nul_index => some (.ok (buf ++ chunk.take nul_index))

/-- The buffer of `read_with_buf`, whatever `BUF_SIZE` is. -/
def bufSize : Nat := 32768

/-- `CStrPtr::read_with_buf`, up to the call of its argument. -/
def read_with_buf (path : CStrPtr) (schedule : List Readv) : Option (Except IoError Bytes) :=
  path.read schedule bufSize []

end CStrPtr

/-- `Fd`. -/
structure Fd where
  pid : UInt32
  fd : Int
deriving DecidableEq, Repr

namespace Fd

/-- `Fd::from_syscall_arg`: the low 32 bits, as a signed number. -/
def from_syscall_arg (pid : UInt32) (arg : UInt64) : Fd := ⟨pid, arg.toUInt32.toBitVec.toInt⟩

def AT_FDCWD : Int := -100

/-- `Fd::get_path`. -/
def get_path (remote : Remote) (fd : Fd) : Except Errno Bytes :=
  if fd.fd = AT_FDCWD then remote.cwd fd.pid else remote.fd fd.pid fd.fd

end Fd

/-! ## System calls -/

/-- `SyscallHandler`: its arena. -/
abbrev SyscallHandler := List PathAccess

namespace SyscallHandler

/-- The numbers of the system calls that are handled (x86_64). -/
def Sysno.openat : Int := 257
def Sysno.getdents64 : Int := 217

/-- `SyscallHandler::openat`. -/
def openat (remote : Remote) (arena : SyscallHandler) (path : CStrPtr) :
    Option (SyscallHandler × Except IoError Unit) :=
  match path.read_with_buf remote.readv with
  | none => none
  | some (.error e) => some (arena, .error e)
  | some (.ok path) => some (arena ++ [⟨.Read, path⟩], .ok ())

/-- `SyscallHandler::getdents64`. -/
def getdents64 (remote : Remote) (arena : SyscallHandler) (fd : Fd) :
    SyscallHandler × Except IoError Unit :=
  match fd.get_path remote with
  | .error e => (arena, .error (.os e))
  | .ok path => (arena ++ [⟨.ReadDir, path⟩], .ok ())

/-- The `i`th argument of the system call. -/
def arg (notify : Notif) (i : Nat) : UInt64 := notify.args.getD i 0

/-- `SyscallHandler::handle_notify`. -/
def handle_notify (remote : Remote) (arena : SyscallHandler) (notify : Notif) :
    Option (SyscallHandler × Except IoError Unit) :=
  if notify.nr = Sysno.openat then openat remote arena ⟨notify.pid, arg notify 1⟩
  else if notify.nr = Sysno.getdents64 then
    some (getdents64 remote arena (.from_syscall_arg notify.pid (arg notify 0)))
  else some (arena, .ok ())

end SyscallHandler

/-! ## Reading a string -/

theorem take_of_idxOf? {l : Bytes} {n : Nat} (h : l.idxOf? 0 = some n) :
    l.take n = Lib.cstr l := by
  induction l generalizing n with
  | nil => cases h
  | cons b l ih =>
      rw [List.idxOf?_cons] at h
      by_cases hb : b = 0
      · subst hb
        rw [if_pos (by rfl)] at h
        obtain rfl := Option.some.inj h
        rfl
      · rw [if_neg (by simpa using hb)] at h
        obtain ⟨m, hm, rfl⟩ := Option.map_eq_some_iff.mp h
        rw [List.take_succ_cons, ih hm, Lib.cstr, Lib.cstr,
          List.takeWhile_cons_of_pos (by simpa using hb)]

/-- A string ends where it ends, whatever is read after it. -/
theorem cstr_append_of_mem {l : Bytes} (rest : Bytes) (h : (0 : UInt8) ∈ l) :
    Lib.cstr (l ++ rest) = Lib.cstr l := by
  induction l with
  | nil => cases h
  | cons b l ih =>
      by_cases hb : b = 0
      · subst hb
        rfl
      · have hmem : (0 : UInt8) ∈ l := (List.mem_cons.mp h).resolve_left (Ne.symm hb)
        rw [List.cons_append, Lib.cstr, Lib.cstr,
          List.takeWhile_cons_of_pos (by simpa using hb),
          List.takeWhile_cons_of_pos (by simpa using hb)]
        exact congrArg _ (ih hmem)

theorem cstr_take {l : Bytes} {n : Nat} (h : (0 : UInt8) ∈ l.take n) :
    Lib.cstr (l.take n) = Lib.cstr l := by
  rw [← cstr_append_of_mem (l.drop n) h, List.take_append_drop]

/-- A read that reaches the end of the string is the only one. -/
theorem CStrPtr.read_of_mem {path : CStrPtr} {process_vm_readv : Readv} {rest : List Readv}
    {room : Nat} {chunk buf : Bytes}
    (hread : process_vm_readv path.pid path.remote_ptr (room + 1) = .ok chunk)
    (hnul : (0 : UInt8) ∈ chunk) :
    path.read (process_vm_readv :: rest) (room + 1) buf = some (.ok (buf ++ Lib.cstr chunk)) := by
  obtain ⟨n, hn⟩ := Option.ne_none_iff_exists'.mp
    (fun hnone ↦ List.idxOf?_eq_none_iff.mp hnone hnul)
  rw [read, hread]
  dsimp only
  rw [hn, ← take_of_idxOf? hn]

end Fspy.Seccomp
