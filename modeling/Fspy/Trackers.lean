import Fspy.Seccomp.Handler
import Fspy.Unix.Open

/-!
# The two trackers of `openat`

A program that loads the preload library reports an `openat` through the libc function,
any other one through the system call.  The first sends the absolute path with the mode
the flags ask for; the second adds the path as it stands, read.  `agree_iff` says on
which calls this comes to the same.
-/

namespace Fspy

open Lib Seccomp Shm Unix

/-- A call of `openat`; `pathname` is the memory from its pointer on. -/
structure OpenatCall where
  dirfd : Int
  pathname : Bytes
  flags : BitVec 32

/-- The longest path and its terminator. -/
def PATH_MAX : Nat := 4096

namespace OpenatCall

/-- The notification of the system call, with its pointer. -/
def notif (call : OpenatCall) (id : UInt64) (pid : UInt32) (ptr : UInt64) : Notif where
  id := id
  pid := pid
  nr := SyscallHandler.Sysno.openat
  args := [.ofBitVec (.ofInt 64 call.dirfd), ptr, .ofBitVec (call.flags.setWidth 64), 0, 0, 0]

/-- The memory of the target: what is mapped from the pointer on is read. -/
def readv (call : OpenatCall) : Readv := fun _ _ len ↦ .ok (call.pathname.take len)

/-- What the supervisor adds to its arena, if it is done with the notification. -/
def supervised (call : OpenatCall) (remote : Remote) (id : UInt64) (pid : UInt32)
    (ptr : UInt64) : Option (List PathAccess) :=
  (SyscallHandler.handle_notify { remote with readv := [call.readv] } []
    (call.notif id pid ptr)).map Prod.fst

/-- The access of a record. -/
def accessOf (codec : Codec PathAccess) (written : Written) : Option PathAccess :=
  (codec.decode written.bytes.tail).map Prod.fst

/-- What the preload library sends, unless it panics. -/
def preloaded (call : OpenatCall) (codec : Codec PathAccess) (helpers : Helpers)
    (client : Client) : Except Stop (List PathAccess) :=
  (handle_open codec helpers (some client) (.pathAt call.dirfd call.pathname)
    (.openFlags call.flags)).map fun out ↦ out.2.toList.filterMap (accessOf codec)

/-- The two record the same accesses. -/
def Agree (call : OpenatCall) (codec : Codec PathAccess) (helpers : Helpers) (client : Client)
    (remote : Remote) (id : UInt64) (pid : UInt32) (ptr : UInt64) : Prop :=
  ∃ accesses, call.supervised remote id pid ptr = some accesses ∧
    call.preloaded codec helpers client = .ok accesses

/-- The path of a call. -/
def path (call : OpenatCall) : Bytes := cstr call.pathname

variable {call : OpenatCall} {codec : Codec PathAccess} {helpers : Helpers} {client : Client}
  {remote : Remote} {id : UInt64} {pid : UInt32} {ptr : UInt64}

/-- The path is NUL-terminated and shorter than `PATH_MAX`. -/
def Terminated (call : OpenatCall) : Prop := (0 : UInt8) ∈ call.pathname.take PATH_MAX

instance (call : OpenatCall) : Decidable call.Terminated := inferInstanceAs (Decidable (_ ∈ _))

theorem Terminated.length_lt (h : call.Terminated) : call.path.length < PATH_MAX := by
  rw [path, ← cstr_take h]
  have hfront : cstr (call.pathname.take PATH_MAX) <+: call.pathname.take PATH_MAX :=
    List.takeWhile_prefix _
  have hne : (cstr (call.pathname.take PATH_MAX)).length ≠
      (call.pathname.take PATH_MAX).length := by
    intro hlen
    apply nulFree_cstr (call.pathname.take PATH_MAX)
    rw [hfront.eq_of_length hlen]
    exact h
  exact Nat.lt_of_lt_of_le (Nat.lt_of_le_of_ne hfront.length_le hne) (List.length_take_le _ _)

/-- The supervisor adds the path as it stands. -/
theorem supervised_eq (h : call.Terminated) :
    call.supervised remote id pid ptr = some [⟨.Read, call.path⟩] := by
  have hnul : (0 : UInt8) ∈ call.pathname.take CStrPtr.bufSize := by
    rw [Terminated, ← Nat.min_eq_left (show PATH_MAX ≤ CStrPtr.bufSize by decide),
      ← List.take_take] at h
    exact List.mem_of_mem_take h
  have hread : CStrPtr.read_with_buf ⟨pid, ptr⟩ [call.readv] =
      some (.ok ([] ++ cstr (call.pathname.take CStrPtr.bufSize))) :=
    CStrPtr.read_of_mem rfl hnul
  rw [List.nil_append, cstr_take hnul] at hread
  simp [supervised, SyscallHandler.handle_notify, notif, SyscallHandler.openat,
    SyscallHandler.arg, hread, path]

@[simp] theorem accessOf_frame (chunk start : Nat) (a : PathAccess) :
    accessOf codec ⟨chunk, start, codec.frame a⟩ = some a := by
  have hdecode := codec.decode_encode a []
  rw [List.append_nil] at hdecode
  simp [accessOf, Codec.frame, hdecode]

/-- The access that a call is to send. -/
def sent (call : OpenatCall) (helpers : Helpers) : Option PathAccess :=
  match recorded helpers (.pathAt call.dirfd call.pathname) with
  | none => none
  | some path =>
      if filtered ⟨(ModeArg.openFlags call.flags).to_access_mode, path⟩ then none
      else some ⟨(ModeArg.openFlags call.flags).to_access_mode, path⟩

/-- It is sent, unless the call panics. -/
theorem preloaded_of_ok {out : Client × Option Written}
    (h : client.try_handle_open codec helpers (.pathAt call.dirfd call.pathname)
      (.openFlags call.flags) = .ok out) :
    call.preloaded codec helpers client = .ok (call.sent helpers).toList := by
  obtain ⟨client', written⟩ := out
  rw [preloaded, handle_open, h, sent]
  rcases Client.try_handle_open_eq_ok h with ⟨hrec, rfl⟩ | ⟨path, hrec, hsend⟩
  · rw [hrec]
    rfl
  · rw [hrec]
    rcases Client.send_eq_ok hsend with ⟨hfiltered, rfl⟩ | ⟨hfiltered, chunk, start, rfl⟩
    · simp [Except.map, hfiltered]
    · simp [Except.map, hfiltered]

theorem preloaded_eq_ok {accesses : List PathAccess}
    (h : call.preloaded codec helpers client = .ok accesses) :
    accesses = (call.sent helpers).toList := by
  cases htry : client.try_handle_open codec helpers (.pathAt call.dirfd call.pathname)
      (.openFlags call.flags) with
  | ok out => exact Except.ok.inj (h.symm.trans (preloaded_of_ok htry))
  | error e =>
      rw [preloaded, handle_open, htry] at h
      cases h

/-- An absolute path is recorded as it stands. -/
theorem recorded_absolute (helpers : Helpers) (h : Path.isAbsolute call.path) :
    recorded helpers (.pathAt call.dirfd call.pathname) = some call.path := by
  have hrel : (PathArg.pathAt call.dirfd call.pathname).relative = none := if_pos h
  rw [recorded, hrel]
  rfl

/-- Every path that is recorded is absolute. -/
theorem isAbsolute_of_recorded {path : Bytes}
    (hdir : ∀ dir, helpers.dirPath call.dirfd = .ok dir → Path.isAbsolute dir)
    (h : recorded helpers (.pathAt call.dirfd call.pathname) = some path) :
    Path.isAbsolute path := by
  rcases recorded_eq_some h with ⟨-, habs⟩ | ⟨fd, name, dir, hrel, hname, htext, rfl⟩
  · exact habs
  · rw [PathArg.relative] at hrel
    split at hrel
    · cases hrel
    · cases hrel
      have habs := hdir dir htext
      have hne : dir ≠ [] := by
        rintro rfl
        cases habs
      rw [isAbsolute_below hne hname]
      exact habs

theorem recorded_of_sent {access : PathAccess} (h : call.sent helpers = some access) :
    recorded helpers (.pathAt call.dirfd call.pathname) = some access.path := by
  rw [sent] at h
  split at h
  · cases h
  · rename_i path hrec
    split at h
    · cases h
    · cases h
      exact hrec

/-- Opening an absolute path does not panic. -/
theorem exists_out_of_isAbsolute (hpath : call.Terminated) (habs : Path.isAbsolute call.path)
    (hfits : ∀ a : PathAccess, a.path.length < PATH_MAX → 1 + codec.size a ≤ SHM_CHUNK_SIZE) :
    ∃ out, client.try_handle_open codec helpers (.pathAt call.dirfd call.pathname)
      (.openFlags call.flags) = .ok out := by
  refine (client.try_handle_open_isOk).mpr ⟨?_, ?_⟩
  · intro fd name hrel
    have hnone : (PathArg.pathAt call.dirfd call.pathname).relative = none := if_pos habs
    cases hnone.symm.trans hrel
  · intro path hrec
    obtain rfl := Option.some.inj ((recorded_absolute helpers habs).symm.trans hrec)
    exact .inr (hfits _ hpath.length_lt)

/-- **When the two trackers of `openat` agree**: the path is absolute, it is not one that
the preload library leaves out, and the file is opened for reading only. -/
theorem agree_iff (hpath : call.Terminated)
    (hdir : ∀ dir, helpers.dirPath call.dirfd = .ok dir → Path.isAbsolute dir)
    (hfits : ∀ a : PathAccess, a.path.length < PATH_MAX → 1 + codec.size a ≤ SHM_CHUNK_SIZE) :
    call.Agree codec helpers client remote id pid ptr ↔
      Path.isAbsolute call.path ∧ ¬filtered (.read call.path) ∧
        (ModeArg.openFlags call.flags).to_access_mode = .Read := by
  rw [Agree, supervised_eq hpath]
  simp only [Option.some.injEq, exists_eq_left']
  cases habs : Path.isAbsolute call.path with
  | true =>
      obtain ⟨out, hout⟩ := exists_out_of_isAbsolute hpath habs hfits
      have hsame : filtered ⟨(ModeArg.openFlags call.flags).to_access_mode, call.path⟩ =
          filtered (.read call.path) := rfl
      rw [preloaded_of_ok hout, sent, recorded_absolute helpers habs]
      dsimp only
      rw [hsame]
      cases hfiltered : filtered (.read call.path) with
      | true => simp
      | false => simp
  | false =>
      -- the supervisor adds a relative path, the preload library an absolute one
      refine iff_of_false (fun h ↦ ?_) (fun h ↦ nomatch h.1)
      have hsent : call.sent helpers = some (.read call.path) :=
        Option.toList_eq_singleton_iff.mp (preloaded_eq_ok h).symm
      have := isAbsolute_of_recorded hdir (recorded_of_sent hsent)
      rw [show (PathAccess.read call.path).path = call.path from rfl, habs] at this
      cases this

theorem not_agree (accesses accesses' : List PathAccess)
    (hsupervised : call.supervised remote id pid ptr = some accesses)
    (hpreloaded : call.preloaded codec helpers client = .ok accesses')
    (hne : accesses ≠ accesses') : ¬call.Agree codec helpers client remote id pid ptr := by
  rintro ⟨as, has, has'⟩
  obtain rfl := Option.some.inj (hsupervised.symm.trans has)
  exact hne (Except.ok.inj (has'.symm.trans hpreloaded))

/-- A call below the current directory. -/
def sampleCall (path : String) (flags : BitVec 32) : OpenatCall :=
  ⟨AT_FDCWD, toCStr (ascii path), flags⟩

def sampleHelpers : Helpers := ⟨.ok (ascii "/w"), fun _ ↦ .error .EBADF⟩

def sampleRemote : Remote := ⟨[], fun _ ↦ .ok (ascii "/w"), fun _ _ ↦ .error .ENOENT⟩

/-- A relative path, a file opened for writing, and a path that is left out. -/
theorem trackers_disagree :
    ¬(sampleCall "hello" 0).Agree PathAccess.shortCodec sampleHelpers ⟨none, 0⟩
        sampleRemote 1 7 4096 ∧
      ¬(sampleCall "/w/hello" O_WRONLY).Agree PathAccess.shortCodec sampleHelpers ⟨none, 0⟩
        sampleRemote 1 7 4096 ∧
      ¬(sampleCall "/dev/null" 0).Agree PathAccess.shortCodec sampleHelpers ⟨none, 0⟩
        sampleRemote 1 7 4096 := by
  refine ⟨?_, ?_, ?_⟩
  · exact not_agree [.read (ascii "hello")] [.read (ascii "/w/hello")] (by decide +kernel)
      (by decide +kernel) (by decide)
  · exact not_agree [.read (ascii "/w/hello")] [⟨.Write, ascii "/w/hello"⟩] (by decide +kernel)
      (by decide +kernel) (by decide)
  · exact not_agree [.read (ascii "/dev/null")] [] (by decide +kernel) (by decide +kernel)
      (by decide)

theorem size_shortCodec_le (a : PathAccess) :
    PathAccess.shortCodec.size a ≤ 2 * a.path.length + 3 := by
  have hlen : (PathAccess.lenBytes a.path.length).length ≤ a.path.length + 2 := by
    rw [PathAccess.lenBytes]
    split <;> simp
  simp only [Codec.size, PathAccess.shortCodec, List.length_cons, List.length_append]
  omega

/-- A file that is read. -/
theorem trackers_agree : (sampleCall "/w/hello" 0).Agree PathAccess.shortCodec sampleHelpers
    ⟨none, 0⟩ sampleRemote 1 7 4096 := by
  refine (agree_iff (by decide +kernel) ?_ ?_).mpr ⟨by decide, by decide, by decide⟩
  · rintro dir ⟨⟩
    decide
  · intro a ha
    have hsize := size_shortCodec_le a
    simp only [PATH_MAX, SHM_CHUNK_SIZE] at ha ⊢
    omega

end OpenatCall

end Fspy
