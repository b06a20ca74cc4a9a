import Fspy.Shm.Client
import Fspy.Lib.CString
import Fspy.Lib.Path

/-!
# Intercepting a path call

`handle_open` makes the path of an `open`, `stat` or `opendir` absolute and sends it to
the log of the calling thread, all in one synchronous call: this is the same `send` as
in the transition system of the log, seen from outside and with every system call it
makes for a chunk going through.  Whatever goes wrong ends in an `unwrap`.
-/

namespace Fspy.Unix

open Lib Shm

/-- An `anyhow::Error`. -/
inductive OpenError where
  | errno (e : Errno)
  | context (message : String)
deriving DecidableEq, Repr

/-! ## The helper calls -/

/-- The calls that turn a directory into a path. -/
structure Helpers where
  getcwd : Except Errno Bytes
  /-- `readlink("/proc/self/fd/…")`. -/
  readlink : Int → Except Errno Bytes

def AT_FDCWD : Int := -100

/-- `get_fd_path` (linux). -/
def get_fd_path (helpers : Helpers) (fd : Int) : Except Errno (Option Bytes) :=
  if fd = AT_FDCWD then helpers.getcwd.map some
  else match helpers.readlink fd with
    | .ok path => .ok (some path)
    | .error .EBADF | .error .ENOENT => .ok none
    | .error e => .error e

/-! ## The arguments of the hooks -/

/-- What `ToAbsolutePath` is implemented for; the two pointers are to the bytes given. -/
inductive PathArg where
  | fd (raw_fd : Int)
  | maybeRelative (path : Bytes)
  | pathAt (dirfd : Int) (pathname : Bytes)
  | c_char (pathname : Bytes)
deriving DecidableEq, Repr

/-- The path of `pathname` in a directory; nothing is pushed if it is empty. -/
def below (abs_path pathname : Bytes) : Bytes :=
  if pathname.isEmpty then abs_path else Path.push abs_path pathname

/-- The body that `MaybeRelative` and `PathAt` share. -/
def atPath {R : Type} (helpers : Helpers) (dirfd : Int) (pathname : Bytes)
    (f : Option Bytes → Except Errno R) : Except Errno R :=
  if pathname.head? = some Path.sep then f (some pathname)
  else do
    match ← get_fd_path helpers dirfd with
    | none => f none
    | some abs_path => f (some (below abs_path pathname))

/-- `ToAbsolutePath::to_absolute_path`. -/
def PathArg.to_absolute_path {R : Type} (helpers : Helpers) (arg : PathArg)
    (f : Option Bytes → Except Errno R) : Except Errno R :=
  match arg with
  | .fd raw_fd => do
      let path ← get_fd_path helpers raw_fd
      f path
  | .maybeRelative path => atPath helpers AT_FDCWD path f
  | .pathAt dirfd pathname => atPath helpers dirfd (cstr pathname) f
  | .c_char pathname => atPath helpers AT_FDCWD (cstr pathname) f

/-- What `ToAccessMode` is implemented for. -/
inductive ModeArg where
  | accessMode (mode : AccessMode)
  | openFlags (flags : BitVec 32)
  | modeStr (mode : Bytes)
deriving DecidableEq, Repr

def O_ACCMODE : BitVec 32 := 3
def O_WRONLY : BitVec 32 := 1
def O_RDWR : BitVec 32 := 2

/-- `ToAccessMode::to_access_mode`. -/
def ModeArg.to_access_mode : ModeArg → AccessMode
  | .accessMode mode => mode
  | .openFlags flags =>
      if flags &&& O_ACCMODE = O_RDWR then .ReadWrite
      else if flags &&& O_ACCMODE = O_WRONLY then .Write
      else .Read
  | .modeStr mode =>
      let mode_str := cstr mode
      let has_read := mode_str.contains 114
      let has_write := mode_str.contains 119 || mode_str.contains 97
      match has_read, has_write with
      | false, true => .Write
      | true, true => .ReadWrite
      | _, _ => .Read

/-! ## The log of the calling thread -/

/-- A cursor into a chunk that has been truncated to its size. -/
abbrev Cursor := {cur : ShmCursor // cur.len = SHM_CHUNK_SIZE}

/-- `ShmCursor::advance`. -/
def Cursor.advance (cur : Cursor) (len : Nat) : Option (Nat × Cursor) :=
  match h : cur.1.advance len with
  | none => none
  | some (start, cur') => some (start, ⟨cur', by
      obtain ⟨-, -, rfl⟩ := ShmCursor.advance_eq_some.mp h
      exact cur.2⟩)

/-- The client of a process as the calling thread uses it.  `get_or_try` is taken to find the
id of the thread, which it may not once the thread's destructors have run. -/
structure Client where
  tls_shm_cursor : Option Cursor
  /-- The next chunk. -/
  shm_id : Nat

/-- A record in the log. -/
structure Written where
  chunk : Nat
  start : Nat
  bytes : Bytes
deriving DecidableEq, Repr

namespace Client

/-- `Client::new_shm`. -/
def new_shm (client : Client) : Client × Cursor :=
  ({ client with shm_id := client.shm_id + 1 }, ⟨⟨client.shm_id, SHM_CHUNK_SIZE, 0⟩, rfl⟩)

/-- `Client::with_shm_buf`. -/
def with_shm_buf {R : Type} (client : Client) (len : Nat)
    (f : Nat → Nat → Except OpenError R) : Except OpenError (Client × R) :=
  let (client, shm_buf) := match client.tls_shm_cursor with
    | some shm_buf => (client, shm_buf)
    | none => client.new_shm
  match shm_buf.advance len with
  | some (start, shm_buf) => do
      let r ← f shm_buf.1.chunk start
      return ({ client with tls_shm_cursor := some shm_buf }, r)
  | none =>
      let (client, shm_buf) := client.new_shm
      match shm_buf.advance len with
      | some (start, shm_buf) => do
          let r ← f shm_buf.1.chunk start
          return ({ client with tls_shm_cursor := some shm_buf }, r)
      | none => .error (.context
          s!"The requested buf ({len}) is greater than the shm chunk size ({SHM_CHUNK_SIZE})")

/-- `Client::send`. -/
def send (codec : Codec PathAccess) (client : Client) (path_access : PathAccess) :
    Except OpenError (Client × Option Written) :=
  if filtered path_access then .ok (client, none)
  else client.with_shm_buf (1 + codec.size path_access) fun chunk start ↦
    .ok (some ⟨chunk, start, codec.frame path_access⟩)

/-- `Client::try_handle_open`. -/
def try_handle_open (codec : Codec PathAccess) (helpers : Helpers) (client : Client)
    (path : PathArg) (mode : ModeArg) : Except OpenError (Client × Option Written) := do
  let sent ← (path.to_absolute_path helpers fun abs_path ↦ match abs_path with
    | none => .ok (.ok (client, none))
    | some abs_path => .ok (client.send codec ⟨mode.to_access_mode, abs_path⟩)).mapError .errno
  sent

end Client

/-- `handle_open`: what it leaves of the client and what it has written, if it returns. -/
def handle_open (codec : Codec PathAccess) (helpers : Helpers) (client : Option Client)
    (path : PathArg) (mode : ModeArg) : Except Stop (Option Client × Option Written) :=
  match client with
  | none => .ok (none, none)
  | some client => match client.try_handle_open codec helpers path mode with
    | .ok (client, written) => .ok (some client, written)
    -- `unwrap`
    | .error _ => .error .panic

/-! ## When it returns -/

/-- The directory descriptor whose path is needed, and the path below it; none for an
absolute path. -/
def PathArg.relative : PathArg → Option (Int × Bytes)
  | .fd raw_fd => some (raw_fd, [])
  | .maybeRelative path => if Path.isAbsolute path then none else some (AT_FDCWD, path)
  | .pathAt dirfd pathname =>
      if Path.isAbsolute (cstr pathname) then none else some (dirfd, cstr pathname)
  | .c_char pathname =>
      if Path.isAbsolute (cstr pathname) then none else some (AT_FDCWD, cstr pathname)

/-- The path itself, for an absolute one. -/
def PathArg.name : PathArg → Bytes
  | .fd _ => []
  | .maybeRelative path => path
  | .pathAt _ pathname => cstr pathname
  | .c_char pathname => cstr pathname

/-- The outcome of the helper call that is made for a descriptor. -/
def Helpers.dirPath (helpers : Helpers) (fd : Int) : Except Errno Bytes :=
  if fd = AT_FDCWD then helpers.getcwd else helpers.readlink fd

/-- A failure of the helper call is absorbed: there is no path then. -/
def Helpers.Absorbed (helpers : Helpers) (fd : Int) : Prop :=
  ∀ e, helpers.dirPath fd = .error e → fd ≠ AT_FDCWD ∧ (e = .EBADF ∨ e = .ENOENT)

/-- A path below a directory is absolute if the directory is, and only then. -/
theorem isAbsolute_below {dir name : Bytes} (hdir : dir ≠ [])
    (hname : Path.isAbsolute name = false) :
    Path.isAbsolute (below dir name) = Path.isAbsolute dir := by
  cases dir with
  | nil => exact absurd rfl hdir
  | cons b dir =>
      rw [below, Path.push, if_neg (Bool.eq_false_iff.mp hname)]
      split
      · rfl
      · split <;> rfl

/-- The path that is to be recorded. -/
def recorded (helpers : Helpers) (arg : PathArg) : Option Bytes :=
  match arg.relative with
  | none => some arg.name
  | some (fd, name) => (helpers.dirPath fd).toOption.map (below · name)

variable {helpers : Helpers} {arg : PathArg} {codec : Codec PathAccess}

/-- A recorded path is the path of the call, or stands below that of its descriptor. -/
theorem recorded_eq_some {path : Bytes} (h : recorded helpers arg = some path) :
    arg.relative = none ∧ Path.isAbsolute path ∨
      ∃ fd name dir, arg.relative = some (fd, name) ∧ Path.isAbsolute name = false ∧
        helpers.dirPath fd = .ok dir ∧ path = below dir name := by
  rw [recorded] at h
  cases hrel : arg.relative with
  | none =>
      rw [hrel] at h
      obtain rfl := Option.some.inj h
      refine .inl ⟨rfl, ?_⟩
      cases arg with
      | fd raw_fd => cases hrel
      | maybeRelative path | pathAt dirfd pathname | c_char pathname =>
          simpa [PathArg.relative, PathArg.name] using hrel
  | some below =>
      obtain ⟨fd, name⟩ := below
      rw [hrel] at h
      obtain ⟨dir, hdir, rfl⟩ := Option.map_eq_some_iff.mp h
      refine .inr ⟨fd, name, dir, rfl, ?_, ?_, rfl⟩
      · cases arg with
        | fd raw_fd =>
            cases hrel
            rfl
        | maybeRelative path | pathAt dirfd pathname | c_char pathname =>
            simp only [PathArg.relative, Option.ite_none_left_eq_some, Option.some.injEq,
              Prod.mk.injEq] at hrel
            obtain ⟨hname, -, rfl⟩ := hrel
            exact Bool.eq_false_iff.mpr hname
      · cases hread : helpers.dirPath fd with
        | error e =>
            rw [hread] at hdir
            cases hdir
        | ok dir' =>
            rw [hread] at hdir
            exact congrArg Except.ok (Option.some.inj hdir)

theorem get_fd_path_eq_ok {fd : Int} {path : Option Bytes} :
    get_fd_path helpers fd = .ok path ↔
      helpers.Absorbed fd ∧ path = (helpers.dirPath fd).toOption := by
  rw [get_fd_path, Helpers.Absorbed, Helpers.dirPath]
  by_cases hfd : fd = AT_FDCWD
  · rw [if_pos hfd, if_pos hfd]
    cases helpers.getcwd with
    | error e => simp [hfd, Except.map]
    | ok dir => simp [Except.map, Except.toOption, eq_comm (a := path)]
  · rw [if_neg hfd, if_neg hfd]
    cases helpers.readlink fd with
    | error e => cases e <;> simp [hfd, Except.toOption, eq_comm (a := path)]
    | ok dir => simp [Except.toOption, eq_comm (a := path)]

theorem atPath_eq_ok {R : Type} {f : Option Bytes → Except Errno R} {r : R} {fd : Int}
    {name : Bytes} : atPath helpers fd name f = .ok r ↔
      if Path.isAbsolute name then f (some name) = .ok r
      else helpers.Absorbed fd ∧
        f ((helpers.dirPath fd).toOption.map (below · name)) = .ok r := by
  rw [atPath]
  by_cases habs : Path.isAbsolute name = true
  · rw [if_pos (Path.isAbsolute_iff.mp habs), if_pos habs]
  · rw [if_neg (fun h ↦ habs (Path.isAbsolute_iff.mpr h)), if_neg habs, bind_eq_ok]
    simp only [get_fd_path_eq_ok]
    constructor
    · rintro ⟨path, ⟨habsorbed, rfl⟩, h⟩
      refine ⟨habsorbed, ?_⟩
      cases hdir : (helpers.dirPath fd).toOption <;> rw [hdir] at h <;> exact h
    · rintro ⟨habsorbed, h⟩
      refine ⟨_, ⟨habsorbed, rfl⟩, ?_⟩
      cases hdir : (helpers.dirPath fd).toOption <;> rw [hdir] at h <;> exact h

/-- What the callback of `to_absolute_path` is given, and when. -/
theorem to_absolute_path_eq_ok {R : Type} {f : Option Bytes → Except Errno R} {r : R} :
    arg.to_absolute_path helpers f = .ok r ↔
      (∀ fd name, arg.relative = some (fd, name) → helpers.Absorbed fd) ∧
        f (recorded helpers arg) = .ok r := by
  have hat : ∀ fd name, atPath helpers fd name f = .ok r ↔
      (∀ fd' name', (if Path.isAbsolute name then none else some (fd, name)) = some (fd', name') →
        helpers.Absorbed fd') ∧
      f (match if Path.isAbsolute name then none else some (fd, name) with
        | none => some name
        | some (fd, name) => (helpers.dirPath fd).toOption.map (below · name)) = .ok r := by
    intro fd name
    rw [atPath_eq_ok]
    by_cases habs : Path.isAbsolute name = true
    · simp [habs]
    · simp only [if_neg habs, Option.some.injEq, Prod.mk.injEq]
      apply and_congr_left
      intro _
      constructor
      · rintro h fd' name' ⟨rfl, -⟩
        exact h
      · exact fun h ↦ h fd name ⟨rfl, rfl⟩
  cases arg with
  | fd raw_fd =>
      have hbelow : (helpers.dirPath raw_fd).toOption.map (below · []) =
          (helpers.dirPath raw_fd).toOption := by
        cases (helpers.dirPath raw_fd).toOption <;> rfl
      rw [PathArg.to_absolute_path, bind_eq_ok]
      simp only [get_fd_path_eq_ok, recorded, PathArg.relative, hbelow, Option.some.injEq,
        Prod.mk.injEq]
      constructor
      · rintro ⟨path, ⟨habsorbed, rfl⟩, h⟩
        refine ⟨?_, h⟩
        rintro fd name ⟨rfl, -⟩
        exact habsorbed
      · rintro ⟨habsorbed, h⟩
        exact ⟨_, ⟨habsorbed raw_fd [] ⟨rfl, rfl⟩, rfl⟩, h⟩
  | maybeRelative path => exact hat AT_FDCWD path
  | pathAt dirfd pathname => exact hat dirfd (cstr pathname)
  | c_char pathname => exact hat AT_FDCWD (cstr pathname)

theorem Cursor.advance_eq_none {cur : Cursor} {len : Nat} :
    cur.advance len = none ↔ SHM_CHUNK_SIZE < cur.1.position + len := by
  rw [Cursor.advance]
  split
  · rename_i h
    rw [ShmCursor.advance_eq_none, cur.2] at h
    exact iff_of_true rfl h
  · rename_i start cur' h
    obtain ⟨hle, -, -⟩ := ShmCursor.advance_eq_some.mp h
    rw [cur.2] at hle
    exact iff_of_false (Option.some_ne_none _) (Nat.not_lt.mpr hle)

namespace Client

variable {client : Client}

/-- A buffer is handed out if and only if it fits a fresh chunk. -/
theorem with_shm_buf_isOk {R : Type} {len : Nat} {f : Nat → Nat → Except OpenError R}
    (hf : ∀ chunk start, ∃ r, f chunk start = .ok r) :
    (∃ out, client.with_shm_buf len f = .ok out) ↔ len ≤ SHM_CHUNK_SIZE := by
  rw [with_shm_buf]
  generalize (match client.tls_shm_cursor with
    | some shm_buf => (client, shm_buf)
    | none => client.new_shm) = start
  obtain ⟨client', shm_buf⟩ := start
  dsimp only
  cases hadv : shm_buf.advance len with
  | some out =>
      obtain ⟨start, shm_buf'⟩ := out
      obtain ⟨r, hr⟩ := hf shm_buf'.1.chunk start
      have hfits : ¬SHM_CHUNK_SIZE < shm_buf.1.position + len := fun hlt ↦
        Option.some_ne_none _ (hadv.symm.trans (Cursor.advance_eq_none.mpr hlt))
      exact iff_of_true ⟨_, bind_eq_ok.mpr ⟨r, hr, rfl⟩⟩ (by omega)
  | none =>
      cases hnew : client'.new_shm.2.advance len with
      | some out =>
          obtain ⟨start, shm_buf'⟩ := out
          obtain ⟨r, hr⟩ := hf shm_buf'.1.chunk start
          have hfits : ¬SHM_CHUNK_SIZE < 0 + len := fun hlt ↦
            Option.some_ne_none _ (hnew.symm.trans (Cursor.advance_eq_none.mpr hlt))
          exact iff_of_true ⟨_, bind_eq_ok.mpr ⟨r, hr, rfl⟩⟩ (by omega)
      | none =>
          have hfull : SHM_CHUNK_SIZE < 0 + len := Cursor.advance_eq_none.mp hnew
          refine iff_of_false ?_ (by omega)
          rintro ⟨out, hout⟩
          cases hout

/-- An access is sent if it is filtered or fits a chunk. -/
theorem send_isOk (client : Client) {path_access : PathAccess} :
    (∃ out, client.send codec path_access = .ok out) ↔
      filtered path_access ∨ 1 + codec.size path_access ≤ SHM_CHUNK_SIZE := by
  rw [send]
  split
  · rename_i hfiltered
    exact iff_of_true ⟨_, rfl⟩ (.inl hfiltered)
  · rename_i hfiltered
    rw [with_shm_buf_isOk fun chunk start ↦ ⟨_, rfl⟩, or_iff_right hfiltered]

/-- What is returned is what the callback returned. -/
theorem with_shm_buf_eq_ok {R : Type} {client client' : Client} {len : Nat}
    {f : Nat → Nat → Except OpenError R} {r : R}
    (h : client.with_shm_buf len f = .ok (client', r)) : ∃ chunk start, f chunk start = .ok r := by
  rw [with_shm_buf] at h
  generalize (match client.tls_shm_cursor with
    | some shm_buf => (client, shm_buf)
    | none => client.new_shm) = start at h
  obtain ⟨client₁, shm_buf⟩ := start
  dsimp only at h
  split at h
  · obtain ⟨r', hr, heq⟩ := bind_eq_ok.mp h
    cases heq
    exact ⟨_, _, hr⟩
  · split at h
    · obtain ⟨r', hr, heq⟩ := bind_eq_ok.mp h
      cases heq
      exact ⟨_, _, hr⟩
    · cases h

/-- What a send has written. -/
theorem send_eq_ok {client client' : Client} {path_access : PathAccess} {written : Option Written}
    (h : client.send codec path_access = .ok (client', written)) :
    filtered path_access ∧ written = none ∨ ¬filtered path_access ∧
      ∃ chunk start, written = some ⟨chunk, start, codec.frame path_access⟩ := by
  rw [send] at h
  split at h
  · rename_i hfiltered
    cases h
    exact .inl ⟨hfiltered, rfl⟩
  · rename_i hfiltered
    obtain ⟨chunk, start, heq⟩ := with_shm_buf_eq_ok h
    exact .inr ⟨hfiltered, chunk, start, (Except.ok.inj heq).symm⟩

/-- The path that is to be recorded is sent, if there is one. -/
theorem try_handle_open_eq_ok {client client' : Client} {mode : ModeArg}
    {written : Option Written}
    (h : client.try_handle_open codec helpers arg mode = .ok (client', written)) :
    recorded helpers arg = none ∧ written = none ∨ ∃ path, recorded helpers arg = some path ∧
      client.send codec ⟨mode.to_access_mode, path⟩ = .ok (client', written) := by
  simp only [try_handle_open, bind_eq_ok, mapError_eq_ok, to_absolute_path_eq_ok] at h
  obtain ⟨sent, ⟨-, hsent⟩, rfl⟩ := h
  cases hrec : recorded helpers arg with
  | none =>
      rw [hrec] at hsent
      cases hsent
      exact .inl ⟨rfl, rfl⟩
  | some path =>
      rw [hrec] at hsent
      exact .inr ⟨path, rfl, Except.ok.inj hsent⟩

theorem try_handle_open_isOk (client : Client) {mode : ModeArg} :
    (∃ out, client.try_handle_open codec helpers arg mode = .ok out) ↔
      (∀ fd name, arg.relative = some (fd, name) → helpers.Absorbed fd) ∧
        ∀ path, recorded helpers arg = some path →
          filtered ⟨mode.to_access_mode, path⟩ ∨
            1 + codec.size ⟨mode.to_access_mode, path⟩ ≤ SHM_CHUNK_SIZE := by
  simp only [try_handle_open, bind_eq_ok, mapError_eq_ok, to_absolute_path_eq_ok]
  constructor
  · rintro ⟨out, sent, ⟨habsorbed, hsent⟩, rfl⟩
    refine ⟨habsorbed, fun path hpath ↦ (send_isOk client).mp ⟨out, ?_⟩⟩
    rw [hpath] at hsent
    exact Except.ok.inj hsent
  · rintro ⟨habsorbed, hfits⟩
    cases hrec : recorded helpers arg with
    | none => exact ⟨_, _, ⟨habsorbed, rfl⟩, rfl⟩
    | some path =>
        obtain ⟨out, hout⟩ := (send_isOk client).mpr (hfits path hrec)
        exact ⟨out, _, ⟨habsorbed, rfl⟩, hout⟩

end Client

theorem handle_open_noPanic {client : Client} {mode : ModeArg} :
    NoPanic (handle_open codec helpers (some client) arg mode) ↔
      ∃ out, client.try_handle_open codec helpers arg mode = .ok out := by
  rw [handle_open]
  cases client.try_handle_open codec helpers arg mode with
  | ok out => exact iff_of_true (noPanic_ok _) ⟨out, rfl⟩
  | error e =>
      apply iff_of_false not_noPanic_panic
      rintro ⟨out, hout⟩
      cases hout

/-- The record that an intercepted path call writes, if it writes one. -/
theorem written_of_handle_open {client : Option Client} {client' : Option Client}
    {mode : ModeArg} {written : Written}
    (h : handle_open codec helpers client arg mode = .ok (client', some written)) :
    ∃ path, recorded helpers arg = some path ∧ ¬filtered ⟨mode.to_access_mode, path⟩ ∧
      written.bytes = codec.frame ⟨mode.to_access_mode, path⟩ := by
  cases client with
  | none => cases h
  | some client =>
      rw [handle_open] at h
      split at h
      · rename_i client₁ written₁ htry
        cases h
        rcases Client.try_handle_open_eq_ok htry with ⟨-, hnone⟩ | ⟨path, hrec, hsend⟩
        · cases hnone
        · rcases Client.send_eq_ok hsend with ⟨-, hnone⟩ | ⟨hfiltered, chunk, start, heq⟩
          · cases hnone
          · cases heq
            exact ⟨path, hrec, hfiltered, rfl⟩
      · cases h

/-- **When an intercepted path call does not kill the program**: a failure of the helper
call for a relative path or a descriptor is absorbed, and the record of the path, if
there is one that is not filtered, fits a chunk. -/
theorem handle_open_noPanic_iff {client : Option Client} {mode : ModeArg} :
    NoPanic (handle_open codec helpers client arg mode) ↔ client = none ∨
      (∀ fd name, arg.relative = some (fd, name) → helpers.Absorbed fd) ∧
        ∀ path, recorded helpers arg = some path →
          filtered ⟨mode.to_access_mode, path⟩ ∨
            1 + codec.size ⟨mode.to_access_mode, path⟩ ≤ SHM_CHUNK_SIZE := by
  cases client with
  | none => exact iff_of_true (noPanic_ok _) (.inl rfl)
  | some client =>
      rw [or_iff_right (Option.some_ne_none client), ← client.try_handle_open_isOk,
        handle_open_noPanic]

/-- The system calls of a process whose directory was removed. -/
def removedCwd : Helpers where
  getcwd := .error .ENOENT
  readlink _ := .error .ENOENT

/-- No path that is as long as a chunk can be recorded. -/
theorem handle_open_long {client : Client} {mode : ModeArg} {rest : Bytes}
    (hlen : SHM_CHUNK_SIZE ≤ rest.length) (hnul : NulFree rest) :
    ¬NoPanic (handle_open PathAccess.shortCodec helpers (some client)
      (.c_char (toCStr (Path.sep :: 97 :: rest))) mode) := by
  have hcstr : cstr (toCStr (Path.sep :: 97 :: rest)) = Path.sep :: 97 :: rest := by
    rw [cstr_toCStr, cstr_of_nulFree]
    simpa [NulFree, Path.sep] using hnul
  have hrec : recorded helpers (.c_char (toCStr (Path.sep :: 97 :: rest))) =
      some (Path.sep :: 97 :: rest) := by
    rw [recorded, PathArg.relative, PathArg.name, hcstr]
    rfl
  rw [handle_open_noPanic, Client.try_handle_open_isOk]
  rintro ⟨-, hfits⟩
  rcases hfits _ hrec with hfiltered | hsize
  · cases hfiltered
  · simp only [Codec.size, PathAccess.shortCodec, List.length_cons, List.length_append] at hsize
    omega

/-- A relative path in a removed directory, and a path that does not fit a chunk. -/
theorem handle_open_panics :
    ¬NoPanic (handle_open PathAccess.shortCodec removedCwd (some ⟨none, 0⟩)
      (.c_char (toCStr (ascii "x"))) (.openFlags 0)) ∧
    ¬NoPanic (handle_open PathAccess.shortCodec removedCwd (some ⟨none, 0⟩)
      (.c_char (toCStr (Path.sep :: 97 :: List.replicate SHM_CHUNK_SIZE 97)))
      (.openFlags 0)) := by
  constructor
  · rw [handle_open_noPanic, Client.try_handle_open_isOk]
    rintro ⟨habsorbed, -⟩
    exact (habsorbed AT_FDCWD (ascii "x") rfl .ENOENT rfl).1 rfl
  · apply handle_open_long (Nat.le_of_eq (List.length_replicate ..).symm)
    intro hmem
    cases List.eq_of_mem_replicate hmem

end Fspy.Unix
