import Fspy.Unix.Fds

/-!
# The descriptors that a tracked program inherits

Everything that a spawn opens is closed on exec.  Between the fork and the exec, the standard
streams of the command are put in the place of 0, 1 and 2, and the closure takes that flag off
the three published descriptors.  `inherited_of_spawn` says that a program inherits those three
next to what it would inherit anyway, and that the tracking process keeps no end of a socket
that something could be sent through, so that the program and its descendants are all that the
receivers wait for.
-/

namespace Fspy.Unix.Fds

open Lib Slots

variable {kernel : Kernel} {table table' : FdTable} {fd : Nat} {file : OpenFile}

/-! ## What a spawn opens -/

/-- `table'` is `table` with some descriptors opened that were free. -/
structure Opened (table table' : FdTable) (opened : List (Nat × OpenFile)) : Prop where
  nodup : (opened.map Prod.fst).Nodup
  fresh : ∀ fd ∈ opened.map Prod.fst, table fd = none
  same : ∀ fd, fd ∉ opened.map Prod.fst → table' fd = table fd
  file : ∀ open' ∈ opened, table' open'.1 = some open'.2

theorem opened_nil (table : FdTable) : Opened table table [] where
  nodup := List.nodup_nil
  fresh _ h := nomatch h
  same _ _ := rfl
  file _ h := nomatch h

theorem Opened.perm {opened opened' : List (Nat × OpenFile)} (h : Opened table table' opened)
    (hperm : opened.Perm opened') : Opened table table' opened' := by
  have hfds : ∀ fd, fd ∈ opened'.map Prod.fst ↔ fd ∈ opened.map Prod.fst :=
    fun fd ↦ ((hperm.map Prod.fst).mem_iff).symm
  exact ⟨(hperm.map Prod.fst).nodup_iff.mp h.nodup, fun fd hfd ↦ h.fresh fd ((hfds fd).mp hfd),
    fun fd hfd ↦ h.same fd fun hmem ↦ hfd ((hfds fd).mpr hmem),
    fun open' hopen ↦ h.file open' (hperm.mem_iff.mpr hopen)⟩

theorem Opened.alloc {opened : List (Nat × OpenFile)} {min : Nat} {table'' : FdTable}
    (h : Opened table table' opened) (halloc : alloc kernel table' min file = .ok (fd, table'')) :
    Opened table table'' ((fd, file) :: opened) := by
  obtain ⟨hlowest, rfl⟩ := alloc_eq_ok halloc
  have hfree : table' fd = none := (lowestFree_eq_some hlowest).2.2.1
  have hnew : fd ∉ opened.map Prod.fst := by
    intro hmem
    obtain ⟨open', hopen, rfl⟩ := List.mem_map.mp hmem
    cases (h.file open' hopen).symm.trans hfree
  refine ⟨List.nodup_cons.mpr ⟨hnew, h.nodup⟩, ?_, ?_, ?_⟩
  · intro n hn
    rcases List.mem_cons.mp hn with rfl | hn
    · rw [← h.same n hnew]
      exact hfree
    · exact h.fresh n hn
  · intro n hn
    obtain ⟨hne, hn⟩ := List.ne_and_not_mem_of_not_mem_cons hn
    rw [Function.update_of_ne hne]
    exact h.same n hn
  · intro open' hopen
    rcases List.mem_cons.mp hopen with rfl | hopen
    · exact Function.update_self ..
    · have hne : open'.1 ≠ fd := fun heq ↦ hnew (heq ▸ List.mem_map_of_mem hopen)
      rw [Function.update_of_ne hne]
      exact h.file open' hopen

theorem Opened.pair {opened : List (Nat × OpenFile)} {first second : OpenFile} {fd₁ fd₂ : Nat}
    {table'' : FdTable} (h : Opened table table' opened)
    (hpair : pair kernel table' first second = .ok ((fd₁, fd₂), table'')) :
    Opened table table'' ((fd₂, second) :: (fd₁, first) :: opened) := by
  simp only [Fds.pair, bind_eq_ok] at hpair
  obtain ⟨⟨a, table₁⟩, hfirst, ⟨b, table₂⟩, hsecond, heq⟩ := hpair
  cases heq
  exact (h.alloc hfirst).alloc hsecond

/-- The duplicate stands in for the descriptor. -/
theorem Opened.duplicate {opened : List (Nat × OpenFile)} {new_fd : Nat} {table'' : FdTable}
    (h : Opened table table' ((fd, file) :: opened))
    (hduplicate : duplicate_until_safe kernel table' fd = (.ok new_fd, table'')) :
    Opened table table'' ((new_fd, file) :: opened) := by
  have houtcome := duplicate_until_safe_outcome kernel (h.file _ List.mem_cons_self)
  rw [hduplicate] at houtcome
  obtain ⟨-, ⟨rfl, rfl⟩ | ⟨-, hfree, rfl⟩⟩ := houtcome
  · exact h
  obtain ⟨hfd, hnodup⟩ : fd ∉ opened.map Prod.fst ∧ (opened.map Prod.fst).Nodup :=
    List.nodup_cons.mp h.nodup
  have hne : new_fd ≠ fd := by
    rintro rfl
    cases (h.file _ List.mem_cons_self).symm.trans hfree
  have hnew : new_fd ∉ opened.map Prod.fst := by
    intro hmem
    obtain ⟨open', hopen, rfl⟩ := List.mem_map.mp hmem
    cases (h.file open' (List.mem_cons_of_mem _ hopen)).symm.trans hfree
  refine ⟨List.nodup_cons.mpr ⟨hnew, hnodup⟩, ?_, ?_, ?_⟩
  · intro n hn
    rcases List.mem_cons.mp hn with rfl | hn
    · rw [← h.same n fun hmem ↦ (List.mem_cons.mp hmem).elim hne hnew]
      exact hfree
    · exact h.fresh n (List.mem_cons_of_mem _ hn)
  · intro n hn
    obtain ⟨hne', hn⟩ := List.ne_and_not_mem_of_not_mem_cons hn
    rw [Function.update_of_ne hne']
    by_cases heq : n = fd
    · rw [heq, Function.update_self, h.fresh fd List.mem_cons_self]
    · rw [Function.update_of_ne heq]
      exact h.same n fun hmem ↦ (List.mem_cons.mp hmem).elim heq hn
  · intro open' hopen
    rcases List.mem_cons.mp hopen with rfl | hopen
    · exact Function.update_self ..
    · have hne' : open'.1 ≠ new_fd := fun heq ↦ hnew (heq ▸ List.mem_map_of_mem hopen)
      have hne'' : open'.1 ≠ fd := fun heq ↦ hfd (heq ▸ List.mem_map_of_mem hopen)
      rw [Function.update_of_ne hne', Function.update_of_ne hne'']
      exact h.file open' (List.mem_cons_of_mem _ hopen)

/-- The descriptors that `spawn_impl` leaves open. -/
theorem opened_of_spawn {filter : List SockFilter} {spy_inner : SpyInner} {payload : Payload}
    (h : spawn_impl kernel filter spy_inner table = .ok (payload, table')) :
    ∃ shm shm_receiver notify notify_receiver : Nat,
      payload.ipc_fd = shm ∧ payload.seccomp_payload.ipc_fd = notify ∧
        Opened table table' [(notify, .notify_sender), (notify_receiver, .notify_receiver),
          (shm, .shm_sender), (shm_receiver, .shm_receiver)] := by
  obtain ⟨⟨⟨shm_fd_sender, shm_fd_receiver⟩, table₂⟩, hshm, h⟩ := bind_eq_ok.mp h
  dsimp only at h
  split at h
  · cases h
  · rename_i new_fd table₃ hduplicate
    obtain ⟨⟨⟨seccomp_payload, notify_fd_receiver⟩, table₄⟩, hsupervise, heq⟩ := bind_eq_ok.mp h
    cases heq
    obtain ⟨⟨⟨fd₁, fd₂⟩, table₅⟩, hpair, heq⟩ := bind_eq_ok.mp hsupervise
    cases heq
    have hopened := ((opened_nil table).pair hshm).perm (.swap _ _ [])
    exact ⟨new_fd, shm_fd_receiver, fd₂, notify_fd_receiver, rfl, rfl,
      (hopened.duplicate hduplicate).pair hpair⟩

/-! ## The standard streams -/

/-- The `Stdio` of a stream. -/
inductive Stdio where
  | inherit
  | null
  | make_pipe
  /-- A descriptor that the command owns. -/
  | fd (fd : Nat)
deriving DecidableEq

/-- What the child is given for a stream. -/
inductive ChildStdio where
  | inherit
  | explicit (fd : Nat)
  | owned (fd : Nat)

namespace ChildStdio

/-- What is duplicated in the place of the stream. -/
def source : ChildStdio → Option Nat
  | .inherit => none
  | .explicit fd | .owned fd => some fd

/-- The descriptor that is closed after the fork. -/
def closes : ChildStdio → Option Nat
  | .owned fd => some fd
  | _ => none

end ChildStdio

/-- `to_child_stdio` of the standard library. -/
def Stdio.to_child_stdio (kernel : Kernel) (table : FdTable) (stream : Nat) :
    Stdio → Except Errno (ChildStdio × FdTable)
  | .inherit => .ok (.inherit, table)
  | .null => do
      let (fd, table) ← alloc kernel table 0 .dev_null
      return (.owned fd, table)
  | .make_pipe =>
      -- the child reads its standard input, and writes the others
      if stream = 0 then do
        let ((reader, _), table) ← Fds.pair kernel table (.child_stdio stream)
          (.parent_stdio stream)
        return (.owned reader, table)
      else do
        let ((_, writer), table) ← Fds.pair kernel table (.parent_stdio stream)
          (.child_stdio stream)
        return (.owned writer, table)
  | .fd fd =>
      if fd < 3 then do
        let (new_fd, table) ← try_clone kernel table fd
        return (.owned new_fd, table)
      else .ok (.explicit fd, table)

/-- What a stream is to be open on, if the command says so. -/
def Stdio.openFile (table : FdTable) (stream : Nat) : Stdio → Option OpenFile
  | .inherit => none
  | .null => some .dev_null
  | .make_pipe => some (.child_stdio stream)
  | .fd fd => table fd

/-- `setup_io` of the standard library. -/
def setup_io (kernel : Kernel) (stdio : Nat → Stdio) :
    List Nat → FdTable → Except Errno (List (Nat × ChildStdio) × FdTable)
  | [], table => .ok ([], table)
  | stream :: streams, table => do
      let (theirs, table) ← (stdio stream).to_child_stdio kernel table stream
      let (rest, table) ← setup_io kernel stdio streams table
      return ((stream, theirs) :: rest, table)

/-- A descriptor that the child is given is open on what the command says. -/
def Stands (table : FdTable) (stream : Nat) (stdio : Stdio) (opened : List (Nat × OpenFile)) :
    ChildStdio → Prop
  | .inherit => stdio = .inherit
  | .explicit fd => 3 ≤ fd ∧ stdio = .fd fd
  | .owned fd => stdio ≠ .inherit ∧
      ∃ file, (fd, file) ∈ opened ∧ stdio.openFile table stream = some file

theorem Stands.append {opened : List (Nat × OpenFile)} (new : List (Nat × OpenFile))
    {stream : Nat} {stdio : Stdio} {theirs : ChildStdio}
    (h : Stands table stream stdio opened theirs) :
    Stands table stream stdio (new ++ opened) theirs := by
  cases theirs with
  | inherit | explicit fd => exact h
  | owned fd =>
      obtain ⟨hne, file, hmem, hfile⟩ := h
      exact ⟨hne, file, List.mem_append_right _ hmem, hfile⟩

/-- What is opened for a stream stands in for it, and is closed or the tracking process's end of
a pipe. -/
theorem Opened.to_child_stdio {opened : List (Nat × OpenFile)} {stream : Nat} {stdio : Stdio}
    {theirs : ChildStdio} {table'' : FdTable} (h : Opened table table' opened)
    (hgiven : ∀ fd, stdio = .fd fd → table fd ≠ none)
    (hio : stdio.to_child_stdio kernel table' stream = .ok (theirs, table'')) :
    ∃ new, Opened table table'' (new ++ opened) ∧
      Stands table stream stdio (new ++ opened) theirs ∧
      ∀ open' ∈ new, theirs.closes = some open'.1 ∨ open'.2 = .parent_stdio stream := by
  cases stdio with
  | inherit =>
      cases hio
      exact ⟨[], h, rfl, by simp⟩
  | null =>
      obtain ⟨⟨fd, table₁⟩, halloc, heq⟩ := bind_eq_ok.mp hio
      cases heq
      exact ⟨[(fd, .dev_null)], h.alloc halloc, ⟨by simp, _, List.mem_cons_self, rfl⟩,
        by simp [ChildStdio.closes]⟩
  | make_pipe =>
      rw [Stdio.to_child_stdio] at hio
      split at hio
      · obtain ⟨⟨⟨reader, writer⟩, table₁⟩, hpair, heq⟩ := bind_eq_ok.mp hio
        cases heq
        exact ⟨[(writer, .parent_stdio stream), (reader, .child_stdio stream)], h.pair hpair,
          ⟨by simp, .child_stdio stream, by simp, rfl⟩, by simp [ChildStdio.closes]⟩
      · obtain ⟨⟨⟨reader, writer⟩, table₁⟩, hpair, heq⟩ := bind_eq_ok.mp hio
        cases heq
        exact ⟨[(writer, .child_stdio stream), (reader, .parent_stdio stream)], h.pair hpair,
          ⟨by simp, .child_stdio stream, by simp, rfl⟩, by simp [ChildStdio.closes]⟩
  | fd fd =>
      rw [Stdio.to_child_stdio] at hio
      split at hio
      · obtain ⟨⟨new_fd, table₁⟩, hclone, heq⟩ := bind_eq_ok.mp hio
        cases heq
        have hopen := hgiven fd rfl
        have hold : table' fd = table fd := h.same fd fun hmem ↦ hopen (h.fresh fd hmem)
        rw [try_clone] at hclone
        split at hclone
        · cases hclone
        · rename_i file hfile
          exact ⟨[(new_fd, file)], h.alloc hclone,
            ⟨by simp, file, List.mem_cons_self, hold.symm.trans hfile⟩, by simp [ChildStdio.closes]⟩
      · rename_i hge
        cases hio
        exact ⟨[], h, ⟨Nat.not_lt.mp hge, rfl⟩, by simp⟩

theorem Opened.setup_io {opened : List (Nat × OpenFile)} {stdio : Nat → Stdio}
    {streams : List Nat} {theirs : List (Nat × ChildStdio)} {table'' : FdTable}
    (h : Opened table table' opened)
    (hgiven : ∀ stream fd, stdio stream = .fd fd → table fd ≠ none)
    (hio : Fds.setup_io kernel stdio streams table' = .ok (theirs, table'')) :
    ∃ new, Opened table table'' (new ++ opened) ∧ theirs.map Prod.fst = streams ∧
      (∀ t ∈ theirs, Stands table t.1 (stdio t.1) (new ++ opened) t.2) ∧
      ∀ open' ∈ new, (∃ t ∈ theirs, t.2.closes = some open'.1) ∨
        ∃ stream, open'.2 = .parent_stdio stream := by
  induction streams generalizing opened table' theirs with
  | nil =>
      cases hio
      exact ⟨[], h, rfl, by simp, by simp⟩
  | cons stream streams ih =>
      obtain ⟨⟨first, table₁⟩, hfirst, hio⟩ := bind_eq_ok.mp hio
      obtain ⟨⟨rest, table₂⟩, hrest, heq⟩ := bind_eq_ok.mp hio
      cases heq
      obtain ⟨new₁, hopened₁, hstands₁, hclosed₁⟩ :=
        h.to_child_stdio (fun fd ↦ hgiven stream fd) hfirst
      obtain ⟨new₂, hopened₂, hstreams, hstands₂, hclosed₂⟩ := ih hopened₁ hrest
      rw [← List.append_assoc] at hopened₂ hstands₂
      refine ⟨new₂ ++ new₁, hopened₂, by rw [List.map_cons, hstreams], ?_, ?_⟩
      · intro t ht
        rcases List.mem_cons.mp ht with rfl | ht
        · rw [List.append_assoc]
          exact hstands₁.append new₂
        · exact hstands₂ t ht
      · intro open' hopen
        rcases List.mem_append.mp hopen with hopen | hopen
        · refine (hclosed₂ open' hopen).imp ?_ id
          rintro ⟨t, ht, hcloses⟩
          exact ⟨t, List.mem_cons_of_mem _ ht, hcloses⟩
        · exact (hclosed₁ open' hopen).imp (fun hcloses ↦ ⟨_, List.mem_cons_self, hcloses⟩)
            fun hfile ↦ ⟨stream, hfile⟩

/-! ## From the fork to the exec -/

/-- The descriptors of a process, and which of them an exec closes. -/
structure Descriptors where
  table : FdTable
  cloexec : Nat → Bool

/-- What `unset_fd_flag` does with `FD_CLOEXEC`. -/
def unset_fd_flag (fds : Descriptors) (fd : Nat) : Except Errno Descriptors :=
  match fds.table fd with
  | none => .error .EBADF
  | some _ => .ok { fds with cloexec := Function.update fds.cloexec fd false }

/-- `dup2`: a duplicate of a descriptor in the place of another is not closed on exec. -/
def dup2 (fds : Descriptors) (fd target : Nat) : Except Errno Descriptors :=
  match fds.table fd with
  | none => .error .EBADF
  | some file =>
      if fd = target then .ok fds
      else .ok ⟨Function.update fds.table target (some file),
        Function.update fds.cloexec target false⟩

/-- The child of a process whose descriptors were `table` before the spawn: whatever the spawn
has opened (`memfd_create`, `UnixStream::pair`, `try_clone`, `Command::spawn`) is closed on
exec. -/
def forked (table table' : FdTable) (cloexec : Nat → Bool) : Descriptors :=
  ⟨table', fun fd ↦ (table fd).isNone || cloexec fd⟩

/-- What was open before keeps its flag. -/
theorem forked_cloexec {cloexec : Nat → Bool} (h : table fd ≠ none) :
    (forked table table' cloexec).cloexec fd = cloexec fd := by
  change ((table fd).isNone || cloexec fd) = cloexec fd
  rw [Option.isNone_eq_false_iff.mpr (Option.isSome_iff_ne_none.mpr h), Bool.false_or]

/-- A stream of the child. -/
def redirect (fds : Descriptors) (theirs : Nat × ChildStdio) : Except Errno Descriptors :=
  match theirs.2.source with
  | none => .ok fds
  | some fd => dup2 fds fd theirs.1

/-- The closure of `spawn_impl` that runs in the child, up to installing a filter. -/
def pre_exec (preload_lib_memfd shm_fd_sender notify_fd_sender : Nat) (fds : Descriptors) :
    Except Errno Descriptors := do
  let fds ← unset_fd_flag fds preload_lib_memfd
  let fds ← unset_fd_flag fds shm_fd_sender
  unset_fd_flag fds notify_fd_sender

/-- The child of `Command::spawn`, which closes the reading end of the error pipe, up to its
exec. -/
def child (preload_lib_memfd shm_fd_sender notify_fd_sender input : Nat)
    (theirs : List (Nat × ChildStdio)) (fds : Descriptors) : Except Errno Descriptors := do
  let fds ← theirs.foldlM redirect ⟨closeAll fds.table [input], fds.cloexec⟩
  pre_exec preload_lib_memfd shm_fd_sender notify_fd_sender fds

/-- What is open in the program that is executed. -/
def Descriptors.exec (fds : Descriptors) : FdTable :=
  fun fd ↦ if fds.cloexec fd then none else fds.table fd

/-- `Command::spawn` before the fork: the streams of the child, and the ends of the pipe that an
error of its exec comes through. -/
def before_fork (kernel : Kernel) (stdio : Nat → Stdio) (table : FdTable) :
    Except Errno ((List (Nat × ChildStdio) × Nat × Nat) × FdTable) := do
  let (theirs, table) ← setup_io kernel stdio [0, 1, 2] table
  let ((input, output), table) ← Fds.pair kernel table .error_pipe .error_pipe
  return ((theirs, input, output), table)

/-- The pidfd of the child, if it can be had. -/
def open_pidfd (kernel : Kernel) (table : FdTable) : FdTable :=
  match alloc kernel table 0 .pidfd with
  | .error _ => table
  | .ok (_, table) => table

/-- What the tracking process has open once it has spawned the child and dropped the command. -/
def parent (kernel : Kernel) (stdio : Nat → Stdio) (theirs : List (Nat × ChildStdio))
    (input output shm_fd_sender notify_fd_sender : Nat) (table : FdTable) : FdTable :=
  let table := closeAll table (input :: output :: theirs.filterMap fun t ↦ t.2.closes)
  closeAll (open_pidfd kernel table)
    (shm_fd_sender :: notify_fd_sender :: [0, 1, 2].filterMap fun stream ↦
      match stdio stream with
      | .fd fd => some fd
      | _ => none)

/-- What a program is given beside the three descriptors: its streams, and what its parent does
not close. -/
def beside (table : FdTable) (cloexec : Nat → Bool) (stdio : Nat → Stdio) : FdTable :=
  fun fd ↦ if fd < 3 ∧ stdio fd ≠ .inherit then (stdio fd).openFile table fd
    else if cloexec fd then none else table fd

theorem open_pidfd_eq_some (h : open_pidfd kernel table fd = some file) :
    file = .pidfd ∨ table fd = some file := by
  rw [open_pidfd] at h
  cases halloc : alloc kernel table 0 .pidfd with
  | error e =>
      rw [halloc] at h
      exact .inr h
  | ok out =>
      obtain ⟨-, htable⟩ := alloc_eq_ok halloc
      rw [halloc] at h
      dsimp only at h
      rw [htable, Function.update_apply] at h
      split at h
      · exact .inl (Option.some.inj h).symm
      · exact .inr h

theorem unset_fd_flag_of_open {fds : Descriptors} (h : fds.table fd = some file) :
    unset_fd_flag fds fd = .ok { fds with cloexec := Function.update fds.cloexec fd false } := by
  rw [unset_fd_flag, h]

/-- The closure takes the flag off three descriptors, and does nothing else. -/
theorem pre_exec_of_open {fds : Descriptors} {fd₁ fd₂ fd₃ : Nat} {file₁ file₂ file₃ : OpenFile}
    (h₁ : fds.table fd₁ = some file₁) (h₂ : fds.table fd₂ = some file₂)
    (h₃ : fds.table fd₃ = some file₃) :
    ∃ fds', pre_exec fd₁ fd₂ fd₃ fds = .ok fds' ∧ ∀ fd, fds'.exec fd =
      if fd = fd₁ ∨ fd = fd₂ ∨ fd = fd₃ then fds.table fd
      else if fds.cloexec fd then none else fds.table fd := by
  refine ⟨⟨fds.table, Function.update (Function.update (Function.update fds.cloexec fd₁ false)
    fd₂ false) fd₃ false⟩, ?_, fun fd ↦ ?_⟩
  · have hsecond (cloexec : Nat → Bool) : unset_fd_flag ⟨fds.table, cloexec⟩ fd₂ =
        .ok ⟨fds.table, Function.update cloexec fd₂ false⟩ := unset_fd_flag_of_open h₂
    have hthird (cloexec : Nat → Bool) : unset_fd_flag ⟨fds.table, cloexec⟩ fd₃ =
        .ok ⟨fds.table, Function.update cloexec fd₃ false⟩ := unset_fd_flag_of_open h₃
    rw [pre_exec, except_bind_of_ok (unset_fd_flag_of_open h₁), except_bind_of_ok (hsecond _)]
    exact hthird _
  · rw [Descriptors.exec]
    dsimp only
    by_cases hfd₃ : fd = fd₃
    · simp [hfd₃]
    · by_cases hfd₂ : fd = fd₂
      · simp [hfd₂, Function.update_apply]
      · by_cases hfd₁ : fd = fd₁
        · simp [hfd₁, Function.update_apply]
        · simp [hfd₁, hfd₂, hfd₃]

/-- Streams are put in their places, which no other stream is taken from. -/
theorem redirects_of_open {theirs : List (Nat × ChildStdio)} {fds : Descriptors}
    (hnodup : (theirs.map Prod.fst).Nodup) (hlow : ∀ t ∈ theirs, t.1 < 3)
    (hopen : ∀ t ∈ theirs, ∀ fd, t.2.source = some fd → 3 ≤ fd ∧ fds.table fd ≠ none) :
    ∃ fds', theirs.foldlM redirect fds = .ok fds' ∧
      (∀ t ∈ theirs, ∀ fd, t.2.source = some fd →
        fds'.table t.1 = fds.table fd ∧ fds'.cloexec t.1 = false) ∧
      ∀ n, (∀ t ∈ theirs, t.1 = n → t.2.source = none) →
        fds'.table n = fds.table n ∧ fds'.cloexec n = fds.cloexec n := by
  induction theirs generalizing fds with
  | nil => exact ⟨fds, rfl, by simp, fun n _ ↦ ⟨rfl, rfl⟩⟩
  | cons first rest ih =>
      obtain ⟨hfirst, hrest⟩ := List.nodup_cons.mp hnodup
      obtain ⟨hlow₁, hlow₂⟩ := List.forall_mem_cons.mp hlow
      obtain ⟨hopen₁, hopen₂⟩ := List.forall_mem_cons.mp hopen
      -- the first stream: in its place, and nothing else touched
      obtain ⟨fds₁, hredirect, hplace, hsame⟩ : ∃ fds₁, redirect fds first = .ok fds₁ ∧
          (∀ fd, first.2.source = some fd →
            fds₁.table first.1 = fds.table fd ∧ fds₁.cloexec first.1 = false) ∧
          ∀ n, (first.1 = n → first.2.source = none) →
            fds₁.table n = fds.table n ∧ fds₁.cloexec n = fds.cloexec n := by
        rw [redirect]
        cases hfd : first.2.source with
        | none => exact ⟨fds, rfl, nofun, fun n _ ↦ ⟨rfl, rfl⟩⟩
        | some fd =>
            obtain ⟨hge, hne⟩ := hopen₁ fd hfd
            obtain ⟨file, hfile⟩ := Option.ne_none_iff_exists'.mp hne
            have hother : fd ≠ first.1 := (Nat.lt_of_lt_of_le hlow₁ hge).ne'
            refine ⟨⟨Function.update fds.table first.1 (some file),
              Function.update fds.cloexec first.1 false⟩, ?_, ?_, fun n hn ↦ ?_⟩
            · simp only [dup2, hfile, if_neg hother]
            · rintro _ ⟨⟩
              exact ⟨(Function.update_self ..).trans hfile.symm, Function.update_self ..⟩
            · have hn' : n ≠ first.1 := fun heq ↦ Option.some_ne_none fd (hn heq.symm)
              exact ⟨Function.update_of_ne hn' .., Function.update_of_ne hn' ..⟩
      have hopen' : ∀ t ∈ rest, ∀ fd, t.2.source = some fd → 3 ≤ fd ∧ fds₁.table fd ≠ none := by
        intro t ht fd hfd
        obtain ⟨hge, hne⟩ := hopen₂ t ht fd hfd
        have hother : first.1 ≠ fd := (Nat.lt_of_lt_of_le hlow₁ hge).ne
        rw [(hsame fd fun heq ↦ absurd heq hother).1]
        exact ⟨hge, hne⟩
      obtain ⟨fds', hfold, hplaces, hsames⟩ := ih hrest hlow₂ hopen'
      refine ⟨fds', ?_, ?_, fun n hn ↦ ?_⟩
      · rw [List.foldlM_cons, hredirect]
        exact hfold
      · intro t ht fd hfd
        rcases List.mem_cons.mp ht with rfl | ht
        · have hkept := hsames t.1 fun t' ht' heq ↦
            absurd (heq ▸ List.mem_map_of_mem ht') hfirst
          rw [hkept.1, hkept.2]
          exact hplace fd hfd
        · obtain ⟨htable, hcloexec⟩ := hplaces t ht fd hfd
          have hother : first.1 ≠ fd :=
            (Nat.lt_of_lt_of_le hlow₁ (hopen₂ t ht fd hfd).1).ne
          rw [htable, (hsame fd fun heq ↦ absurd heq hother).1]
          exact ⟨rfl, hcloexec⟩
      · obtain ⟨htable, hcloexec⟩ := hsames n fun t ht ↦ hn t (List.mem_cons_of_mem _ ht)
        rw [htable, hcloexec]
        exact hsame n (hn first List.mem_cons_self)

/-- What `Command::spawn` opens before the fork. -/
theorem Opened.before_fork {opened : List (Nat × OpenFile)} {stdio : Nat → Stdio}
    {theirs : List (Nat × ChildStdio)} {input output : Nat} {table'' : FdTable}
    (h : Opened table table' opened)
    (hgiven : ∀ stream fd, stdio stream = .fd fd → table fd ≠ none)
    (hfork : Fds.before_fork kernel stdio table' = .ok ((theirs, input, output), table'')) :
    ∃ new, Opened table table''
        ((output, .error_pipe) :: (input, .error_pipe) :: (new ++ opened)) ∧
      theirs.map Prod.fst = [0, 1, 2] ∧
      (∀ t ∈ theirs, Stands table t.1 (stdio t.1) (new ++ opened) t.2) ∧
      ∀ open' ∈ new, (∃ t ∈ theirs, t.2.closes = some open'.1) ∨
        ∃ stream, open'.2 = .parent_stdio stream := by
  obtain ⟨⟨theirs', table₁⟩, hio, hfork⟩ := bind_eq_ok.mp hfork
  obtain ⟨⟨⟨input', output'⟩, table₂⟩, hpair, heq⟩ := bind_eq_ok.mp hfork
  cases heq
  obtain ⟨new, hopened, hstreams, hstands, hclosed⟩ := h.setup_io hgiven hio
  exact ⟨new, hopened.pair hpair, hstreams, hstands, hclosed⟩

/-- What is opened is out of the way of the standard streams. -/
theorem Opened.three_le {opened : List (Nat × OpenFile)} (h : Opened table table' opened)
    (hstd : ∀ fd < 3, table fd ≠ none) (hmem : (fd, file) ∈ opened) : 3 ≤ fd :=
  Nat.not_lt.mp fun hlt ↦ hstd fd hlt (h.fresh fd (List.mem_map_of_mem hmem))

/-- Closing what was opened leaves what was open before. -/
theorem Opened.closeAll_of_open {opened : List (Nat × OpenFile)} {input : Nat}
    (h : Opened table table' ((input, file) :: opened)) (hopen : table fd ≠ none) :
    closeAll table' [input] fd = table fd := by
  have hinput : table input = none := h.fresh input List.mem_cons_self
  rw [closeAll, if_neg, h.same fd fun hmem ↦ hopen (h.fresh fd hmem)]
  intro hmem
  rw [List.mem_singleton.mp hmem] at hopen
  exact hopen hinput

/-- It leaves what else was opened. -/
theorem Opened.closeAll_of_mem {opened : List (Nat × OpenFile)} {input : Nat} {file' : OpenFile}
    (h : Opened table table' ((input, file) :: opened)) (hmem : (fd, file') ∈ opened) :
    closeAll table' [input] fd = some file' := by
  have hother : fd ≠ input := by
    rintro rfl
    exact (List.nodup_cons.mp h.nodup).1 (List.mem_map.mpr ⟨_, hmem, rfl⟩)
  rw [closeAll, if_neg fun hmem ↦ hother (List.mem_singleton.mp hmem)]
  exact h.file _ (List.mem_cons_of_mem _ hmem)

/-- What is taken for a stream is out of the way of the streams, and open on the right file. -/
theorem Stands.source {opened : List (Nat × OpenFile)} {input stream : Nat} {stdio : Stdio}
    {theirs : ChildStdio} (hstand : Stands table stream stdio opened theirs)
    (h : Opened table table' ((input, file) :: opened)) (hstd : ∀ fd < 3, table fd ≠ none)
    (hgiven : ∀ fd, stdio = .fd fd → table fd ≠ none) (hfd : theirs.source = some fd) :
    3 ≤ fd ∧ stdio ≠ .inherit ∧ closeAll table' [input] fd ≠ none ∧
      closeAll table' [input] fd = stdio.openFile table stream := by
  cases theirs with
  | inherit => cases hfd
  | explicit fd' =>
      cases hfd
      obtain ⟨hge, rfl⟩ := hstand
      have hopen := hgiven fd rfl
      rw [h.closeAll_of_open hopen]
      exact ⟨hge, by simp, hopen, rfl⟩
  | owned fd' =>
      cases hfd
      obtain ⟨hne, file', hmem, hfile⟩ := hstand
      have hopen := h.closeAll_of_mem hmem
      refine ⟨h.three_le hstd (List.mem_cons_of_mem _ hmem), hne, ?_, hopen.trans hfile.symm⟩
      rw [hopen]
      exact Option.some_ne_none file'

/-- Nothing is taken for a stream only where it is inherited. -/
theorem Stands.eq_inherit {opened : List (Nat × OpenFile)} {stream : Nat} {stdio : Stdio}
    {theirs : ChildStdio} (hstand : Stands table stream stdio opened theirs)
    (hnone : theirs.source = none) : stdio = .inherit := by
  cases theirs with
  | inherit => exact hstand
  | explicit fd | owned fd => cases hnone

/-- The streams of the child, and everything else as it was at the fork. -/
theorem redirects_of_stands {opened : List (Nat × OpenFile)} {stdio : Nat → Stdio}
    {theirs : List (Nat × ChildStdio)} {input : Nat} {file : OpenFile} (cloexec : Nat → Bool)
    (h : Opened table table' ((input, file) :: opened)) (hstd : ∀ fd < 3, table fd ≠ none)
    (hgiven : ∀ stream fd, stdio stream = .fd fd → table fd ≠ none)
    (hstreams : theirs.map Prod.fst = [0, 1, 2])
    (hstands : ∀ t ∈ theirs, Stands table t.1 (stdio t.1) opened t.2) :
    ∃ fds, theirs.foldlM redirect
        ⟨closeAll table' [input], (forked table table' cloexec).cloexec⟩ = .ok fds ∧
      (∀ fd < 3, (if fds.cloexec fd then none else fds.table fd) =
        beside table cloexec stdio fd) ∧
      ∀ fd, 3 ≤ fd → fds.cloexec fd = (forked table table' cloexec).cloexec fd ∧
        fds.table fd = closeAll table' [input] fd := by
  have hlow : ∀ t ∈ theirs, t.1 < 3 := by
    intro t ht
    have hmem : t.1 ∈ [0, 1, 2] := hstreams ▸ List.mem_map_of_mem ht
    simp only [List.mem_cons, List.not_mem_nil, or_false] at hmem
    omega
  have hsource : ∀ t ∈ theirs, ∀ fd, t.2.source = some fd → 3 ≤ fd ∧ stdio t.1 ≠ .inherit ∧
      closeAll table' [input] fd ≠ none ∧
        closeAll table' [input] fd = (stdio t.1).openFile table t.1 :=
    fun t ht fd ↦ (hstands t ht).source h hstd (hgiven t.1)
  have hnodup : (theirs.map Prod.fst).Nodup := by
    rw [hstreams]
    decide
  have hopen : ∀ t ∈ theirs, ∀ fd, t.2.source = some fd → 3 ≤ fd ∧
      (Descriptors.mk (closeAll table' [input]) (forked table table' cloexec).cloexec).table fd ≠
        none :=
    fun t ht fd hfd ↦ ⟨(hsource t ht fd hfd).1, (hsource t ht fd hfd).2.2.1⟩
  obtain ⟨fds, hfold, hplaces, hsame⟩ := redirects_of_open hnodup hlow hopen
  refine ⟨fds, hfold, fun fd hfd ↦ ?_, fun fd hfd ↦ ?_⟩
  · obtain ⟨t, ht, rfl⟩ : ∃ t ∈ theirs, t.1 = fd := by
      have hmem : fd ∈ theirs.map Prod.fst := by
        rw [hstreams]
        simp only [List.mem_cons, List.not_mem_nil, or_false]
        omega
      obtain ⟨t, ht, heq⟩ := List.mem_map.mp hmem
      exact ⟨t, ht, heq⟩
    rw [beside]
    by_cases hredirected : ∃ t' ∈ theirs, t'.1 = t.1 ∧ ∃ fd, t'.2.source = some fd
    · obtain ⟨t', ht', hstream, fd, hfd'⟩ := hredirected
      obtain ⟨-, hne, -, hfile⟩ := hsource t' ht' fd hfd'
      obtain ⟨htable, hcloexec⟩ := hplaces t' ht' fd hfd'
      rw [← hstream, hcloexec, htable, if_neg Bool.false_ne_true, if_pos ⟨hlow t' ht', hne⟩]
      exact hfile
    · have hnone : ∀ t' ∈ theirs, t'.1 = t.1 → t'.2.source = none := by
        intro t' ht' hstream
        rw [← Option.not_isSome_iff_eq_none, Option.isSome_iff_exists]
        exact fun hsome ↦ hredirected ⟨t', ht', hstream, hsome⟩
      have hinherit : stdio t.1 = .inherit := (hstands t ht).eq_inherit (hnone t ht rfl)
      obtain ⟨htable, hcloexec⟩ := hsame t.1 hnone
      have hopen := hstd t.1 hfd
      have hkept : ¬(t.1 < 3 ∧ stdio t.1 ≠ .inherit) := fun h ↦ h.2 hinherit
      have hflag := hcloexec.trans (forked_cloexec hopen)
      rw [if_neg hkept, hflag, htable]
      dsimp only
      rw [h.closeAll_of_open hopen]
  · obtain ⟨htable, hcloexec⟩ := hsame fd fun t ht heq ↦
      absurd (heq ▸ hlow t ht) (Nat.not_lt.mpr hfd)
    exact ⟨hcloexec, htable⟩

/-- What the tracking process has left open. -/
theorem parent_of_opened {new : List (Nat × OpenFile)} {stdio : Nat → Stdio}
    {theirs : List (Nat × ChildStdio)} {input output shm shm_receiver notify notify_receiver : Nat}
    (hopened : Opened table table' ((output, .error_pipe) :: (input, .error_pipe) :: (new ++
      [(notify, .notify_sender), (notify_receiver, .notify_receiver), (shm, .shm_sender),
        (shm_receiver, .shm_receiver)])))
    (hclosed : ∀ open' ∈ new, (∃ t ∈ theirs, t.2.closes = some open'.1) ∨
      ∃ stream, open'.2 = .parent_stdio stream)
    (hopen : parent kernel stdio theirs input output shm notify table' fd = some file) :
    table fd = some file ∨ file ∈ [.shm_receiver, .notify_receiver, .pidfd] ∨
      ∃ stream, file = .parent_stdio stream := by
  rw [parent, closeAll] at hopen
  split at hopen
  · cases hopen
  rename_i hdropped
  rcases open_pidfd_eq_some hopen with rfl | hleft
  · exact .inr (.inl (by simp))
  rw [closeAll] at hleft
  split at hleft
  · cases hleft
  rename_i hkept
  by_cases hmem : fd ∈ ((output, OpenFile.error_pipe) :: (input, .error_pipe) :: (new ++
      [(notify, .notify_sender), (notify_receiver, .notify_receiver), (shm, .shm_sender),
        (shm_receiver, .shm_receiver)])).map Prod.fst
  · obtain ⟨open', hopen', rfl⟩ := List.mem_map.mp hmem
    obtain rfl : open'.2 = file := Option.some.inj ((hopened.file _ hopen').symm.trans hleft)
    simp only [List.mem_cons, List.mem_append, List.not_mem_nil, or_false] at hopen'
    rcases hopen' with rfl | rfl | hnew | rfl | rfl | rfl | rfl
    · exact absurd (by simp) hkept
    · exact absurd (by simp) hkept
    · rcases hclosed open' hnew with ⟨t, ht, hcloses⟩ | hstdio
      · refine absurd ?_ hkept
        exact List.mem_cons_of_mem _ (List.mem_cons_of_mem _
          (List.mem_filterMap.mpr ⟨t, ht, hcloses⟩))
      · exact .inr (.inr hstdio)
    · exact absurd (by simp) hdropped
    · exact .inr (.inl (by simp))
    · exact absurd (by simp) hdropped
    · exact .inr (.inl (by simp))
  · exact .inl ((hopened.same fd hmem).symm.trans hleft)

/-- **What a tracked program inherits**: the three published descriptors, open on what the
payload says, and what it would inherit anyway.  The tracking process, whose own standard
streams are open, has nothing more than before once it has dropped the command but the receiving
ends, its ends of the pipes for standard streams, and the pidfd of the child. -/
theorem inherited_of_spawn {kernel₀ : Kernel} {table₀ table₁ table'' : FdTable}
    {filter : List SockFilter} {spy_inner : SpyInner} {payload : Payload}
    {stdio : Nat → Stdio} {theirs : List (Nat × ChildStdio)} {input output : Nat}
    (cloexec : Nat → Bool) (hinit : SpyInner.init kernel₀ table₀ = .ok (spy_inner, table₁))
    (hinner : table spy_inner.preload_lib_memfd = some .preload_lib)
    (hstd : ∀ fd < 3, table fd ≠ none)
    (hgiven : ∀ stream fd, stdio stream = .fd fd → table fd ≠ none)
    (hspawn : spawn_impl kernel filter spy_inner table = .ok (payload, table'))
    (hfork : before_fork kernel stdio table' = .ok ((theirs, input, output), table'')) :
    ∃ shm notify : Nat, payload.ipc_fd = shm ∧ payload.seccomp_payload.ipc_fd = notify ∧
      (∃ fds, child spy_inner.preload_lib_memfd shm notify input theirs
          (forked table table'' cloexec) = .ok fds ∧
        ∀ fd, fds.exec fd =
          if fd = spy_inner.preload_lib_memfd then some .preload_lib
          else if fd = shm then some .shm_sender else if fd = notify then some .notify_sender
          else beside table cloexec stdio fd) ∧
      ∀ fd file, parent kernel stdio theirs input output shm notify table'' fd = some file →
        table fd = some file ∨ file ∈ [.shm_receiver, .notify_receiver, .pidfd] ∨
          ∃ stream, file = .parent_stdio stream := by
  obtain ⟨shm, shm_receiver, notify, notify_receiver, hshm, hnotify, hopened⟩ :=
    opened_of_spawn hspawn
  obtain ⟨new, hopened, hstreams, hstands, hclosed⟩ := hopened.before_fork hgiven hfork
  refine ⟨shm, notify, hshm, hnotify, ?_, fun fd file ↦ parent_of_opened hopened hclosed⟩
  have hforked := hopened.perm (.swap _ _ _)
  obtain ⟨fds, hfold, hlow, hhigh⟩ := redirects_of_stands cloexec hforked hstd hgiven hstreams
    fun t ht ↦ (hstands t ht).append [(output, .error_pipe)]
  -- what `spawn_impl` has opened is still there
  have hnew : ∀ fd file, (fd, file) ∈ [(notify, OpenFile.notify_sender),
      (notify_receiver, .notify_receiver), (shm, .shm_sender), (shm_receiver, .shm_receiver)] →
        3 ≤ fd ∧ fds.table fd = some file := by
    intro fd file hmem
    have hmem := List.mem_cons_of_mem (output, .error_pipe) (List.mem_append_right new hmem)
    have hge := hforked.three_le hstd (List.mem_cons_of_mem _ hmem)
    exact ⟨hge, (hhigh fd hge).2.trans (hforked.closeAll_of_mem hmem)⟩
  have hge₁ : 3 ≤ spy_inner.preload_lib_memfd := Nat.le_trans (by decide) (safe_of_init hinit)
  have hfile₁ : fds.table spy_inner.preload_lib_memfd = some .preload_lib := by
    rw [(hhigh _ hge₁).2, hforked.closeAll_of_open (by rw [hinner]; exact Option.some_ne_none _),
      hinner]
  obtain ⟨hge₂, hfile₂⟩ := hnew shm .shm_sender (by simp)
  obtain ⟨hge₃, hfile₃⟩ := hnew notify .notify_sender (by simp)
  obtain ⟨fds', hpre, hexec⟩ := pre_exec_of_open hfile₁ hfile₂ hfile₃
  refine ⟨fds', bind_eq_ok.mpr ⟨fds, hfold, hpre⟩, fun fd ↦ ?_⟩
  rw [hexec]
  by_cases h₁ : fd = spy_inner.preload_lib_memfd
  · rw [if_pos (.inl h₁), if_pos h₁, h₁]
    exact hfile₁
  rw [if_neg h₁]
  by_cases h₂ : fd = shm
  · rw [if_pos (.inr (.inl h₂)), if_pos h₂, h₂]
    exact hfile₂
  rw [if_neg h₂]
  by_cases h₃ : fd = notify
  · rw [if_pos (.inr (.inr h₃)), if_pos h₃, h₃]
    exact hfile₃
  rw [if_neg h₃, if_neg (by simp [h₁, h₂, h₃])]
  rcases Nat.lt_or_ge fd 3 with hlt | hge
  · exact hlow fd hlt
  · obtain ⟨hcloexec, htable⟩ := hhigh fd hge
    have hkept : ¬(fd < 3 ∧ stdio fd ≠ .inherit) := fun h ↦ Nat.not_lt.mpr hge h.1
    rw [beside, if_neg hkept]
    -- what the spawn has opened beside the three is closed
    by_cases hfd : table fd = none
    · simp [hcloexec, forked, hfd]
    · rw [hcloexec, forked_cloexec hfd, htable, hforked.closeAll_of_open hfd]

/-- A command whose output is read. -/
def sampleStdio : Nat → Stdio := fun stream ↦ if stream = 1 then .make_pipe else .inherit

/-- The descriptors around the fork of a process that had the descriptors below 9. -/
def sampleFork : Except Errno ((SpyInner × FdTable) × (Payload × FdTable) ×
    (List (Nat × ChildStdio) × Nat × Nat) × FdTable) := do
  let (spy_inner, table) ← SpyInner.init sampleKernel (sampleTable 9)
  let (payload, table') ← spawn_impl sampleKernel [] spy_inner table
  let out ← before_fork sampleKernel sampleStdio table'
  return ((spy_inner, table), (payload, table'), out)

theorem inherited_sample : ∃ (spy_inner : SpyInner) (table table' : FdTable) (payload : Payload),
    SpyInner.init sampleKernel (sampleTable 9) = .ok (spy_inner, table) ∧
      spawn_impl sampleKernel [] spy_inner table = .ok (payload, table') ∧
      ∃ theirs input output table'', before_fork sampleKernel sampleStdio table' =
          .ok ((theirs, input, output), table'') ∧
        ∃ shm notify : Nat, payload.ipc_fd = shm ∧ payload.seccomp_payload.ipc_fd = notify ∧
          ∃ fds, child spy_inner.preload_lib_memfd shm notify input theirs
            (forked table table'' fun _ ↦ false) = .ok fds ∧
            fds.exec spy_inner.preload_lib_memfd = some .preload_lib := by
  have hok : sampleFork.isOk = true := by decide +kernel
  have hopen : (SpyInner.init sampleKernel (sampleTable 9)).map
      (fun out ↦ (out.2 out.1.preload_lib_memfd, [0, 1, 2].all fun fd ↦ (out.2 fd).isSome)) =
        .ok (some .preload_lib, true) := by decide +kernel
  cases hsample : sampleFork with
  | error e =>
      rw [hsample] at hok
      cases hok
  | ok out =>
      obtain ⟨⟨spy_inner, table⟩, hinit, hrest⟩ := bind_eq_ok.mp hsample
      obtain ⟨⟨payload, table'⟩, hspawn, hrest⟩ := bind_eq_ok.mp hrest
      obtain ⟨⟨⟨theirs, input, output⟩, table''⟩, hfork, -⟩ := bind_eq_ok.mp hrest
      rw [hinit] at hopen
      obtain ⟨hinner, hstreams⟩ := Prod.mk.inj (Except.ok.inj hopen)
      have hstd : ∀ fd < 3, table fd ≠ none := by
        intro fd hfd
        have hmem : fd ∈ [0, 1, 2] := by
          simp only [List.mem_cons, List.not_mem_nil, or_false]
          omega
        exact Option.isSome_iff_ne_none.mp (List.all_eq_true.mp hstreams fd hmem)
      have hgiven : ∀ stream fd, sampleStdio stream = .fd fd → table fd ≠ none := by
        intro stream fd h
        rw [sampleStdio] at h
        split at h <;> cases h
      obtain ⟨shm, notify, hshm, hnotify, ⟨fds, hpre, hexec⟩, -⟩ :=
        inherited_of_spawn (fun _ ↦ false) hinit hinner hstd hgiven hspawn hfork
      refine ⟨spy_inner, table, table', payload, hinit, hspawn, theirs, input, output, table'',
        hfork, shm, notify, hshm, hnotify, fds, hpre, ?_⟩
      rw [hexec, if_pos rfl]

end Fspy.Unix.Fds
