import Fspy.Lib.Slots
import Fspy.Unix.Spawn

/-!
# The descriptors that a spawn publishes

A tracked program inherits three descriptors of the tracking process, and is told their
numbers: the socket of the log, the file of the preload library, and the socket that
listeners are sent through.  Numbers below `SAFE_FD_NUM` are the program's own; what is
created there is duplicated until it is out of the way, where that is not forgotten.
-/

namespace Fspy.Unix.Fds

open Lib Slots

/-- What a descriptor of the tracking process is open on. -/
inductive OpenFile where
  | preload_lib
  | shm_sender
  | shm_receiver
  | notify_sender
  | notify_receiver
  | dev_null
  /-- The ends of a pipe for a standard stream of the child. -/
  | child_stdio (stream : Nat)
  | parent_stdio (stream : Nat)
  | error_pipe
  | pidfd
  | other (id : Nat)
deriving DecidableEq, Repr

/-- The descriptors of a process. -/
abbrev FdTable := Table OpenFile

/-- What the kernel has to say about new descriptors. -/
structure Kernel where
  RLIMIT_NOFILE : Nat
  /-- Another reason for which a call fails. -/
  fault : FdTable → Option Errno

def EMFILE : Errno := .other 24

variable (kernel : Kernel)

/-- A new descriptor is the lowest free one, from `min` on. -/
def alloc (table : FdTable) (min : Nat) (file : OpenFile) : Except Errno (Nat × FdTable) :=
  match kernel.fault table with
  | some e => .error e
  | none => match lowestFree table (kernel.RLIMIT_NOFILE - min) min with
      | none => .error EMFILE
      | some fd => .ok (fd, Function.update table fd (some file))

/-- `OwnedFd::try_clone`: `fcntl(fd, F_DUPFD_CLOEXEC, 3)`. -/
def try_clone (table : FdTable) (fd : Nat) : Except Errno (Nat × FdTable) :=
  match table fd with
  | none => .error .EBADF
  | some file => alloc kernel table 3 file

/-- `socketpair`. -/
def pair (table : FdTable) (first second : OpenFile) :
    Except Errno ((Nat × Nat) × FdTable) := do
  let (fd₁, table) ← alloc kernel table 0 first
  let (fd₂, table) ← alloc kernel table 0 second
  return ((fd₁, fd₂), table)

/-! ## `duplicate_until_safe` -/

def SAFE_FD_NUM : Nat := 17

/-- What is left when these are dropped. -/
def closeAll (table : FdTable) (fds : List Nat) : FdTable :=
  fun fd ↦ if fd ∈ fds then none else table fd

theorem try_clone_eq_ok {kernel : Kernel} {table table' : FdTable} {fd new_fd : Nat}
    (h : try_clone kernel table fd = .ok (new_fd, table')) :
    ∃ file, table fd = some file ∧ table new_fd = none ∧
      table' = Function.update table new_fd (some file) := by
  rw [try_clone] at h
  split at h
  · cases h
  · rename_i file hfile
    rw [alloc] at h
    split at h
    · cases h
    · split at h
      · cases h
      · rename_i fd' hlowest
        cases h
        exact ⟨file, hfile, (lowestFree_eq_some hlowest).2.2.1, rfl⟩

/-- The loop of `duplicate_until_safe`, and the table it leaves: the descriptors it has
collected are dropped however it ends. -/
def duplicateLoop (table : FdTable) (fd : Nat) (fds : List Nat) : Except Errno Nat × FdTable :=
  if _hfd : fd < SAFE_FD_NUM then
    match _hclone : try_clone kernel table fd with
    | .error e => (.error e, closeAll table (fd :: fds))
    | .ok (new_fd, table) => duplicateLoop table new_fd (fds ++ [fd])
  else (.ok fd, closeAll table fds)
termination_by freeBelow table SAFE_FD_NUM + if fd < SAFE_FD_NUM then 1 else 0
decreasing_by
  obtain ⟨file, -, hfree, rfl⟩ := try_clone_eq_ok _hclone
  rw [if_pos _hfd]
  split
  · rename_i hnew
    have htake := freeBelow_take (a := file) hfree hnew
    omega
  · rename_i hnew
    rw [freeBelow_update_of_le (Nat.not_lt.mp hnew)]
    omega

/-- `duplicate_until_safe`. -/
def duplicate_until_safe (table : FdTable) (fd : Nat) : Except Errno Nat × FdTable :=
  duplicateLoop kernel table fd []

variable {kernel : Kernel} {table₀ table table' : FdTable} {orig fd : Nat} {fds : List Nat}
  {file : OpenFile}

/-- The state of the loop: `fd` and `fds` are the descriptor it was given and duplicates
of it, and nothing else has changed. -/
structure Duplicates (table₀ : FdTable) (orig : Nat) (file : OpenFile) (table : FdTable)
    (fd : Nat) (fds : List Nat) : Prop where
  opened : table₀ orig = some file
  given : fd = orig ∧ fds = [] ∨ orig ∈ fds
  notMem : fd ∉ fds
  low : ∀ n ∈ fds, n < SAFE_FD_NUM
  same : ∀ n ∈ fd :: fds, table n = some file
  fresh : ∀ n ∈ fd :: fds, n ≠ orig → table₀ n = none
  rest : ∀ n ∉ fd :: fds, table n = table₀ n

theorem Duplicates.init (h : table₀ orig = some file) :
    Duplicates table₀ orig file table₀ orig [] where
  opened := h
  given := .inl ⟨rfl, rfl⟩
  notMem := by simp
  low := by simp
  same := by simpa using h
  fresh := by simp
  rest := by simp

theorem Duplicates.given_mem (h : Duplicates table₀ orig file table fd fds) : orig ∈ fd :: fds := by
  rcases h.given with ⟨rfl, rfl⟩ | hmem
  · exact List.mem_cons_self
  · exact List.mem_cons_of_mem _ hmem

theorem Duplicates.clone (h : Duplicates table₀ orig file table fd fds)
    (hfd : fd < SAFE_FD_NUM) {new_fd : Nat} (hfree : table new_fd = none) :
    Duplicates table₀ orig file (Function.update table new_fd (some file)) new_fd
      (fds ++ [fd]) := by
  have hnew : new_fd ∉ fd :: fds := by
    intro hmem
    cases (h.same _ hmem).symm.trans hfree
  have hperm : ∀ n, n ∈ fds ++ [fd] ↔ n ∈ fd :: fds := by
    intro n
    simp [or_comm]
  refine ⟨h.opened, .inr ((hperm orig).mpr h.given_mem), fun hmem ↦ hnew ((hperm _).mp hmem),
    ?_, ?_, ?_, ?_⟩
  · intro n hn
    rcases List.mem_cons.mp ((hperm n).mp hn) with rfl | hn
    · exact hfd
    · exact h.low n hn
  · intro n hn
    by_cases heq : n = new_fd
    · rw [heq, Function.update_self]
    · rw [Function.update_of_ne heq]
      exact h.same n ((hperm n).mp ((List.mem_cons.mp hn).resolve_left heq))
  · intro n hn hne
    by_cases heq : n = new_fd
    · rw [heq, ← h.rest new_fd hnew]
      exact hfree
    · exact h.fresh n ((hperm n).mp ((List.mem_cons.mp hn).resolve_left heq)) hne
  · intro n hn
    rw [List.mem_cons, not_or, hperm] at hn
    rw [Function.update_of_ne hn.1]
    exact h.rest n hn.2

/-- At the end of the loop nothing but the last duplicate is left. -/
theorem Duplicates.finish (h : Duplicates table₀ orig file table fd fds) :
    fd = orig ∧ closeAll table fds = table₀ ∨ orig < SAFE_FD_NUM ∧ table₀ fd = none ∧
      closeAll table fds =
        Function.update (Function.update table₀ orig none) fd (some file) := by
  rcases h.given with ⟨rfl, rfl⟩ | hmem
  · refine .inl ⟨rfl, ?_⟩
    funext n
    rw [closeAll, if_neg List.not_mem_nil]
    by_cases hn : n = fd
    · rw [hn, h.same fd List.mem_cons_self, h.opened]
    · exact h.rest n fun hmem ↦ hn (List.mem_singleton.mp hmem)
  · have hne : fd ≠ orig := by
      rintro rfl
      exact h.notMem hmem
    refine .inr ⟨h.low orig hmem, h.fresh fd List.mem_cons_self hne, ?_⟩
    funext n
    rw [closeAll]
    by_cases hfd : n = fd
    · subst hfd
      rw [if_neg h.notMem, Function.update_self]
      exact h.same n List.mem_cons_self
    · rw [Function.update_of_ne hfd]
      by_cases horig : n = orig
      · subst horig
        rw [if_pos hmem, Function.update_self]
      · rw [Function.update_of_ne horig]
        split
        · rename_i hn
          exact (h.fresh n (List.mem_cons_of_mem _ hn) horig).symm
        · rename_i hn
          exact h.rest n fun hn' ↦ (List.mem_cons.mp hn').elim hfd hn

/-- If it fails, nothing of it is left. -/
theorem Duplicates.abort (h : Duplicates table₀ orig file table fd fds) :
    closeAll table (fd :: fds) = Function.update table₀ orig none := by
  funext n
  rw [closeAll]
  by_cases hn : n = orig
  · subst hn
    rw [if_pos h.given_mem, Function.update_self]
  · rw [Function.update_of_ne hn]
    split
    · rename_i hmem
      exact (h.fresh n hmem hn).symm
    · rename_i hmem
      exact h.rest n hmem

/-- What `duplicate_until_safe` is to leave of a descriptor for this file. -/
def Outcome (table : FdTable) (fd : Nat) (file : OpenFile) :
    Except Errno Nat × FdTable → Prop
  | (.ok new_fd, table') => SAFE_FD_NUM ≤ new_fd ∧
      (new_fd = fd ∧ table' = table ∨ fd < SAFE_FD_NUM ∧ table new_fd = none ∧
        table' = Function.update (Function.update table fd none) new_fd (some file))
  | (.error _, table') => table' = Function.update table fd none

theorem duplicateLoop_of_safe (hfd : ¬fd < SAFE_FD_NUM) :
    duplicateLoop kernel table fd fds = (.ok fd, closeAll table fds) := by
  rw [duplicateLoop, dif_neg hfd]

theorem duplicateLoop_of_error (hfd : fd < SAFE_FD_NUM) {e : Errno}
    (hclone : try_clone kernel table fd = .error e) :
    duplicateLoop kernel table fd fds = (.error e, closeAll table (fd :: fds)) := by
  rw [duplicateLoop, dif_pos hfd]
  split
  · rename_i e' herror
    cases hclone.symm.trans herror
    rfl
  · rename_i hok
    cases hclone.symm.trans hok

theorem duplicateLoop_of_ok (hfd : fd < SAFE_FD_NUM) {new_fd : Nat}
    (hclone : try_clone kernel table fd = .ok (new_fd, table')) :
    duplicateLoop kernel table fd fds = duplicateLoop kernel table' new_fd (fds ++ [fd]) := by
  rw [duplicateLoop, dif_pos hfd]
  split
  · rename_i herror
    cases hclone.symm.trans herror
  · rename_i hok
    cases hclone.symm.trans hok
    rfl

/-- The loop, from any of its states on. -/
theorem duplicateLoop_outcome (h : Duplicates table₀ orig file table fd fds) :
    Outcome table₀ orig file (duplicateLoop kernel table fd fds) := by
  induction table, fd, fds using duplicateLoop.induct kernel with
  | case1 table fd fds hfd e hclone =>
      rw [duplicateLoop_of_error hfd hclone]
      exact h.abort
  | case2 table fd fds hfd new_fd table' hclone ih =>
      obtain ⟨file', hfile, hfree, rfl⟩ := try_clone_eq_ok hclone
      obtain rfl := Option.some.inj (hfile.symm.trans (h.same fd List.mem_cons_self))
      rw [duplicateLoop_of_ok hfd hclone]
      exact ih (h.clone hfd hfree)
  | case3 table fd fds hfd =>
      rw [duplicateLoop_of_safe hfd]
      exact ⟨Nat.not_lt.mp hfd, h.finish⟩

theorem duplicate_until_safe_outcome (kernel : Kernel) (h : table fd = some file) :
    Outcome table fd file (duplicate_until_safe kernel table fd) :=
  duplicateLoop_outcome (Duplicates.init h)

/-- What is left is a descriptor for the file that is out of the way, or none; and no
other descriptor is touched. -/
def LeaksNothing (table : FdTable) (fd : Nat) (file : OpenFile) :
    Except Errno Nat × FdTable → Prop
  | (.ok new_fd, table') => SAFE_FD_NUM ≤ new_fd ∧ table' new_fd = some file ∧
      (if fd < SAFE_FD_NUM then table' fd = none ∧ table new_fd = none else new_fd = fd) ∧
      ∀ n, n ≠ fd → n ≠ new_fd → table' n = table n
  | (.error _, table') => table' fd = none ∧ ∀ n, n ≠ fd → table' n = table n

/-- **`duplicate_until_safe` leaks nothing**, whatever is open and whatever call fails. -/
theorem duplicate_until_safe_leaksNothing (kernel : Kernel) (table : FdTable) (fd : Nat)
    (file : OpenFile) (h : table fd = some file) :
    LeaksNothing table fd file (duplicate_until_safe kernel table fd) := by
  have houtcome := duplicate_until_safe_outcome kernel h
  cases hresult : duplicate_until_safe kernel table fd with
  | mk result table' =>
      rw [hresult] at houtcome
      cases result with
      | error e =>
          obtain rfl := houtcome
          exact ⟨Function.update_self .., fun n hn ↦ Function.update_of_ne hn ..⟩
      | ok new_fd =>
          obtain ⟨hsafe, ⟨rfl, rfl⟩ | ⟨hfd, hfree, rfl⟩⟩ := houtcome
          · refine ⟨hsafe, h, ?_, fun n _ _ ↦ rfl⟩
            rw [if_neg (Nat.not_lt.mpr hsafe)]
          · have hne : fd ≠ new_fd := Nat.ne_of_lt (Nat.lt_of_lt_of_le hfd hsafe)
            refine ⟨hsafe, Function.update_self .., ?_, fun n hn hnew ↦ ?_⟩
            · rw [if_pos hfd, Function.update_of_ne hne, Function.update_self]
              exact ⟨rfl, hfree⟩
            · rw [Function.update_of_ne hnew, Function.update_of_ne hn]

/-- A process with the descriptors below `n`. -/
def sampleTable (n : Nat) : FdTable := fun fd ↦ if fd < n then some (.other fd) else none

def sampleKernel : Kernel := ⟨1024, fun _ ↦ none⟩

/-- The last of six descriptors. -/
theorem duplicate_until_safe_sample :
    LeaksNothing (sampleTable 6) 5 (.other 5)
      (duplicate_until_safe sampleKernel (sampleTable 6) 5) :=
  duplicate_until_safe_leaksNothing sampleKernel (sampleTable 6) 5 (.other 5) rfl

/-! ## What is published -/

/-- `SpyInner`. -/
structure SpyInner where
  preload_lib_memfd : Nat

/-- `SpyInner::init`. -/
def SpyInner.init (kernel : Kernel) (table : FdTable) : Except Errno (SpyInner × FdTable) := do
  let (memfd, table) ← alloc kernel table 0 .preload_lib
  match duplicate_until_safe kernel table memfd with
  | (.error e, _) => .error e
  | (.ok memfd, table) => return (⟨memfd⟩, table)

/-- `supervise`: its payload, and the end that listeners are received from. -/
def supervise (kernel : Kernel) (filter : List SockFilter) (table : FdTable) :
    Except Errno ((SeccompPayload × Nat) × FdTable) := do
  let ((notify_fd_receiver, notify_fd_sender), table) ←
    pair kernel table .notify_receiver .notify_sender
  return ((⟨notify_fd_sender, filter⟩, notify_fd_receiver), table)

/-- The path under which the preload library is found. -/
def preloadPath (fd : Nat) : Bytes := ascii s!"/proc/self/fd/{fd}"

/-- `spawn_impl`, up to the payload. -/
def spawn_impl (kernel : Kernel) (filter : List SockFilter) (spy_inner : SpyInner)
    (table : FdTable) : Except Errno (Payload × FdTable) := do
  let ((shm_fd_sender, _), table) ← pair kernel table .shm_sender .shm_receiver
  match duplicate_until_safe kernel table shm_fd_sender with
  | (.error e, _) => .error e
  | (.ok shm_fd_sender, table) =>
      let ((seccomp_payload, _), table) ← supervise kernel filter table
      return ({
        ipc_fd := shm_fd_sender
        preload_path := preloadPath spy_inner.preload_lib_memfd
        seccomp_payload }, table)

/-- No descriptor of a payload is one of the program's own. -/
def OutOfTheWay (payload : Payload) : Prop :=
  (SAFE_FD_NUM : Int) ≤ payload.ipc_fd ∧
    (∃ fd, payload.preload_path = preloadPath fd ∧ SAFE_FD_NUM ≤ fd) ∧
    (SAFE_FD_NUM : Int) ≤ payload.seccomp_payload.ipc_fd

theorem alloc_eq_ok {min : Nat} (h : alloc kernel table min file = .ok (fd, table')) :
    lowestFree table (kernel.RLIMIT_NOFILE - min) min = some fd ∧
      table' = Function.update table fd (some file) := by
  rw [alloc] at h
  split at h
  · cases h
  · split at h
    · cases h
    · rename_i hlowest
      cases h
      exact ⟨hlowest, rfl⟩

/-- A pair of sockets takes the two lowest free descriptors. -/
theorem pair_eq_ok {first second : OpenFile} {fd₁ fd₂ : Nat}
    (h : pair kernel table first second = .ok ((fd₁, fd₂), table')) (bound : Nat) :
    (fd₁ < bound ↔ 0 < freeBelow table bound) ∧ (fd₂ < bound ↔ 1 < freeBelow table bound) ∧
      freeBelow table' bound = freeBelow table bound - 2 ∧ table' fd₁ = some first := by
  simp only [pair, bind_eq_ok] at h
  obtain ⟨⟨a, table₁⟩, hfirst, ⟨b, table₂⟩, hsecond, heq⟩ := h
  cases heq
  obtain ⟨hlowest₁, rfl⟩ := alloc_eq_ok hfirst
  obtain ⟨hlowest₂, rfl⟩ := alloc_eq_ok hsecond
  have hleft := freeBelow_takeLowest first bound hlowest₁
  have hleft₂ := freeBelow_takeLowest second bound hlowest₂
  dsimp only at hlowest₂ hleft₂ ⊢
  have hne : a ≠ b := by
    rintro rfl
    have hfree := (lowestFree_eq_some hlowest₂).2.2.1
    rw [Function.update_self] at hfree
    cases hfree
  refine ⟨lowestFree_lt_iff hlowest₁, ?_, by omega, ?_⟩
  · rw [lowestFree_lt_iff hlowest₂]
    omega
  · rw [Function.update_of_ne hne, Function.update_self]

/-- Duplicating a descriptor frees it, if it is one of the program's own. -/
theorem freeBelow_of_duplicate {new_fd : Nat} (hfile : table fd = some file)
    (h : duplicate_until_safe kernel table fd = (.ok new_fd, table')) :
    SAFE_FD_NUM ≤ new_fd ∧ freeBelow table' SAFE_FD_NUM =
      freeBelow table SAFE_FD_NUM + if fd < SAFE_FD_NUM then 1 else 0 := by
  have houtcome := duplicate_until_safe_outcome kernel hfile
  rw [h] at houtcome
  obtain ⟨hsafe, ⟨rfl, rfl⟩ | ⟨hfd, -, rfl⟩⟩ := houtcome
  · rw [if_neg (Nat.not_lt.mpr hsafe)]
    exact ⟨hsafe, rfl⟩
  · have hne : table fd ≠ none := by
      rw [hfile]
      exact Option.some_ne_none file
    rw [freeBelow_update_of_le hsafe, freeBelow_release hne hfd, if_pos hfd]
    exact ⟨hsafe, rfl⟩

/-- The preload library is out of the way. -/
theorem safe_of_init {spy_inner : SpyInner}
    (h : SpyInner.init kernel table = .ok (spy_inner, table')) :
    SAFE_FD_NUM ≤ spy_inner.preload_lib_memfd := by
  obtain ⟨⟨memfd, table₁⟩, halloc, h⟩ := bind_eq_ok.mp h
  obtain ⟨-, rfl⟩ := alloc_eq_ok halloc
  dsimp only at h
  split at h
  · cases h
  · rename_i hduplicate
    cases h
    exact (freeBelow_of_duplicate (Function.update_self ..) hduplicate).1

/-- **When the published descriptors are out of the program's way**: at most two of the
program's own are free in the tracking process. -/
theorem outOfTheWay_iff {kernel₀ : Kernel} {table₁ : FdTable} {filter : List SockFilter}
    {spy_inner : SpyInner} {payload : Payload}
    (hinit : SpyInner.init kernel₀ table₀ = .ok (spy_inner, table₁))
    (hspawn : spawn_impl kernel filter spy_inner table = .ok (payload, table')) :
    OutOfTheWay payload ↔ freeBelow table SAFE_FD_NUM ≤ 2 := by
  obtain ⟨⟨⟨shm_fd_sender, _⟩, table₂⟩, hshm, hspawn⟩ := bind_eq_ok.mp hspawn
  obtain ⟨hsender, -, hleft, hfile⟩ := pair_eq_ok hshm SAFE_FD_NUM
  dsimp only at hspawn
  split at hspawn
  · cases hspawn
  · rename_i new_fd table₃ hduplicate
    obtain ⟨hsafe, hleft'⟩ := freeBelow_of_duplicate hfile hduplicate
    obtain ⟨⟨⟨seccomp_payload, _⟩, table₄⟩, hsupervise, heq⟩ := bind_eq_ok.mp hspawn
    cases heq
    obtain ⟨⟨⟨fd₁, fd₂⟩, table₅⟩, hpair, heq⟩ := bind_eq_ok.mp hsupervise
    cases heq
    obtain ⟨-, hnotify, -⟩ := pair_eq_ok hpair SAFE_FD_NUM
    have hmemfd := safe_of_init hinit
    -- the socket of the listeners takes what is left of the program's own
    have hcount : fd₂ < SAFE_FD_NUM ↔ 2 < freeBelow table SAFE_FD_NUM := by
      rw [hnotify, hleft', hleft]
      split
      · rename_i hlt
        have hpos := hsender.mp hlt
        omega
      · rename_i hge
        have hnone : ¬0 < freeBelow table SAFE_FD_NUM := fun hpos ↦ hge (hsender.mpr hpos)
        omega
    constructor
    · rintro ⟨-, -, hfd₂⟩
      dsimp only at hfd₂
      omega
    · intro hfew
      refine ⟨?_, ⟨_, rfl, hmemfd⟩, ?_⟩
      · exact Int.ofNat_le.mpr hsafe
      · dsimp only
        omega

/-- What a process publishes that has the descriptors below `n`. -/
def published (n : Nat) : Except Errno (Payload × FdTable) := do
  let (spy_inner, table) ← SpyInner.init sampleKernel (sampleTable n)
  spawn_impl sampleKernel [] spy_inner table

/-- The socket of the listeners of a process with nine descriptors: its standard streams and
those of an asynchronous runtime. -/
theorem notify_socket_in_the_way : ∃ payload table, published 9 = .ok (payload, table) ∧
    payload.seccomp_payload.ipc_fd = 11 ∧ ¬OutOfTheWay payload := by
  have hfd : (published 9).map (fun out ↦ out.1.seccomp_payload.ipc_fd) = .ok 11 := by
    decide +kernel
  cases hpublished : published 9 with
  | error e =>
      rw [hpublished] at hfd
      cases hfd
  | ok out =>
      rw [hpublished] at hfd
      have hnotify : out.1.seccomp_payload.ipc_fd = 11 := Except.ok.inj hfd
      refine ⟨out.1, out.2, rfl, hnotify, ?_⟩
      rintro ⟨-, -, hsafe⟩
      rw [hnotify] at hsafe
      exact absurd hsafe (by decide)

/-- With all but two of the descriptors in use, nothing is in the way. -/
theorem outOfTheWay_sample : ∃ payload table, published 15 = .ok (payload, table) ∧
    OutOfTheWay payload := by
  have hok : (published 15).isOk = true := by decide +kernel
  cases hpublished : published 15 with
  | error e =>
      rw [hpublished] at hok
      cases hok
  | ok out =>
      obtain ⟨⟨spy_inner, table⟩, hinit, hspawn⟩ := bind_eq_ok.mp hpublished
      refine ⟨out.1, out.2, rfl, (outOfTheWay_iff hinit hspawn).mpr ?_⟩
      have hfew : (SpyInner.init sampleKernel (sampleTable 15)).map
          (fun out ↦ freeBelow out.2 SAFE_FD_NUM) = .ok 2 := by
        decide +kernel
      rw [hinit] at hfew
      exact Nat.le_of_eq (Except.ok.inj hfew)

end Fspy.Unix.Fds
