import Fspy.Seccomp.Handler
import Fspy.Seccomp.Supervised
import Fspy.Shm.Collect

/-!
# What a tracked child yields

`accesses_future` waits for the socket of the chunks and for the handling loop, and puts
together what they return: the mappings, and the arenas after the one that the resolution
of the command has filled.  `accesses_of_runs` says what the accesses are, for any run of
the processes and any run of the loop.
-/

namespace Fspy

open Lib

namespace Seccomp

/-! ## What a handler has added -/

/-- `SyscallHandler` before the processes that `remote` shows for each notification.  A
string that is read for ever is not one that `Reads` allows. -/
def SyscallHandler.handler (remote : Notif → Remote) : Handler SyscallHandler where
  default := []
  handle_notify arena notify :=
    (SyscallHandler.handle_notify (remote notify) arena notify).getD (arena, .ok ())

/-- Every string that a notification points to is read to an end. -/
def Reads (remote : Notif → Remote) : Prop :=
  ∀ notify, (SyscallHandler.handle_notify (remote notify) [] notify).isSome

/-- What the handler adds for a notification. -/
def added (remote : Notif → Remote) (notify : Notif) : List PathAccess :=
  ((SyscallHandler.handle_notify (remote notify) [] notify).map Prod.fst).getD []

variable {remote : Notif → Remote}

/-- What is in the arena does not matter for what is added. -/
theorem handle_notify_append (remote : Remote) (arena : SyscallHandler) (notify : Notif) :
    SyscallHandler.handle_notify remote arena notify =
      (SyscallHandler.handle_notify remote [] notify).map fun handled ↦
        (arena ++ handled.1, handled.2) := by
  rw [SyscallHandler.handle_notify, SyscallHandler.handle_notify]
  split
  · rw [SyscallHandler.openat, SyscallHandler.openat]
    rcases CStrPtr.read_with_buf _ _ with _ | e | path
    · rfl
    · exact congrArg some (congrArg (·, _) (List.append_nil arena).symm)
    · rfl
  · split
    · rw [SyscallHandler.getdents64, SyscallHandler.getdents64]
      cases Fd.get_path remote _ with
      | error e => exact congrArg some (congrArg (·, _) (List.append_nil arena).symm)
      | ok path => rfl
    · exact congrArg some (congrArg (·, _) (List.append_nil arena).symm)

theorem handler_adds (h : Reads remote) (arena : SyscallHandler) (notify : Notif) :
    ((SyscallHandler.handler remote).handle_notify arena notify).1 =
      arena ++ added remote notify := by
  obtain ⟨handled, hhandled⟩ := Option.isSome_iff_exists.mp (h notify)
  rw [SyscallHandler.handler, added]
  dsimp only
  rw [handle_notify_append, hhandled]
  rfl

/-! ## What a task has delivered -/

open NotifyListener

theorem delivered_of_next {polls rest : List Poll} {notify : Option Notif}
    (h : next polls = (some (.ok notify), rest)) :
    delivered polls = notify.elim [] fun notify ↦ notify :: delivered rest := by
  induction polls using next.induct generalizing rest with
  | case1 => cases h
  | case4 polls ih | case6 polls ih | case7 polls ih | case8 polls ih => exact ih h
  | case9 e polls h₁ h₂ h₃ =>
      simp only [next, Prod.mk.injEq, Option.some.injEq] at h
      cases h.1
  | case2 e polls => cases h
  | _ =>
      cases h
      rfl

/-- The handler of a task that ends well has handled everything that was delivered. -/
theorem handler_of_ok {H : Type} {hd : Handler H} {ioctl : NotifResp → Except Errno Unit}
    {handler handler' : H} {polls : List Poll}
    (h : (handlingTask hd ioctl handler polls).result = some (.ok handler')) :
    handler' = (delivered polls).foldl (fun handler notify ↦ (hd.handle_notify handler notify).1)
      handler := by
  fun_induction handlingTask hd ioctl handler polls with
  | case1 handler polls rest hnext => cases h
  | case2 handler polls e rest hnext => cases h
  | case3 handler polls rest hnext =>
      cases h
      rw [delivered_of_next hnext]
      rfl
  | case4 handler polls notify rest hnext handler₁ r hh done e hsend => cases h
  | case5 handler polls notify rest hnext handler₁ done hsend e hh => cases h
  | case6 handler polls notify rest hnext handler₁ done hsend run hh ih =>
      rw [delivered_of_next hnext, Option.elim_some, List.foldl_cons, hh]
      exact ih h

theorem foldl_handler (hreads : Reads remote) (notifs : List Notif) (arena : SyscallHandler) :
    notifs.foldl (fun arena notify ↦
      ((SyscallHandler.handler remote).handle_notify arena notify).1) arena =
        arena ++ notifs.flatMap (added remote) := by
  induction notifs generalizing arena with
  | nil => exact (List.append_nil arena).symm
  | cons notify notifs ih =>
      rw [List.foldl_cons, handler_adds hreads, ih, List.flatMap_cons, List.append_assoc]

theorem arena_of_ok {ioctl : NotifResp → Except Errno Unit} {arena : SyscallHandler}
    {polls : List Poll} (hreads : Reads remote)
    (h : (handlingTask (SyscallHandler.handler remote) ioctl [] polls).result =
      some (.ok arena)) : arena = (delivered polls).flatMap (added remote) := by
  rw [handler_of_ok h]
  exact (foldl_handler hreads _ []).trans (List.nil_append _)

/-- **What goes on is recorded.**  Where the task of a filter has ended well, its arena has what
the handler adds for the calls of the threads, in the order in which they were made, but for
calls in which a thread was interrupted or killed. -/
theorem recorded_of_run {s : Supervised.State SyscallHandler} {events : List Supervised.Event}
    {arena : SyscallHandler} (hreads : Reads remote)
    (hrun : runs (Supervised.step (SyscallHandler.handler remote))
      (Supervised.start (SyscallHandler.handler remote)) events = some s)
    (hpc : s.pc = .ended (.ok arena)) :
    arena = s.handled.flatMap (fun t ↦ added remote t.2) ∧
      s.handled.Sublist (s.calls.mapIdx fun k call ↦ (k, call.notify)) ∧
      ∀ k call, s.calls[k]? = some call → (k, call.notify) ∉ s.handled →
        call.outcome = some .interrupted ∨ call.outcome = some .killed := by
  have h := (Supervised.inv_run hrun).served
  refine ⟨?_, h.sublist, fun k call ↦ h.left_out hpc⟩
  have hfold := foldl_handler hreads (s.handled.map Prod.snd) []
  rw [List.foldl_map, List.flatMap_map] at hfold
  exact (h.returned arena hpc).1.trans hfold

end Seccomp

/-! ## Putting it together -/

namespace Shm

open Seccomp

/-- What `accesses_future` puts together, once the handling loop has returned and the end
of the chunks was told: `exec_resolve_accesses`, the arenas of the handlers, and what is
mapped of the descriptors. -/
def accesses (exec_resolve_accesses : List PathAccess) (handlers : List SyscallHandler)
    (t : Tree) : PathAccessIterable :=
  ⟨exec_resolve_accesses :: handlers, t.collected.shm_mmaps⟩

variable {c : Codec PathAccess}

theorem iter_of_arenas {shm_mmaps : List Bytes} {as : List PathAccess}
    {arenas : List (List PathAccess)} (h : PathAccessIterable.iter c ⟨[], shm_mmaps⟩ = .ok as) :
    PathAccessIterable.iter c ⟨arenas, shm_mmaps⟩ = .ok (as ++ arenas.flatten) := by
  rw [PathAccessIterable.iter] at h ⊢
  cases hmaps : shm_mmaps.mapM fun buf ↦ iterShm c buf 0 with
  | error e =>
      rw [hmaps] at h
      cases h
  | ok inShm =>
      rw [hmaps] at h
      cases h
      simp [Bind.bind, Except.bind, pure, Except.pure]

/-- **What a tracked child yields.**  Let the tracker be told the end of the chunks in a run
of the processes, and let the handling loop come back with handlers in a run of the
listeners.  The accesses are then, one after the other: those that the threads of the tree
have recorded, each once and in the order of its thread; those of the resolution of the
command; and, listener by listener, what was added for the notifications it delivered. -/
theorem accesses_of_runs {n : Nat} {t : Tree} {events : List Tree.Event} {remote : Notif → Remote}
    {holders : List Bool} {ioctl : Nat → NotifResp → Except Errno Unit}
    {loop : HandlingLoop.State SyscallHandler} {turns : List HandlingLoop.Event}
    {handlers : List SyscallHandler} (exec_resolve_accesses : List PathAccess)
    (hrun : runs (Tree.step c) (Tree.start n) events = some t)
    (hmeet : StepsMeet (Tree.step c) Tree.StartsAtEnd (Tree.start n) events)
    (hended : t.socket.ended = true) (hreads : Reads remote)
    (hloop : runs (HandlingLoop.step (SyscallHandler.handler remote) ioctl)
      (HandlingLoop.start holders) turns = some loop)
    (hreturned : loop.phase = .returned (.ok handlers)) :
    ∃ zs, (accesses exec_resolve_accesses handlers t).iter c =
        .ok (zs.map Prod.snd ++ (exec_resolve_accesses ++ handlers.flatten)) ∧
      Merges (Tree.labels events) zs ∧
      handlers.Perm ((List.range loop.socket.sent.length).map fun i ↦
        (delivered (HandlingLoop.pollsOf i turns)).flatMap (added remote)) := by
  obtain ⟨zs, hiter, hmerges⟩ := iter_of_run hrun hmeet hended
  obtain ⟨-, ended, hperm, hlength, htasks⟩ :=
    (HandlingLoop.inv_run hloop).handlers_of_ok hreturned
  refine ⟨zs, iter_of_arenas hiter, hmerges, ?_⟩
  have hended' : ended = (List.range loop.socket.sent.length).map fun i ↦
      (delivered (HandlingLoop.pollsOf i turns)).flatMap (added remote) := by
    refine List.ext_getElem (by rw [List.length_map, List.length_range, hlength]) ?_
    intro i hi _
    rw [List.getElem_map, List.getElem_range]
    exact arena_of_ok hreads (htasks i _ (List.getElem?_eq_getElem hi))
  exact hended' ▸ hperm

/-- Every string is the one-letter path `a`. -/
def sampleRemote (_ : Notif) : Remote :=
  ⟨[fun _ _ _ ↦ .ok [97, 0]], fun _ ↦ .ok [97], fun _ _ ↦ .ok [97]⟩

theorem openat_sampleRemote (notify : Notif) (path : CStrPtr) :
    SyscallHandler.openat (sampleRemote notify) [] path = some ([⟨.Read, [97]⟩], .ok ()) := rfl

theorem reads_sampleRemote : Reads sampleRemote := by
  intro notify
  rw [SyscallHandler.handle_notify]
  split
  · rw [openat_sampleRemote]
    rfl
  · split <;> rfl

/-- A thread that opens one file and ends. -/
theorem recorded_of_run_sample : ∃ handled : List (Nat × Notif),
    [⟨.Read, [97]⟩] = handled.flatMap (fun t ↦ added sampleRemote t.2) ∧
      handled.Sublist [(0, sampleNotify 1 8)] := by
  have hrun : runs (Supervised.step (SyscallHandler.handler sampleRemote))
      (Supervised.start (SyscallHandler.handler sampleRemote))
      [.syscall 0 (sampleNotify 1 8), .recv, .handle_notify, .send_continue none, .kill 0,
        .closed] =
      some ⟨[false], [⟨0, sampleNotify 1 8, true, some .continued⟩],
        .ended (.ok [⟨.Read, [97]⟩]), [(0, sampleNotify 1 8)]⟩ := rfl
  obtain ⟨harena, hsublist, -⟩ := recorded_of_run reads_sampleRemote hrun rfl
  exact ⟨_, harena, hsublist⟩

/-- A command that opens one file by a system call of its own. -/
def oneListener : List HandlingLoop.Event :=
  [.send 1, .accept, .close 0, .turn 0 (.recv (.ok (sampleNotify 1 8))), .close 1, .eof,
    .turn 0 .closed, .join 0, .joined]

theorem runs_oneListener : ∃ loop,
    runs (HandlingLoop.step (SyscallHandler.handler sampleRemote) fun _ _ ↦ .ok ())
      (HandlingLoop.start [true, true]) oneListener = some loop ∧
      loop.phase = .returned (.ok [[⟨.Read, [97]⟩]]) :=
  ⟨_, rfl, rfl⟩

theorem accesses_sendAndExit : ∃ t,
    runs (Tree.step PathAccess.shortCodec) (.start 2) sendAndExit = some t ∧
      (accesses [sampleB] [[⟨.Read, [97]⟩]] t).iter PathAccess.shortCodec =
        .ok [sampleA, sampleB, ⟨.Read, [97]⟩] := by
  obtain ⟨t, hrun, hended, -⟩ := runs_sendAndExit
  obtain ⟨loop, hloop, hreturned⟩ := runs_oneListener
  obtain ⟨zs, hiter, ⟨hperm, -⟩, -⟩ := accesses_of_runs [sampleB] hrun
    (.of_forall startsAtEnd_sendAndExit) hended reads_sampleRemote hloop hreturned
  obtain rfl : zs = [((0, 1), sampleA)] := List.perm_singleton.mp hperm
  exact ⟨t, hrun, hiter⟩

end Shm

end Fspy
