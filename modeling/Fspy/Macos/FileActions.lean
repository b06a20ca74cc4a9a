import Fspy.Lib.Transition
import Fspy.Unix.Inherited

/-!
# What a spawned process inherits on macOS

With `POSIX_SPAWN_CLOEXEC_DEFAULT` a child has no descriptors but those that its file actions
name, and would be without the one that accesses are reported through.
`handle_posix_spawn_opts` adds an action that names it, to the list of the program or to one of
its own.  A list that the program uses again keeps the action, and what the program adds later
comes after it; `spawned_of_run` says that none of this shows in the other descriptors.
-/

namespace Fspy.Macos

open Lib Unix Unix.Fds

/-- An action of a `posix_spawn_file_actions_t`. -/
inductive FileAction where
  /-- With what there is at the path. -/
  | addopen (fd : Nat) (file : Except Errno OpenFile)
  | addclose (fd : Nat)
  | adddup2 (fd newfd : Nat)
  | addinherit_np (fd : Nat)
deriving DecidableEq

/-- An action, in the child. -/
def FileAction.run (fds : Descriptors) : FileAction → Except Errno Descriptors
  | addopen _ (.error e) => .error e
  | addopen fd (.ok file) => .ok
      ⟨Function.update fds.table fd (some file), Function.update fds.cloexec fd false⟩
  | addclose fd => .ok { fds with table := Function.update fds.table fd none }
  | adddup2 fd newfd => match fds.table fd with
      | none => .error .EBADF
      | some file => .ok
          ⟨Function.update fds.table newfd (some file), Function.update fds.cloexec newfd false⟩
  | addinherit_np fd => unset_fd_flag fds fd

/-- What is open in a child of `posix_spawn`. -/
def spawned (cloexec_default : Bool) (fds : Descriptors) (actions : List FileAction) :
    Except Errno FdTable := do
  let fds ← actions.foldlM FileAction.run
    (if cloexec_default then { fds with cloexec := fun _ ↦ true } else fds)
  return fds.exec

def POSIX_SPAWN_CLOEXEC_DEFAULT : UInt16 := 0x4000

/-- A call of `posix_spawn`. -/
structure SpawnCall where
  fds : Descriptors
  file_actions : Option Nat
  /-- Null, or what `posix_spawnattr_getflags` returns. -/
  attrp : Option (Except Errno UInt16)
  /-- What `posix_spawn_file_actions_addinherit_np` returns, if it is called. -/
  addinherit : Except Errno Unit

/-- The local variable `cloexec_default`, where the flags can be read. -/
def SpawnCall.cloexec_default (call : SpawnCall) : Bool :=
  match call.attrp with
  | some (.ok flags) => flags &&& POSIX_SPAWN_CLOEXEC_DEFAULT != 0
  | _ => false

/-- The lists of actions of a process. -/
structure Memory where
  lists : Nat → Option (List FileAction)
  /-- `Client::posix_spawn_file_actions`. -/
  posix_spawn_file_actions : Option (List FileAction)

/-- A `*const posix_spawn_file_actions_t`. -/
inductive Pointer where
  | null
  | list (p : Nat)
  | shared
deriving DecidableEq, Repr

/-- The pointer that a program passes. -/
def Pointer.ofProgram : Option Nat → Pointer
  | none => null
  | some p => list p

/-- The actions behind a pointer. -/
def Memory.actions (memory : Memory) : Pointer → Option (List FileAction)
  | .null => some []
  | .list p => memory.lists p
  | .shared => memory.posix_spawn_file_actions

/-- `Client::handle_posix_spawn_opts`: the pointer that is passed on. -/
def handle_posix_spawn_opts (ipc_fd : Nat) (call : SpawnCall) (memory : Memory) :
    Except Stop Pointer × Memory :=
  match call.attrp with
  | some (.error e) => (.error (.errno e), memory)
  | _ =>
      if !call.cloexec_default then (.ok (.ofProgram call.file_actions), memory)
      else match call.file_actions with
        | none => match memory.posix_spawn_file_actions with
            | some _ => (.ok .shared, memory)
            | none => match call.addinherit with
                | .error _ => (.error .panic, memory)
                | .ok () => (.ok .shared,
                    { memory with posix_spawn_file_actions := some [.addinherit_np ipc_fd] })
        | some p => match call.addinherit with
            | .error e => (.error (.errno e), memory)
            | .ok () => (.ok (.list p), { memory with
                lists := Function.update memory.lists p
                  ((memory.lists p).map (· ++ [.addinherit_np ipc_fd])) })

/-- What a program does with its lists. -/
inductive SpawnEvent where
  | init (p : Nat)
  | add (p : Nat) (action : FileAction)
  | destroy (p : Nat)
  | posix_spawn (call : SpawnCall)

/-- An event, in a process without hooks. -/
def SpawnEvent.run (memory : Memory) : SpawnEvent → Memory
  | init p => { memory with lists := Function.update memory.lists p (some []) }
  | add p action => { memory with
      lists := Function.update memory.lists p ((memory.lists p).map (· ++ [action])) }
  | destroy p => { memory with lists := Function.update memory.lists p none }
  | posix_spawn _ => memory

/-- An event, in a tracked process. -/
def SpawnEvent.tracked (ipc_fd : Nat) (memory : Memory) : SpawnEvent → Memory
  | posix_spawn call => (handle_posix_spawn_opts ipc_fd call memory).2
  | event => event.run memory

/-- Before the program has made a list. -/
def Memory.start : Memory := ⟨fun _ ↦ none, none⟩

/-! ## Actions that leave a descriptor alone -/

/-- The action is about other descriptors; it may duplicate this one. -/
def FileAction.Leaves (ipc_fd : Nat) : FileAction → Prop
  | addopen fd _ => fd ≠ ipc_fd
  | addclose fd => fd ≠ ipc_fd
  | adddup2 _ newfd => newfd ≠ ipc_fd
  | addinherit_np fd => fd ≠ ipc_fd

/-- The actions that the program adds do. -/
def SpawnEvent.Leaves (ipc_fd : Nat) : SpawnEvent → Prop
  | add _ action => action.Leaves ipc_fd
  | _ => True

variable {ipc_fd : Nat} {file : OpenFile} {fds fds' fds₁ fds₂ : Descriptors} {action : FileAction}
  {actions actions' : List FileAction}

/-- The actions beside the one that is added. -/
def others (ipc_fd : Nat) (actions : List FileAction) : List FileAction :=
  actions.filter (· ≠ .addinherit_np ipc_fd)

@[simp] theorem others_added (ipc_fd : Nat) (actions : List FileAction) :
    others ipc_fd (actions ++ [.addinherit_np ipc_fd]) = others ipc_fd actions := by
  simp [others]

theorem FileAction.Leaves.ne (h : action.Leaves ipc_fd) : action ≠ .addinherit_np ipc_fd := by
  rintro rfl
  exact h rfl

theorem others_concat (h : action.Leaves ipc_fd) :
    others ipc_fd (actions ++ [action]) = others ipc_fd actions ++ [action] := by
  rw [others, List.filter_append, List.filter_cons_of_pos (by simpa using h.ne), List.filter_nil,
    others]

/-- The descriptors of the child of a tracked process and of that of one without hooks. -/
structure Agree (ipc_fd : Nat) (file : OpenFile) (fds fds' : Descriptors) : Prop where
  table : fds.table = fds'.table
  ipc : fds.table ipc_fd = some file
  cloexec : ∀ fd, fd ≠ ipc_fd → fds.cloexec fd = fds'.cloexec fd

theorem Agree.run (h : Agree ipc_fd file fds fds') (hleaves : action.Leaves ipc_fd) :
    (∃ e, action.run fds = .error e ∧ action.run fds' = .error e) ∨
      ∃ fds₁ fds₁', action.run fds = .ok fds₁ ∧ action.run fds' = .ok fds₁' ∧
        Agree ipc_fd file fds₁ fds₁' ∧ fds₁.cloexec ipc_fd = fds.cloexec ipc_fd := by
  have hupdate : ∀ {n : Nat} {b : Bool}, ∀ fd, fd ≠ ipc_fd →
      Function.update fds.cloexec n b fd = Function.update fds'.cloexec n b fd := by
    intro n b fd hfd
    rw [Function.update_apply, Function.update_apply, h.cloexec fd hfd]
  cases action with
  | addopen fd opened =>
      cases opened with
      | error e => exact .inl ⟨e, rfl, rfl⟩
      | ok opened =>
          refine .inr ⟨_, _, rfl, rfl, ⟨congrArg (Function.update · fd (some opened)) h.table,
            (Function.update_of_ne hleaves.symm ..).trans h.ipc, hupdate⟩,
            Function.update_of_ne hleaves.symm ..⟩
  | addclose fd =>
      exact .inr ⟨_, _, rfl, rfl, ⟨congrArg (Function.update · fd none) h.table,
        (Function.update_of_ne hleaves.symm ..).trans h.ipc, h.cloexec⟩, rfl⟩
  | adddup2 fd newfd =>
      simp only [FileAction.run, ← h.table]
      cases fds.table fd with
      | none => exact .inl ⟨_, rfl, rfl⟩
      | some opened =>
          refine .inr ⟨_, _, rfl, rfl, ⟨rfl,
            (Function.update_of_ne hleaves.symm ..).trans h.ipc, hupdate⟩,
            Function.update_of_ne hleaves.symm ..⟩
  | addinherit_np fd =>
      simp only [FileAction.run, unset_fd_flag, ← h.table]
      cases fds.table fd with
      | none => exact .inl ⟨_, rfl, rfl⟩
      | some opened =>
          exact .inr ⟨_, _, rfl, rfl, ⟨rfl, h.ipc, hupdate⟩,
            Function.update_of_ne hleaves.symm ..⟩

/-- The action that is added does nothing to the others, and cannot fail. -/
theorem Agree.inherit (h : Agree ipc_fd file fds fds') :
    ∃ fds₁, (FileAction.addinherit_np ipc_fd).run fds = .ok fds₁ ∧
      Agree ipc_fd file fds₁ fds' ∧ fds₁.cloexec ipc_fd = false := by
  refine ⟨_, unset_fd_flag_of_open h.ipc, ⟨h.table, h.ipc, fun fd hfd ↦ ?_⟩,
    Function.update_self ..⟩
  exact (Function.update_of_ne hfd ..).trans (h.cloexec fd hfd)

/-- The actions of a program, with the action that is added among them. -/
theorem Agree.foldlM (h : Agree ipc_fd file fds fds')
    (hleaves : ∀ action ∈ others ipc_fd actions, action.Leaves ipc_fd)
    (hflag : fds.cloexec ipc_fd = false ∨ .addinherit_np ipc_fd ∈ actions) :
    (∃ e, actions.foldlM FileAction.run fds = .error e ∧
        (others ipc_fd actions).foldlM FileAction.run fds' = .error e) ∨
      ∃ fds₁ fds₁', actions.foldlM FileAction.run fds = .ok fds₁ ∧
        (others ipc_fd actions).foldlM FileAction.run fds' = .ok fds₁' ∧
        Agree ipc_fd file fds₁ fds₁' ∧ fds₁.cloexec ipc_fd = false := by
  induction actions generalizing fds fds' with
  | nil =>
      refine .inr ⟨fds, fds', rfl, rfl, h, ?_⟩
      exact hflag.resolve_right List.not_mem_nil
  | cons action actions ih =>
      rw [List.foldlM_cons, others]
      rw [others] at hleaves
      by_cases hadded : action = .addinherit_np ipc_fd
      · subst hadded
        obtain ⟨fds₁, hrun, hagree, hcleared⟩ := h.inherit
        rw [List.filter_cons_of_neg (by simp)] at hleaves ⊢
        rw [except_bind_of_ok hrun]
        exact ih hagree hleaves (.inl hcleared)
      · rw [List.filter_cons_of_pos (by simpa using hadded)] at hleaves ⊢
        rw [List.foldlM_cons]
        obtain ⟨hfirst, hrest⟩ := List.forall_mem_cons.mp hleaves
        rcases h.run hfirst with ⟨e, hrun, hrun'⟩ | ⟨fds₁, fds₁', hrun, hrun', hagree, hsame⟩
        · rw [hrun, hrun']
          exact .inl ⟨e, rfl, rfl⟩
        · rw [except_bind_of_ok hrun, except_bind_of_ok hrun']
          refine ih hagree hrest (hflag.imp hsame.trans fun hmem ↦ ?_)
          exact (List.mem_cons.mp hmem).resolve_left (Ne.symm hadded)

/-- The child has what it would have without the hooks, and the descriptor. -/
theorem spawned_agree {cloexec_default : Bool} (hipc : fds.table ipc_fd = some file)
    (hleaves : ∀ action ∈ others ipc_fd actions, action.Leaves ipc_fd)
    (hflag : cloexec_default = false ∧ fds.cloexec ipc_fd = false ∨
      .addinherit_np ipc_fd ∈ actions) :
    spawned cloexec_default fds actions =
      (spawned cloexec_default fds (others ipc_fd actions)).map
        (Function.update · ipc_fd (some file)) := by
  have hagree : ∀ fds, fds.table ipc_fd = some file → Agree ipc_fd file fds fds :=
    fun fds h ↦ ⟨rfl, h, fun _ _ ↦ rfl⟩
  rw [spawned, spawned]
  have hrun := (hagree (if cloexec_default then { fds with cloexec := fun _ ↦ true } else fds)
    (by cases cloexec_default <;> exact hipc)).foldlM hleaves
    (hflag.imp_left fun ⟨hdefault, hcleared⟩ ↦ by rw [hdefault]; exact hcleared)
  rcases hrun with ⟨e, hrun, hrun'⟩ | ⟨fds₁, fds₁', hrun, hrun', hagree, hcleared⟩
  · rw [hrun, hrun']
    rfl
  · rw [hrun, hrun']
    refine congrArg Except.ok (funext fun fd ↦ ?_)
    dsimp only
    by_cases hfd : fd = ipc_fd
    · subst hfd
      rw [Function.update_self, Descriptors.exec, hcleared, if_neg Bool.false_ne_true]
      exact hagree.ipc
    · rw [Function.update_of_ne hfd, Descriptors.exec, Descriptors.exec, hagree.cloexec fd hfd,
        hagree.table]

/-! ## Runs -/

/-- The lists of a tracked process: those that the program has made, and the action that was
added. -/
structure Sprinkled (ipc_fd : Nat) (memory plain : Memory) : Prop where
  lists : ∀ p, (memory.lists p).map (others ipc_fd) = plain.lists p
  leaves : ∀ p actions, plain.lists p = some actions → ∀ action ∈ actions, action.Leaves ipc_fd
  shared : ∀ actions, memory.posix_spawn_file_actions = some actions →
    actions = [.addinherit_np ipc_fd]

variable {memory memory' plain : Memory} {event : SpawnEvent} {events : List SpawnEvent}
  {call : SpawnCall} {pointer : Pointer}

theorem Sprinkled.update (h : Sprinkled ipc_fd memory plain) {p : Nat}
    {added added' : Option (List FileAction)}
    (hsame : added.map (others ipc_fd) = added')
    (hleaves : ∀ actions, added' = some actions → ∀ action ∈ actions, action.Leaves ipc_fd) :
    Sprinkled ipc_fd { memory with lists := Function.update memory.lists p added }
      { plain with lists := Function.update plain.lists p added' } := by
  refine ⟨fun n ↦ ?_, fun n ↦ ?_, h.shared⟩
  · dsimp only
    by_cases hn : n = p
    · rw [hn, Function.update_self, Function.update_self]
      exact hsame
    · rw [Function.update_of_ne hn, Function.update_of_ne hn]
      exact h.lists n
  · dsimp only
    by_cases hn : n = p
    · rw [hn, Function.update_self]
      exact hleaves
    · rw [Function.update_of_ne hn]
      exact h.leaves n

/-- What `handle_posix_spawn_opts` does to a list does not count. -/
theorem Sprinkled.handle (h : Sprinkled ipc_fd memory plain) (call : SpawnCall) :
    Sprinkled ipc_fd (handle_posix_spawn_opts ipc_fd call memory).2 plain := by
  rw [handle_posix_spawn_opts]
  split
  · exact h
  · split
    · exact h
    · split
      · split
        · exact h
        · split
          · exact h
          · refine ⟨h.lists, h.leaves, fun actions hactions ↦ ?_⟩
            exact (Option.some.inj hactions).symm
      · rename_i p hp
        split
        · exact h
        · have hsame : ((memory.lists p).map (· ++ [.addinherit_np ipc_fd])).map (others ipc_fd) =
              plain.lists p := by
            rw [← h.lists p, Option.map_map]
            exact congrArg (Option.map · _) (funext fun actions ↦ others_added ipc_fd actions)
          have hupdate := h.update (p := p) hsame (h.leaves p)
          rwa [Function.update_eq_self] at hupdate

theorem Sprinkled.step (h : Sprinkled ipc_fd memory plain) (hleaves : event.Leaves ipc_fd) :
    Sprinkled ipc_fd (event.tracked ipc_fd memory) (event.run plain) := by
  cases event with
  | init p =>
      refine h.update rfl ?_
      rintro actions ⟨⟩ action ⟨⟩
  | add p action =>
      refine h.update ?_ ?_
      · rw [← h.lists p, Option.map_map, Option.map_map]
        exact congrArg (Option.map · _) (funext fun actions ↦ others_concat hleaves)
      · intro actions hactions
        obtain ⟨old, hold, rfl⟩ := Option.map_eq_some_iff.mp hactions
        exact forall_mem_concat (h.leaves p old hold) hleaves
  | destroy p => exact h.update rfl (by rintro actions ⟨⟩)
  | posix_spawn call => exact h.handle call

theorem sprinkled_of_run (hleaves : ∀ event ∈ events, event.Leaves ipc_fd) :
    Sprinkled ipc_fd (events.foldl (fun memory event ↦ event.tracked ipc_fd memory) .start)
      (events.foldl SpawnEvent.run .start) := by
  have hstart : Sprinkled ipc_fd .start .start :=
    ⟨fun _ ↦ rfl, by rintro p actions ⟨⟩, by rintro actions ⟨⟩⟩
  suffices hrun : ∀ memory plain, Sprinkled ipc_fd memory plain →
      Sprinkled ipc_fd (events.foldl (fun memory event ↦ event.tracked ipc_fd memory) memory)
        (events.foldl SpawnEvent.run plain) from hrun _ _ hstart
  induction events with
  | nil => exact fun _ _ h ↦ h
  | cons event events ih =>
      intro memory plain h
      obtain ⟨hfirst, hrest⟩ := List.forall_mem_cons.mp hleaves
      exact ih hrest _ _ (h.step hfirst)

/-- The list that is passed on is the one of the program, and names the descriptor where the
child would not have it otherwise. -/
theorem Sprinkled.passed (h : Sprinkled ipc_fd memory plain)
    (hinherited : call.cloexec_default = true ∨ call.fds.cloexec ipc_fd = false)
    (hhandle : handle_posix_spawn_opts ipc_fd call memory = (.ok pointer, memory')) :
    (memory'.actions pointer).map (others ipc_fd) = plain.actions (.ofProgram call.file_actions) ∧
      ∀ actions, memory'.actions pointer = some actions →
        call.cloexec_default = false ∧ call.fds.cloexec ipc_fd = false ∨
          .addinherit_np ipc_fd ∈ actions := by
  have hafter := h.handle call
  rw [hhandle] at hafter
  rw [handle_posix_spawn_opts] at hhandle
  split at hhandle
  · cases hhandle
  · split at hhandle
    · rename_i hdefault
      cases hhandle
      rw [Bool.not_eq_true'] at hdefault
      refine ⟨?_, fun _ _ ↦ .inl ⟨hdefault, hinherited.resolve_left (by simp [hdefault])⟩⟩
      cases call.file_actions with
      | none => rfl
      | some p => exact h.lists p
    · split at hhandle
      · rename_i hnull
        have hshared : pointer = .shared ∧ memory'.posix_spawn_file_actions =
            some [.addinherit_np ipc_fd] := by
          split at hhandle
          · rename_i actions hactions
            cases hhandle
            exact ⟨rfl, by rw [hactions, h.shared actions hactions]⟩
          · split at hhandle
            · cases hhandle
            · cases hhandle
              exact ⟨rfl, rfl⟩
        obtain ⟨rfl, hshared⟩ := hshared
        rw [hnull, Memory.actions, hshared]
        refine ⟨congrArg some (others_added ipc_fd []), ?_⟩
        rintro actions ⟨⟩
        exact .inr List.mem_cons_self
      · rename_i p hp
        split at hhandle
        · cases hhandle
        · cases hhandle
          rw [hp]
          refine ⟨hafter.lists p, fun actions hactions ↦ .inr ?_⟩
          rw [Memory.actions] at hactions
          dsimp only at hactions
          rw [Function.update_self] at hactions
          obtain ⟨old, -, rfl⟩ := Option.map_eq_some_iff.mp hactions
          exact List.mem_append_right _ List.mem_cons_self

/-- **The descriptors of a spawned process.**  Whatever lists a program has made, passed and used
again, and as long as it leaves the descriptor of the socket alone: a child has the descriptors
that it would have without the hooks, and the socket, or the same error is returned. -/
theorem spawned_of_run (hipc : call.fds.table ipc_fd = some file)
    (hinherited : call.cloexec_default = true ∨ call.fds.cloexec ipc_fd = false)
    (hleaves : ∀ event ∈ events, event.Leaves ipc_fd)
    (hhandle : handle_posix_spawn_opts ipc_fd call
      (events.foldl (fun memory event ↦ event.tracked ipc_fd memory) .start) =
        (.ok pointer, memory')) :
    (memory'.actions pointer).map (spawned call.cloexec_default call.fds) =
      ((events.foldl SpawnEvent.run .start).actions (.ofProgram call.file_actions)).map
        fun actions ↦ (spawned call.cloexec_default call.fds actions).map
          (Function.update · ipc_fd (some file)) := by
  have hsprinkled := sprinkled_of_run hleaves
  obtain ⟨hothers, hflag⟩ := hsprinkled.passed hinherited hhandle
  rw [← hothers, Option.map_map]
  cases hactions : memory'.actions pointer with
  | none => rfl
  | some actions =>
      refine congrArg some (spawned_agree hipc ?_ (hflag actions hactions))
      rw [hactions, Option.map_some] at hothers
      cases hprogram : call.file_actions with
      | none =>
          rw [hprogram] at hothers
          rw [Option.some.inj hothers]
          exact fun action haction ↦ nomatch haction
      | some p =>
          rw [hprogram] at hothers
          exact hsprinkled.leaves p _ hothers.symm

/-- A process that has a file open, and the socket. -/
def sampleFds : Descriptors where
  table fd := if fd = 3 then some (.other 1) else if fd = 20 then some .shm_sender else none
  cloexec fd := fd == 3

def sampleSpawn (file_actions : Option Nat) : SpawnCall :=
  ⟨sampleFds, file_actions, some (.ok POSIX_SPAWN_CLOEXEC_DEFAULT), .ok ()⟩

/-- A list is used, extended, and used again. -/
def sampleSpawnEvents : List SpawnEvent :=
  [.init 0, .posix_spawn (sampleSpawn (some 0)), .add 0 (.adddup2 3 1)]

theorem spawned_of_run_sample : ∃ pointer memory',
    handle_posix_spawn_opts 20 (sampleSpawn (some 0))
      (sampleSpawnEvents.foldl (fun memory event ↦ event.tracked 20 memory) .start) =
        (.ok pointer, memory') ∧
    memory'.actions pointer =
      some [.addinherit_np 20, .adddup2 3 1, .addinherit_np 20] ∧
    (memory'.actions pointer).map (spawned true sampleFds) =
      some ((spawned true sampleFds [.adddup2 3 1]).map fun table : FdTable ↦
        Function.update table 20 (some .shm_sender)) := by
  have hhandle : handle_posix_spawn_opts 20 (sampleSpawn (some 0))
      (sampleSpawnEvents.foldl (fun memory event ↦ event.tracked 20 memory) .start) =
        (.ok (.list 0), _) := rfl
  refine ⟨_, _, hhandle, rfl, ?_⟩
  have hipc : (sampleSpawn (some 0)).fds.table 20 = some .shm_sender := rfl
  refine spawned_of_run hipc (.inl rfl) ?_ hhandle
  simp only [sampleSpawnEvents, List.forall_mem_cons]
  exact ⟨trivial, trivial, show 1 ≠ 20 by decide, fun _ h ↦ nomatch h⟩

end Fspy.Macos
