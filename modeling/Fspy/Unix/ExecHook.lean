import Fspy.Unix.Open
import Fspy.Unix.RawExec

/-!
# The hooks of the exec family

An exec hook does three things a thread cannot undo before it calls the original
function, which may still fail: it sets the thread's `no_new_privs` bit, installs a
filter, and hands the filter's descriptor over.  A call that fails after the first of
them leaves its mark, and the next program that runs under the filter meets it.  The
hook of `posix_spawn` does the same things on a thread of its own.
-/

namespace Fspy.Unix

open Lib Shm

namespace Client

/-- The accesses an exec reports, each of them sent and unwrapped. -/
def sendAll (codec : Codec PathAccess) (client : Client) :
    List PathAccess → Except OpenError (Client × List Written)
  | [] => .ok (client, [])
  | path_access :: rest => do
      let (client, written) ← client.send codec path_access
      let (client, written') ← client.sendAll codec rest
      return (client, written.toList ++ written')

/-- The accesses go through if each of them does. -/
theorem sendAll_isOk {codec : Codec PathAccess} (client : Client) {trace : List PathAccess} :
    (∃ out, client.sendAll codec trace = .ok out) ↔ ∀ path_access ∈ trace,
      filtered path_access ∨ 1 + codec.size path_access ≤ SHM_CHUNK_SIZE := by
  induction trace generalizing client with
  | nil => simp [sendAll]
  | cons path_access rest ih =>
      rw [List.forall_mem_cons, ← client.send_isOk]
      simp only [sendAll, bind_eq_ok]
      constructor
      · rintro ⟨out, sent, hsent, out', hrest, -⟩
        exact ⟨⟨sent, hsent⟩, (ih sent.1).mp ⟨out', hrest⟩⟩
      · rintro ⟨⟨sent, hsent⟩, hrest⟩
        obtain ⟨out', hout'⟩ := (ih sent.1).mpr hrest
        exact ⟨_, sent, hsent, out', hout', rfl⟩

end Client

namespace Hook

/-- What a thread cannot undo about itself. -/
structure Thread where
  no_new_privs : Bool
  /-- The filters, the newest first. -/
  filters : List (List SockFilter)
  /-- One of the filters has a listener. -/
  listening : Bool
deriving DecidableEq, Repr

/-- The calling thread. -/
structure Caller where
  client : Client
  thread : Thread

/-- What the calls of a hook are answered. -/
structure Env where
  sys : System
  helpers : Helpers
  minimal_parse : ElfCrate
  codec : Codec PathAccess
  encoded_payload : EncodedPayload
  /-- `prctl(PR_SET_NO_NEW_PRIVS)`. -/
  set_no_new_privs : Except Errno Unit
  /-- `seccomp(SECCOMP_SET_MODE_FILTER)`, if the thread has no listener yet. -/
  seccomp : Thread → List SockFilter → Except Errno Unit
  send_fd : Int → Except Errno Unit
  /-- The error of the original `execve`, if it returns. -/
  execve : Thread → RawExec → Option Errno
  /-- The error of the original `execveat`, if it returns. -/
  execveat : Thread → Int → RawExec → Int → Option Errno
  /-- What the memory of a string holds after the string is dropped. -/
  freed : Bytes → Bytes

variable (env : Env)

/-! ## Installing the filter -/

/-- `install_unotify_filter`. -/
def install_unotify_filter (prog : List SockFilter) (thread : Thread) : Except Stop Thread :=
  -- the length is a `c_ushort`
  if 65535 < prog.length then .error .panic
  else if thread.listening then .error (.errno .EBUSY)
  else match env.seccomp thread prog with
    | .error e => .error (.errno e)
    | .ok () => .ok { thread with filters := prog :: thread.filters, listening := true }

/-- `install_target`: its result, and the thread it leaves. -/
def install_target (payload : SeccompPayload) (thread : Thread) : Except Stop Unit × Thread :=
  match env.set_no_new_privs with
  | .error e => (.error (.errno e), thread)
  | .ok () =>
      let thread := { thread with no_new_privs := true }
      match install_unotify_filter env payload.filter thread with
      | .error stop => (.error stop, thread)
      | .ok thread => ((env.send_fd payload.ipc_fd).mapError .errno, thread)

/-! ## The hooks -/

/-- The original `execve`: the image that replaces the program, or an error. -/
def original (raw_command : RawExec) (thread : Thread) : Except Stop RawExec × Thread :=
  match env.execve thread raw_command with
  | none => (.ok raw_command, thread)
  | some e => (.error (.errno e), thread)

/-- The closure that `handle_exec` passes to `Client::handle_exec`. -/
def closure (raw_command : RawExec) (pre_exec : Option PreExec) (thread : Thread) :
    Except Stop RawExec × Thread :=
  match pre_exec with
  | none => original env raw_command thread
  | some pre_exec => match install_target env pre_exec.seccomp_payload thread with
    | (.error stop, thread) => (.error stop, thread)
    | (.ok (), thread) => original env raw_command thread

/-- `Client::handle_exec` with its closure.  What the hook opens itself is hooked too, and
recorded by calls of their own: those records are not among these. -/
def runClosure {R : Type} (config : ExecResolveConfig) (raw_exec : RawExec)
    (f : RawExec → Option PreExec → Thread → Except Stop R × Thread) (caller : Caller) :
    Except Stop R × Caller :=
  let run := Client.handle_exec env.sys env.minimal_parse config raw_exec env.encoded_payload
  match caller.client.sendAll env.codec run.trace with
  | .error _ => (.error .panic, caller)
  | .ok (client, _) => match run.result with
    | .error stop => (.error stop, { caller with client })
    | .ok (raw_command, pre_exec) =>
        let (result, thread) := f raw_command pre_exec caller.thread
        (result, ⟨client, thread⟩)

/-- `handle_exec`: `-1` is an error, with its `errno`. -/
def handle_exec (config : ExecResolveConfig) (raw_exec : RawExec) :
    Caller → Except Stop RawExec × Caller :=
  runClosure env config raw_exec (closure env)

/-- The path of `fexecve`. -/
def procSelfFd (fd : Int) : Bytes := toCStr (ascii s!"/proc/self/fd/{fd}")

/-- A call of the exec family, with the memory behind its pointers.  All functions but
the last two differ in where their arguments come from only. -/
inductive Call where
  | exec (config : ExecResolveConfig) (raw_exec : RawExec)
  | execveat (dirfd : Int) (raw_exec : RawExec) (flags : Int)
  | fexecve (fd : Int) (argv envp : List (Option Bytes))

/-- What `execveat` makes of its path, before `CString::new`. -/
def execveatPath (dirfd : Int) (pathname : Bytes) : Except Errno (Option Bytes) :=
  (PathArg.pathAt dirfd pathname).to_absolute_path env.helpers .ok

/-- The arguments that reach `handle_exec`. -/
def Call.reaching (call : Call) : Option (ExecResolveConfig × RawExec) :=
  match call with
  | .exec config raw_exec => some (config, raw_exec)
  | .execveat dirfd raw_exec _ => match execveatPath env dirfd raw_exec.prog with
    | .ok (some path) => if NulFree path then
        -- the string is dropped with the arm that takes its pointer
        some (.search_path_disabled, { raw_exec with prog := env.freed (toCStr path) })
      else none
    | _ => none
  | .fexecve fd argv envp => some (.search_path_disabled, ⟨procSelfFd fd, argv, envp⟩)

/-- The hooked functions. -/
def Call.run (call : Call) (caller : Caller) : Except Stop RawExec × Caller :=
  match call with
  | .exec config raw_exec => handle_exec env config raw_exec caller
  | .execveat dirfd raw_exec flags => match execveatPath env dirfd raw_exec.prog with
    | .error e => (.error (.errno e), caller)
    | .ok none => match env.execveat caller.thread dirfd raw_exec flags with
      | none => (.ok raw_exec, caller)
      | some e => (.error (.errno e), caller)
    | .ok (some path) => if NulFree path then
        handle_exec env .search_path_disabled { raw_exec with prog := env.freed (toCStr path) }
          caller
      else (.error .panic, caller)
  | .fexecve fd argv envp =>
      handle_exec env .search_path_disabled ⟨procSelfFd fd, argv, envp⟩ caller

/-- The hooks of `posix_spawn` and `posix_spawnp`: the filter is installed on a thread
that is started for the call and ends with it. -/
def handle_posix_spawn (config : ExecResolveConfig) (raw_exec : RawExec)
    (spawn : Thread → RawExec → Int) : Caller → Except Stop Int × Caller :=
  runClosure env config raw_exec fun raw_command pre_exec thread ↦ match pre_exec with
    | none => (.ok (spawn thread raw_command), thread)
    | some pre_exec => match install_target env pre_exec.seccomp_payload thread with
      | (.error stop, _) => (.error stop, thread)
      | (.ok (), own) => (.ok (spawn own raw_command), thread)

variable {env} {config : ExecResolveConfig} {raw_exec raw_command : RawExec}
  {pre_exec : Option PreExec} {thread : Thread} {caller caller' : Caller}

/-- The kernel refuses a filter. -/
def RefusesFilter (env : Env) (prog : List SockFilter) (thread : Thread) : Prop :=
  thread.listening ∨ ∃ e, env.seccomp thread prog = .error e

theorem install_eq_ok {prog : List SockFilter} {thread' : Thread}
    (h : install_unotify_filter env prog thread = .ok thread') :
    ¬RefusesFilter env prog thread ∧
      thread' = { thread with filters := prog :: thread.filters, listening := true } := by
  rw [install_unotify_filter] at h
  split at h
  · cases h
  · split at h
    · cases h
    · rename_i hlistening
      cases hseccomp : env.seccomp thread prog with
      | error e =>
          rw [hseccomp] at h
          cases h
      | ok u =>
          rw [hseccomp] at h
          cases h
          refine ⟨?_, rfl⟩
          rintro (hl | ⟨e, he⟩)
          · exact hlistening hl
          · cases hseccomp.symm.trans he

theorem install_eq_errno {prog : List SockFilter} {e : Errno}
    (h : install_unotify_filter env prog thread = .error (.errno e)) :
    RefusesFilter env prog thread := by
  rw [install_unotify_filter] at h
  split at h
  · cases h
  · split at h
    · rename_i hlistening
      exact .inl hlistening
    · cases hseccomp : env.seccomp thread prog with
      | error e' => exact .inr ⟨e', hseccomp⟩
      | ok u =>
          rw [hseccomp] at h
          cases h

/-- What becomes of a thread that a filter is to be installed on. -/
theorem install_target_thread {payload : SeccompPayload}
    (h : (install_target env payload thread).1 ≠ .error .panic) :
    (install_target env payload thread).2 = thread ↔
      (∃ e, env.set_no_new_privs = .error e) ∨
        thread.no_new_privs ∧ RefusesFilter env payload.filter thread := by
  rw [install_target] at h ⊢
  cases hset : env.set_no_new_privs with
  | error e => simp
  | ok u =>
      simp only [hset, reduceCtorEq, exists_false, false_or] at h ⊢
      cases hinstall : install_unotify_filter env payload.filter
          { thread with no_new_privs := true } with
      | error stop =>
          cases stop with
          | panic =>
              rw [hinstall] at h
              exact absurd rfl h
          | errno e =>
              -- only the bit is set
              constructor
              · intro heq
                have hbit : thread.no_new_privs = true :=
                  (congrArg Thread.no_new_privs heq).symm
                have hrefuses := install_eq_errno hinstall
                dsimp only at heq
                rw [heq] at hrefuses
                exact ⟨hbit, hrefuses⟩
              · rintro ⟨hbit, -⟩
                rw [← hbit]
      | ok thread' =>
          -- there is one filter more
          obtain ⟨haccepts, rfl⟩ := install_eq_ok hinstall
          apply iff_of_false
          · intro heq
            have hlen := congrArg (fun t : Thread ↦ t.filters.length) heq
            simp at hlen
          · rintro ⟨hbit, hrefuses⟩
            rw [← hbit] at haccepts
            exact haccepts hrefuses

/-! ## What a failed call leaves -/

/-- The program that a call resolves to runs under the filter. -/
def NeedsFilter (env : Env) (config : ExecResolveConfig) (raw_exec : RawExec) : Prop :=
  ∃ program content, raw_exec.to_exec.resolved env.sys config = some program ∧
    env.sys.mmap_executable program = .ok content ∧
    is_dynamically_linked_to_libc env.minimal_parse content = .ok false

/-- Nothing is done to a thread for its filter: the bit cannot be set, or it was set
before and the filter is refused. -/
def Refuses (env : Env) (thread : Thread) : Prop :=
  (∃ e, env.set_no_new_privs = .error e) ∨ thread.no_new_privs ∧
    RefusesFilter env env.encoded_payload.payload.seccomp_payload.filter thread

/-- A filter is prepared for the programs that need one. -/
theorem pre_exec_cases (h : (Client.handle_exec env.sys env.minimal_parse config raw_exec
      env.encoded_payload).result = .ok (raw_command, pre_exec)) :
    ¬NeedsFilter env config raw_exec ∧ pre_exec = none ∨
      NeedsFilter env config raw_exec ∧
        pre_exec = some ⟨env.encoded_payload.payload.seccomp_payload⟩ := by
  obtain ⟨⟨command, pre⟩, hexec, heq⟩ := Traced.bind_eq_ok.mp h
  cases heq
  have hresolved := resolved_of_handle_exec hexec
  obtain ⟨content, dynamic, hcontent, hdynamic, htrack⟩ := tracked_of_handle_exec hexec
  have hpre := pre_exec_of_trackEnvs htrack
  cases dynamic with
  | true =>
      refine .inl ⟨?_, hpre⟩
      rintro ⟨program, content', hresolved', hcontent', hdynamic'⟩
      obtain rfl := Option.some.inj (hresolved.symm.trans hresolved')
      obtain rfl := Except.ok.inj (hcontent.symm.trans hcontent')
      cases hdynamic.symm.trans hdynamic'
  | false => exact .inr ⟨⟨_, content, hresolved, hcontent, hdynamic⟩, hpre⟩

/-- Resolution ends at the resolved program, unless the hook panics. -/
theorem resolve_of_resolved {program : Bytes}
    (hresolved : raw_exec.to_exec.resolved env.sys config = some program)
    (hpanic : NoPanic (Unix.handle_exec env.sys env.minimal_parse raw_exec.to_exec config
      env.encoded_payload).result) :
    ∃ exec', (raw_exec.to_exec.resolve env.sys (report env.sys) config).result = .ok exec' ∧
      exec'.program = program ∧ ¬env.sys.Unanchored program := by
  rw [NoPanic, ne_eq, handle_exec_eq_panic, not_or] at hpanic
  obtain ⟨exec', hexec⟩ := exists_resolve_of_resolved hpanic.1 hresolved
  rw [resolved_of_resolve hexec] at hresolved
  obtain rfl := Option.some.inj hresolved
  exact ⟨exec', hexec, rfl, fun hu ↦ hpanic.2 ⟨exec', hexec, hu⟩⟩

/-- A program that needs a filter is refused by a panic only. -/
theorem not_errno_of_needsFilter (hneeds : NeedsFilter env config raw_exec) (e : Errno) :
    (Client.handle_exec env.sys env.minimal_parse config raw_exec
      env.encoded_payload).result ≠ .error (.errno e) := by
  intro h
  obtain ⟨program, content, hresolved, hcontent, hdynamic⟩ := hneeds
  have hexec : (Unix.handle_exec env.sys env.minimal_parse raw_exec.to_exec config
      env.encoded_payload).result = .error (.errno e) := by
    rcases Traced.bind_eq_error.mp h with hexec | ⟨⟨command, pre⟩, -, hpure⟩
    · exact hexec
    · cases hpure
  have hpanic : NoPanic (Unix.handle_exec env.sys env.minimal_parse raw_exec.to_exec config
      env.encoded_payload).result := by
    rw [hexec]
    exact noPanic_errno e
  obtain ⟨exec', hres, rfl, hanchored⟩ := resolve_of_resolved hresolved hpanic
  have hlinux : ∃ out, Linux.handle_exec env.sys env.minimal_parse exec' env.encoded_payload =
      .ok out :=
    ⟨_, Linux.handle_exec_eq_ok.mpr ⟨content, false, _, hcontent, hdynamic, rfl, rfl⟩⟩
  obtain ⟨out, hout⟩ := hlinux
  cases (handle_exec_eq_ok.mpr ⟨exec', hres, hanchored, hout⟩).symm.trans hexec

/-- The closure leaves the thread as `install_target` does, and panics with it. -/
theorem closure_some (env : Env) (raw_command : RawExec) (thread : Thread) (pre_exec : PreExec) :
    (closure env raw_command (some pre_exec) thread).2 =
        (install_target env pre_exec.seccomp_payload thread).2 ∧
      ((install_target env pre_exec.seccomp_payload thread).1 = .error .panic →
        (closure env raw_command (some pre_exec) thread).1 = .error .panic) := by
  rw [closure]
  cases h : install_target env pre_exec.seccomp_payload thread with
  | mk result thread' =>
      cases result with
      | error stop =>
          refine ⟨rfl, fun hpanic ↦ ?_⟩
          exact congrArg Except.error (Except.error.inj hpanic)
      | ok u =>
          refine ⟨?_, fun hpanic ↦ ?_⟩
          · dsimp only [original]
            split <;> rfl
          · cases hpanic

/-- A call of `handle_exec` that failed. -/
theorem handle_exec_thread {e : Errno}
    (h : (handle_exec env config raw_exec caller).1 = .error (.errno e)) :
    (handle_exec env config raw_exec caller).2.thread = caller.thread ↔
      ¬NeedsFilter env config raw_exec ∨ Refuses env caller.thread := by
  rw [handle_exec, runClosure] at h ⊢
  dsimp only at h ⊢
  cases hsent : caller.client.sendAll env.codec (Client.handle_exec env.sys env.minimal_parse
      config raw_exec env.encoded_payload).trace with
  | error err =>
      rw [hsent] at h
      cases h
  | ok sent =>
      rw [hsent] at h
      dsimp only at h ⊢
      cases hrun : (Client.handle_exec env.sys env.minimal_parse config raw_exec
          env.encoded_payload).result with
      | error stop =>
          rw [hrun] at h
          obtain rfl := Except.error.inj h
          have hneeds : ¬NeedsFilter env config raw_exec :=
            fun hneeds ↦ not_errno_of_needsFilter hneeds e hrun
          exact iff_of_true rfl (.inl hneeds)
      | ok out =>
          obtain ⟨raw_command, pre_exec⟩ := out
          rw [hrun] at h
          dsimp only at h ⊢
          rcases pre_exec_cases hrun with ⟨hneeds, rfl⟩ | ⟨hneeds, rfl⟩
          · refine iff_of_true ?_ (.inl hneeds)
            rw [closure, original]
            split <;> rfl
          · obtain ⟨hthread, hpanic⟩ := closure_some env raw_command caller.thread
              ⟨env.encoded_payload.payload.seccomp_payload⟩
            rw [hthread, or_iff_right (not_not_intro hneeds), Refuses]
            apply install_target_thread
            intro hp
            rw [hpanic hp] at h
            cases h

/-- A failed call has no effect: the thread is as it was, and so is what any other call
then does. -/
def Harmless (env : Env) (call : Call) (caller : Caller) : Prop :=
  (call.run env caller).2.thread = caller.thread ∧ ∀ env' (later : Call),
    (later.run env' (call.run env caller).2).1 = (later.run env' caller).1 ∧
      (later.run env' (call.run env caller).2).2.thread = (later.run env' caller).2.thread

/-- What a call does depends on the thread, not on the log. -/
theorem handle_exec_congr (h : caller'.thread = caller.thread) :
    (handle_exec env config raw_exec caller').1 = (handle_exec env config raw_exec caller).1 ∧
      (handle_exec env config raw_exec caller').2.thread =
        (handle_exec env config raw_exec caller).2.thread := by
  rw [handle_exec, runClosure, runClosure]
  dsimp only
  have hsends : ∀ trace, (∃ out, caller'.client.sendAll env.codec trace = .ok out) ↔
      ∃ out, caller.client.sendAll env.codec trace = .ok out :=
    fun _ ↦ caller'.client.sendAll_isOk.trans caller.client.sendAll_isOk.symm
  specialize hsends
    (Client.handle_exec env.sys env.minimal_parse config raw_exec env.encoded_payload).trace
  generalize caller'.client.sendAll env.codec _ = sent' at hsends ⊢
  generalize caller.client.sendAll env.codec _ = sent at hsends ⊢
  cases sent' with
  | error err' => cases sent with
    | error err => exact ⟨rfl, h⟩
    | ok out =>
        obtain ⟨out', hout'⟩ := hsends.mpr ⟨out, rfl⟩
        cases hout'
  | ok out' => cases sent with
    | error err =>
        obtain ⟨out, hout⟩ := hsends.mp ⟨out', rfl⟩
        cases hout
    | ok out =>
        dsimp only
        split
        · exact ⟨rfl, h⟩
        · rw [h]
          exact ⟨rfl, rfl⟩

theorem Call.run_congr (call : Call) (h : caller'.thread = caller.thread) :
    (call.run env caller').1 = (call.run env caller).1 ∧
      (call.run env caller').2.thread = (call.run env caller).2.thread := by
  cases call with
  | exec config raw_exec =>
      rw [Call.run, Call.run]
      exact handle_exec_congr h
  | execveat dirfd raw_exec flags =>
      rw [Call.run, Call.run, h]
      split
      · exact ⟨rfl, h⟩
      · split <;> exact ⟨rfl, h⟩
      · split
        · exact handle_exec_congr h
        · exact ⟨rfl, h⟩
  | fexecve fd argv envp =>
      rw [Call.run, Call.run]
      exact handle_exec_congr h

theorem harmless_iff {call : Call} :
    Harmless env call caller ↔ (call.run env caller).2.thread = caller.thread :=
  ⟨And.left, fun h ↦ ⟨h, fun _ later ↦ later.run_congr h⟩⟩

/-- **When a failed exec leaves its caller as it was**: the program it resolves to, if it
resolves to one, does not run under the filter, or nothing was done for the filter. -/
theorem harmless_of_failed_iff {call : Call} {e : Errno}
    (h : (call.run env caller).1 = .error (.errno e)) :
    Harmless env call caller ↔ ∀ config raw_exec, call.reaching env = some (config, raw_exec) →
      ¬NeedsFilter env config raw_exec ∨ Refuses env caller.thread := by
  rw [harmless_iff]
  cases call with
  | exec config raw_exec =>
      rw [Call.run] at h ⊢
      rw [handle_exec_thread h, Call.reaching]
      simp
  | execveat dirfd raw_exec flags =>
      rw [Call.run] at h ⊢
      rw [Call.reaching]
      cases hpath : execveatPath env dirfd raw_exec.prog with
      | error e => simp
      | ok path =>
          cases path with
          | none =>
              dsimp only
              cases env.execveat caller.thread dirfd raw_exec flags <;> simp
          | some path =>
              rw [hpath] at h
              dsimp only at h ⊢
              split
              · rename_i hnul
                rw [if_pos hnul] at h
                rw [handle_exec_thread h]
                simp
              · simp
  | fexecve fd argv envp =>
      rw [Call.run] at h ⊢
      rw [handle_exec_thread h, Call.reaching]
      simp

/-- The hook of `posix_spawn` never touches its caller. -/
theorem handle_posix_spawn_thread (spawn : Thread → RawExec → Int) :
    (handle_posix_spawn env config raw_exec spawn caller).2.thread = caller.thread := by
  rw [handle_posix_spawn, runClosure]
  split
  · rfl
  · split
    · rfl
    · rename_i raw_command pre_exec _
      cases pre_exec with
      | none => rfl
      | some pre_exec =>
          dsimp only
          split <;> rfl

/-- An ELF file that has a file header and nothing else. -/
def staticElf : Bytes :=
  [0x7f, 0x45, 0x4c, 0x46, 2, 1, 1, 0, 0, 0, 0, 0, 0, 0, 0, 0,
    2, 0, 0x3e, 0, 1, 0, 0, 0, 0, 0, 0, 0, 0, 0, 0, 0,
    0, 0, 0, 0, 0, 0, 0, 0, 0, 0, 0, 0, 0, 0, 0, 0,
    0, 0, 0, 0, 64, 0, 0, 0, 0, 0, 0, 0, 0, 0, 0, 0]

/-- A system with one static program, whose `execve` returns this. -/
def staticEnv (execve : Option Errno) : Env where
  sys := .ofFiles [(ascii "/s", .file staticElf true true)]
  helpers := ⟨.ok (ascii "/"), fun _ ↦ .error .ENOENT⟩
  minimal_parse bytes := if bytes = staticElf then some ⟨none, fun _ ↦ none⟩ else none
  codec := PathAccess.shortCodec
  encoded_payload := samplePayload
  set_no_new_privs := .ok ()
  seccomp _ _ := .ok ()
  send_fd _ := .ok ()
  execve _ _ := execve
  execveat _ _ _ _ := execve
  freed := id

/-- `execv` of a path. -/
def execv (path : String) : Call :=
  .exec .search_path_disabled ⟨toCStr (ascii path), toCStrs [ascii path], toCStrs []⟩

def freshCaller : Caller := ⟨⟨none, 0⟩, ⟨false, [], false⟩⟩

/-- `ETXTBSY`: the file is open for writing. -/
def ETXTBSY : Errno := .other 26

/-- The file is being written; once it is not, the program can be started, but not by the
thread that tried before. -/
theorem failed_exec_leaves_filter :
    ((execv "/s").run (staticEnv (some ETXTBSY)) freshCaller).1 = .error (.errno ETXTBSY) ∧
      ¬Harmless (staticEnv (some ETXTBSY)) (execv "/s") freshCaller ∧
      ((execv "/s").run (staticEnv none) freshCaller).1 =
        .ok ⟨toCStr (ascii "/s"), toCStrs [ascii "/s"], toCStrs []⟩ ∧
      ((execv "/s").run (staticEnv none)
        ((execv "/s").run (staticEnv (some ETXTBSY)) freshCaller).2).1 =
        .error (.errno .EBUSY) := by
  refine ⟨by decide +kernel, ?_, by decide +kernel, by decide +kernel⟩
  rw [harmless_iff]
  decide +kernel

/-- A program that does not exist. -/
theorem harmless_missing : Harmless (staticEnv none) (execv "/x") freshCaller := by
  have h : ((execv "/x").run (staticEnv none) freshCaller).1 = .error (.errno .ENOENT) := by
    decide +kernel
  apply (harmless_of_failed_iff h).mpr
  rintro config raw_exec ⟨⟩
  refine .inl ?_
  rintro ⟨program, content, hresolved, -, -⟩
  have hnone : (RawExec.to_exec ⟨toCStr (ascii "/x"), toCStrs [ascii "/x"], toCStrs []⟩).resolved
      (staticEnv none).sys .search_path_disabled = none := by decide
  cases hnone.symm.trans hresolved

end Hook

end Fspy.Unix
