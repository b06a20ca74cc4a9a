import Fspy.Unix.Launch
import Fspy.Unix.Open
import Fspy.Lib.Transition

/-!
# The processes below a tracked command

A process is tracked in one of two ways: it has loaded the preload library, whose hooks
hand the tracking on at every exec, or it runs under the supervisor's seccomp filter,
which its descendants inherit.  `Covered` is the invariant of a process: it holds of a
child before its first exec because of what it is about to load, is copied by a fork,
and is kept by every exec, be it one that fails after the filter is in place.  There is one
way out: a hooked `execveat` that finds no path for its directory passes its arguments on
as they are.
-/

namespace Fspy.Unix

open Lib

/-- What a completed exec has loaded: the file, and the environment it was given. -/
structure Image where
  content : Bytes
  envp : List Bytes
deriving DecidableEq, Repr

/-- A process, with the filters it runs under. -/
structure Task where
  /-- The image, once an exec has been completed. -/
  image : Option Image
  filters : List SeccompPayload
deriving DecidableEq, Repr

/-! ## Environments -/

/-- Neither of the two names is bound twice. -/
def BindsOnce (envp : List Bytes) : Prop :=
  (envp.filter (binds LD_PRELOAD)).length ≤ 1 ∧ (envp.filter (binds PAYLOAD_ENV_NAME)).length ≤ 1

/-- The name is bound to the value, and to nothing else. -/
def BoundTo (envp : List Bytes) (name value : Bytes) : Prop :=
  envp.filter (binds name) = [name ++ eqSign :: value]

section Environments

variable {envp : List Bytes} {name value : Bytes}

theorem mem_of_existingValue (hname : eqSign ∉ name)
    (h : existingValue (envp.map splitEnv) name = some value) :
    name ++ eqSign :: value ∈ envp := by
  obtain ⟨⟨n, v⟩, hmem, hv⟩ := List.exists_of_findSome?_eq_some h
  obtain ⟨env, henv, hsplit⟩ := List.mem_map.mp hmem
  dsimp only at hv
  split at hv
  · rename_i hn
    rw [← (splitEnv_eq_some hname).mp (by rw [hsplit, hn, hv])]
    exact henv
  · cases hv

theorem boundTo_of_mem (hone : (envp.filter (binds name)).length ≤ 1)
    (h : name ++ eqSign :: value ∈ envp) : BoundTo envp name value := by
  have hmem : name ++ eqSign :: value ∈ envp.filter (binds name) :=
    List.mem_filter.mpr ⟨h, binds_iff.mpr ⟨value, rfl⟩⟩
  obtain ⟨env, henv⟩ := List.length_eq_one_iff.mp
    (Nat.le_antisymm hone (List.length_pos_of_mem hmem))
  rw [henv, List.mem_singleton] at hmem
  rw [BoundTo, henv, hmem]

theorem existingValue_of_boundTo (hname : eqSign ∉ name) (h : BoundTo envp name value) :
    existingValue (envp.map splitEnv) name = some value := by
  rw [BoundTo] at h
  cases hv : existingValue (envp.map splitEnv) name with
  | none =>
      rw [existingValue_eq_none hname, List.any_eq_false] at hv
      rw [List.filter_eq_nil_iff.mpr fun env henv ↦ hv env henv] at h
      cases h
  | some v =>
      have hmem : name ++ eqSign :: v ∈ envp.filter (binds name) :=
        List.mem_filter.mpr ⟨mem_of_existingValue hname hv, binds_iff.mpr ⟨v, rfl⟩⟩
      rw [h, List.mem_singleton, List.append_cancel_left_eq, List.cons.injEq] at hmem
      rw [hmem.2]

/-- Only names that are not bound are added. -/
theorem bindsOnce_trackedEnvp {encoded_payload : EncodedPayload} (h : BindsOnce envp) :
    BindsOnce (trackedEnvp encoded_payload envp true) := by
  have hself : ∀ name value, binds name (name ++ eqSign :: value) = true :=
    fun name value ↦ binds_iff.mpr ⟨value, rfl⟩
  have hpreload : ∀ value, binds LD_PRELOAD (PAYLOAD_ENV_NAME ++ eqSign :: value) = false :=
    fun value ↦ rfl
  have hnone : ∀ name, envp.any (binds name) = false → envp.filter (binds name) = [] := by
    intro name hany
    exact List.filter_eq_nil_iff.mpr (List.any_eq_false.mp hany)
  obtain ⟨h₁, h₂⟩ := h
  rw [BindsOnce, trackedEnvp, bindings, List.filter_append, List.filter_append]
  cases hp : envp.any (binds LD_PRELOAD) <;> cases hn : envp.any (binds PAYLOAD_ENV_NAME) <;>
    simp [hp, hn, hself, hpreload, not_binds_payload, hnone, h₁, h₂]

end Environments

/-! ## Transitions -/

/-- An exec call that a hook intercepts, with what happens around it. -/
structure ExecCall where
  sys : System
  config : ExecResolveConfig
  raw_exec : RawExec
  /-- Whether `PreExec::run` succeeds. -/
  installs : Bool
  /-- Whether the original function succeeds. -/
  loads : Bool

variable (minimal_parse : ElfCrate) (decode_payload : Bytes → Option EncodedPayload)
  (encoded_payload : EncodedPayload) (first : Image)

/-- What an intercepted exec installs and what it loads.  The kernel loads the file that
`handle_exec` has examined. -/
def ExecCall.run (call : ExecCall) : Option PreExec × Option Image :=
  match (Client.handle_exec call.sys minimal_parse call.config call.raw_exec
      encoded_payload).result with
  | .error _ => (none, none)
  | .ok (raw_command, pre_exec) =>
      if pre_exec.isSome && !call.installs then (none, none)
      else (pre_exec, if call.loads then
        (call.sys.mmap_executable (cstr raw_command.prog)).toOption.map
          fun content ↦ ⟨content, cstrs raw_command.envp⟩
        else none)

/-- A call of the hooked `execveat`. -/
structure ExecveatCall where
  helpers : Helpers
  dirfd : Int
  /-- The arguments; the path is as it was passed. -/
  call : ExecCall
  /-- What the original `execveat` executes, if it is called directly. -/
  executed : Option Bytes
  /-- What the memory of a string holds after the string is dropped. -/
  freed : Bytes → Bytes

namespace ExecveatCall

/-- The path that `handle_exec` is called with, if there is one. -/
def abs_path (call : ExecveatCall) : Except Errno (Option Bytes) :=
  (PathArg.pathAt call.dirfd call.call.raw_exec.prog).to_absolute_path call.helpers .ok

/-- What the original function loads, with the environment as it was passed. -/
def original (call : ExecveatCall) : Option Image :=
  call.executed.map fun content ↦ ⟨content, cstrs call.call.raw_exec.envp⟩

/-- The call with the path that was found. -/
def withPath (call : ExecveatCall) (path : Bytes) : ExecCall :=
  { call.call with
    config := .search_path_disabled
    raw_exec := { call.call.raw_exec with prog := call.freed (toCStr path) } }

/-- What the hook of `execveat` installs and what it loads. -/
def run (call : ExecveatCall) : Option PreExec × Option Image :=
  match call.abs_path with
  | .error _ => (none, none)
  | .ok none => (none, call.original)
  | .ok (some path) =>
      if NulFree path then (call.withPath path).run minimal_parse encoded_payload else (none, none)

end ExecveatCall

/-- What a process is after installing and loading something. -/
def Task.after (task : Task) (out : Option PreExec × Option Image) : Task where
  image := out.2.or task.image
  filters := out.1.toList.map (·.seccomp_payload) ++ task.filters

/-- `Client::from_env`, in a process that has loaded the preload library. -/
def Task.client (task : Task) : Option EncodedPayload :=
  match task.image with
  | none => none
  | some image =>
      if is_dynamically_linked_to_libc minimal_parse image.content = .ok true ∧
          existingValue (image.envp.map splitEnv) LD_PRELOAD =
            some encoded_payload.payload.preload_path then
        (existingValue (image.envp.map splitEnv) PAYLOAD_ENV_NAME).bind decode_payload
      else none

inductive Event where
  /-- The first exec, in the child of `spawn_impl`. -/
  | start (pid : Nat)
  | fork (pid : Nat)
  /-- A process that has loaded the preload library calls a hooked function. -/
  | exec (pid : Nat) (call : ExecCall)
  | execveat (pid : Nat) (call : ExecveatCall)
  | posix_spawn (pid : Nat) (call : ExecCall)
  /-- Any other process calls `execve`, which may fail. -/
  | execve (pid : Nat) (image : Option Image)

/-- The environments of the calls bind neither name twice. -/
def Event.BindsOnce : Event → Prop
  | .exec _ call => Unix.BindsOnce (cstrs call.raw_exec.envp)
  | .execveat _ call => Unix.BindsOnce (cstrs call.call.raw_exec.envp)
  | .posix_spawn _ call => Unix.BindsOnce (cstrs call.raw_exec.envp)
  | _ => True

/-- One event; processes are numbered in the order they come to exist. -/
def step (tasks : List Task) : Event → Option (List Task)
  | .start pid => do
      let task ← tasks[pid]?
      if task.image.isNone then tasks.set pid { task with image := first } else none
  | .fork pid => do
      let task ← tasks[pid]?
      return tasks ++ [task]
  | .exec pid call => do
      let task ← tasks[pid]?
      let payload ← task.client minimal_parse decode_payload encoded_payload
      return tasks.set pid (task.after (call.run minimal_parse payload))
  | .execveat pid call => do
      let task ← tasks[pid]?
      let payload ← task.client minimal_parse decode_payload encoded_payload
      return tasks.set pid (task.after (call.run minimal_parse payload))
  | .posix_spawn pid call => do
      let task ← tasks[pid]?
      let payload ← task.client minimal_parse decode_payload encoded_payload
      let out := call.run minimal_parse payload
      if out.2.isSome then tasks ++ [task.after out] else tasks
  | .execve pid image => do
      let task ← tasks[pid]?
      if task.image.isSome && (task.client minimal_parse decode_payload encoded_payload).isNone
        then tasks.set pid (task.after (none, image)) else none

/-! ## The invariant -/

/-- A process with this image has been injected the preload library, and hands it on. -/
def Injected (image : Image) : Prop :=
  is_dynamically_linked_to_libc minimal_parse image.content = .ok true ∧
    BoundTo image.envp LD_PRELOAD encoded_payload.payload.preload_path ∧
    BoundTo image.envp PAYLOAD_ENV_NAME encoded_payload.encoded_string

/-- A process that is tracked: it runs under the filter, or has been injected the preload
library, or will be at its first exec. -/
def Covered (task : Task) : Prop :=
  encoded_payload.payload.seccomp_payload ∈ task.filters ∨
    Injected minimal_parse encoded_payload (task.image.getD first)

/-- A hooked `execveat` that finds no path is made under the filter, or fails, or executes an
image that is injected all the same. -/
def Event.HandsOn (tasks : List Task) : Event → Prop
  | .execveat pid call => call.abs_path = .ok none →
      (∀ task, tasks[pid]? = some task → encoded_payload.payload.seccomp_payload ∈ task.filters) ∨
        ∀ image, call.original = some image → Injected minimal_parse encoded_payload image
  | _ => True

variable {minimal_parse decode_payload encoded_payload first} {task : Task}
  {tasks tasks' : List Task}

/-- The hooks of an injected process work for the same supervisor. -/
theorem client_of_injected {image : Image}
    (hdecode : decode_payload encoded_payload.encoded_string = some encoded_payload)
    (himage : task.image = some image) (h : Injected minimal_parse encoded_payload image) :
    task.client minimal_parse decode_payload encoded_payload = some encoded_payload := by
  obtain ⟨hdynamic, hpreload, hpayload⟩ := h
  rw [Task.client, himage]
  dsimp only
  rw [if_pos ⟨hdynamic, existingValue_of_boundTo eqSign_notMem_preload hpreload⟩,
    existingValue_of_boundTo eqSign_notMem_payload hpayload, Option.bind_some, hdecode]

/-- **What an intercepted exec does**: it installs the filter, or loads an image that has
been injected the preload library. -/
theorem run_spec {call : ExecCall} (hcall : BindsOnce (cstrs call.raw_exec.envp)) :
    (call.run minimal_parse encoded_payload).1 =
        some ⟨encoded_payload.payload.seccomp_payload⟩ ∨
      (call.run minimal_parse encoded_payload).1 = none ∧
        ∀ image, (call.run minimal_parse encoded_payload).2 = some image →
          Injected minimal_parse encoded_payload image := by
  rw [ExecCall.run]
  cases hres : (Client.handle_exec call.sys minimal_parse call.config call.raw_exec
      encoded_payload).result with
  | error stop => exact .inr ⟨rfl, by rintro image ⟨⟩⟩
  | ok out =>
      obtain ⟨raw_command, pre_exec⟩ := out
      obtain ⟨program, content, hprog, hcontent, hdynamic, henvp, htrack⟩ :=
        envp_of_handle_exec hres
      have hpre := pre_exec_of_trackEnvs htrack
      cases pre_exec with
      | some pre_exec =>
          rw [hpre]
          cases call.installs with
          | false => exact .inr ⟨rfl, by rintro image ⟨⟩⟩
          | true => exact .inl rfl
      | none =>
          refine .inr ⟨rfl, fun image himage ↦ ?_⟩
          have hloaded : call.sys.mmap_executable (cstr raw_command.prog) = .ok content := by
            rw [hprog, cstr_toCStr, cstr_of_nulFree (System.nulFree_of_mmap hcontent), hcontent]
          obtain ⟨-, rfl⟩ : call.loads = true ∧ ⟨content, cstrs raw_command.envp⟩ = image := by
            simpa [hloaded, Except.toOption] using himage
          have hone : BindsOnce (cstrs raw_command.envp) := by
            rw [henvp, cstrs_trackedEnvp]
            exact bindsOnce_trackedEnvp hcall
          obtain ⟨hpreload, hpayload⟩ := existingValue_of_trackEnvs htrack
          exact ⟨hdynamic,
            boundTo_of_mem hone.1 (mem_of_existingValue eqSign_notMem_preload hpreload),
            boundTo_of_mem hone.2 (mem_of_existingValue eqSign_notMem_payload hpayload)⟩

/-- Installing and loading keep what is covered, if what is loaded is. -/
theorem covered_after {out : Option PreExec × Option Image}
    (h : Covered minimal_parse encoded_payload first task)
    (hout : out.1 = some ⟨encoded_payload.payload.seccomp_payload⟩ ∨
      encoded_payload.payload.seccomp_payload ∈ task.filters ∨
      ∀ image, out.2 = some image → Injected minimal_parse encoded_payload image) :
    Covered minimal_parse encoded_payload first (task.after out) := by
  rcases hout with hpre | hfilter | himage
  · left
    rw [Task.after, hpre]
    exact List.mem_cons_self
  · exact .inl (List.mem_append_right _ hfilter)
  · rcases h with hfilter | hinjected
    · exact .inl (List.mem_append_right _ hfilter)
    · right
      rw [Task.after]
      cases hload : out.2 with
      | none =>
          rw [Option.none_or]
          exact hinjected
      | some image =>
          rw [Option.some_or]
          exact himage image hload

/-- What a hook does, it does for this supervisor, unless the filter is there anyway. -/
theorem covered_client (out : EncodedPayload → Option PreExec × Option Image)
    {payload : EncodedPayload}
    (hdecode : decode_payload encoded_payload.encoded_string = some encoded_payload)
    (hclient : task.client minimal_parse decode_payload encoded_payload = some payload)
    (h : Covered minimal_parse encoded_payload first task)
    (hout : (out encoded_payload).1 = some ⟨encoded_payload.payload.seccomp_payload⟩ ∨
      encoded_payload.payload.seccomp_payload ∈ task.filters ∨
      ∀ image, (out encoded_payload).2 = some image →
        Injected minimal_parse encoded_payload image) :
    Covered minimal_parse encoded_payload first (task.after (out payload)) := by
  apply covered_after h
  rcases h with hfilter | hinjected
  · exact .inr (.inl hfilter)
  · cases himage : task.image with
    | none =>
        rw [Task.client, himage] at hclient
        cases hclient
    | some image =>
        rw [himage, Option.getD_some] at hinjected
        rw [client_of_injected hdecode himage hinjected, Option.some.injEq] at hclient
        exact hclient ▸ hout

/-- What an intercepted exec of a covered process leaves is covered. -/
theorem covered_run {call : ExecCall} {payload : EncodedPayload}
    (hdecode : decode_payload encoded_payload.encoded_string = some encoded_payload)
    (hclient : task.client minimal_parse decode_payload encoded_payload = some payload)
    (hcall : BindsOnce (cstrs call.raw_exec.envp))
    (h : Covered minimal_parse encoded_payload first task) :
    Covered minimal_parse encoded_payload first (task.after (call.run minimal_parse payload)) :=
  covered_client (call.run minimal_parse) hdecode hclient h
    ((run_spec hcall).imp_right fun hrun ↦ .inr hrun.2)

/-- An `execveat` that hands its arguments on is one of the other calls. -/
theorem covered_execveat {call : ExecveatCall} {payload : EncodedPayload}
    (hdecode : decode_payload encoded_payload.encoded_string = some encoded_payload)
    (hclient : task.client minimal_parse decode_payload encoded_payload = some payload)
    (hcall : BindsOnce (cstrs call.call.raw_exec.envp))
    (hdirect : call.abs_path = .ok none →
      encoded_payload.payload.seccomp_payload ∈ task.filters ∨
        ∀ image, call.original = some image → Injected minimal_parse encoded_payload image)
    (h : Covered minimal_parse encoded_payload first task) :
    Covered minimal_parse encoded_payload first (task.after (call.run minimal_parse payload)) := by
  refine covered_client (call.run minimal_parse) hdecode hclient h ?_
  rw [ExecveatCall.run]
  split
  · exact .inr (.inr nofun)
  · rename_i hpath
    exact .inr (hdirect hpath)
  · rename_i path _
    have hcall' : BindsOnce (cstrs (call.withPath path).raw_exec.envp) := hcall
    split
    · exact (run_spec hcall').imp_right fun hrun ↦ .inr hrun.2
    · exact .inr (.inr nofun)

/-- **Every event keeps every process covered.** -/
theorem covered_step {event : Event}
    (hdecode : decode_payload encoded_payload.encoded_string = some encoded_payload)
    (hevent : event.BindsOnce ∧ event.HandsOn minimal_parse encoded_payload tasks)
    (h : step minimal_parse decode_payload encoded_payload first tasks event = some tasks')
    (hcovered : ∀ task ∈ tasks, Covered minimal_parse encoded_payload first task) :
    ∀ task ∈ tasks', Covered minimal_parse encoded_payload first task := by
  have hset : ∀ {pid task'}, Covered minimal_parse encoded_payload first task' →
      ∀ task ∈ tasks.set pid task', Covered minimal_parse encoded_payload first task := by
    intro pid task' htask' task htask
    rcases List.mem_or_eq_of_mem_set htask with htask | rfl
    · exact hcovered task htask
    · exact htask'
  have hadd : ∀ {task'}, Covered minimal_parse encoded_payload first task' →
      ∀ task ∈ tasks ++ [task'], Covered minimal_parse encoded_payload first task := by
    intro task' htask' task htask
    rcases List.mem_append.mp htask with htask | htask
    · exact hcovered task htask
    · rw [List.mem_singleton.mp htask]
      exact htask'
  cases event with
  | start pid =>
      obtain ⟨task, htask, h⟩ := Option.bind_eq_some_iff.mp h
      split at h
      · rename_i himage
        cases h
        have hold := hcovered task (List.mem_of_getElem? htask)
        rw [Covered, Option.isNone_iff_eq_none.mp himage] at hold
        exact hset hold
      · cases h
  | fork pid =>
      obtain ⟨task, htask, h⟩ := Option.bind_eq_some_iff.mp h
      cases h
      exact hadd (hcovered task (List.mem_of_getElem? htask))
  | exec pid call =>
      obtain ⟨task, htask, h⟩ := Option.bind_eq_some_iff.mp h
      obtain ⟨payload, hclient, h⟩ := Option.bind_eq_some_iff.mp h
      cases h
      exact hset
        (covered_run hdecode hclient hevent.1 (hcovered task (List.mem_of_getElem? htask)))
  | execveat pid call =>
      obtain ⟨task, htask, h⟩ := Option.bind_eq_some_iff.mp h
      obtain ⟨payload, hclient, h⟩ := Option.bind_eq_some_iff.mp h
      cases h
      refine hset (covered_execveat hdecode hclient hevent.1 (fun hpath ↦ ?_)
        (hcovered task (List.mem_of_getElem? htask)))
      exact (hevent.2 hpath).imp_left fun hfilter ↦ hfilter task htask
  | posix_spawn pid call =>
      obtain ⟨task, htask, h⟩ := Option.bind_eq_some_iff.mp h
      obtain ⟨payload, hclient, h⟩ := Option.bind_eq_some_iff.mp h
      dsimp only at h
      split at h
      · cases h
        exact hadd
          (covered_run hdecode hclient hevent.1 (hcovered task (List.mem_of_getElem? htask)))
      · cases h
        exact hcovered
  | execve pid image =>
      obtain ⟨task, htask, h⟩ := Option.bind_eq_some_iff.mp h
      split at h
      · rename_i hother
        cases h
        have hold := hcovered task (List.mem_of_getElem? htask)
        refine hset (covered_after hold (.inr (.inl ?_)))
        -- an injected process would have a client
        obtain ⟨himage, hclient⟩ := Bool.and_eq_true_iff.mp hother
        obtain ⟨old, hold'⟩ := Option.isSome_iff_exists.mp himage
        rcases hold with hfilter | hinjected
        · exact hfilter
        · rw [hold', Option.getD_some] at hinjected
          rw [client_of_injected hdecode hold' hinjected] at hclient
          cases hclient
      · cases h

/-! ## The first exec -/

namespace Command

/-- The environment of the child: every name is bound to its value. -/
def environ (command : Command) : List Bytes :=
  command.envs.entries.map fun env ↦ env.1 ++ eqSign :: env.2

/-- What `spawn_impl` prepares for its child: the image that the child is to load, and
what it does before. -/
def start (minimal_parse : ElfCrate) (encoded_payload : EncodedPayload) (sys : System)
    (command : Command) : Except Stop (Image × Option PreExec) := do
  let (exec, pre_exec) ← (handle_exec sys minimal_parse command.get_exec
    (.search_path_enabled none) encoded_payload).result
  let command ← command.set_exec exec
  let content ← (sys.mmap_executable command.program).mapError .errno
  return (⟨content, command.environ⟩, pre_exec)

end Command

/-- The child of `spawn_impl`, before its exec. -/
def beforeExec (pre_exec : Option PreExec) : List Task :=
  [⟨none, pre_exec.toList.map (·.seccomp_payload)⟩]

/-- An environment that comes from a map: no name occurs twice, and each has a value. -/
def OfMap (envs : Envs) : Prop := (envs.map Prod.fst).Nodup ∧ ∀ env ∈ envs, env.2.isSome

theorem ofMap_get_exec (command : Command) : OfMap command.get_exec.envs := by
  constructor
  · rw [Command.get_exec, List.map_map]
    exact command.envs.nodupKeys
  · intro env henv
    obtain ⟨entry, -, rfl⟩ := List.mem_map.mp henv
    rfl

theorem ofMap_ensure_env {envs envs' : Envs} {name value : Bytes} (h : OfMap envs)
    (hensure : ensure_env envs name value = .ok envs') : OfMap envs' := by
  rcases ensure_env_eq_ok.mp hensure with ⟨-, rfl⟩ | ⟨hnone, rfl⟩
  · exact h
  · have hname : ∀ v, (name, v) ∉ envs := by
      intro v hmem
      obtain ⟨value', rfl⟩ := Option.isSome_iff_exists.mp (h.2 _ hmem)
      rw [existingValue, List.findSome?_eq_none_iff] at hnone
      simpa using hnone _ hmem
    constructor
    · rw [List.map_append, List.nodup_append]
      refine ⟨h.1, List.nodup_singleton _, ?_⟩
      rintro n hn n' hn' rfl
      obtain ⟨⟨n, v⟩, hmem, rfl⟩ := List.mem_map.mp hn
      rw [List.map_singleton, List.mem_singleton] at hn'
      obtain rfl : n = name := hn'
      exact hname v hmem
    · intro env henv
      rcases List.mem_append.mp henv with henv | henv
      · exact h.2 env henv
      · rw [List.mem_singleton.mp henv]
        rfl

/-- A value that an environment has is in the environment of the child. -/
theorem mem_environ {command command' : Command} {exec : Exec} {name value : Bytes}
    (h : OfMap exec.envs) (hset : command.set_exec exec = .ok command')
    (hvalue : existingValue exec.envs name = some value) :
    name ++ eqSign :: value ∈ command'.environ := by
  obtain ⟨⟨n, v⟩, hmem, hv⟩ := List.exists_of_findSome?_eq_some hvalue
  dsimp only at hv
  split at hv
  · rename_i hn
    subst hn hv
    have hkeys : (exec.envs.map Command.entry).reverse.NodupKeys := by
      rw [List.NodupKeys, List.keys, List.map_reverse, List.nodup_reverse, List.map_map]
      exact h.1
    have hentry : ⟨n, value⟩ ∈ command'.envs.entries := by
      obtain ⟨arg0, args, -, rfl⟩ := set_exec_eq_ok.mp hset
      rw [← AList.mem_lookup_iff, AList.lookup_to_alist]
      exact List.mem_dlookup hkeys (List.mem_reverse.mpr (List.mem_map.mpr ⟨_, hmem, rfl⟩))
    exact List.mem_map.mpr ⟨_, hentry, rfl⟩
  · cases hv

/-- The child of `spawn_impl` is covered. -/
theorem covered_beforeExec {sys : System} {command : Command} {pre_exec : Option PreExec}
    (hstart : command.start minimal_parse encoded_payload sys = .ok (first, pre_exec))
    (hfirst : BindsOnce first.envp) :
    ∀ task ∈ beforeExec pre_exec, Covered minimal_parse encoded_payload first task := by
  obtain ⟨⟨exec, pre_exec'⟩, hexec, hstart⟩ := bind_eq_ok.mp hstart
  obtain ⟨command', hset, hstart⟩ := bind_eq_ok.mp hstart
  obtain ⟨content', hcontent', hstart⟩ := bind_eq_ok.mp hstart
  cases hstart
  obtain ⟨content, dynamic, hcontent, hdynamic, htrack⟩ := tracked_of_handle_exec hexec
  have hpre := pre_exec_of_trackEnvs htrack
  intro task htask
  rw [beforeExec, List.mem_singleton] at htask
  subst htask
  cases dynamic with
  | false =>
      subst hpre
      exact .inl List.mem_cons_self
  | true =>
      obtain ⟨hpreload, hpayload⟩ := existingValue_of_trackEnvs htrack
      have hmap : OfMap exec.envs := by
        obtain ⟨envs₁, h₁, htrack⟩ := bind_eq_ok.mp htrack
        obtain ⟨envs₂, h₂, htrack⟩ := bind_eq_ok.mp htrack
        cases htrack
        exact ofMap_ensure_env (ofMap_ensure_env (ofMap_get_exec command) h₁) h₂
      have hprogram : command'.program = exec.program := by
        obtain ⟨arg0, args, -, rfl⟩ := set_exec_eq_ok.mp hset
        rfl
      rw [mapError_eq_ok, hprogram, hcontent, Except.ok.injEq] at hcontent'
      subst hcontent'
      exact .inr ⟨hdynamic, boundTo_of_mem hfirst.1 (mem_environ hmap hset hpreload),
        boundTo_of_mem hfirst.2 (mem_environ hmap hset hpayload)⟩

/-- Every process stays covered. -/
theorem covered_runs {sys : System} {command : Command} {pre_exec : Option PreExec}
    {events : List Event}
    (hdecode : decode_payload encoded_payload.encoded_string = some encoded_payload)
    (hstart : command.start minimal_parse encoded_payload sys = .ok (first, pre_exec))
    (hfirst : BindsOnce first.envp)
    (hmeet : StepsMeet (step minimal_parse decode_payload encoded_payload first)
      (fun tasks event ↦ event.BindsOnce ∧ event.HandsOn minimal_parse encoded_payload tasks)
      (beforeExec pre_exec) events)
    (hrun : runs (step minimal_parse decode_payload encoded_payload first)
      (beforeExec pre_exec) events = some tasks) :
    ∀ task ∈ tasks, Covered minimal_parse encoded_payload first task :=
  runs_induction (fun _ tasks ↦ ∀ task ∈ tasks, Covered minimal_parse encoded_payload first task)
    (covered_beforeExec hstart hfirst)
    (fun _ _ _ _ hcovered hevent hstep ↦ covered_step hdecode hevent hstep hcovered) hrun hmeet

/-- **Tracking coverage.**  In every run from the child of `spawn_impl` in which no hooked
`execveat` passes a process on untracked, a process that has completed an exec runs under the
supervisor's filter or has been injected the preload library. -/
theorem covered_of_run {sys : System} {command : Command} {pre_exec : Option PreExec}
    {events : List Event}
    (hdecode : decode_payload encoded_payload.encoded_string = some encoded_payload)
    (hstart : command.start minimal_parse encoded_payload sys = .ok (first, pre_exec))
    (hfirst : BindsOnce first.envp)
    (hmeet : StepsMeet (step minimal_parse decode_payload encoded_payload first)
      (fun tasks event ↦ event.BindsOnce ∧ event.HandsOn minimal_parse encoded_payload tasks)
      (beforeExec pre_exec) events)
    (hrun : runs (step minimal_parse decode_payload encoded_payload first)
      (beforeExec pre_exec) events = some tasks) :
    ∀ task ∈ tasks, ∀ image, task.image = some image →
      encoded_payload.payload.seccomp_payload ∈ task.filters ∨
        Injected minimal_parse encoded_payload image := by
  intro task htask image himage
  have hcovered := covered_runs hdecode hstart hfirst hmeet hrun task htask
  rw [Covered, himage] at hcovered
  exact hcovered

/-! ## A small tree -/

/-- A file system with a dynamically linked program and a statically linked one. -/
def twoPrograms : System := .ofFiles
  [(ascii "/b", .file sampleElf true true), (ascii "/s", .file (ascii "static") true true)]

/-- The crate, on these two files. -/
def twoCrate : ElfCrate := fun bytes ↦
  if bytes = ascii "static" then some ⟨none, fun _ ↦ none⟩ else sampleCrate bytes

def sampleImage : Image where
  content := sampleElf
  envp := [ascii "FSPY_PAYLOAD=ERI", ascii "LD_PRELOAD=/proc/self/fd/18"]

def sampleCall (prog : Bytes) (loads : Bool) : ExecCall where
  sys := twoPrograms
  config := .search_path_disabled
  raw_exec := ⟨toCStr prog, toCStrs [prog], toCStrs [ascii "A=1"]⟩
  installs := true
  loads := loads

/-- A call of `execveat` from a directory whose link in `/proc` cannot be read. -/
def sampleExecveat (call : ExecCall) (executed : Option Bytes) : ExecveatCall where
  helpers := ⟨.ok (ascii "/"), fun _ ↦ .error .ENOENT⟩
  dirfd := 5
  call := call
  executed := executed
  freed := id

/-- The child starts and forks; the fork fails to execute the static program, executes the
dynamic one, and then the static one; the child executes the dynamic one, after an `execveat`
that has failed. -/
def sampleEvents : List Event :=
  [.start 0, .fork 0, .exec 1 (sampleCall (ascii "/s") false),
    .exec 1 (sampleCall (ascii "/b") true), .exec 1 (sampleCall (ascii "/s") true),
    .execveat 0 (sampleExecveat (sampleCall (ascii "s") true) none),
    .exec 0 (sampleCall (ascii "/b") true)]

def decodeSample (encoded : Bytes) : Option EncodedPayload :=
  if encoded = ascii "ERI" then some samplePayload else none

theorem start_sample : Command.start twoCrate samplePayload twoPrograms
    ⟨ascii "/b", [], ∅, none, none⟩ = .ok (sampleImage, none) := by decide +kernel

theorem bindsOnce_sampleCall (prog : Bytes) (loads : Bool) :
    BindsOnce (cstrs (sampleCall prog loads).raw_exec.envp) := by
  change BindsOnce (cstrs (toCStrs [ascii "A=1"]))
  exact ⟨by decide, by decide⟩

theorem covered_of_run_sample : ∃ tasks,
    runs (step twoCrate decodeSample samplePayload sampleImage) (beforeExec none) sampleEvents =
      some tasks ∧ tasks.length = 2 ∧
    ∀ task ∈ tasks, ∀ image, task.image = some image →
      samplePayload.payload.seccomp_payload ∈ task.filters ∨
        Injected twoCrate samplePayload image := by
  have hrun : (runs (step twoCrate decodeSample samplePayload sampleImage) (beforeExec none)
      sampleEvents).map List.length = some 2 := by decide +kernel
  obtain ⟨tasks, hrun, hlength⟩ := Option.map_eq_some_iff.mp hrun
  refine ⟨tasks, hrun, hlength,
    covered_of_run rfl start_sample ⟨by decide, by decide⟩ (.of_forall ?_) hrun⟩
  intro tasks event hevent
  simp only [sampleEvents, List.mem_cons, List.not_mem_nil, or_false] at hevent
  rcases hevent with rfl | rfl | rfl | rfl | rfl | rfl | rfl
  · exact ⟨trivial, trivial⟩
  · exact ⟨trivial, trivial⟩
  · exact ⟨bindsOnce_sampleCall _ _, trivial⟩
  · exact ⟨bindsOnce_sampleCall _ _, trivial⟩
  · exact ⟨bindsOnce_sampleCall _ _, trivial⟩
  · refine ⟨bindsOnce_sampleCall _ _, fun _ ↦ .inr ?_⟩
    rintro image ⟨⟩
  · exact ⟨bindsOnce_sampleCall _ _, trivial⟩

/-- `execveat` executes the static program from that directory. -/
def untrackedEvents : List Event :=
  [.start 0, .execveat 0 (sampleExecveat (sampleCall (ascii "s") true) (some (ascii "static")))]

/-- The program runs with neither the filter nor the library. -/
theorem untracked_of_execveat :
    Command.start twoCrate samplePayload twoPrograms ⟨ascii "/b", [], ∅, none, none⟩ =
      .ok (sampleImage, none) ∧ BindsOnce sampleImage.envp ∧
    (∀ event ∈ untrackedEvents, event.BindsOnce) ∧
    runs (step twoCrate decodeSample samplePayload sampleImage) (beforeExec none)
      untrackedEvents = some [⟨some ⟨ascii "static", [ascii "A=1"]⟩, []⟩] ∧
    ¬Injected twoCrate samplePayload ⟨ascii "static", [ascii "A=1"]⟩ := by
  refine ⟨start_sample, ⟨by decide, by decide⟩, ?_, by decide +kernel, ?_⟩
  · rintro event hevent
    simp only [untrackedEvents, List.mem_cons, List.not_mem_nil, or_false] at hevent
    rcases hevent with rfl | rfl
    · trivial
    · exact bindsOnce_sampleCall _ _
  · rintro ⟨hdynamic, -⟩
    revert hdynamic
    decide +kernel

end Fspy.Unix
