import Fspy.Macos.Spawn
import Fspy.Unix.Payload

/-!
# The processes below a tracked command, on macOS

There is no filter on macOS: a process is tracked if the loader loads the preload library
into it, and the loader does not for a protected program.  Whether a process is tracked can
be told from the accesses that were reported on the way to it: it is, unless one of the
programs was left alone by `handle_exec`, or was put in place of another and is protected
itself.
-/

namespace Fspy.Macos

open Lib Unix

/-! ## The payload -/

namespace Fixtures

def format : Format Fixtures :=
  (nativeString.pair nativeString).map
    (fun (bash_path, coreutils_path) ↦ ⟨bash_path, coreutils_path⟩)
    fun fixtures ↦ (fixtures.bash_path, fixtures.coreutils_path)

end Fixtures

namespace Payload

def format : Format Payload :=
  (Format.int32.pair (nativeString.pair Fixtures.format)).map
    (fun (ipc_fd, preload_path, fixtures) ↦ ⟨ipc_fd, preload_path, fixtures⟩)
    fun payload ↦ (payload.ipc_fd, payload.preload_path, payload.fixtures)

/-- The numbers are those that the types of the fields have. -/
structure WellTyped (payload : Payload) : Prop where
  ipc_fd : IsRawFd payload.ipc_fd
  preload_path : payload.preload_path.length < 2 ^ 64
  bash_path : payload.fixtures.bash_path.length < 2 ^ 64
  coreutils_path : payload.fixtures.coreutils_path.length < 2 ^ 64

theorem lawful_format : format.Lawful WellTyped := by
  have hfixtures : Fixtures.format.Lawful fun fixtures ↦
      fixtures.bash_path.length < 2 ^ 64 ∧ fixtures.coreutils_path.length < 2 ^ 64 :=
    (lawful_nativeString.pair lawful_nativeString).map fun fixtures h ↦ ⟨h, rfl⟩
  exact (Format.lawful_int32.pair (lawful_nativeString.pair hfixtures)).map fun payload h ↦
    ⟨⟨h.ipc_fd, h.preload_path, h.bash_path, h.coreutils_path⟩, rfl⟩

end Payload

/-- `encode_payload`. -/
def encode_payload (payload : Payload) : EncodedPayload :=
  ⟨payload, encodedString Payload.format payload⟩

/-! ## An intercepted exec -/

namespace Spawn

/-- `handle_exec` of the module above, which resolves the program and reports it. -/
def handle_exec (sys : System) (command : Exec) (config : ExecResolveConfig)
    (encoded_payload : EncodedPayload) : ExecM Exec := do
  let command ← command.resolve sys (report sys) config
  report sys (.read command.program)
  match Macos.handle_exec sys command encoded_payload with
  | (.error stop, _) => .fail stop
  | (.ok (), command) => return command

end Spawn

/-- `Client::handle_exec`, up to the call of the original function. -/
def Client.handle_exec (sys : System) (config : ExecResolveConfig) (raw_exec : RawExec)
    (encoded_payload : EncodedPayload) : ExecM RawExec := do
  let exec ← Spawn.handle_exec sys raw_exec.to_exec config encoded_payload
  return .from_exec exec

section

variable {sys : System} {command command' : Exec} {config : ExecResolveConfig}
  {encoded_payload : EncodedPayload} {envs envs' : Envs}

theorem absolutePath_eq (sys : System) (program : Bytes) :
    absolutePath sys program = sys.absolutePath program := by
  rw [absolutePath, System.absolutePath]
  simp only [← Path.isAbsolute_iff]

/-- What `handle_exec` did, when it returned. -/
theorem Spawn.handle_exec_ok
    (h : (Spawn.handle_exec sys command config encoded_payload).result = .ok command') :
    ∃ path, (Spawn.handle_exec sys command config encoded_payload).trace.getLast? =
        some (.read path) ∧
      command'.program = (decision path).program encoded_payload.payload.fixtures path ∧
      injectEnvs encoded_payload (decision path).isInjectable command.envs =
        (.ok (), command'.envs) := by
  obtain ⟨exec, hexec, h⟩ := Traced.bind_eq_ok.mp h
  obtain ⟨u, hreport, h⟩ := Traced.bind_eq_ok.mp h
  obtain ⟨path, hpath, htrace⟩ := report_trace hreport
  change sys.absolutePath exec.program = some path at hpath
  rw [← envs_of_resolve hexec]
  have hhandle : ∃ envs, injectEnvs encoded_payload (decision path).isInjectable exec.envs =
      (.ok (), envs) ∧ Macos.handle_exec sys exec encoded_payload =
        (.ok (), ⟨(decision path).program encoded_payload.payload.fixtures path, exec.args,
          envs⟩) := by
    rw [Macos.handle_exec, absolutePath_eq, hpath] at h ⊢
    dsimp only at h ⊢
    cases hinject : injectEnvs encoded_payload (decision path).isInjectable exec.envs with
    | mk result envs =>
        rw [hinject] at h
        cases result with
        | error e => cases h
        | ok u => exact ⟨envs, rfl, rfl⟩
  obtain ⟨envs, hinject, hhandle⟩ := hhandle
  rw [hhandle] at h
  obtain rfl := Except.ok.inj h
  refine ⟨path, ?_, rfl, hinject⟩
  rw [Spawn.handle_exec, Traced.bind_of_ok hexec]
  dsimp only
  rw [Traced.bind_of_ok hreport, hhandle, htrace]
  simp [PathAccess.read]

/-- An injectable program has both names bound. -/
theorem injectEnvs_injectable (h : injectEnvs encoded_payload true envs = (.ok (), envs')) :
    ∃ envs₁, ensure_env envs DYLD_INSERT_LIBRARIES encoded_payload.payload.preload_path =
        .ok envs₁ ∧
      ensure_env envs₁ PAYLOAD_ENV_NAME encoded_payload.encoded_string = .ok envs' := by
  rw [injectEnvs, if_pos rfl] at h
  split at h
  · cases h
  · rename_i envs₁ hmut
    refine ⟨envs₁, ?_, ?_⟩
    · rw [ensure_env_eq_mut, hmut]
      rfl
    · rw [ensure_env_eq_mut, h]
      rfl

/-- Any other program has neither. -/
theorem injectEnvs_notInjectable (h : injectEnvs encoded_payload false envs = (.ok (), envs')) :
    envs' = envs.filter fun (name, _) ↦
      name != DYLD_INSERT_LIBRARIES && name != PAYLOAD_ENV_NAME := by
  cases h
  rfl

theorem notMem_of_notInjectable (h : injectEnvs encoded_payload false envs = (.ok (), envs'))
    (value : Option Bytes) : (DYLD_INSERT_LIBRARIES, value) ∉ envs' := by
  rw [injectEnvs_notInjectable h, List.mem_filter]
  rintro ⟨-, hname⟩
  simp at hname

theorem existingValue_of_notInjectable
    (h : injectEnvs encoded_payload false envs = (.ok (), envs')) :
    existingValue envs' DYLD_INSERT_LIBRARIES = none := by
  rw [existingValue, List.findSome?_eq_none_iff]
  rintro ⟨name, value⟩ hmem
  dsimp only
  split
  · rename_i hname
    exact absurd (hname ▸ hmem) (notMem_of_notInjectable h value)
  · rfl

end

/-! ## Environments -/

section Environments

variable {envp : List Bytes} {name value : Bytes} {envs : Envs}

/-- `ensure_env` binds a name for every reader, and adds nothing but this binding. -/
theorem boundTo_of_ensure_env (hname : eqSign ∉ name) (hone : (envp.filter (binds name)).length ≤ 1)
    (h : ensure_env (envp.map splitEnv) name value = .ok envs) :
    ∃ added, envs = (envp ++ added).map splitEnv ∧ BoundTo (envp ++ added) name value ∧
      ∀ env ∈ added, env = name ++ eqSign :: value := by
  have hbound := existingValue_of_ensure_env h
  have hmap := ensure_env_map hname h
  rw [hmap] at hbound
  refine ⟨_, hmap, boundTo_of_mem ?_ (mem_of_existingValue hname hbound), ?_⟩
  · split
    · simpa using hone
    · rename_i hany
      have hnil : envp.filter (binds name) = [] :=
        List.filter_eq_nil_iff.mpr (List.any_eq_false.mp (Bool.not_eq_true _ ▸ hany))
      rw [List.filter_append, hnil, List.nil_append]
      exact List.length_filter_le ..
  · intro env henv
    split at henv
    · cases henv
    · exact List.mem_singleton.mp henv

theorem binds_append {n v : Bytes} (hn : eqSign ∉ n) (hname : eqSign ∉ name) :
    binds name (n ++ eqSign :: v) = true ↔ n = name := by
  rw [binds_iff]
  constructor
  · rintro ⟨value, heq⟩
    have hsplit := congrArg splitEnv heq
    rw [splitEnv_append hn, splitEnv_append hname] at hsplit
    exact (Prod.mk.inj hsplit).1
  · rintro rfl
    exact ⟨v, rfl⟩

end Environments

/-! ## Processes -/

/-- What a completed exec has loaded: the program, and the environment it was given. -/
structure Image where
  program : Bytes
  envp : List Bytes
deriving DecidableEq, Repr

/-- An exec of a tracked process: what it has reported, and the program that was executed. -/
structure Interception where
  accesses : List PathAccess
  program : Bytes
deriving DecidableEq, Repr

structure Task where
  image : Image
  /-- The execs of tracked processes that have led to it, the last one first. -/
  interceptions : List Interception
deriving DecidableEq, Repr

/-- An exec that a hook intercepts. -/
structure ExecCall where
  sys : System
  config : ExecResolveConfig
  raw_exec : RawExec
  /-- Whether the original function succeeds. -/
  loads : Bool

/-- The image that an intercepted exec loads. -/
def ExecCall.run (call : ExecCall) (encoded_payload : EncodedPayload) :
    Option (Image × Interception) :=
  let out := Client.handle_exec call.sys call.config call.raw_exec encoded_payload
  match out.result with
  | .error _ => none
  | .ok raw_command =>
      if call.loads then
        some (⟨cstr raw_command.prog, cstrs raw_command.envp⟩, ⟨out.trace, cstr raw_command.prog⟩)
      else none

/-- The child of `spawn_impl`, once it has executed its program. -/
def spawn_impl (sys : System) (command : Command) (encoded_payload : EncodedPayload) :
    Except Stop Task := do
  let out := Spawn.handle_exec sys command.get_exec (.search_path_enabled none) encoded_payload
  let exec ← out.result
  let command ← command.set_exec exec
  return ⟨⟨command.program, command.environ⟩, [⟨out.trace, command.program⟩]⟩

variable (restricted : Bytes → Bool) (preload_path : Bytes)

/-- The loader loads the preload library, but not into a program that is restricted. -/
def Image.Loads (image : Image) : Prop :=
  restricted image.program = false ∧
    existingValue (image.envp.map splitEnv) DYLD_INSERT_LIBRARIES = some preload_path

instance (image : Image) : Decidable (image.Loads restricted preload_path) :=
  inferInstanceAs (Decidable (_ ∧ _))

/-- `Client::from_env`, in a process that has loaded the preload library. -/
def Task.client (task : Task) : Option EncodedPayload :=
  if task.image.Loads restricted preload_path then
    (decode_payload_from_env Payload.format task.image.envp).toOption.map fun decoded ↦
      ⟨decoded.1, decoded.2⟩
  else none

inductive Event where
  | fork (pid : Nat)
  /-- A process that has loaded the preload library calls a hooked function. -/
  | exec (pid : Nat) (call : ExecCall)
  | posix_spawn (pid : Nat) (call : ExecCall)
  /-- Any other process executes a program. -/
  | execve (pid : Nat) (image : Image)

/-- One event; processes are numbered in the order they come to exist. -/
def step (tasks : List Task) : Event → Option (List Task)
  | .fork pid => do
      let task ← tasks[pid]?
      return tasks ++ [task]
  | .exec pid call => do
      let task ← tasks[pid]?
      let client ← task.client restricted preload_path
      match call.run client with
      | none => tasks
      | some (image, interception) =>
          tasks.set pid (Task.mk image (interception :: task.interceptions))
  | .posix_spawn pid call => do
      let task ← tasks[pid]?
      let client ← task.client restricted preload_path
      match call.run client with
      | none => tasks
      | some (image, interception) => tasks ++ [Task.mk image (interception :: task.interceptions)]
  | .execve pid image => do
      let task ← tasks[pid]?
      if ¬task.image.Loads restricted preload_path then tasks.set pid { task with image } else none

/-- Neither of the two names is bound twice. -/
def BindsOnce (envp : List Bytes) : Prop :=
  (envp.filter (binds DYLD_INSERT_LIBRARIES)).length ≤ 1 ∧
    (envp.filter (binds PAYLOAD_ENV_NAME)).length ≤ 1

/-- The environments of intercepted calls bind neither name twice, and a program that runs
without the hooks does not insert the library itself. -/
def Event.Usual : Event → Prop
  | .exec _ call => BindsOnce (cstrs call.raw_exec.envp)
  | .posix_spawn _ call => BindsOnce (cstrs call.raw_exec.envp)
  | .execve _ image => existingValue (image.envp.map splitEnv) DYLD_INSERT_LIBRARIES ≠
      some preload_path
  | .fork _ => True

/-! ## What an intercepted exec leaves -/

/-- The program that was reported last was not left alone, and the one that was executed
is not restricted. -/
def Interception.Kept (interception : Interception) : Prop :=
  ∃ path, interception.accesses.getLast? = some (.read path) ∧
    (decision path).isInjectable = true ∧ restricted interception.program = false

/-- The program has been inserted the preload library, and hands it on. -/
structure Injected (encoded_payload : EncodedPayload) (image : Image) : Prop where
  unrestricted : restricted image.program = false
  preload : BoundTo image.envp DYLD_INSERT_LIBRARIES encoded_payload.payload.preload_path
  payload : BoundTo image.envp PAYLOAD_ENV_NAME encoded_payload.encoded_string

/-- What an exec has loaded is tracked if the exec is one that tracking is kept by. -/
def Settled (encoded_payload : EncodedPayload) (out : Image × Interception) : Prop :=
  out.2.Kept restricted ∧ Injected restricted encoded_payload out.1 ∨
    ¬out.2.Kept restricted ∧ ¬out.1.Loads restricted encoded_payload.payload.preload_path

section Settled

variable {restricted : Bytes → Bool} {encoded_payload : EncodedPayload}

theorem settled_of_environ {out : Image × Interception} {path : Bytes}
    (hlast : out.2.accesses.getLast? = some (.read path)) (hprogram : out.2.program = out.1.program)
    (hinjectable : (decision path).isInjectable = true →
      BoundTo out.1.envp DYLD_INSERT_LIBRARIES encoded_payload.payload.preload_path ∧
        BoundTo out.1.envp PAYLOAD_ENV_NAME encoded_payload.encoded_string)
    (hnot : (decision path).isInjectable = false →
      existingValue (out.1.envp.map splitEnv) DYLD_INSERT_LIBRARIES = none) :
    Settled restricted encoded_payload out := by
  have hkept : out.2.Kept restricted ↔
      (decision path).isInjectable = true ∧ restricted out.1.program = false := by
    rw [Interception.Kept, hlast, hprogram]
    constructor
    · rintro ⟨path', heq, h⟩
      cases heq
      exact h
    · exact fun h ↦ ⟨path, rfl, h⟩
  rw [Settled, hkept]
  cases hdecision : (decision path).isInjectable with
  | true =>
      cases hrestricted : restricted out.1.program with
      | true =>
          refine .inr ⟨by simp, fun h ↦ ?_⟩
          cases hrestricted.symm.trans h.1
      | false =>
          obtain ⟨hpreload, hpayload⟩ := hinjectable hdecision
          exact .inl ⟨⟨rfl, rfl⟩, hrestricted, hpreload, hpayload⟩
  | false =>
      refine .inr ⟨by simp, fun h ↦ ?_⟩
      cases (hnot hdecision).symm.trans h.2

/-- Both names are bound for every reader, and nothing else is added. -/
theorem boundTo_of_injectEnvs {envp : List Bytes} {envs : Envs} (hone : BindsOnce envp)
    (h : injectEnvs encoded_payload true (envp.map splitEnv) = (.ok (), envs)) :
    ∃ added, envs = (envp ++ added).map splitEnv ∧
      BoundTo (envp ++ added) DYLD_INSERT_LIBRARIES encoded_payload.payload.preload_path ∧
      BoundTo (envp ++ added) PAYLOAD_ENV_NAME encoded_payload.encoded_string ∧
      ∀ env ∈ added, env = DYLD_INSERT_LIBRARIES ++ eqSign :: encoded_payload.payload.preload_path ∨
        env = PAYLOAD_ENV_NAME ++ eqSign :: encoded_payload.encoded_string := by
  -- binding one of the names does not bind the other
  have hother : ∀ value,
      binds PAYLOAD_ENV_NAME (DYLD_INSERT_LIBRARIES ++ eqSign :: value) = false := fun _ ↦ rfl
  have hother' : ∀ value,
      binds DYLD_INSERT_LIBRARIES (PAYLOAD_ENV_NAME ++ eqSign :: value) = false := fun _ ↦ rfl
  obtain ⟨envs₁, h₁, h₂⟩ := injectEnvs_injectable h
  obtain ⟨added₁, rfl, hpreload, hadded₁⟩ := boundTo_of_ensure_env (by decide) hone.1 h₁
  have hnone₁ : added₁.filter (binds PAYLOAD_ENV_NAME) = [] := by
    rw [List.filter_eq_nil_iff]
    intro env henv
    rw [hadded₁ env henv, hother]
    exact Bool.false_ne_true
  have hone₂ : ((envp ++ added₁).filter (binds PAYLOAD_ENV_NAME)).length ≤ 1 := by
    rw [List.filter_append, hnone₁, List.append_nil]
    exact hone.2
  obtain ⟨added₂, rfl, hpayload, hadded₂⟩ := boundTo_of_ensure_env (by decide) hone₂ h₂
  have hnone₂ : added₂.filter (binds DYLD_INSERT_LIBRARIES) = [] := by
    rw [List.filter_eq_nil_iff]
    intro env henv
    rw [hadded₂ env henv, hother']
    exact Bool.false_ne_true
  rw [List.append_assoc] at hpayload ⊢
  refine ⟨added₁ ++ added₂, rfl, ?_, hpayload, ?_⟩
  · rw [BoundTo, ← List.append_assoc, List.filter_append, hnone₂, List.append_nil]
    exact hpreload
  · intro env henv
    exact (List.mem_append.mp henv).imp (hadded₁ env) (hadded₂ env)

theorem run_settled {call : ExecCall} {out : Image × Interception}
    (hpreload : NulFree encoded_payload.payload.preload_path)
    (hpayload : NulFree encoded_payload.encoded_string)
    (hone : BindsOnce (cstrs call.raw_exec.envp)) (h : call.run encoded_payload = some out) :
    Settled restricted encoded_payload out := by
  rw [ExecCall.run] at h
  split at h
  · cases h
  · rename_i raw_command hresult
    obtain ⟨hloads, h⟩ := Option.ite_none_right_eq_some.mp h
    cases h
    obtain ⟨exec, hexec, heq⟩ := Traced.bind_eq_ok.mp hresult
    cases heq
    obtain ⟨path, hlast, hprogram, hinject⟩ := Spawn.handle_exec_ok hexec
    have hlast : (Client.handle_exec call.sys call.config call.raw_exec
        encoded_payload).trace.getLast? = some (.read path) := by
      rw [Client.handle_exec, Traced.trace_bind_of_quiet fun _ ↦ rfl]
      exact hlast
    refine settled_of_environ hlast rfl (fun hinjectable ↦ ?_) fun hnot ↦ ?_
    · rw [hinjectable] at hinject
      obtain ⟨added, henvs, hbound, hbound', hadded⟩ := boundTo_of_injectEnvs hone hinject
      dsimp only [RawExec.from_exec]
      rw [henvs, map_joinEnv_splitEnv, cstrs_toCStrs, map_cstr_of_nulFree]
      · exact ⟨hbound, hbound'⟩
      · intro env henv
        rcases List.mem_append.mp henv with henv | henv
        · exact nulFree_of_mem_cstrs henv
        · rcases hadded env henv with rfl | rfl
          · exact nulFree_append_cons (by decide) (by decide) hpreload
          · exact nulFree_append_cons (by decide) (by decide) hpayload
    · rw [hnot] at hinject
      dsimp only [RawExec.from_exec]
      have hunbound := existingValue_of_notInjectable hinject
      rw [injectEnvs_notInjectable hinject, RawExec.to_exec, List.filter_map,
        map_joinEnv_splitEnv, cstrs_toCStrs, map_cstr_of_nulFree]
      · rw [injectEnvs_notInjectable hinject, RawExec.to_exec, List.filter_map] at hunbound
        exact hunbound
      · exact fun env henv ↦ nulFree_of_mem_cstrs (List.mem_of_mem_filter henv)

/-! ## The first exec -/

theorem mem_of_mem_environ {command command' : Command} {exec : Exec}
    {env : Sigma fun _ : Bytes ↦ Bytes} (hset : command.set_exec exec = .ok command')
    (henv : env ∈ command'.envs.entries) : ∃ value, (env.1, value) ∈ exec.envs := by
  obtain ⟨arg0, args, -, rfl⟩ := set_exec_eq_ok.mp hset
  have hlookup := AList.mem_lookup_iff.mpr henv
  rw [AList.lookup_to_alist] at hlookup
  obtain ⟨⟨name, value⟩, hmem, heq⟩ :=
    List.mem_map.mp (List.mem_reverse.mp (List.of_mem_dlookup hlookup))
  have hname : name = env.1 := congrArg Sigma.fst heq
  exact ⟨value, hname ▸ hmem⟩

/-- A map has one value for a name. -/
theorem bindsOnce_environ {command : Command} {name : Bytes} (hname : eqSign ∉ name)
    (hnames : ∀ env ∈ command.envs.entries, eqSign ∉ env.1) :
    (command.environ.filter (binds name)).length ≤ 1 := by
  have hkeys : ((command.envs.entries.filter fun env ↦ env.1 == name).map Sigma.fst).Nodup :=
    (List.filter_sublist.map _).nodup command.envs.nodupKeys
  have hall : (command.envs.entries.filter fun env ↦ env.1 == name).map Sigma.fst =
      List.replicate (command.envs.entries.filter fun env ↦ env.1 == name).length name := by
    rw [List.eq_replicate_iff, List.length_map]
    refine ⟨rfl, fun n hn ↦ ?_⟩
    obtain ⟨env, henv, rfl⟩ := List.mem_map.mp hn
    exact beq_iff_eq.mp (List.mem_filter.mp henv).2
  rw [hall, List.nodup_replicate] at hkeys
  rw [Command.environ, List.filter_map, List.length_map]
  refine Nat.le_trans (Nat.le_of_eq (congrArg List.length (List.filter_congr fun env henv ↦ ?_)))
    hkeys
  rw [Function.comp_apply, Bool.eq_iff_iff, beq_iff_eq]
  exact binds_append (hnames env henv) hname

theorem mem_of_mem_ensure_env {envs envs' : Envs} {name value : Bytes}
    {env : Bytes × Option Bytes} (h : ensure_env envs name value = .ok envs') (henv : env ∈ envs') :
    env ∈ envs ∨ env = (name, some value) := by
  rcases ensure_env_eq_ok.mp h with ⟨-, rfl⟩ | ⟨-, rfl⟩
  · exact .inl henv
  · exact (List.mem_append.mp henv).imp_right List.mem_singleton.mp

theorem spawn_impl_settled {sys : System} {command : Command} {root : Task}
    (hnames : ∀ env ∈ command.envs.entries, eqSign ∉ env.1)
    (h : spawn_impl sys command encoded_payload = .ok root) :
    ∃ interception, root.interceptions = [interception] ∧
      Settled restricted encoded_payload (root.image, interception) := by
  obtain ⟨exec, hexec, h⟩ := bind_eq_ok.mp h
  obtain ⟨command', hset, h⟩ := bind_eq_ok.mp h
  cases h
  obtain ⟨path, hlast, -, hinject⟩ := Spawn.handle_exec_ok hexec
  have hentry : ∀ env ∈ command.get_exec.envs, eqSign ∉ env.1 := by
    intro env henv
    obtain ⟨entry, hentry, rfl⟩ := List.mem_map.mp henv
    exact hnames entry hentry
  refine ⟨_, rfl, settled_of_environ hlast rfl (fun hinjectable ↦ ?_) fun hnot ↦ ?_⟩
  · rw [hinjectable] at hinject
    obtain ⟨envs₁, h₁, h₂⟩ := injectEnvs_injectable hinject
    have hmap : OfMap exec.envs :=
      ofMap_ensure_env (ofMap_ensure_env (ofMap_get_exec command) h₁) h₂
    have hbound₂ := existingValue_of_ensure_env h₂
    have hbound₁ : existingValue exec.envs DYLD_INSERT_LIBRARIES =
        some encoded_payload.payload.preload_path := by
      have hbound := existingValue_of_ensure_env h₁
      rcases ensure_env_eq_ok.mp h₂ with ⟨-, hsame⟩ | ⟨-, hsame⟩
      · rw [hsame]
        exact hbound
      · rw [hsame, existingValue_append, hbound, Option.some_or]
    have hnames' : ∀ env ∈ command'.envs.entries, eqSign ∉ env.1 := by
      intro env henv
      obtain ⟨value, hmem⟩ := mem_of_mem_environ hset henv
      rcases mem_of_mem_ensure_env h₂ hmem with hmem | heq
      · rcases mem_of_mem_ensure_env h₁ hmem with hmem | heq
        · exact hentry _ hmem
        · rw [(Prod.mk.inj heq).1]
          decide
      · rw [(Prod.mk.inj heq).1]
        decide
    exact ⟨boundTo_of_mem (bindsOnce_environ (by decide) hnames') (mem_environ hmap hset hbound₁),
      boundTo_of_mem (bindsOnce_environ (by decide) hnames') (mem_environ hmap hset hbound₂)⟩
  · rw [hnot] at hinject
    rw [existingValue_eq_none (by decide), List.any_eq_false]
    intro env henv
    obtain ⟨entry, hmem, rfl⟩ := List.mem_map.mp henv
    obtain ⟨value, hmem'⟩ := mem_of_mem_environ hset hmem
    have hne : entry.1 ≠ DYLD_INSERT_LIBRARIES := by
      intro heq
      exact notMem_of_notInjectable hinject value (heq ▸ hmem')
    rw [injectEnvs_notInjectable hinject] at hmem'
    rw [binds_append (hentry _ (List.mem_of_mem_filter hmem')) (by decide)]
    exact hne

end Settled

/-! ## The invariant -/

section Runs

variable {restricted : Bytes → Bool} {payload : Payload} {task : Task} {tasks tasks' : List Task}
  {event : Event}

/-- The interceptions tell whether the process is tracked. -/
def Task.Told (restricted : Bytes → Bool) (encoded_payload : EncodedPayload) (task : Task) : Prop :=
  (∀ interception ∈ task.interceptions, interception.Kept restricted) ∧
      Injected restricted encoded_payload task.image ∨
    (∃ interception ∈ task.interceptions, ¬interception.Kept restricted) ∧
      ¬task.image.Loads restricted encoded_payload.payload.preload_path

theorem Injected.loads {encoded_payload : EncodedPayload} {image : Image}
    (h : Injected restricted encoded_payload image) :
    image.Loads restricted encoded_payload.payload.preload_path :=
  ⟨h.unrestricted, existingValue_of_boundTo (by decide) h.preload⟩

/-- A process that loads the library has been injected it. -/
theorem Task.Told.injected {encoded_payload : EncodedPayload}
    (h : task.Told restricted encoded_payload)
    (hloads : task.image.Loads restricted encoded_payload.payload.preload_path) :
    (∀ interception ∈ task.interceptions, interception.Kept restricted) ∧
      Injected restricted encoded_payload task.image := by
  rcases h with h | ⟨-, hnot⟩
  · exact h
  · exact absurd hloads hnot

theorem Task.Told.client_eq (hpayload : payload.WellTyped)
    (h : task.Told restricted (encode_payload payload)) {client : EncodedPayload}
    (hclient : task.client restricted payload.preload_path = some client) :
    task.image.Loads restricted payload.preload_path ∧ client = encode_payload payload := by
  obtain ⟨hloads, hclient⟩ := Option.ite_none_right_eq_some.mp hclient
  refine ⟨hloads, ?_⟩
  rw [decode_payload_from_env_of_boundTo Payload.lawful_format hpayload
    (h.injected hloads).2.payload] at hclient
  exact (Option.some.inj hclient).symm

/-- An exec of a process that is tracked. -/
theorem Task.Told.after {out : Image × Interception} (hpayload : payload.WellTyped)
    (hpath : NulFree payload.preload_path) (h : task.Told restricted (encode_payload payload))
    {client : EncodedPayload} {call : ExecCall} (hone : BindsOnce (cstrs call.raw_exec.envp))
    (hclient : task.client restricted payload.preload_path = some client)
    (hrun : call.run client = some out) :
    Task.Told restricted (encode_payload payload) ⟨out.1, out.2 :: task.interceptions⟩ := by
  obtain ⟨hloads, rfl⟩ := h.client_eq hpayload hclient
  have hsettled : Settled restricted (encode_payload payload) out :=
    run_settled hpath (notMem_encodedString rfl) hone hrun
  rcases hsettled with ⟨hkept, hinjected⟩ | ⟨hkept, hnot⟩
  · refine .inl ⟨List.forall_mem_cons.mpr ⟨hkept, (h.injected hloads).1⟩, hinjected⟩
  · exact .inr ⟨⟨out.2, List.mem_cons_self, hkept⟩, hnot⟩

theorem told_step (hpayload : payload.WellTyped) (hpath : NulFree payload.preload_path)
    (h : ∀ task ∈ tasks, task.Told restricted (encode_payload payload))
    (hevent : event.Usual payload.preload_path)
    (hstep : step restricted payload.preload_path tasks event = some tasks') :
    ∀ task ∈ tasks', task.Told restricted (encode_payload payload) := by
  cases event with
  | fork pid =>
      obtain ⟨task, htask, hstep⟩ := Option.bind_eq_some_iff.mp hstep
      cases hstep
      exact forall_mem_concat h (h task (List.mem_of_getElem? htask))
  | exec pid call =>
      obtain ⟨task, htask, hstep⟩ := Option.bind_eq_some_iff.mp hstep
      obtain ⟨client, hclient, hstep⟩ := Option.bind_eq_some_iff.mp hstep
      split at hstep
      · cases hstep
        exact h
      · rename_i image interception hrun
        cases hstep
        exact forall_mem_set h
          ((h task (List.mem_of_getElem? htask)).after hpayload hpath hevent hclient hrun)
  | posix_spawn pid call =>
      obtain ⟨task, htask, hstep⟩ := Option.bind_eq_some_iff.mp hstep
      obtain ⟨client, hclient, hstep⟩ := Option.bind_eq_some_iff.mp hstep
      split at hstep
      · cases hstep
        exact h
      · rename_i image interception hrun
        cases hstep
        exact forall_mem_concat h
          ((h task (List.mem_of_getElem? htask)).after hpayload hpath hevent hclient hrun)
  | execve pid image =>
      obtain ⟨task, htask, hstep⟩ := Option.bind_eq_some_iff.mp hstep
      obtain ⟨hnot, hstep⟩ := Option.ite_none_right_eq_some.mp hstep
      cases hstep
      refine forall_mem_set h (.inr ⟨?_, fun hloads ↦ hevent hloads.2⟩)
      rcases h task (List.mem_of_getElem? htask) with ⟨-, hinjected⟩ | ⟨hleft, -⟩
      · exact absurd hinjected.loads hnot
      · exact hleft

/-- **Who is tracked on macOS.**  In every run from the child of `spawn_impl`: a process loads
the preload library exactly if each of the execs that led to it reported, at its end, a program
that `handle_exec` does not leave alone, and executed one that is not restricted.  A process that
loads the library reads back the payload of `spawn_impl`, so that none dies in its constructor. -/
theorem tracked_of_run {sys : System} {command : Command} {root : Task} {events : List Event}
    (hpayload : payload.WellTyped) (hpath : NulFree payload.preload_path)
    (hnames : ∀ env ∈ command.envs.entries, eqSign ∉ env.1)
    (hroot : spawn_impl sys command (encode_payload payload) = .ok root)
    (hevents : ∀ event ∈ events, event.Usual payload.preload_path)
    (hrun : runs (step restricted payload.preload_path) [root] events = some tasks) :
    ∀ task ∈ tasks,
      (task.image.Loads restricted payload.preload_path ↔
        ∀ interception ∈ task.interceptions, interception.Kept restricted) ∧
      (task.image.Loads restricted payload.preload_path →
        decode_payload_from_env Payload.format task.image.envp =
          .ok (payload, encodedString Payload.format payload)) := by
  have hinit : ∀ task ∈ [root], task.Told restricted (encode_payload payload) := by
    intro task htask
    rw [List.mem_singleton.mp htask]
    obtain ⟨interception, hinterceptions, hsettled⟩ : ∃ interception,
        root.interceptions = [interception] ∧
          Settled restricted (encode_payload payload) (root.image, interception) :=
      spawn_impl_settled hnames hroot
    rw [Task.Told, hinterceptions, List.forall_mem_singleton]
    simp only [List.mem_singleton, exists_eq_left]
    exact hsettled
  have hinv := runs_induction (C := fun _ event ↦ event.Usual payload.preload_path)
    (fun _ tasks ↦ ∀ task ∈ tasks, task.Told restricted (encode_payload payload)) hinit
    (fun _ _ _ _ h hevent hstep ↦ told_step hpayload hpath h hevent hstep)
    hrun (StepsMeet.of_forall fun _ event hevent ↦ hevents event hevent)
  intro task htask
  have htold := hinv task htask
  refine ⟨⟨fun hloads ↦ (htold.injected hloads).1, fun hall ↦ ?_⟩, fun hloads ↦ ?_⟩
  · rcases htold with ⟨-, hinjected⟩ | ⟨⟨interception, hmem, hnot⟩, -⟩
    · exact hinjected.loads
    · exact absurd (hall interception hmem) hnot
  · exact decode_payload_from_env_of_boundTo Payload.lawful_format hpayload
      (htold.injected hloads).2.payload

end Runs

/-! ## A small tree -/

/-- A program, and two that are protected. -/
def sampleSystem : System := .ofFiles
  [(ascii "/b", .file (ascii "b") true true), (ascii "/bin/ls", .file (ascii "ls") true true),
    (ascii "/bin/ps", .file (ascii "ps") true true)]

def sampleCall (prog : Bytes) : ExecCall where
  sys := sampleSystem
  config := .search_path_disabled
  raw_exec := ⟨toCStr prog, toCStrs [prog], toCStrs [ascii "A=1"]⟩
  loads := true

/-- A fork executes `ls`, which is replaced, and spawns `ps`, which executes the program. -/
def sampleEvents : List Event :=
  [.fork 0, .exec 1 (sampleCall (ascii "/bin/ls")), .posix_spawn 1 (sampleCall (ascii "/bin/ps")),
    .execve 2 ⟨ascii "/b", [ascii "A=1"]⟩]

/-- The programs in the two directories are restricted. -/
def sampleRestricted (program : Bytes) : Bool := decide (Plain program)

theorem tracked_of_run_sample : ∃ root tasks,
    spawn_impl sampleSystem ⟨ascii "/b", [], ∅, none, none⟩ (encode_payload samplePayload.payload) =
      .ok root ∧
    runs (step sampleRestricted samplePayload.payload.preload_path) [root] sampleEvents =
      some tasks ∧ tasks.length = 3 ∧
    ∀ task ∈ tasks,
      (task.image.Loads sampleRestricted samplePayload.payload.preload_path ↔
        ∀ interception ∈ task.interceptions, interception.Kept sampleRestricted) ∧
      (task.image.Loads sampleRestricted samplePayload.payload.preload_path →
        decode_payload_from_env Payload.format task.image.envp = .ok
          (samplePayload.payload, encodedString Payload.format samplePayload.payload)) := by
  have hrun : ((spawn_impl sampleSystem ⟨ascii "/b", [], ∅, none, none⟩
      (encode_payload samplePayload.payload)).toOption.bind fun root ↦
        runs (step sampleRestricted samplePayload.payload.preload_path) [root] sampleEvents).map
          List.length = some 3 := by decide +kernel
  obtain ⟨tasks, hrun, hlength⟩ := Option.map_eq_some_iff.mp hrun
  obtain ⟨root, hroot, hrun⟩ := Option.bind_eq_some_iff.mp hrun
  have hroot : spawn_impl sampleSystem ⟨ascii "/b", [], ∅, none, none⟩
      (encode_payload samplePayload.payload) = .ok root := by
    cases hspawn : spawn_impl sampleSystem ⟨ascii "/b", [], ∅, none, none⟩
        (encode_payload samplePayload.payload) with
    | error stop =>
        rw [hspawn] at hroot
        cases hroot
    | ok root' =>
        rw [hspawn] at hroot
        exact congrArg Except.ok (Option.some.inj hroot)
  have hcall : ∀ prog, BindsOnce (cstrs (sampleCall prog).raw_exec.envp) := by
    intro prog
    change BindsOnce (cstrs (toCStrs [ascii "A=1"]))
    exact ⟨by decide, by decide⟩
  have hpayload : samplePayload.payload.WellTyped :=
    ⟨⟨by decide, by decide⟩, by decide, by decide, by decide⟩
  refine ⟨root, tasks, hroot, hrun, hlength,
    tracked_of_run hpayload (by decide) (by simp) hroot ?_ hrun⟩
  intro event hevent
  simp only [sampleEvents, List.mem_cons, List.not_mem_nil, or_false] at hevent
  rcases hevent with rfl | rfl | rfl | rfl
  · trivial
  · exact hcall _
  · exact hcall _
  · change existingValue ([ascii "A=1"].map splitEnv) DYLD_INSERT_LIBRARIES ≠ _
    decide

end Fspy.Macos
