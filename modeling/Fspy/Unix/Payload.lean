import Fspy.Lib.Base64
import Fspy.Lib.Format
import Fspy.Unix.Coverage

/-!
# The payload in the environment

`encode_payload` writes the payload in bincode's standard format and in base 64 over that;
an injected process finds the text in its environment and reads it back in
`Client::from_env`.  Nothing else reads as the payload: a text that is cut off is an error,
and never one that decodes to other descriptors.
-/

namespace Fspy.Unix

open Lib

/-! ## The format -/

namespace SockFilter

/-- `CodableSockFilter`, in the order of its fields. -/
def format : Format SockFilter :=
  (((Format.varint 2).pair Format.u8).pair (Format.u8.pair (Format.varint 4))).map
    (fun ((code, jt), jf, k) ↦ ⟨UInt16.ofNat code, jt, jf, UInt32.ofNat k⟩)
    fun f ↦ ((f.code.toNat, f.jt), f.jf, f.k.toNat)

theorem lawful_format : format.Lawful fun _ ↦ True := by
  have hpairs := ((Format.lawful_varint (.inl rfl)).pair Format.lawful_u8).pair
    (Format.lawful_u8.pair (Format.lawful_varint (.inr (.inl rfl))))
  refine hpairs.map fun f _ ↦
    ⟨⟨⟨UInt16.toNat_lt f.code, trivial⟩, trivial, UInt32.toNat_lt f.k⟩, ?_⟩
  dsimp only
  rw [UInt16.ofNat_toNat, UInt32.ofNat_toNat]

end SockFilter

/-- `NativeString`. -/
def nativeString : Format Bytes := Format.u8.list

/-- A slice is shorter than the address space. -/
theorem lawful_nativeString : nativeString.Lawful fun data ↦ data.length < 2 ^ 64 :=
  Format.lawful_u8.list.mono fun _ h ↦ ⟨h, fun _ _ ↦ trivial⟩

/-- `RawFd` is an `i32`. -/
def IsRawFd (fd : Int) : Prop := -0x80000000 ≤ fd ∧ fd < 0x80000000

namespace SeccompPayload

def format : Format SeccompPayload :=
  (Format.int32.pair SockFilter.format.list).map (fun (ipc_fd, filter) ↦ ⟨ipc_fd, filter⟩)
    fun payload ↦ (payload.ipc_fd, payload.filter)

end SeccompPayload

namespace Payload

def format : Format Payload :=
  (Format.int32.pair (nativeString.pair SeccompPayload.format)).map
    (fun (ipc_fd, preload_path, seccomp_payload) ↦ ⟨ipc_fd, preload_path, seccomp_payload⟩)
    fun payload ↦ (payload.ipc_fd, payload.preload_path, payload.seccomp_payload)

/-- The numbers are those that the types of the fields have. -/
structure WellTyped (payload : Payload) : Prop where
  ipc_fd : IsRawFd payload.ipc_fd
  preload_path : payload.preload_path.length < 2 ^ 64
  seccomp_ipc_fd : IsRawFd payload.seccomp_payload.ipc_fd
  filter : payload.seccomp_payload.filter.length < 2 ^ 64

theorem lawful_format : format.Lawful WellTyped := by
  have hseccomp : SeccompPayload.format.Lawful fun payload ↦
      IsRawFd payload.ipc_fd ∧ payload.filter.length < 2 ^ 64 :=
    (Format.lawful_int32.pair SockFilter.lawful_format.list).map fun payload h ↦
      ⟨⟨h.1, h.2, fun _ _ ↦ trivial⟩, rfl⟩
  exact (Format.lawful_int32.pair (lawful_nativeString.pair hseccomp)).map fun payload h ↦
    ⟨⟨h.ipc_fd, h.preload_path, h.seccomp_ipc_fd, h.filter⟩, rfl⟩

end Payload

/-! ## The text -/

/-- How a payload is not decoded; the last one is the assertion in `decode_payload`. -/
inductive PayloadError where
  | notFound
  | base64
  | bincode
  | panic
deriving DecidableEq, Repr

section Text

-- what a payload has beside the descriptor differs from one system to the other
variable {P : Type} (format : Format P)

/-- The `encoded_string` of `encode_payload`. -/
def encodedString (payload : P) : Bytes := Base64.encode (format.write payload)

/-- `decode_payload`. -/
def decode_payload (encoded_string : Bytes) : Except PayloadError (P × Bytes) :=
  match Base64.decode encoded_string with
  | none => .error .base64
  | some bincode_bytes => match format.read bincode_bytes with
    | none => .error .bincode
    | some (payload, rest) =>
        if rest.length = 0 then .ok (payload, encoded_string) else .error .panic

/-- `decode_payload_from_env`. -/
def decode_payload_from_env (envp : List Bytes) : Except PayloadError (P × Bytes) :=
  match existingValue (envp.map splitEnv) PAYLOAD_ENV_NAME with
  | none => .error .notFound
  | some encoded_string => decode_payload format encoded_string

variable {format} {WellTyped : P → Prop} {payload : P}

/-- A text is made of letters. -/
theorem notMem_encodedString {b : UInt8} (h : Base64.value b = none) :
    b ∉ encodedString format payload := by
  intro hmem
  obtain ⟨n, hn⟩ := Base64.value_of_mem_encode hmem
  cases h.symm.trans hn

theorem decode_payload_encodedString (hformat : format.Lawful WellTyped)
    (h : WellTyped payload) :
    decode_payload format (encodedString format payload) =
      .ok (payload, encodedString format payload) := by
  have hread := hformat.read_write payload h []
  rw [List.append_nil] at hread
  rw [decode_payload, encodedString, Base64.decode_encode]
  dsimp only
  rw [hread]
  rfl

theorem decode_payload_from_env_of_boundTo {envp : List Bytes}
    (hformat : format.Lawful WellTyped) (h : WellTyped payload)
    (henvp : BoundTo envp PAYLOAD_ENV_NAME (encodedString format payload)) :
    decode_payload_from_env format envp = .ok (payload, encodedString format payload) := by
  rw [decode_payload_from_env, existingValue_of_boundTo eqSign_notMem_payload henvp]
  exact decode_payload_encodedString hformat h

/-- A text that is cut off is an error, and the assertion holds of it. -/
theorem decode_payload_of_prefix (hformat : format.Lawful WellTyped) (h : WellTyped payload)
    {text : Bytes} (hfront : text <+: encodedString format payload)
    (hne : text ≠ encodedString format payload) :
    decode_payload format text = .error .base64 ∨ decode_payload format text = .error .bincode := by
  rw [decode_payload]
  cases hdecode : Base64.decode text with
  | none => exact .inl rfl
  | some bytes =>
      obtain ⟨hbytes, hne'⟩ := Base64.decode_of_prefix hfront hne hdecode
      dsimp only
      rw [hformat.read_of_prefix h hbytes hne']
      exact .inr rfl

end Text

/-- `encode_payload`. -/
def encode_payload (payload : Payload) (h : NulFree payload.preload_path) : EncodedPayload where
  payload
  encoded_string := encodedString Payload.format payload
  preload_path_nulFree := h
  encoded_string_nulFree := notMem_encodedString rfl

/-- **The payload comes through the environment.**  A process whose environment binds the
name to the text of a payload reads back that payload; the text can stand in an environment,
without padding; and no text that is cut off reads as a payload, nor makes `decode_payload`
panic. -/
theorem decode_payload_from_env_encoded {payload : Payload} {envp : List Bytes}
    (h : payload.WellTyped)
    (henvp : BoundTo envp PAYLOAD_ENV_NAME (encodedString Payload.format payload)) :
    decode_payload_from_env Payload.format envp =
        .ok (payload, encodedString Payload.format payload) ∧
      NulFree (encodedString Payload.format payload) ∧
      eqSign ∉ encodedString Payload.format payload ∧
      ∀ text, text <+: encodedString Payload.format payload →
        text ≠ encodedString Payload.format payload →
          decode_payload Payload.format text = .error .base64 ∨
            decode_payload Payload.format text = .error .bincode :=
  ⟨decode_payload_from_env_of_boundTo Payload.lawful_format h henvp, notMem_encodedString rfl,
    notMem_encodedString rfl, fun _ ↦ decode_payload_of_prefix Payload.lawful_format h⟩

/-- The payload of a command whose socket is 17 and whose filter allows everything. -/
def allowPayload : Payload :=
  ⟨17, ascii "/proc/self/fd/18", ⟨300, [⟨0x06, 0, 0, 0x7fff0000⟩]⟩⟩

theorem wellTyped_allowPayload : allowPayload.WellTyped where
  ipc_fd := ⟨by decide, by decide⟩
  preload_path := by decide
  seccomp_ipc_fd := ⟨by decide, by decide⟩
  filter := by decide

theorem decode_payload_from_env_allow :
    decode_payload_from_env Payload.format
        [ascii "FSPY_PAYLOAD=IhAvcHJvYy9zZWxmL2ZkLzE4+1gCAQYAAPwAAP9/"] =
      .ok (allowPayload, ascii "IhAvcHJvYy9zZWxmL2ZkLzE4+1gCAQYAAPwAAP9/") := by
  have henvp : BoundTo [ascii "FSPY_PAYLOAD=IhAvcHJvYy9zZWxmL2ZkLzE4+1gCAQYAAPwAAP9/"]
      PAYLOAD_ENV_NAME (encodedString Payload.format allowPayload) := by
    rw [BoundTo]
    decide +kernel
  exact (decode_payload_from_env_encoded wellTyped_allowPayload henvp).1

/-! ## The processes below a command -/

/-- The payload that `Client::from_env` works with.  Neither its path nor its text has a
zero byte in an environment. -/
def clientPayload (encoded_string : Bytes) : Option EncodedPayload :=
  match decode_payload Payload.format encoded_string with
  | .error _ => none
  | .ok (payload, encoded_string) =>
      if h : NulFree payload.preload_path ∧ NulFree encoded_string then
        some ⟨payload, encoded_string, h.1, h.2⟩
      else none

theorem clientPayload_encoded {payload : Payload} (h : payload.WellTyped)
    (hpath : NulFree payload.preload_path) :
    clientPayload (encode_payload payload hpath).encoded_string =
      some (encode_payload payload hpath) := by
  rw [clientPayload, encode_payload, decode_payload_encodedString Payload.lawful_format h]
  dsimp only
  rw [dif_pos ⟨hpath, notMem_encodedString rfl⟩]

variable {minimal_parse : ElfCrate} {encoded_payload : EncodedPayload}

/-- The loader loads the preload library, whose constructor calls `Client::from_env`. -/
def LoadsPreload (minimal_parse : ElfCrate) (preload_path : Bytes) (image : Image) : Prop :=
  is_dynamically_linked_to_libc minimal_parse image.content = .ok true ∧
    existingValue (image.envp.map splitEnv) LD_PRELOAD = some preload_path

/-- A program that runs without the hooks does not preload the library itself, and an `execveat`
that finds no path does not preload it without the payload. -/
def Event.LeavesPreload (encoded_payload : EncodedPayload) : Event → Prop
  | .execve _ (some image) => existingValue (image.envp.map splitEnv) LD_PRELOAD ≠
      some encoded_payload.payload.preload_path
  | .execveat _ call => call.abs_path = .ok none → call.executed.isSome →
      existingValue ((cstrs call.call.raw_exec.envp).map splitEnv) LD_PRELOAD =
        some encoded_payload.payload.preload_path →
      BoundTo (cstrs call.call.raw_exec.envp) PAYLOAD_ENV_NAME encoded_payload.encoded_string
  | _ => True

/-- A dynamically linked program is never loaded with a filter in the place of the library. -/
theorem injected_of_run {call : ExecCall} {image : Image}
    (hcall : BindsOnce (cstrs call.raw_exec.envp))
    (himage : (call.run minimal_parse encoded_payload).2 = some image)
    (hdynamic : is_dynamically_linked_to_libc minimal_parse image.content = .ok true) :
    Injected minimal_parse encoded_payload image := by
  have hspec : (call.run minimal_parse encoded_payload).1 = _ ∨ _ := run_spec hcall
  rcases hspec with hfilter | ⟨-, h⟩
  · exfalso
    rw [ExecCall.run] at hfilter himage
    cases hres : (Client.handle_exec call.sys minimal_parse call.config call.raw_exec
        encoded_payload).result with
    | error stop =>
        rw [hres] at himage
        cases himage
    | ok out =>
        obtain ⟨raw_command, pre_exec⟩ := out
        obtain ⟨program, content, hprog, hcontent, hkind, -⟩ := envp_of_handle_exec hres
        rw [hres] at hfilter himage
        have hloaded : call.sys.mmap_executable (cstr raw_command.prog) = .ok content := by
          rw [hprog, cstr_toCStr, cstr_of_nulFree (System.nulFree_of_mmap hcontent), hcontent]
        cases pre_exec with
        | none => cases hfilter
        | some pre_exec =>
            cases hinstalls : call.installs with
            | false => simp [hinstalls] at himage
            | true =>
                obtain ⟨-, rfl⟩ : call.loads = true ∧
                    ⟨content, cstrs raw_command.envp⟩ = image := by
                  simpa [hinstalls, hloaded, Except.toOption] using himage
                cases hkind.symm.trans hdynamic
  · exact h image himage

/-- The library is loaded by an `execveat` only where the payload is passed on. -/
theorem injected_of_execveat {pid : Nat} {call : ExecveatCall} {image : Image}
    (hevent : (Event.execveat pid call).BindsOnce ∧
      (Event.execveat pid call).LeavesPreload encoded_payload)
    (himage : (call.run minimal_parse encoded_payload).2 = some image)
    (hloads : LoadsPreload minimal_parse encoded_payload.payload.preload_path image) :
    Injected minimal_parse encoded_payload image := by
  obtain ⟨hcall, hleaves⟩ := hevent
  rw [ExecveatCall.run] at himage
  split at himage
  · cases himage
  · rename_i hpath
    obtain ⟨content, hexecuted, rfl⟩ := Option.map_eq_some_iff.mp himage
    obtain ⟨hdynamic, hpreload⟩ := hloads
    exact ⟨hdynamic,
      boundTo_of_mem hcall.1 (mem_of_existingValue eqSign_notMem_preload hpreload),
      hleaves hpath (Option.isSome_of_eq_some hexecuted) hpreload⟩
  · rename_i path _
    have hcall' : BindsOnce (cstrs (call.withPath path).raw_exec.envp) := hcall
    split at himage
    · exact injected_of_run hcall' himage hloads.1
    · cases himage

theorem injected_of_start {first : Image} {sys : System} {command : Command}
    {pre_exec : Option PreExec}
    (hstart : command.start minimal_parse encoded_payload sys = .ok (first, pre_exec))
    (hfirst : BindsOnce first.envp)
    (hdynamic : is_dynamically_linked_to_libc minimal_parse first.content = .ok true) :
    Injected minimal_parse encoded_payload first := by
  have hcovered := covered_beforeExec hstart hfirst _ List.mem_cons_self
  rcases hcovered with hfilter | h
  · exfalso
    obtain ⟨⟨exec, pre_exec'⟩, hexec, hstart⟩ := bind_eq_ok.mp hstart
    obtain ⟨command', hset, hstart⟩ := bind_eq_ok.mp hstart
    obtain ⟨content', hcontent', hstart⟩ := bind_eq_ok.mp hstart
    cases hstart
    obtain ⟨content, dynamic, hcontent, hkind, htrack⟩ := tracked_of_handle_exec hexec
    have hprogram : command'.program = exec.program := by
      obtain ⟨arg0, args, -, rfl⟩ := set_exec_eq_ok.mp hset
      rfl
    rw [mapError_eq_ok, hprogram, hcontent, Except.ok.injEq] at hcontent'
    subst hcontent'
    rw [pre_exec_of_trackEnvs htrack, Except.ok.inj (hkind.symm.trans hdynamic)] at hfilter
    cases hfilter
  · exact h

/-- The library is loaded only by programs that it was injected into. -/
def LoadsInjected (minimal_parse : ElfCrate) (encoded_payload : EncodedPayload) (task : Task) :
    Prop :=
  ∀ image, task.image = some image →
    LoadsPreload minimal_parse encoded_payload.payload.preload_path image →
      Injected minimal_parse encoded_payload image

theorem loadsInjected_after {task : Task} {out : Option PreExec × Option Image}
    (h : LoadsInjected minimal_parse encoded_payload task)
    (hout : ∀ image, out.2 = some image →
      LoadsPreload minimal_parse encoded_payload.payload.preload_path image →
        Injected minimal_parse encoded_payload image) :
    LoadsInjected minimal_parse encoded_payload (task.after out) := by
  intro image himage hloads
  rw [Task.after] at himage
  cases hload : out.2 with
  | none =>
      rw [hload] at himage
      exact h image himage hloads
  | some image' =>
      rw [hload] at himage
      cases himage
      exact hout image hload hloads

/-- A process with hooks works for this supervisor. -/
theorem client_of_loadsInjected {decode_payload : Bytes → Option EncodedPayload} {task : Task}
    {payload : EncodedPayload}
    (hdecode : decode_payload encoded_payload.encoded_string = some encoded_payload)
    (h : LoadsInjected minimal_parse encoded_payload task)
    (hclient : task.client minimal_parse decode_payload encoded_payload = some payload) :
    payload = encoded_payload := by
  cases himage : task.image with
  | none =>
      rw [Task.client, himage] at hclient
      cases hclient
  | some image =>
      have hloads : LoadsPreload minimal_parse encoded_payload.payload.preload_path image := by
        rw [Task.client, himage] at hclient
        exact (Option.ite_none_right_eq_some.mp hclient).1
      rw [client_of_injected hdecode himage (h image himage hloads)] at hclient
      exact (Option.some.inj hclient).symm

theorem loadsInjected_step {decode_payload : Bytes → Option EncodedPayload} {first : Image}
    {tasks tasks' : List Task} {event : Event}
    (hdecode : decode_payload encoded_payload.encoded_string = some encoded_payload)
    (hfirst : is_dynamically_linked_to_libc minimal_parse first.content = .ok true →
      Injected minimal_parse encoded_payload first)
    (hevent : event.BindsOnce ∧ event.LeavesPreload encoded_payload)
    (hstep : step minimal_parse decode_payload encoded_payload first tasks event = some tasks')
    (h : ∀ task ∈ tasks, LoadsInjected minimal_parse encoded_payload task) :
    ∀ task ∈ tasks', LoadsInjected minimal_parse encoded_payload task := by
  cases event with
  | start pid =>
      obtain ⟨task, htask, hstep⟩ := Option.bind_eq_some_iff.mp hstep
      obtain ⟨hnone, hstep⟩ := Option.ite_none_right_eq_some.mp hstep
      cases hstep
      refine forall_mem_set h fun image himage hloads ↦ ?_
      cases himage
      exact hfirst hloads.1
  | fork pid =>
      obtain ⟨task, htask, hstep⟩ := Option.bind_eq_some_iff.mp hstep
      cases hstep
      exact forall_mem_concat h (h task (List.mem_of_getElem? htask))
  | exec pid call =>
      obtain ⟨task, htask, hstep⟩ := Option.bind_eq_some_iff.mp hstep
      obtain ⟨payload, hclient, hstep⟩ := Option.bind_eq_some_iff.mp hstep
      cases hstep
      have htask := h task (List.mem_of_getElem? htask)
      rw [client_of_loadsInjected hdecode htask hclient]
      exact forall_mem_set h (loadsInjected_after htask fun image himage hloads ↦
        injected_of_run hevent.1 himage hloads.1)
  | execveat pid call =>
      obtain ⟨task, htask, hstep⟩ := Option.bind_eq_some_iff.mp hstep
      obtain ⟨payload, hclient, hstep⟩ := Option.bind_eq_some_iff.mp hstep
      cases hstep
      have htask := h task (List.mem_of_getElem? htask)
      rw [client_of_loadsInjected hdecode htask hclient]
      exact forall_mem_set h (loadsInjected_after htask fun image himage hloads ↦
        injected_of_execveat hevent himage hloads)
  | posix_spawn pid call =>
      obtain ⟨task, htask, hstep⟩ := Option.bind_eq_some_iff.mp hstep
      obtain ⟨payload, hclient, hstep⟩ := Option.bind_eq_some_iff.mp hstep
      have htask := h task (List.mem_of_getElem? htask)
      rw [client_of_loadsInjected hdecode htask hclient] at hstep
      dsimp only at hstep
      split at hstep
      · cases hstep
        exact forall_mem_concat h (loadsInjected_after htask fun image himage hloads ↦
          injected_of_run hevent.1 himage hloads.1)
      · cases hstep
        exact h
  | execve pid image =>
      obtain ⟨task, htask, hstep⟩ := Option.bind_eq_some_iff.mp hstep
      obtain ⟨-, hstep⟩ := Option.ite_none_right_eq_some.mp hstep
      cases hstep
      refine forall_mem_set h (loadsInjected_after (h task (List.mem_of_getElem? htask)) ?_)
      rintro image' rfl hloads
      exact absurd hloads.2 hevent.2

/-- **No program dies in the constructor.**  In every run from the child of `spawn_impl`, in
which no program preloads the library without the payload: a process that loads the library reads
back, in `Client::from_env`, the payload that `spawn_impl` has encoded. -/
theorem from_env_of_run {payload : Payload} {first : Image} {sys : System} {command : Command}
    {pre_exec : Option PreExec} {events : List Event} {tasks : List Task}
    (h : payload.WellTyped) (hpath : NulFree payload.preload_path)
    (hstart : command.start minimal_parse (encode_payload payload hpath) sys =
      .ok (first, pre_exec))
    (hfirst : BindsOnce first.envp)
    (hevents : ∀ event ∈ events,
      event.BindsOnce ∧ event.LeavesPreload (encode_payload payload hpath))
    (hrun : runs (step minimal_parse clientPayload (encode_payload payload hpath) first)
      (beforeExec pre_exec) events = some tasks) :
    ∀ task ∈ tasks, ∀ image, task.image = some image →
      LoadsPreload minimal_parse payload.preload_path image →
        decode_payload_from_env Payload.format image.envp =
          .ok (payload, encodedString Payload.format payload) := by
  have hinit : ∀ task ∈ beforeExec pre_exec,
      LoadsInjected minimal_parse (encode_payload payload hpath) task := by
    intro task htask image himage
    rw [List.mem_singleton.mp htask] at himage
    cases himage
  have hinv := runs_induction (C := fun _ event ↦
      event.BindsOnce ∧ event.LeavesPreload (encode_payload payload hpath))
    (fun _ tasks ↦ ∀ task ∈ tasks,
      LoadsInjected minimal_parse (encode_payload payload hpath) task) hinit
    (fun _ _ _ _ hinv hevent hstep ↦ loadsInjected_step (clientPayload_encoded h hpath)
      (injected_of_start hstart hfirst) hevent hstep hinv)
    hrun (StepsMeet.of_forall fun _ event hevent ↦ hevents event hevent)
  intro task htask image himage hloads
  exact decode_payload_from_env_of_boundTo Payload.lawful_format h
    (hinv task htask image himage hloads).2.2

/-! ## A small tree -/

/-- What the child of `spawn_impl` loads. -/
def allowImage : Image where
  content := sampleElf
  envp := [ascii "FSPY_PAYLOAD=IhAvcHJvYy9zZWxmL2ZkLzE4+1gCAQYAAPwAAP9/",
    ascii "LD_PRELOAD=/proc/self/fd/18"]

/-- The child starts and forks, the fork executes the static program, and an `execveat` of the
child fails. -/
def allowEvents : List Event :=
  [.start 0, .fork 0, .exec 1 (sampleCall (ascii "/s") true),
    .execveat 0 (sampleExecveat (sampleCall (ascii "s") true) none)]

theorem start_allow : Command.start twoCrate (encode_payload allowPayload (by decide)) twoPrograms
    ⟨ascii "/b", [], ∅, none, none⟩ = .ok (allowImage, none) := by decide +kernel

theorem runs_allow : ∃ tasks,
    runs (step twoCrate clientPayload (encode_payload allowPayload (by decide)) allowImage)
      (beforeExec none) allowEvents = some tasks ∧ tasks.length = 2 := by
  have hrun : (runs (step twoCrate clientPayload (encode_payload allowPayload (by decide))
      allowImage) (beforeExec none) allowEvents).map List.length = some 2 := by decide +kernel
  exact Option.map_eq_some_iff.mp hrun

theorem allowEvents_meet : ∀ event ∈ allowEvents, event.BindsOnce ∧
    (∀ tasks, event.HandsOn twoCrate (encode_payload allowPayload (by decide)) tasks) ∧
      event.LeavesPreload (encode_payload allowPayload (by decide)) := by
  intro event hevent
  simp only [allowEvents, List.mem_cons, List.not_mem_nil, or_false] at hevent
  rcases hevent with rfl | rfl | rfl | rfl
  · exact ⟨trivial, fun _ ↦ trivial, trivial⟩
  · exact ⟨trivial, fun _ ↦ trivial, trivial⟩
  · exact ⟨bindsOnce_sampleCall _ _, fun _ ↦ trivial, trivial⟩
  · refine ⟨bindsOnce_sampleCall _ _, fun _ _ ↦ .inr ?_, ?_⟩
    · rintro image ⟨⟩
    · rintro - ⟨⟩

theorem from_env_of_run_allow : ∃ tasks,
    runs (step twoCrate clientPayload (encode_payload allowPayload (by decide)) allowImage)
      (beforeExec none) allowEvents = some tasks ∧ tasks.length = 2 ∧
    ∀ task ∈ tasks, ∀ image, task.image = some image →
      LoadsPreload twoCrate allowPayload.preload_path image →
        decode_payload_from_env Payload.format image.envp =
          .ok (allowPayload, encodedString Payload.format allowPayload) := by
  obtain ⟨tasks, hrun, hlength⟩ := runs_allow
  exact ⟨tasks, hrun, hlength, from_env_of_run wellTyped_allowPayload (by decide) start_allow
    ⟨by decide, by decide⟩ (fun event hevent ↦
      ⟨(allowEvents_meet event hevent).1, (allowEvents_meet event hevent).2.2⟩) hrun⟩

end Fspy.Unix
