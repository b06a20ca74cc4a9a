import Fspy.Unix.Elf
import Fspy.Unix.Resolve

/-!
# Preparing an exec for tracking

`handle_exec` resolves a program, reports what it looks at, and decides how the new
image is tracked: a program that is dynamically linked to libc loads the preload
library through its environment, any other one runs under the seccomp filter.
-/

namespace Fspy.Unix

/-- One instruction of a BPF program. -/
structure SockFilter where
  code : UInt16
  jt : UInt8
  jf : UInt8
  k : UInt32
deriving DecidableEq, Repr

/-- `SeccompPayload`. -/
structure SeccompPayload where
  ipc_fd : Int
  filter : List SockFilter
deriving DecidableEq, Repr

/-- `Payload`, on linux. -/
structure Payload where
  ipc_fd : Int
  preload_path : Bytes
  seccomp_payload : SeccompPayload
deriving DecidableEq, Repr

/-- `EncodedPayload`.  The path and the encoded string come from `format!` and base64,
so both can stand in an environment. -/
structure EncodedPayload where
  payload : Payload
  encoded_string : Bytes
  preload_path_nulFree : Lib.NulFree payload.preload_path
  encoded_string_nulFree : Lib.NulFree encoded_string

/-- `PreExec`: the filter to install before the exec. -/
structure PreExec where
  seccomp_payload : SeccompPayload
deriving DecidableEq, Repr

def LD_PRELOAD : Bytes := ascii "LD_PRELOAD"

def PAYLOAD_ENV_NAME : Bytes := ascii "FSPY_PAYLOAD"

namespace Linux

/-- What linux's `handle_exec` does to the environment of a program that is, or is
not, dynamically linked to libc. -/
def trackEnvs (encoded_payload : EncodedPayload) (envs : Envs) :
    Bool → Except Errno (Envs × Option PreExec)
  | true => do
      let envs ← ensure_env envs LD_PRELOAD encoded_payload.payload.preload_path
      let envs ← ensure_env envs PAYLOAD_ENV_NAME encoded_payload.encoded_string
      return (envs, none)
  | false =>
      return (envs.filter fun (name, _) ↦ name != LD_PRELOAD && name != PAYLOAD_ENV_NAME,
        some ⟨encoded_payload.payload.seccomp_payload⟩)

/-- `handle_exec` (linux). -/
def handle_exec (sys : System) (minimal_parse : ElfCrate) (command : Exec)
    (encoded_payload : EncodedPayload) : Except Errno (Exec × Option PreExec) := do
  let executable_mmap ← sys.mmap_executable command.program
  let dynamic ← is_dynamically_linked_to_libc minimal_parse executable_mmap
  let (envs, pre_exec) ← trackEnvs encoded_payload command.envs dynamic
  return ({ command with envs }, pre_exec)

end Linux

/-- The callback of `handle_exec`: paths are reported absolute. -/
def report (sys : System) (path_access : PathAccess) : ExecM Unit :=
  if Lib.Path.isAbsolute path_access.path then .emit path_access
  else match sys.absolute path_access.path with
    -- "Failed to get cwd"
    | none => .fail .panic
    | some path => .emit { path_access with path }

/-- `handle_exec`. -/
def handle_exec (sys : System) (minimal_parse : ElfCrate) (command : Exec)
    (config : ExecResolveConfig) (encoded_payload : EncodedPayload) :
    ExecM (Exec × Option PreExec) := do
  let command ← command.resolve sys (report sys) config
  report sys (.read command.program)
  nixResult (Linux.handle_exec sys minimal_parse command encoded_payload)

variable {sys : System} {minimal_parse : ElfCrate} {command : Exec} {config : ExecResolveConfig}
  {encoded_payload : EncodedPayload} {path_access : PathAccess}

/-- A program that is not dynamically linked to libc gets a filter. -/
theorem pre_exec_of_trackEnvs {envs envs' : Envs} {dynamic : Bool} {pre_exec : Option PreExec}
    (h : Linux.trackEnvs encoded_payload envs dynamic = .ok (envs', pre_exec)) :
    pre_exec = if dynamic then none else some ⟨encoded_payload.payload.seccomp_payload⟩ := by
  cases dynamic with
  | true =>
      obtain ⟨envs₁, -, h⟩ := bind_eq_ok.mp h
      obtain ⟨envs₂, -, h⟩ := bind_eq_ok.mp h
      cases h
      rfl
  | false =>
      cases h
      rfl

/-- Any other program has the two names bound. -/
theorem existingValue_of_trackEnvs {envs envs' : Envs} {pre_exec : Option PreExec}
    (h : Linux.trackEnvs encoded_payload envs true = .ok (envs', pre_exec)) :
    existingValue envs' LD_PRELOAD = some encoded_payload.payload.preload_path ∧
      existingValue envs' PAYLOAD_ENV_NAME = some encoded_payload.encoded_string := by
  obtain ⟨envs₁, h₁, h⟩ := bind_eq_ok.mp h
  obtain ⟨envs₂, h₂, h⟩ := bind_eq_ok.mp h
  cases h
  refine ⟨?_, existingValue_of_ensure_env h₂⟩
  have hbound := existingValue_of_ensure_env h₁
  rcases ensure_env_eq_ok.mp h₂ with ⟨-, rfl⟩ | ⟨-, rfl⟩
  · exact hbound
  · rw [existingValue_append, hbound, Option.some_or]

/-- What linux's `handle_exec` did, when it returned. -/
theorem Linux.handle_exec_eq_ok {command' : Exec} {pre_exec : Option PreExec} :
    Linux.handle_exec sys minimal_parse command encoded_payload = .ok (command', pre_exec) ↔
      ∃ content dynamic envs, sys.mmap_executable command.program = .ok content ∧
        is_dynamically_linked_to_libc minimal_parse content = .ok dynamic ∧
        Linux.trackEnvs encoded_payload command.envs dynamic = .ok (envs, pre_exec) ∧
        command' = { command with envs } := by
  simp only [Linux.handle_exec, bind_eq_ok]
  constructor
  · rintro ⟨content, hcontent, dynamic, hdynamic, ⟨envs, pre⟩, htrack, heq⟩
    cases heq
    exact ⟨content, dynamic, envs, hcontent, hdynamic, htrack, rfl⟩
  · rintro ⟨content, dynamic, envs, hcontent, hdynamic, htrack, rfl⟩
    exact ⟨content, hcontent, dynamic, hdynamic, _, htrack, rfl⟩

/-! ## When it panics -/

theorem report_result (sys : System) (path_access : PathAccess) :
    (report sys path_access).result =
      if sys.Unanchored path_access.path then .error .panic else .ok () := by
  rw [report]
  split
  · rename_i habs
    rw [if_neg, Lib.Traced.result_emit]
    rw [System.unanchored_iff]
    rintro (hnil | ⟨hrel, -⟩)
    · rw [hnil] at habs
      cases habs
    · rw [habs] at hrel
      cases hrel
  · cases h : sys.absolute path_access.path with
    | none =>
        rw [if_pos (show sys.Unanchored path_access.path from h)]
        rfl
    | some path =>
        rw [if_neg, Lib.Traced.result_emit]
        rw [System.Unanchored, h]
        rintro ⟨⟩

theorem report_eq_ok :
    (report sys path_access).result = .ok () ↔ ¬sys.Unanchored path_access.path := by
  rw [report_result]
  split <;> simp [*]

theorem report_eq_panic :
    (report sys path_access).result = .error .panic ↔ sys.Unanchored path_access.path := by
  rw [report_result]
  split <;> simp [*]

/-- The absolute path that `report` makes of a path. -/
def System.absolutePath (sys : System) (path : Bytes) : Option Bytes :=
  if Lib.Path.isAbsolute path then some path else sys.absolute path

theorem report_trace (h : (report sys path_access).result = .ok ()) :
    ∃ path, sys.absolutePath path_access.path = some path ∧
      (report sys path_access).trace = [{ path_access with path }] := by
  rw [report] at h ⊢
  rw [System.absolutePath]
  split
  · exact ⟨_, rfl, rfl⟩
  · rename_i hrel
    rw [if_neg hrel] at h
    cases habs : sys.absolute path_access.path with
    | none =>
        rw [habs] at h
        cases h
    | some path => exact ⟨path, rfl, rfl⟩

theorem report_ne_errno (path_access : PathAccess) (e : Errno) :
    (report sys path_access).result ≠ .error (.errno e) := by
  rw [report_result]
  split <;> simp

/-- The program after resolution: the interpreter of a script, else the program found. -/
theorem program_of_rewritten {exec exec' : Exec} {options : ParseShebangOptions}
    {content : Bytes} (hcontent : sys.mmap_executable exec.program = .ok content)
    (h : exec.rewritten options content = .ok exec') :
    (∃ shebang, sys.script exec.program options = some shebang ∧
      exec'.program = shebang.interpreter) ∨
      sys.script exec.program options = none ∧ exec'.program = exec.program := by
  rw [(Exec.rewritten_program h).1, System.script, hcontent, Exec.interpreterOr]
  cases hs : shebangOf content options <;> simp [hs]

theorem resolve_eq_ok {exec' : Exec} :
    (command.resolve sys (report sys) config).result = .ok exec' ↔
      (∀ c ∈ command.probed sys config.search_path, ¬sys.Unanchored c) ∧
      ∃ p content, command.target sys config.search_path = some p ∧ ¬sys.Unanchored p ∧
        sys.mmap_executable p = .ok content ∧
        { command with program := p }.rewritten config.shebang_options content = .ok exec' := by
  simp only [Exec.resolve_eq_ok, report_eq_ok, PathAccess.read]

/-- Resolution leaves the environment alone. -/
theorem envs_of_resolve {exec' : Exec}
    (h : (command.resolve sys (report sys) config).result = .ok exec') :
    exec'.envs = command.envs := by
  obtain ⟨-, p, content, -, -, -, hrew⟩ := resolve_eq_ok.mp h
  exact (Exec.rewritten_program hrew).2

/-- What `handle_exec` did, when it returned. -/
theorem handle_exec_eq_ok {command' : Exec} {pre_exec : Option PreExec} :
    (handle_exec sys minimal_parse command config encoded_payload).result =
        .ok (command', pre_exec) ↔
      ∃ exec', (command.resolve sys (report sys) config).result = .ok exec' ∧
        ¬sys.Unanchored exec'.program ∧
        Linux.handle_exec sys minimal_parse exec' encoded_payload = .ok (command', pre_exec) := by
  simp only [handle_exec, Lib.Traced.bind_eq_ok, nixResult_eq_ok]
  refine exists_congr fun exec' ↦ and_congr_right fun _ ↦ ?_
  constructor
  · rintro ⟨u, hreport, hlinux⟩
    exact ⟨report_eq_ok.mp hreport, hlinux⟩
  · rintro ⟨hreport, hlinux⟩
    exact ⟨(), report_eq_ok.mpr hreport, hlinux⟩

/-- The program that resolution leaves, when it returns. -/
theorem resolved_of_resolve {exec' : Exec}
    (h : (command.resolve sys (report sys) config).result = .ok exec') :
    command.resolved sys config = some exec'.program := by
  obtain ⟨-, p, content, htarget, -, hcontent, hrew⟩ := resolve_eq_ok.mp h
  rw [Exec.resolved, htarget]
  dsimp only
  rw [hcontent]
  exact congrArg some (Exec.rewritten_program hrew).1.symm

/-- The program that `handle_exec` examined, when it returned. -/
theorem resolved_of_handle_exec {command' : Exec} {pre_exec : Option PreExec}
    (h : (handle_exec sys minimal_parse command config encoded_payload).result =
      .ok (command', pre_exec)) : command.resolved sys config = some command'.program := by
  obtain ⟨exec', hres, -, hlinux⟩ := handle_exec_eq_ok.mp h
  obtain ⟨content', dynamic, envs, -, -, -, rfl⟩ := Linux.handle_exec_eq_ok.mp hlinux
  have hresolved := resolved_of_resolve hres
  exact hresolved

/-- What `handle_exec` examined and what it did to the environment, when it returned. -/
theorem tracked_of_handle_exec {command' : Exec} {pre_exec : Option PreExec}
    (h : (handle_exec sys minimal_parse command config encoded_payload).result =
      .ok (command', pre_exec)) :
    ∃ content dynamic, sys.mmap_executable command'.program = .ok content ∧
      is_dynamically_linked_to_libc minimal_parse content = .ok dynamic ∧
      Linux.trackEnvs encoded_payload command.envs dynamic = .ok (command'.envs, pre_exec) := by
  obtain ⟨exec', hres, -, hlinux⟩ := handle_exec_eq_ok.mp h
  obtain ⟨content, dynamic, envs, hcontent, hdynamic, htrack, rfl⟩ :=
    Linux.handle_exec_eq_ok.mp hlinux
  rw [envs_of_resolve hres] at htrack
  exact ⟨content, dynamic, hcontent, hdynamic, htrack⟩

theorem args_of_handle_exec {command' : Exec} {pre_exec : Option PreExec}
    (hargs : command.args ≠ [])
    (h : (handle_exec sys minimal_parse command config encoded_payload).result =
      .ok (command', pre_exec)) : command'.args ≠ [] := by
  obtain ⟨exec', hres, -, hlinux⟩ := handle_exec_eq_ok.mp h
  obtain ⟨content, dynamic, envs, -, -, -, rfl⟩ := Linux.handle_exec_eq_ok.mp hlinux
  obtain ⟨-, p, content', -, -, -, hrew⟩ := resolve_eq_ok.mp hres
  change exec'.args ≠ []
  refine Exec.rewritten_args_ne_nil ?_ hrew
  exact hargs

theorem resolve_eq_panic :
    (command.resolve sys (report sys) config).result = .error .panic ↔
      (∃ c ∈ command.probed sys config.search_path, sys.Unanchored c) ∨
      (∀ c ∈ command.probed sys config.search_path, ¬sys.Unanchored c) ∧
      ∃ p, command.target sys config.search_path = some p ∧
        (sys.Unanchored p ∨ ¬sys.Unanchored p ∧
          ∃ shebang, sys.script p config.shebang_options = some shebang ∧ command.args = []) := by
  simp only [Exec.resolve_eq_panic report_ne_errno, report_eq_ok, report_eq_panic,
    PathAccess.read]

/-- A program that resolution settles on and can open is returned, unless resolution
panics. -/
theorem exists_resolve_of_resolved {program : Bytes}
    (hnoPanic : NoPanic (command.resolve sys (report sys) config).result)
    (h : command.resolved sys config = some program) :
    ∃ exec', (command.resolve sys (report sys) config).result = .ok exec' := by
  rw [NoPanic, ne_eq, resolve_eq_panic, not_or, not_and] at hnoPanic
  obtain ⟨hprobed, htarget⟩ := hnoPanic
  have hanchored : ∀ c ∈ command.probed sys config.search_path, ¬sys.Unanchored c :=
    fun c hc hu ↦ hprobed ⟨c, hc, hu⟩
  rw [Exec.resolved] at h
  split at h
  · cases h
  · rename_i p hp
    have hu : ¬sys.Unanchored p := fun hu ↦ htarget hanchored ⟨p, hp, .inl hu⟩
    split at h
    · cases h
    · rename_i content hcontent
      have hrew : ∃ exec', { command with program := p }.rewritten config.shebang_options content =
          .ok exec' := by
        cases hs : shebangOf content config.shebang_options with
        | none => exact ⟨_, Exec.rewritten_of_none hs⟩
        | some shebang =>
            have hargs : command.args ≠ [] := by
              intro hargs
              refine htarget hanchored ⟨p, hp, .inr ⟨hu, shebang, ?_, hargs⟩⟩
              rw [System.script, hcontent]
              exact hs
            exact Exec.rewritten_of_ne_nil { command with program := p } hargs _ _
      obtain ⟨exec', hexec⟩ := hrew
      exact ⟨exec', resolve_eq_ok.mpr ⟨hanchored, p, content, hp, hu, hcontent, hexec⟩⟩

theorem handle_exec_eq_panic :
    (handle_exec sys minimal_parse command config encoded_payload).result = .error .panic ↔
      (command.resolve sys (report sys) config).result = .error .panic ∨
        ∃ exec', (command.resolve sys (report sys) config).result = .ok exec' ∧
          sys.Unanchored exec'.program := by
  simp only [handle_exec, Lib.Traced.bind_eq_error, nixResult_ne_panic, and_false, exists_false,
    or_false, report_eq_panic, PathAccess.read]

/-- **When an intercepted exec does not kill the program**: every candidate the search
probes, the program it settles on, and the interpreter of a script are non-empty, and
absolute unless the current directory can be read; and a script has an `args[0]`. -/
theorem handle_exec_noPanic_iff :
    NoPanic (handle_exec sys minimal_parse command config encoded_payload).result ↔
      (∀ c ∈ command.probed sys config.search_path, ¬sys.Unanchored c) ∧
      ∀ p, command.target sys config.search_path = some p → ¬sys.Unanchored p ∧
        ∀ shebang, sys.script p config.shebang_options = some shebang →
          command.args ≠ [] ∧ ¬sys.Unanchored shebang.interpreter := by
  rw [NoPanic, ne_eq, handle_exec_eq_panic, resolve_eq_panic]
  constructor
  · intro h
    have hprobed : ∀ c ∈ command.probed sys config.search_path, ¬sys.Unanchored c :=
      fun c hc hu ↦ h (.inl (.inl ⟨c, hc, hu⟩))
    refine ⟨hprobed, fun p hp ↦ ?_⟩
    have hu : ¬sys.Unanchored p := fun hu ↦ h (.inl (.inr ⟨hprobed, p, hp, .inl hu⟩))
    refine ⟨hu, fun shebang hs ↦ ?_⟩
    have hargs : command.args ≠ [] := fun hargs ↦
      h (.inl (.inr ⟨hprobed, p, hp, .inr ⟨hu, shebang, hs, hargs⟩⟩))
    refine ⟨hargs, fun hinterp ↦ ?_⟩
    -- resolution returns, and the interpreter is reported
    obtain ⟨arg, rest, hcons⟩ := List.exists_cons_of_ne_nil hargs
    rw [System.script] at hs
    split at hs
    · rename_i content hcontent
      have hres := resolve_eq_ok.mpr ⟨hprobed, p, content, hp, hu, hcontent,
        Exec.rewritten_of_some hs hcons⟩
      exact h (.inr ⟨_, hres, hinterp⟩)
    · cases hs
  · rintro ⟨hprobed, htarget⟩ ((⟨c, hc, hu⟩ | ⟨-, p, hp, hrest⟩) | ⟨exec', hres, hu⟩)
    · exact hprobed c hc hu
    · obtain ⟨hanchored, hscript⟩ := htarget p hp
      rcases hrest with hu | ⟨-, shebang, hs, hargs⟩
      · exact hanchored hu
      · exact (hscript shebang hs).1 hargs
    · obtain ⟨-, p, content, hp, hanchored, hcontent, hrew⟩ := resolve_eq_ok.mp hres
      rcases program_of_rewritten hcontent hrew with ⟨shebang, hs, hprog⟩ | ⟨-, hprog⟩
      · exact ((htarget p hp).2 shebang hs).2 (hprog ▸ hu)
      · rw [hprog] at hu
        exact hanchored hu

def samplePayload : EncodedPayload where
  payload := ⟨17, ascii "/proc/self/fd/18", ⟨19, []⟩⟩
  encoded_string := ascii "ERI"
  preload_path_nulFree := by decide
  encoded_string_nulFree := by decide

/-- A script executed with an empty argument array. -/
theorem handle_exec_panics : ¬NoPanic (handle_exec
    (.ofFiles [(ascii "/s", .file (ascii "#!/bin/sh\n") true true)]) (fun _ ↦ none)
    ⟨ascii "/s", [], []⟩ .search_path_disabled samplePayload).result := by
  decide

end Fspy.Unix
