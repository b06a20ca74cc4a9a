import Fspy.Unix.Spawn

/-!
# From C arrays and back

The hooks receive a program, its arguments and its environment as C strings
(`RawExec`), take them apart into an `Exec`, and put them together again.  An
environment entry is split at its first `=`, and joining undoes the split, so the
environment of an exec is changed by `trackEnvs` alone.
-/

namespace Fspy.Unix

open Lib

/-- `RawExec`: the memory behind the three pointers. -/
structure RawExec where
  prog : Bytes
  argv : List (Option Bytes)
  envp : List (Option Bytes)
deriving DecidableEq, Repr

/-- The byte `=`. -/
def eqSign : UInt8 := 61

/-- An environment entry as `to_exec` splits it. -/
def splitEnv (env : Bytes) : Bytes × Option Bytes :=
  match env.idxOf? eqSign with
  | some eq_pos => (env.take eq_pos, some (env.drop (eq_pos + 1)))
  | none => (env, none)

/-- An environment entry as `from_exec` joins it. -/
def joinEnv : Bytes × Option Bytes → Bytes
  | (name, some value) => name ++ eqSign :: value
  | (name, none) => name

namespace RawExec

/-- `RawExec::to_exec`. -/
def to_exec (raw : RawExec) : Exec where
  program := cstr raw.prog
  args := cstrs raw.argv
  envs := (cstrs raw.envp).map splitEnv

/-- `RawExec::from_exec`: what its callback is given. -/
def from_exec (cmd : Exec) : RawExec where
  prog := toCStr cmd.program
  argv := toCStrs cmd.args
  envp := toCStrs (cmd.envs.map joinEnv)

end RawExec

namespace Client

/-- `Client::handle_exec`, up to the call of the original function. -/
def handle_exec (sys : System) (minimal_parse : ElfCrate) (config : ExecResolveConfig)
    (raw_exec : RawExec) (encoded_payload : EncodedPayload) :
    ExecM (RawExec × Option PreExec) := do
  let (exec, pre_exec) ← Unix.handle_exec sys minimal_parse raw_exec.to_exec config encoded_payload
  return (.from_exec exec, pre_exec)

end Client

/-! ## Splitting and joining an entry -/

theorem splitEnv_of_not_mem {env : Bytes} (h : eqSign ∉ env) : splitEnv env = (env, none) := by
  rw [splitEnv, List.idxOf?_eq_none_iff.mpr h]

theorem splitEnv_append {name value : Bytes} (h : eqSign ∉ name) :
    splitEnv (name ++ eqSign :: value) = (name, some value) := by
  have hpos : (name ++ eqSign :: value).idxOf? eqSign = some name.length := by
    induction name with
    | nil => simp [List.idxOf?_cons]
    | cons b name ih =>
        rw [List.mem_cons, not_or] at h
        simp [List.idxOf?_cons, ih h.2, Ne.symm h.1]
  simp [splitEnv, hpos]

/-- An entry has a first `=`, or none at all. -/
theorem env_cases (env : Bytes) :
    eqSign ∉ env ∨ ∃ name value, eqSign ∉ name ∧ env = name ++ eqSign :: value := by
  by_cases h : eqSign ∈ env
  · obtain ⟨name, value, rfl, hname⟩ := List.eq_append_cons_of_mem h
    exact .inr ⟨name, value, hname, rfl⟩
  · exact .inl h

/-- Joining undoes splitting. -/
@[simp] theorem joinEnv_splitEnv (env : Bytes) : joinEnv (splitEnv env) = env := by
  rcases env_cases env with h | ⟨name, value, h, rfl⟩
  · rw [splitEnv_of_not_mem h]
    rfl
  · rw [splitEnv_append h]
    rfl

@[simp] theorem map_joinEnv_splitEnv (envp : List Bytes) :
    (envp.map splitEnv).map joinEnv = envp := by
  rw [List.map_map, show joinEnv ∘ splitEnv = id from funext joinEnv_splitEnv, List.map_id]

theorem eqSign_notMem_preload : eqSign ∉ LD_PRELOAD := by decide

theorem eqSign_notMem_payload : eqSign ∉ PAYLOAD_ENV_NAME := by decide

/-- The text before the first `=`, or all of an entry without one. -/
def envName (env : Bytes) : Bytes := env.takeWhile (· != eqSign)

theorem splitEnv_fst (env : Bytes) : (splitEnv env).1 = envName env := by
  rcases env_cases env with h | ⟨name, value, h, rfl⟩
  · rw [splitEnv_of_not_mem h]
    refine (List.takeWhile_eq_self_iff.mpr fun b hb ↦ ?_).symm
    simp only [bne_iff_ne, ne_eq]
    rintro rfl
    exact h hb
  · have hpos : ∀ b ∈ name, (b != eqSign) = true := by
      intro b hb
      simp only [bne_iff_ne, ne_eq]
      rintro rfl
      exact h hb
    rw [splitEnv_append h, envName, List.takeWhile_append_of_pos hpos]
    simp

/-- The entry binds the name, possibly to nothing. -/
def binds (name env : Bytes) : Bool := (name ++ [eqSign]).isPrefixOf env

theorem binds_iff {name env : Bytes} :
    binds name env = true ↔ ∃ value, env = name ++ eqSign :: value := by
  rw [binds, List.isPrefixOf_iff_prefix]
  constructor
  · rintro ⟨value, rfl⟩
    exact ⟨value, by simp⟩
  · rintro ⟨value, rfl⟩
    exact ⟨value, by simp⟩

theorem splitEnv_eq_some {name value env : Bytes} (hname : eqSign ∉ name) :
    splitEnv env = (name, some value) ↔ env = name ++ eqSign :: value := by
  constructor
  · intro h
    rw [← joinEnv_splitEnv env, h]
    rfl
  · rintro rfl
    exact splitEnv_append hname

/-- A name is unbound if no entry starts with it and a `=`. -/
theorem existingValue_eq_none {envp : List Bytes} {name : Bytes} (hname : eqSign ∉ name) :
    existingValue (envp.map splitEnv) name = none ↔ envp.any (binds name) = false := by
  rw [existingValue, List.findSome?_eq_none_iff, List.any_eq_false]
  simp only [List.forall_mem_map, Bool.not_eq_true]
  apply forall₂_congr
  intro env _
  rw [← Bool.not_eq_true, binds_iff]
  constructor
  · rintro h ⟨value, rfl⟩
    simp [splitEnv_append hname] at h
  · intro h
    split
    · rename_i hn
      cases hv : (splitEnv env).2 with
      | none => rfl
      | some value =>
          exact absurd ⟨value, (splitEnv_eq_some hname).mp (Prod.ext hn hv)⟩ h
    · rfl

/-! ## The environment that comes out -/

/-- The two bindings that make a program load the preload library. -/
def bindings (encoded_payload : EncodedPayload) : List (Bytes × Bytes) :=
  [(LD_PRELOAD, encoded_payload.payload.preload_path),
    (PAYLOAD_ENV_NAME, encoded_payload.encoded_string)]

/-- The entries of a tracked program's environment: those of the two bindings it does
not have are added for a program that is dynamically linked to libc, and every entry
with one of the two names is removed for any other program. -/
def trackedEnvp (encoded_payload : EncodedPayload) (envp : List Bytes) : Bool → List Bytes
  | true => envp ++ ((bindings encoded_payload).filter fun (name, _) ↦
      !envp.any (binds name)).map fun (name, value) ↦ name ++ eqSign :: value
  | false => envp.filter fun env ↦ envName env != LD_PRELOAD && envName env != PAYLOAD_ENV_NAME

variable {encoded_payload : EncodedPayload}

/-- `ensure_env` on entries. -/
theorem ensure_env_map {envp : List Bytes} {envs : Envs} {name value : Bytes}
    (hname : eqSign ∉ name) (h : ensure_env (envp.map splitEnv) name value = .ok envs) :
    envs = (envp ++ if envp.any (binds name) then [] else
      [name ++ eqSign :: value]).map splitEnv := by
  rcases ensure_env_eq_ok.mp h with ⟨hv, rfl⟩ | ⟨hv, rfl⟩
  · have hany : envp.any (binds name) = true := by
      rw [← Bool.not_eq_false, ← existingValue_eq_none hname, hv]
      simp
    simp [hany]
  · rw [(existingValue_eq_none hname).mp hv]
    simp [splitEnv_append hname]

/-- Binding one of the two names does not bind the other. -/
theorem not_binds_payload (value : Bytes) :
    binds PAYLOAD_ENV_NAME (LD_PRELOAD ++ eqSign :: value) = false := rfl

theorem trackEnvs_map {envp : List Bytes} {envs : Envs} {pre_exec : Option PreExec}
    {dynamic : Bool}
    (h : Linux.trackEnvs encoded_payload (envp.map splitEnv) dynamic = .ok (envs, pre_exec)) :
    envs = (trackedEnvp encoded_payload envp dynamic).map splitEnv ∧
      pre_exec.isNone = dynamic := by
  cases dynamic with
  | true =>
      obtain ⟨envs₁, h₁, h⟩ := bind_eq_ok.mp h
      obtain ⟨envs₂, h₂, h⟩ := bind_eq_ok.mp h
      cases h
      have heq₁ := ensure_env_map eqSign_notMem_preload h₁
      subst heq₁
      have heq₂ := ensure_env_map eqSign_notMem_payload h₂
      subst heq₂
      refine ⟨congrArg _ ?_, rfl⟩
      rw [trackedEnvp, bindings]
      cases hp : envp.any (binds LD_PRELOAD) <;> cases hn : envp.any (binds PAYLOAD_ENV_NAME) <;>
        simp [hp, hn, not_binds_payload]
  | false =>
      cases h
      refine ⟨?_, rfl⟩
      rw [trackedEnvp, List.filter_map]
      simp only [Function.comp_def, splitEnv_fst]

/-- The environment that comes out passes through unchanged. -/
theorem trackEnvs_again {envs envs' : Envs} {pre_exec : Option PreExec} {dynamic : Bool}
    (h : Linux.trackEnvs encoded_payload envs dynamic = .ok (envs', pre_exec)) :
    Linux.trackEnvs encoded_payload envs' dynamic = .ok (envs', pre_exec) := by
  cases dynamic with
  | true =>
      obtain ⟨hpreload, hpayload⟩ := existingValue_of_trackEnvs h
      obtain rfl : pre_exec = none := pre_exec_of_trackEnvs h
      rw [Linux.trackEnvs, ensure_env_eq_ok.mpr (.inl ⟨hpreload, rfl⟩)]
      simp only [bind, Except.bind]
      rw [ensure_env_eq_ok.mpr (.inl ⟨hpayload, rfl⟩)]
      rfl
  | false =>
      cases h
      rw [Linux.trackEnvs, List.filter_filter]
      simp only [Bool.and_self]
      rfl

theorem nulFree_append_cons {name value : Bytes} {b : UInt8} (hname : NulFree name) (hb : b ≠ 0)
    (hvalue : NulFree value) : NulFree (name ++ b :: value) := by
  rw [NulFree, List.mem_append, List.mem_cons]
  rintro (h | h | h)
  · exact hname h
  · exact hb h.symm
  · exact hvalue h

theorem nulFree_trackedEnvp {envp : List Bytes} (h : ∀ env ∈ envp, NulFree env) (dynamic : Bool) :
    ∀ env ∈ trackedEnvp encoded_payload envp dynamic, NulFree env := by
  intro env henv
  cases dynamic with
  | true =>
      rcases List.mem_append.mp henv with henv | henv
      · exact h env henv
      · obtain ⟨⟨name, value⟩, hmem, rfl⟩ := List.mem_map.mp henv
        rcases List.mem_cons.mp (List.mem_of_mem_filter hmem) with heq | hmem
        · cases heq
          exact nulFree_append_cons (by decide) (by decide) encoded_payload.preload_path_nulFree
        · cases List.mem_singleton.mp hmem
          exact nulFree_append_cons (by decide) (by decide) encoded_payload.encoded_string_nulFree
  | false => exact h env (List.mem_of_mem_filter henv)

/-- The entries that come out denote themselves again. -/
theorem cstrs_trackedEnvp (envp : List (Option Bytes)) (dynamic : Bool) :
    cstrs (toCStrs (trackedEnvp encoded_payload (cstrs envp) dynamic)) =
      trackedEnvp encoded_payload (cstrs envp) dynamic := by
  rw [cstrs_toCStrs]
  exact map_cstr_of_nulFree (nulFree_trackedEnvp (fun _ h ↦ nulFree_of_mem_cstrs h) dynamic)

variable {sys : System} {minimal_parse : ElfCrate} {config : ExecResolveConfig}
  {raw raw' : RawExec} {pre_exec : Option PreExec}

theorem envp_of_handle_exec
    (h : (Client.handle_exec sys minimal_parse config raw encoded_payload).result =
      .ok (raw', pre_exec)) :
    ∃ program content, raw'.prog = toCStr program ∧
      sys.mmap_executable program = .ok content ∧
      is_dynamically_linked_to_libc minimal_parse content = .ok pre_exec.isNone ∧
      raw'.envp = toCStrs (trackedEnvp encoded_payload (cstrs raw.envp) pre_exec.isNone) ∧
      Linux.trackEnvs encoded_payload raw'.to_exec.envs pre_exec.isNone =
        .ok (raw'.to_exec.envs, pre_exec) := by
  obtain ⟨⟨command, pre⟩, hexec, heq⟩ := Traced.bind_eq_ok.mp h
  cases heq
  obtain ⟨content, dynamic, hcontent, hdynamic, htrack⟩ := tracked_of_handle_exec hexec
  obtain ⟨henvs, hkind⟩ := trackEnvs_map htrack
  subst hkind
  have hout : (RawExec.from_exec command).to_exec.envs = command.envs := by
    simp only [RawExec.to_exec, RawExec.from_exec, henvs, map_joinEnv_splitEnv,
      cstrs_trackedEnvp]
  refine ⟨command.program, content, rfl, hcontent, hdynamic, ?_, ?_⟩
  · simp only [RawExec.from_exec, henvs, map_joinEnv_splitEnv]
  · rw [hout]
    exact trackEnvs_again htrack

/-- A list of entries that already went through stays as it is. -/
theorem trackedEnvp_again {envp : List Bytes} {dynamic : Bool}
    (h : Linux.trackEnvs encoded_payload (envp.map splitEnv) dynamic =
      .ok (envp.map splitEnv, pre_exec)) :
    trackedEnvp encoded_payload envp dynamic = envp := by
  have hsame := congrArg (List.map joinEnv) (trackEnvs_map h).1
  rw [map_joinEnv_splitEnv, map_joinEnv_splitEnv] at hsame
  exact hsame.symm

/-- **Environment transparency.**  The array handed to the original function holds the
entries of `trackedEnvp` and nothing else, and it is a fixed point: an exec that is
handed it, for a program of the same kind, hands it on. -/
theorem envp_transparent
    (h : (Client.handle_exec sys minimal_parse config raw encoded_payload).result =
      .ok (raw', pre_exec)) :
    (∃ program content, raw'.prog = toCStr program ∧
      sys.mmap_executable program = .ok content ∧
      is_dynamically_linked_to_libc minimal_parse content = .ok pre_exec.isNone) ∧
    raw'.envp = toCStrs (trackedEnvp encoded_payload (cstrs raw.envp) pre_exec.isNone) ∧
    Linux.trackEnvs encoded_payload raw'.to_exec.envs pre_exec.isNone =
      .ok (raw'.to_exec.envs, pre_exec) ∧
    ∀ sys₂ minimal_parse₂ config₂ raw₂ raw₃ pre_exec₂, raw₂.envp = raw'.envp →
      (Client.handle_exec sys₂ minimal_parse₂ config₂ raw₂ encoded_payload).result =
        .ok (raw₃, pre_exec₂) →
      pre_exec₂.isNone = pre_exec.isNone → raw₃.envp = raw'.envp := by
  obtain ⟨program, content, hprog, hcontent, hdynamic, henvp, hfix⟩ := envp_of_handle_exec h
  refine ⟨⟨program, content, hprog, hcontent, hdynamic⟩, henvp, hfix, ?_⟩
  intro sys₂ minimal_parse₂ config₂ raw₂ raw₃ pre_exec₂ hraw₂ h₂ hkind
  obtain ⟨-, -, -, -, -, henvp₂, -⟩ := envp_of_handle_exec h₂
  have hagain := trackedEnvp_again hfix
  rw [henvp₂, hraw₂, hkind, hagain]
  rw [henvp, cstrs_trackedEnvp]

def sampleRaw : RawExec where
  prog := toCStr (ascii "/b")
  argv := toCStrs [ascii "b", ascii "x"]
  envp := toCStrs [ascii "A=1=2", ascii "B", ascii "=C", ascii "LD_PRELOAD"]

theorem envp_transparent_sample : ∃ raw' pre_exec,
    (Client.handle_exec (.ofFiles [(ascii "/b", .file sampleElf true true)]) sampleCrate
      .search_path_disabled sampleRaw samplePayload).result = .ok (raw', pre_exec) ∧
    raw'.envp = toCStrs [ascii "A=1=2", ascii "B", ascii "=C", ascii "LD_PRELOAD",
      ascii "LD_PRELOAD=/proc/self/fd/18", ascii "FSPY_PAYLOAD=ERI"] := by
  have h : (Client.handle_exec (.ofFiles [(ascii "/b", .file sampleElf true true)])
      sampleCrate .search_path_disabled sampleRaw samplePayload).result =
      .ok (.from_exec ⟨ascii "/b", [ascii "b", ascii "x"],
        (trackedEnvp samplePayload (cstrs sampleRaw.envp) true).map splitEnv⟩, none) := by
    decide +kernel
  refine ⟨_, _, h, (envp_transparent h).2.1.trans ?_⟩
  decide

end Fspy.Unix
