import Fspy.Unix.World
import Mathlib.Data.List.AList
import Mathlib.Data.List.Lex
import Mathlib.Data.List.MinMax

/-!
# Starting a child

`spawn_impl` and the hooked `posix_spawnp` both let `handle_exec` examine a program in
the calling process, and then hand its name to a function that looks the file up once
more: in the directory and with the search path of the child, and with a shell for what
the kernel does not load.  `SameInChild` says when the second lookup ends at the file the
first one examined.
-/

namespace Fspy.Unix

open Lib

/-- `Command`, as far as it says what is executed. -/
structure Command where
  program : Bytes
  args : List Bytes
  envs : AList fun _ : Bytes ↦ Bytes
  cwd : Option Bytes
  arg0 : Option Bytes

/-! ## The search of libc -/

/-- The longest path, with its zero byte. -/
def PATH_MAX : Nat := 4096

/-- The shell that `execvp` runs scripts with. -/
def PATH_BSHELL : Bytes := ascii "/bin/sh"

/-- The parts of `execvp` and `posix_spawnp` that differ between C libraries. -/
structure Libc where
  /-- The search path of a process without `PATH`. -/
  default_path : Bytes
  /-- The errors after which the search goes on. -/
  passes : Errno → Bool
  /-- Whether `execvp` runs what the kernel does not load with the shell. -/
  exec_script : Bool

/-- What an attempt of libc executes. -/
def Kernel.tries (k : Kernel) (sys : System) (exec_script : Bool) (path : Bytes) :
    Except Errno Bytes :=
  match k.attempt sys path with
  | .ok () => .ok path
  | .error err =>
      if exec_script = true ∧ err = .ENOEXEC then
        (k.attempt sys PATH_BSHELL).map fun _ ↦ PATH_BSHELL
      else .error err

/-- The paths that libc tries for a name without a slash; it skips long directories. -/
def searched_paths (path file : Bytes) : List Bytes :=
  ((path.splitOn 58).filter fun dir ↦ dir.length < PATH_MAX).map (candidate file)

/-- The paths that libc tries for a name. -/
def tried (path file : Bytes) : List Bytes :=
  if file.isEmpty then []
  else if file.contains Path.sep then [file]
  else if file.length > NAME_MAX then []
  else searched_paths path file

/-- The file that libc executes for a name. -/
def execFile (libc : Libc) (k : Kernel) (w : World) (child : Process) (exec_script : Bool)
    (path file : Bytes) : Option Nat :=
  (searchExec libc.passes (k.tries (w.system child) exec_script) (tried path file)).bind
    fun c ↦ (w.file child c).toOption

/-- The value that `getenv` finds in the environment of a child, which lists the variables of a
map in the order of their names.  A name that starts with the one that is asked for and a `=`
binds it too. -/
def getenv (envs : AList fun _ : Bytes ↦ Bytes) (name : Bytes) : Option Bytes :=
  (envs.lookup name).or
    (((envs.entries.filter fun env ↦ binds name env.1).argmin fun env ↦
      env.1.map UInt8.toNat).map fun env ↦ env.1.drop (name.length + 1) ++ eqSign :: env.2)

namespace Command

/-- `Command::get_exec`. -/
def get_exec (command : Command) : Exec where
  program := command.program
  args := command.arg0.getD command.program :: command.args
  envs := command.envs.entries.map fun env ↦ (env.1, some env.2)

/-- An entry of the map that `set_exec` collects; a missing value is empty. -/
def entry (env : Bytes × Option Bytes) : Sigma fun _ : Bytes ↦ Bytes := ⟨env.1, env.2.getD []⟩

/-- `Command::set_exec`.  Collecting a map keeps the last value of a name. -/
def set_exec (command : Command) (exec : Exec) : Except Stop Command :=
  match exec.args with
  | [] => .error .panic
  | arg0 :: args => .ok
      { command with
        program := exec.program
        arg0 := some arg0
        args := args
        envs := (exec.envs.map entry).reverse.toAList }

/-- The child, once it has changed to its directory. -/
def child (command : Command) (w : World) (proc : Process) : Except Errno Process :=
  match command.cwd with
  | none => .ok proc
  | some cwd => w.chdir proc cwd

/-- The search path of the child, whose environment is that of the command. -/
def searchPath (command : Command) (libc : Libc) : Bytes :=
  (getenv command.envs (ascii "PATH")).getD libc.default_path

/-- The file that the child of `Command::spawn` executes, once it gets as far as its exec. -/
def spawn (command : Command) (libc : Libc) (k : Kernel) (w : World) (proc : Process) :
    Option Nat :=
  match command.child w proc with
  | .error _ => none
  | .ok child => execFile libc k w child libc.exec_script (command.searchPath libc) command.program

end Command

/-- An action that the child of `posix_spawnp` takes before its exec. -/
inductive FileAction where
  | addchdir_np (path : Bytes)
  /-- With the directory that the descriptor is open on by then. -/
  | addfchdir_np (dir : Except Errno Bytes)
  /-- `addopen`, `addclose` and `adddup2`. -/
  | other (result : Except Errno Unit)

/-- The child after an action. -/
def World.act (w : World) (child : Process) : FileAction → Except Errno Process
  | .addchdir_np path => w.chdir child path
  | .addfchdir_np dir => dir.map fun dir ↦ { child with dir := dir, getcwd_error := none }
  | .other result => result.map fun _ ↦ child

section Launch

variable (libc : Libc) (k : Kernel) (w : World) (proc : Process)
  (minimal_parse : ElfCrate) (encoded_payload : EncodedPayload)

/-- `spawn_impl`: the program that `handle_exec` examined, and the file that the child
executes, if it executes one; `starts` says whether the fork and the closures of the child
succeed. -/
def spawn_impl (command : Command) (starts : Bool) : ExecM (Bytes × Option Nat) := do
  let (exec, _) ← handle_exec (w.system proc) minimal_parse command.get_exec
    (.search_path_enabled none) encoded_payload
  let command ← .ofExcept (command.set_exec exec)
  return (command.program, if starts then command.spawn libc k w proc else none)

end Launch

section SameInChild

variable (libc : Libc) (k : Kernel) (w : World) (proc child : Process) (exec_script : Bool)
  (path name : Bytes)

end SameInChild

variable {libc : Libc} {k : Kernel} {w : World} {proc child : Process} {exec_script : Bool}
  {path name : Bytes}

theorem mem_ensure_env {envs envs' : Envs} {name value var : Bytes} {v : Option Bytes}
    (hvar : var ≠ name) (h : ensure_env envs name value = .ok envs') :
    (var, v) ∈ envs' ↔ (var, v) ∈ envs := by
  rcases ensure_env_eq_ok.mp h with ⟨-, rfl⟩ | ⟨-, rfl⟩
  · rfl
  · simp [hvar]

/-- Tracking touches two names. -/
theorem mem_trackEnvs {envs envs' : Envs} {pre_exec : Option PreExec} {dynamic : Bool}
    {encoded_payload : EncodedPayload} {var : Bytes} {v : Option Bytes}
    (hpreload : var ≠ LD_PRELOAD) (hpayload : var ≠ PAYLOAD_ENV_NAME)
    (h : Linux.trackEnvs encoded_payload envs dynamic = .ok (envs', pre_exec)) :
    (var, v) ∈ envs' ↔ (var, v) ∈ envs := by
  cases dynamic with
  | true =>
      obtain ⟨envs₁, h₁, h⟩ := bind_eq_ok.mp h
      obtain ⟨envs₂, h₂, h⟩ := bind_eq_ok.mp h
      cases h
      rw [mem_ensure_env hpayload h₂, mem_ensure_env hpreload h₁]
  | false =>
      cases h
      simp [hpreload, hpayload]

/-- `set_exec` needs an `args[0]`. -/
theorem set_exec_eq_ok {command command' : Command} {exec : Exec} :
    command.set_exec exec = .ok command' ↔ ∃ arg0 args, exec.args = arg0 :: args ∧
      command' = { command with
        program := exec.program
        arg0 := some arg0
        args := args
        envs := (exec.envs.map Command.entry).reverse.toAList } := by
  rw [Command.set_exec]
  cases exec.args with
  | nil => simp
  | cons arg0 args => simp [eq_comm (b := command')]

/-- Names that tracking does not touch keep their values through `set_exec`. -/
theorem lookup_set_exec {command command' : Command} {exec : Exec} {pre_exec : Option PreExec}
    {dynamic : Bool} {encoded_payload : EncodedPayload} {var : Bytes}
    (hpreload : var ≠ LD_PRELOAD) (hpayload : var ≠ PAYLOAD_ENV_NAME)
    (htrack : Linux.trackEnvs encoded_payload command.get_exec.envs dynamic =
      .ok (exec.envs, pre_exec))
    (h : command.set_exec exec = .ok command') :
    command'.envs.lookup var = command.envs.lookup var := by
  have hmem : ∀ value, ⟨var, value⟩ ∈ (exec.envs.map Command.entry).reverse ↔
      ⟨var, value⟩ ∈ command.envs.entries := by
    intro value
    simp only [List.mem_reverse, List.mem_map, Command.entry, Sigma.mk.injEq, heq_eq_eq,
      Prod.exists]
    constructor
    · rintro ⟨name, v, hin, rfl, rfl⟩
      rw [mem_trackEnvs hpreload hpayload htrack, Command.get_exec, List.mem_map] at hin
      obtain ⟨⟨name', value'⟩, hin, heq⟩ := hin
      cases heq
      exact hin
    · intro hin
      refine ⟨var, some value, ?_, rfl, rfl⟩
      rw [mem_trackEnvs hpreload hpayload htrack]
      exact List.mem_map.mpr ⟨_, hin, rfl⟩
  obtain ⟨arg0, args, -, rfl⟩ := set_exec_eq_ok.mp h
  rw [AList.lookup_to_alist]
  apply Option.ext
  intro value
  rw [← Option.mem_def, ← Option.mem_def, AList.mem_lookup_iff, ← hmem]
  constructor
  · exact List.of_mem_dlookup
  · intro hin
    -- the first entry of the name has this value, as the map has no other one
    obtain ⟨value', hvalue'⟩ := Option.isSome_iff_exists.mp
      (List.dlookup_isSome.mpr (List.mem_keys_of_mem hin))
    have hsame := AList.mem_lookup_iff.mpr ((hmem value').mp (List.of_mem_dlookup hvalue'))
    rw [Option.mem_unique hsame (AList.mem_lookup_iff.mpr ((hmem value).mp hin))] at hvalue'
    exact hvalue'

variable {minimal_parse : ElfCrate} {encoded_payload : EncodedPayload}

/-- `set_exec` takes what `handle_exec` returns. -/
theorem exists_set_exec {sys : System} {command : Command} {exec : Exec}
    {pre_exec : Option PreExec}
    (h : (handle_exec sys minimal_parse command.get_exec (.search_path_enabled none)
      encoded_payload).result = .ok (exec, pre_exec)) :
    ∃ command', command.set_exec exec = .ok command' := by
  obtain ⟨arg0, args, hargs⟩ := List.exists_cons_of_ne_nil
    (args_of_handle_exec (List.cons_ne_nil _ _) h)
  exact ⟨_, set_exec_eq_ok.mpr ⟨arg0, args, hargs, rfl⟩⟩

/-- A small file system. -/
def World.ofFiles (files : List (Bytes × Node)) : World where
  walk path := match files.findIdx? (·.1 = path) with
    | some n => .ok n
    | none => .error .ENOENT
  node n := match files[n]? with
    | some (_, node) => node
    | none => .dir false false

def sampleProcess : Process := ⟨ascii "/", none, some (ascii "/bin")⟩

/-- A command that runs a program in the directory `/w`. -/
def sampleCommand (program : Bytes) : Command := ⟨program, [], ∅, some (ascii "/w"), none⟩

end Fspy.Unix
