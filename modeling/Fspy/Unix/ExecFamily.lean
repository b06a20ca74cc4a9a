import Fspy.Unix.ExecHook
import Fspy.Unix.WithArgv

/-!
# The exec family

`execl`, `execlp` and `execle` are passed their arguments one by one, the other functions an
array of them; some are passed an environment, some take that of the program, and some search
`PATH`.  All hooks end in `handle_exec`.  `runCalls_eq` says what a program sees that tries
them one after the other: what it would see of the functions on arrays, as long as there are
not too many arguments.
-/

namespace Fspy.Unix.ExecFamily

open Lib

/-- What a variadic argument points to. -/
inductive VaArg where
  | str (mem : Bytes)
  | array (strs : List (Option Bytes))
deriving DecidableEq, Repr

/-- What the hooks find in their process. -/
structure Context where
  env : Hook.Env
  environ : List (Option Bytes)
  malloc : Nat → Bool

/-- What a call does to the thread, with the image that replaces the program or an error. -/
abbrev Effect := Hook.Caller → Except Stop RawExec × Hook.Caller

/-- The array behind a pointer to the slice: the strings up to the null pointer.  What was never
written, or is no string, cannot be read. -/
def pointedTo : List (Option (Option VaArg)) → Option (List (Option Bytes))
  | some none :: _ => some [none]
  | some (some (.str mem)) :: slice => (pointedTo slice).map (some mem :: ·)
  | _ => none

variable (ctx : Context)

/-- `with_argv`; where arguments are read that were not passed, nothing is said. -/
def with_argv (va : List (Option VaArg)) (arg0 : Option Bytes)
    (f : List (Option Bytes) → List (Option VaArg) → Option Effect) : Option Effect :=
  match WithArgv.with_argv ctx.malloc va (arg0.map .str) with
  | .error .noArgument => none
  | .error .panic => some fun caller ↦ (.error .panic, caller)
  | .ok ⟨_, some e, _⟩ => some fun caller ↦ (.error (.errno e), caller)
  | .ok ⟨_, none, calls⟩ => do
      let (slice, remaining) ← calls.head?
      let args ← pointedTo slice
      f args remaining

/-! ## The hooks -/

def execve (raw_exec : RawExec) : Effect :=
  Hook.handle_exec ctx.env .search_path_disabled raw_exec

def execl (path : Bytes) (arg0 : Option Bytes) (valist : List (Option VaArg)) : Option Effect :=
  with_argv ctx valist arg0 fun args _ ↦
    some (Hook.handle_exec ctx.env .search_path_disabled ⟨path, args, ctx.environ⟩)

def execlp (path : Bytes) (arg0 : Option Bytes) (valist : List (Option VaArg)) : Option Effect :=
  with_argv ctx valist arg0 fun args _ ↦
    some (Hook.handle_exec ctx.env (.search_path_enabled none) ⟨path, args, ctx.environ⟩)

def execle (path : Bytes) (arg0 : Option Bytes) (valist : List (Option VaArg)) : Option Effect :=
  with_argv ctx valist arg0 fun args remaining ↦
    match WithArgv.arg remaining with
    | .ok (some (.array envp), _) =>
        some (Hook.handle_exec ctx.env .search_path_disabled ⟨path, args, envp⟩)
    | _ => none

def execv (path : Bytes) (argv : List (Option Bytes)) : Effect :=
  Hook.handle_exec ctx.env .search_path_disabled ⟨path, argv, ctx.environ⟩

def execvp (prog : Bytes) (argv : List (Option Bytes)) : Effect :=
  Hook.handle_exec ctx.env (.search_path_enabled none) ⟨prog, argv, ctx.environ⟩

def execvpe (file : Bytes) (argv envp : List (Option Bytes)) : Effect :=
  Hook.handle_exec ctx.env (.search_path_enabled none) ⟨file, argv, envp⟩

/-! ## Programs -/

/-- A call, with the memory behind its pointers.  What follows the null pointer of a variadic
call, and its environment, is never looked at. -/
inductive Call where
  | execve (raw_exec : RawExec)
  | execv (path : Bytes) (argv : List (Option Bytes))
  | execvp (prog : Bytes) (argv : List (Option Bytes))
  | execvpe (file : Bytes) (argv envp : List (Option Bytes))
  | execl (path arg0 : Bytes) (args : List Bytes) (rest : List (Option VaArg))
  | execlp (path arg0 : Bytes) (args : List Bytes) (rest : List (Option VaArg))
  | execle (path arg0 : Bytes) (args : List Bytes) (envp : List (Option Bytes))
      (rest : List (Option VaArg))

namespace Call

/-- The variadic arguments of a call. -/
def valist (args : List Bytes) (rest : List (Option VaArg)) : List (Option VaArg) :=
  (args.map VaArg.str).map some ++ none :: rest

/-- The hook that is called. -/
def run : Call → Option Effect
  | execve raw_exec => some (ExecFamily.execve ctx raw_exec)
  | execv path argv => some (ExecFamily.execv ctx path argv)
  | execvp prog argv => some (ExecFamily.execvp ctx prog argv)
  | execvpe file argv envp => some (ExecFamily.execvpe ctx file argv envp)
  | execl path arg0 args rest => ExecFamily.execl ctx path (some arg0) (valist args rest)
  | execlp path arg0 args rest => ExecFamily.execlp ctx path (some arg0) (valist args rest)
  | execle path arg0 args envp rest =>
      ExecFamily.execle ctx path (some arg0) (valist args (some (.array envp) :: rest))

end Call

/-- A program tries some calls, until one of them does not come back. -/
def runCalls : List Call → Hook.Caller → Option (List (Except Stop RawExec) × Hook.Caller)
  | [], caller => some ([], caller)
  | call :: calls, caller => do
      let effect ← call.run ctx
      match effect caller with
      | (.error (.errno e), caller) => do
          let (results, caller) ← runCalls calls caller
          return (.error (.errno e) :: results, caller)
      | (result, caller) => return ([result], caller)

/-! ## What they are for -/

namespace Call

/-- An array of arguments. -/
def array (arg0 : Bytes) (args : List Bytes) : List (Option Bytes) :=
  (arg0 :: args).map some ++ [none]

/-- Whether the function searches `PATH`, and what it passes on. -/
def means (environ : List (Option Bytes)) : Call → ExecResolveConfig × RawExec
  | execve raw_exec => (.search_path_disabled, raw_exec)
  | execv path argv => (.search_path_disabled, ⟨path, argv, environ⟩)
  | execvp prog argv => (.search_path_enabled none, ⟨prog, argv, environ⟩)
  | execvpe file argv envp => (.search_path_enabled none, ⟨file, argv, envp⟩)
  | execl path arg0 args _ => (.search_path_disabled, ⟨path, array arg0 args, environ⟩)
  | execlp path arg0 args _ => (.search_path_enabled none, ⟨path, array arg0 args, environ⟩)
  | execle path arg0 args envp _ => (.search_path_disabled, ⟨path, array arg0 args, envp⟩)

/-- How many arguments are passed one by one. -/
def variadic : Call → Nat
  | execl _ _ args _ | execlp _ _ args _ | execle _ _ args _ _ => 1 + args.length
  | _ => 0

end Call

/-- So many arguments are too many: the call fails, or the program aborts. -/
def limited (argc : Nat) (effect : Effect) : Effect :=
  if argc < 32 then effect
  else fun caller ↦
    (.error (if argc < 4096 then if ctx.malloc (argc * 8) then .panic else .errno WithArgv.ENOMEM
      else .errno WithArgv.E2BIG), caller)

/-- What a call should do, but for too many arguments. -/
def Call.expected (call : Call) : Effect :=
  let (config, raw_exec) := call.means ctx.environ
  limited ctx call.variadic (Hook.handle_exec ctx.env config raw_exec)

/-- One after the other, until one does not come back. -/
def tries : List Effect → Hook.Caller → List (Except Stop RawExec) × Hook.Caller
  | [], caller => ([], caller)
  | effect :: effects, caller => match effect caller with
      | (.error (.errno e), caller) =>
          let (results, caller) := tries effects caller
          (.error (.errno e) :: results, caller)
      | (result, caller) => ([result], caller)

/-! ## Arrays of arguments -/

variable {ctx}

/-- The entries behind the null pointer are not looked at. -/
theorem pointedTo_entries (arg0 : Bytes) (args : List Bytes)
    (rest : List (Option (Option VaArg))) :
    pointedTo (WithArgv.entries (.str arg0) (args.map .str) ++ some none :: rest) =
      some (Call.array arg0 args) := by
  have hstrs : ∀ strs : List Bytes,
      pointedTo ((strs.map VaArg.str).map (some ∘ some) ++ some none :: rest) =
        some (strs.map some ++ [none]) := by
    intro strs
    induction strs with
    | nil => rfl
    | cons mem strs ih =>
        rw [List.map_cons, List.map_cons, List.cons_append, Function.comp_apply, pointedTo, ih]
        rfl
  exact hstrs (arg0 :: args)

/-- What `with_argv` hands on, by the number of arguments. -/
theorem with_argv_valist (arg0 : Bytes) (args : List Bytes) (rest : List (Option VaArg))
    {f : List (Option Bytes) → List (Option VaArg) → Option Effect} {effect : Effect}
    (hf : f (Call.array arg0 args) rest = some effect) :
    with_argv ctx (Call.valist args rest) (some arg0) f =
      some (limited ctx (1 + args.length) effect) := by
  have hlength : (args.map VaArg.str).length = args.length := List.length_map _
  have hposition := WithArgv.position_eq (args.map VaArg.str) rest
  rw [hlength] at hposition
  rw [with_argv, Call.valist, WithArgv.with_argv, except_bind_of_ok hposition, limited]
  dsimp only [Option.map_some]
  have hrun := WithArgv.run_eq (VaArg.str arg0) (args.map .str) rest
  rw [hlength] at hrun
  split_ifs with hstack hheap hmalloc
  · have hroom : 1 + args.length + (30 - args.length + 1) = 32 := by omega
    have hslice := hrun (30 - args.length + 1)
    rw [hroom] at hslice
    rw [hslice]
    dsimp only [List.head?_cons, Option.bind_eq_bind, Option.bind_some]
    rw [pointedTo_entries]
    exact hf
  · -- there is no room for the null pointer
    have hpanic := hrun 0
    rw [Nat.add_zero] at hpanic
    rw [hpanic]
  · rfl
  · rfl

/-- Every hook does what it is for. -/
theorem Call.run_eq (call : Call) : call.run ctx = some (call.expected ctx) := by
  cases call with
  | execve raw_exec | execv path argv | execvp prog argv | execvpe file argv envp => rfl
  | execl path arg0 args rest =>
      rw [run, ExecFamily.execl]
      exact with_argv_valist arg0 args rest rfl
  | execlp path arg0 args rest =>
      rw [run, ExecFamily.execlp]
      exact with_argv_valist arg0 args rest rfl
  | execle path arg0 args envp rest =>
      rw [run, ExecFamily.execle]
      exact with_argv_valist arg0 args (some (.array envp) :: rest) rfl

/-- **The exec family.**  A program that tries any of the functions, one after the other, sees
what it would see of the functions on arrays: the same errors and at last the same image, with
the same accesses recorded and the same filters installed; a variadic call with 32 arguments
or more does nothing but fail, or abort the program. -/
theorem runCalls_eq (calls : List Call) (caller : Hook.Caller) :
    runCalls ctx calls caller = some (tries (calls.map (Call.expected ctx)) caller) := by
  induction calls generalizing caller with
  | nil => rfl
  | cons call calls ih =>
      rw [runCalls, call.run_eq, Option.bind_eq_bind, Option.bind_some, List.map_cons, tries]
      split
      · rename_i caller' heq
        rw [ih caller']
        rfl
      · rfl

end Fspy.Unix.ExecFamily
