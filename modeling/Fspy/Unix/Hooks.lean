import Fspy.Unix.ExecHook

/-!
# What the hooked calls of a program write

Every consumer of the log takes a recorded path to be absolute.  A program is followed
here through its calls, with a file system and a table of descriptors that change under
it.  The paths an exec reports are made absolute on the way; the path of a descriptor is
whatever its link in `/proc` says.
-/

namespace Fspy.Unix

open Lib Shm

/-! ## The descriptors of a program -/

/-- What a descriptor refers to.  The link of a file is taken to be an absolute path: that of
a namespace (`net:[…]`) is not. -/
inductive File where
  /-- A file or a directory, under a path. -/
  | named (path : {p : Bytes // Path.isAbsolute p})
  | pipe (inode : Nat)
  | socket (inode : Nat)
  | anon_inode (name : String)

namespace File

/-- The text of the link in `/proc/self/fd`. -/
def link : File → Bytes
  | named path => path.1
  | pipe inode => ascii s!"pipe:[{inode}]"
  | socket inode => ascii s!"socket:[{inode}]"
  | anon_inode name => ascii s!"anon_inode:{name}"

/-- The descriptor stands for a path. -/
def HasPath : File → Prop
  | named _ => True
  | _ => False

theorem link_ne_nil (file : File) : file.link ≠ [] := by
  cases file with
  | named path =>
      intro h
      have habs := path.2
      rw [show path.1 = [] from h] at habs
      cases habs
  | pipe inode | socket inode | anon_inode name =>
      simp only [link, ascii, String.toList_append, List.map_append]
      exact List.cons_ne_nil _ _

/-- The link of a pipe, a socket or an anonymous inode is no path. -/
theorem isAbsolute_link (file : File) : Path.isAbsolute file.link ↔ file.HasPath := by
  cases file with
  | named path => exact iff_of_true path.2 trivial
  | pipe inode | socket inode | anon_inode name =>
      apply iff_of_false
      · simp only [link, ascii, String.toList_append, List.map_append]
        exact Bool.false_ne_true
      · exact id

end File

/-- What the calls of a program see. -/
structure View where
  /-- What `readlink("/proc/self/fd/…")` finds. -/
  fds : Int → Except Errno File
  cwd : Except Errno {p : Bytes // Path.isAbsolute p}
  lookup : Bytes → Except Errno Node
  PATH : Option Bytes

namespace View

def helpers (view : View) : Helpers :=
  ⟨view.cwd.map Subtype.val, fun fd ↦ (view.fds fd).map File.link⟩

def system (view : View) : System := ⟨view.lookup, view.cwd.map Subtype.val, view.PATH⟩

/-- The answers to the calls of a hook. -/
def env (view : View) (env : Hook.Env) : Hook.Env :=
  { env with sys := view.system, helpers := view.helpers }

end View

/-! ## The calls -/

namespace Client

/-- What an exec writes: each report is unwrapped, so the first that fails is the last. -/
def sendWritten (codec : Codec PathAccess) (client : Client) : List PathAccess → List Written
  | [] => []
  | path_access :: rest => match client.send codec path_access with
      | .error _ => []
      | .ok (client, written) => written.toList ++ client.sendWritten codec rest

variable {codec : Codec PathAccess} {client : Client} {trace : List PathAccess}

/-- Every record is one of a report. -/
theorem mem_sendWritten {w : Written} (h : w ∈ client.sendWritten codec trace) :
    ∃ path_access ∈ trace, w.bytes = codec.frame path_access := by
  induction trace generalizing client with
  | nil => cases h
  | cons path_access rest ih =>
      rw [sendWritten] at h
      cases hsend : client.send codec path_access with
      | error e =>
          rw [hsend] at h
          cases h
      | ok out =>
          obtain ⟨client₁, written₁⟩ := out
          rw [hsend] at h
          rcases List.mem_append.mp h with hw | hw
          · rcases send_eq_ok hsend with ⟨-, rfl⟩ | ⟨-, chunk, start, rfl⟩
            · cases hw
            · obtain rfl := List.mem_singleton.mp hw
              exact ⟨path_access, List.mem_cons_self, rfl⟩
          · obtain ⟨reported, hmem, heq⟩ := ih hw
            exact ⟨reported, List.mem_cons_of_mem _ hmem, heq⟩

end Client

/-- A call of a hooked function. -/
inductive HookedCall where
  | path (path : PathArg) (mode : ModeArg)
  | exec (call : Hook.Call)
  | posix_spawn (config : ExecResolveConfig) (raw_exec : RawExec)
      (spawn : Hook.Thread → RawExec → Int)

namespace HookedCall

/-! The hooks of the path calls, with the memory behind their pointers. -/

def open64 (path : Bytes) (flags : BitVec 32) : HookedCall :=
  .path (.c_char path) (.openFlags flags)

def openat (dirfd : Int) (path : Bytes) (flags : BitVec 32) : HookedCall :=
  .path (.pathAt dirfd path) (.openFlags flags)

def fopen (path mode : Bytes) : HookedCall := .path (.c_char path) (.modeStr mode)

def freopen (path mode : Bytes) : HookedCall := .path (.c_char path) (.modeStr mode)

def stat (path : Bytes) : HookedCall := .path (.c_char path) (.accessMode .Read)

def lstat (path : Bytes) : HookedCall := .path (.c_char path) (.accessMode .Read)

def fstat (fd : Int) : HookedCall := .path (.fd fd) (.accessMode .Read)

def fstatat (dirfd : Int) (pathname : Bytes) : HookedCall :=
  .path (.pathAt dirfd pathname) (.accessMode .Read)

def scandir (dirname : Bytes) : HookedCall := .path (.c_char dirname) (.accessMode .ReadDir)

def getdirentries (fd : Int) : HookedCall := .path (.fd fd) (.accessMode .ReadDir)

def fdopendir (fd : Int) : HookedCall := .path (.fd fd) (.accessMode .ReadDir)

def opendir (dir_name : Bytes) : HookedCall := .path (.c_char dir_name) (.accessMode .ReadDir)

variable (env : Hook.Env)

/-- What an exec reports before it returns. -/
def reports (config : ExecResolveConfig) (raw_exec : RawExec) : List PathAccess :=
  (Client.handle_exec env.sys env.minimal_parse config raw_exec env.encoded_payload).trace

/-- What a call leaves of its caller, nothing if it panics, and what it has written. -/
def run (call : HookedCall) (caller : Option Hook.Caller) :
    Option (Option Hook.Caller) × List Written :=
  match call, caller with
  | .path _ _, none => (some none, [])
  | .path arg mode, some caller =>
      match handle_open env.codec env.helpers (some caller.client) arg mode with
      | .error _ => (none, [])
      | .ok (client, written) =>
          (some (client.map fun client ↦ { caller with client }), written.toList)
  -- "exec unexpectedly called before client initialized in ctor"
  | .exec _, none => (none, [])
  | .exec call, some caller =>
      let written := match call.reaching env with
        | none => []
        | some (config, raw_exec) =>
            caller.client.sendWritten env.codec (reports env config raw_exec)
      match call.run env caller with
      | (.error .panic, _) => (none, written)
      | (.error (.errno _), caller) => (some (some caller), written)
      -- a new image, whose client is not initialized
      | (.ok _, _) => (some none, written)
  | .posix_spawn _ _ _, none => (none, [])
  | .posix_spawn config raw_exec spawn, some caller =>
      let written := caller.client.sendWritten env.codec (reports env config raw_exec)
      match Hook.handle_posix_spawn env config raw_exec spawn caller with
      | (.error .panic, _) => (none, written)
      | (_, caller) => (some (some caller), written)

end HookedCall

/-! ## A program -/

/-- A program, as far as its hooks are concerned. -/
structure Program where
  view : View
  /-- The thread that calls next, and its part of the client. -/
  caller : Option Hook.Caller
  aborted : Bool
  log : List Written

/-- A call, or what happens between two calls. -/
inductive Program.Event where
  | call (call : HookedCall)
  /-- Descriptors, the current directory and the file system are as given from now on. -/
  | view (view : View)
  /-- Another thread, a child or a new image calls next. -/
  | caller (caller : Option Hook.Caller)

/-- One event in the life of a program. -/
def Program.step (env : Hook.Env) (program : Program) (event : Program.Event) : Option Program :=
  if program.aborted then none
  else match event with
    | .call call => match call.run (program.view.env env) program.caller with
        | (none, written) => some { program with aborted := true, log := program.log ++ written }
        | (some caller, written) => some { program with caller, log := program.log ++ written }
    | .view view => some { program with view }
    | .caller caller => some { program with caller }

/-! ## Where the paths are absolute -/

/-- A record of an absolute path. -/
def Absolute (codec : Codec PathAccess) (written : Written) : Prop :=
  ∃ path_access, written.bytes = codec.frame path_access ∧ Path.isAbsolute path_access.path

/-- The descriptor that the path of a call is made from, if there is one, has a path. -/
def PathArg.HasPath (arg : PathArg) (view : View) : Prop :=
  ∀ fd name, arg.relative = some (fd, name) → fd ≠ AT_FDCWD →
    ∀ file, view.fds fd = .ok file → file.HasPath

/-- The condition on an event. -/
def Program.Event.HasPath (program : Program) : Event → Prop
  | .call (.path path _) => path.HasPath program.view
  | _ => True

variable {view : View} {arg : PathArg} {codec : Codec PathAccess}

theorem isAbsolute_cwd {dir : Bytes} (h : view.helpers.getcwd = .ok dir) :
    Path.isAbsolute dir := by
  rw [View.helpers] at h
  cases hcwd : view.cwd with
  | error e =>
      rw [hcwd] at h
      cases h
  | ok cwd =>
      rw [hcwd] at h
      obtain rfl := Except.ok.inj h
      exact cwd.2

/-- The path of a descriptor. -/
theorem dirPath_eq_ok {fd : Int} {dir : Bytes} (h : view.helpers.dirPath fd = .ok dir) :
    fd = AT_FDCWD ∧ Path.isAbsolute dir ∨
      fd ≠ AT_FDCWD ∧ ∃ file, view.fds fd = .ok file ∧ dir = file.link := by
  rw [Helpers.dirPath] at h
  split at h
  · rename_i hfd
    exact .inl ⟨hfd, isAbsolute_cwd h⟩
  · rename_i hfd
    change (view.fds fd).map File.link = .ok dir at h
    cases hfile : view.fds fd with
    | error e =>
        rw [hfile] at h
        cases h
    | ok file =>
        rw [hfile] at h
        exact .inr ⟨hfd, file, rfl, (Except.ok.inj h).symm⟩

/-- The path that is recorded is absolute if the descriptor has a path, and only then. -/
theorem isAbsolute_recorded {path : Bytes} (h : recorded view.helpers arg = some path) :
    Path.isAbsolute path ↔ arg.HasPath view := by
  rcases recorded_eq_some h with ⟨hrel, habs⟩ | ⟨fd, name, dir, hrel, hname, hdir, rfl⟩
  · refine iff_of_true habs ?_
    intro fd name hrel'
    cases hrel.symm.trans hrel'
  · rcases dirPath_eq_ok hdir with ⟨hfd, habs⟩ | ⟨hfd, file, hfile, rfl⟩
    · have hne : dir ≠ [] := by
        rintro rfl
        cases habs
      apply iff_of_true ((isAbsolute_below hne hname).trans habs)
      intro fd' name' hrel' hfd'
      cases hrel.symm.trans hrel'
      exact absurd hfd hfd'
    · rw [isAbsolute_below file.link_ne_nil hname, file.isAbsolute_link]
      constructor
      · intro hpath fd' name' hrel' _ file' hfile'
        cases hrel.symm.trans hrel'
        cases hfile.symm.trans hfile'
        exact hpath
      · exact fun hpath ↦ hpath fd name hrel hfd file hfile

/-- The record of a path call is absolute if the descriptor has a path, and only then. -/
theorem absolute_of_handle_open {client client' : Option Client} {mode : ModeArg}
    {written : Written}
    (h : handle_open codec view.helpers client arg mode = .ok (client', some written)) :
    Absolute codec written ↔ arg.HasPath view := by
  obtain ⟨path, hrec, -, hbytes⟩ := written_of_handle_open h
  rw [← isAbsolute_recorded hrec]
  constructor
  · rintro ⟨path_access, hbytes', habs⟩
    obtain rfl := codec.frame_injective (hbytes.symm.trans hbytes')
    exact habs
  · exact fun habs ↦ ⟨_, hbytes, habs⟩

/-! What an exec reports is absolute whatever the descriptors are. -/

section Reports

/-- Only absolute paths are reported. -/
abbrev Reports {α : Type} (x : ExecM α) : Prop :=
  x.Emits fun path_access ↦ Path.isAbsolute path_access.path

variable {sys : System} (hcwd : ∀ dir, sys.cwd = .ok dir → Path.isAbsolute dir)
include hcwd

theorem reports_report (path_access : PathAccess) : Reports (report sys path_access) := by
  rw [report]
  split
  · rename_i habs
    exact .emit habs
  · cases hpath : sys.absolute path_access.path with
    | none => exact .fail _
    | some path =>
        refine .emit (Path.isAbsolute_absolute ?_ hpath)
        intro dir hdir
        cases hread : sys.cwd with
        | error e =>
            rw [hread] at hdir
            cases hdir
        | ok cwd =>
            rw [hread] at hdir
            obtain rfl := Option.some.inj hdir
            exact hcwd cwd hread

theorem reports_whichLoop (file : Bytes) (ps : List Bytes) (seen_eacces : Bool)
    (last_err : Errno) :
    Reports (whichLoop file (probe sys (report sys)) pure ps seen_eacces last_err) := by
  induction ps generalizing seen_eacces last_err with
  | nil => exact .fail _
  | cons p ps ih =>
      have hprobe : Reports (probe sys (report sys) (candidate file p)) :=
        .bind (reports_report hcwd _) fun _ ↦ .pure _
      refine .bind hprobe ?_
      intro result
      cases result with
      | ok u => exact .pure _
      | error err =>
          dsimp only
          split
          · exact ih _ _
          · exact .fail _

theorem reports_search (exec : Exec) (search_path : Option SearchPath) :
    Reports (exec.search sys (report sys) search_path) := by
  cases search_path with
  | none => exact .pure _
  | some search_path =>
      refine .bind ?_ fun _ ↦ .pure _
      rw [which]
      split
      · exact .fail _
      · split
        · exact .pure _
        · split
          · exact .fail _
          · exact reports_whichLoop hcwd _ _ _ _

theorem reports_parse_shebang (exec : Exec) (options : ParseShebangOptions) :
    Reports (exec.parse_shebang sys (report sys) options) := by
  refine .bind (.bind (.bind (reports_report hcwd _) fun _ ↦ .ofExcept _) fun _ ↦ .ofExcept _) ?_
  intro shebang
  cases shebang with
  | none => exact .pure _
  | some shebang =>
      dsimp only
      rw [Exec.withShebang]
      split
      · exact .fail _
      · exact .pure _

/-- The route of the execs. -/
theorem reports_handle_exec (minimal_parse : ElfCrate) (config : ExecResolveConfig)
    (raw_exec : RawExec) (encoded_payload : EncodedPayload) :
    Reports (Client.handle_exec sys minimal_parse config raw_exec encoded_payload) := by
  have hresolve : Reports (raw_exec.to_exec.resolve sys (report sys) config) :=
    .bind (reports_search hcwd _ _) fun _ ↦ reports_parse_shebang hcwd _ _
  refine .bind (.bind hresolve fun _ ↦ .bind (reports_report hcwd _) fun _ ↦ .ofExcept _) ?_
  exact fun _ ↦ .pure _

end Reports

/-- What a call of the exec family writes is absolute. -/
theorem absolute_of_reports {env : Hook.Env} {client : Client} {config : ExecResolveConfig}
    {raw_exec : RawExec} {w : Written}
    (h : w ∈ client.sendWritten env.codec
      (HookedCall.reports (view.env env) config raw_exec)) : Absolute env.codec w := by
  obtain ⟨path_access, hmem, hbytes⟩ := Client.mem_sendWritten h
  exact ⟨path_access, hbytes,
    reports_handle_exec (fun _ hdir ↦ isAbsolute_cwd hdir) _ _ _ _ path_access hmem⟩

/-- What a call writes is absolute, if its descriptor has a path. -/
theorem HookedCall.absolute_of_call {env : Hook.Env} {call : HookedCall}
    {caller : Option Hook.Caller}
    (hpath : ∀ arg mode, call = .path arg mode → arg.HasPath view) :
    ∀ w ∈ (call.run (view.env env) caller).2, Absolute env.codec w := by
  intro w hw
  cases caller with
  | none => cases call <;> cases hw
  | some caller =>
      cases call with
      | path arg mode =>
          rw [run] at hw
          split at hw
          · cases hw
          · rename_i client written hopen
            obtain rfl := Option.mem_toList.mp hw
            exact (absolute_of_handle_open hopen).mpr (hpath arg mode rfl)
      | exec call =>
          have hwritten : w ∈ (match call.reaching (view.env env) with
              | none => []
              | some (config, raw_exec) => caller.client.sendWritten (view.env env).codec
                  (reports (view.env env) config raw_exec)) := by
            rw [run] at hw
            split at hw <;> exact hw
          split at hwritten
          · cases hwritten
          · exact absolute_of_reports hwritten
      | posix_spawn config raw_exec spawn =>
          rw [run] at hw
          split at hw <;> exact absolute_of_reports hw

variable {env : Hook.Env} {program program' : Program}

/-- One event keeps the log absolute. -/
theorem absolute_of_step {event : Program.Event} (hstep : program.step env event = some program')
    (hpath : event.HasPath program) (hlog : ∀ w ∈ program.log, Absolute env.codec w) :
    ∀ w ∈ program'.log, Absolute env.codec w := by
  rw [Program.step.eq_def] at hstep
  split at hstep
  · cases hstep
  · cases event with
    | view view =>
        cases hstep
        exact hlog
    | caller caller =>
        cases hstep
        exact hlog
    | call call =>
        have hwritten : ∀ w ∈ program.log ++
            (call.run (program.view.env env) program.caller).2, Absolute env.codec w := by
          intro w hw
          rcases List.mem_append.mp hw with hw | hw
          · exact hlog w hw
          · refine HookedCall.absolute_of_call ?_ w hw
            rintro arg mode rfl
            exact hpath
        dsimp only at hstep
        split at hstep
        · rename_i hrun
          cases hstep
          rw [hrun] at hwritten
          exact hwritten
        · rename_i hrun
          cases hstep
          rw [hrun] at hwritten
          exact hwritten

/-- **Every record is an absolute path**, if every path call with a descriptor is on one
that has a path. -/
theorem absolute_of_run {events : List Program.Event}
    (hrun : runs (Program.step env) program events = some program')
    (hpath : StepsMeet (Program.step env) Program.Event.HasPath program events)
    (hlog : program.log = []) : ∀ w ∈ program'.log, Absolute env.codec w := by
  refine runs_induction (fun _ program ↦ ∀ w ∈ program.log, Absolute env.codec w) ?_ ?_ hrun
    hpath
  · rw [hlog]
    exact fun w hw ↦ nomatch hw
  · intro _ program event program' hlog hpath hstep
    exact absolute_of_step hstep hpath hlog

/-- A program in `/`, with these descriptors. -/
def sampleProgram (fds : Int → Except Errno File) : Program where
  view := ⟨fds, .ok ⟨ascii "/", by decide⟩, fun _ ↦ .error .ENOENT, none⟩
  caller := some Hook.freshCaller
  aborted := false
  log := []

def sampleDir : Int → Except Errno File := fun fd ↦
  if fd = 3 then .ok (.named ⟨ascii "/w", by decide⟩) else .error .ENOENT

def sampleStdin : Int → Except Errno File := fun fd ↦
  if fd = 0 then .ok (.pipe 7) else .error .ENOENT

/-- A program that cannot be started, a directory, and a file in it. -/
theorem absolute_sample : ∃ program,
    runs (Program.step (Hook.staticEnv none)) (sampleProgram fun _ ↦ .error .ENOENT)
      [.call (.exec (Hook.execv "s")), .view (sampleProgram sampleDir).view,
        .call (.openat 3 (toCStr (ascii "x")) 0)] = some program ∧
      program.log.length = 2 ∧ ∀ w ∈ program.log, Absolute PathAccess.shortCodec w := by
  have hlog : (runs (Program.step (Hook.staticEnv none)) (sampleProgram fun _ ↦ .error .ENOENT)
      [.call (.exec (Hook.execv "s")), .view (sampleProgram sampleDir).view,
        .call (.openat 3 (toCStr (ascii "x")) 0)]).map (·.log.length) = some 2 := by
    decide +kernel
  obtain ⟨program, hrun, hlen⟩ := Option.map_eq_some_iff.mp hlog
  refine ⟨program, hrun, hlen, absolute_of_run hrun ⟨trivial, ?_⟩ rfl⟩
  intro program₁ _
  refine ⟨trivial, ?_⟩
  intro program₂ hstep
  refine ⟨?_, fun _ _ ↦ trivial⟩
  have hview : program₂.view = (sampleProgram sampleDir).view := by
    rw [Program.step.eq_def] at hstep
    split at hstep
    · cases hstep
    · cases hstep
      rfl
  rintro fd name hrel - file hfile
  cases hrel
  rw [hview] at hfile
  cases hfile
  trivial

/-- The standard input of a program in a pipeline. -/
theorem pipe_is_recorded : ∃ program,
    runs (Program.step (Hook.staticEnv none)) (sampleProgram sampleStdin)
      [.call (.fstat 0)] = some program ∧
      ∃ w ∈ program.log, ¬Absolute PathAccess.shortCodec w := by
  have hlog : (runs (Program.step (Hook.staticEnv none)) (sampleProgram sampleStdin)
      [.call (.fstat 0)]).map Program.log =
      some [⟨0, 0, PathAccess.shortCodec.frame (.read (ascii "pipe:[7]"))⟩] := by
    decide +kernel
  obtain ⟨program, hrun, heq⟩ := Option.map_eq_some_iff.mp hlog
  refine ⟨program, hrun, _, heq ▸ List.mem_singleton_self _, ?_⟩
  rintro ⟨path_access, hbytes, habs⟩
  obtain rfl := PathAccess.shortCodec.frame_injective hbytes
  cases habs

end Fspy.Unix
