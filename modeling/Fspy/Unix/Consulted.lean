import Fspy.Unix.Search
import Fspy.Unix.Spawn

/-!
# What exec resolution consults

`handle_exec` again, with every probe and every open logged beside the reports, in
the order in which they happen.  Without these entries it is the `handle_exec` of the
model (`erase_handle_exec`), so the log shows which reports precede which system
calls.
-/

namespace Fspy.Unix.Consulted

open Lib.Traced

/-- A report, or a call that looks at a file. -/
inductive Consult where
  | report (path_access : PathAccess)
  /-- `access(path, X_OK)`. -/
  | access (path : Bytes)
  /-- `open(path, O_RDONLY | O_CLOEXEC)`. -/
  | opened (path : Bytes)
deriving DecidableEq, Repr

abbrev LogM (α : Type) := Lib.Traced Consult Stop α

/-- `?` on a `nix::Result`. -/
def nixResult {α : Type} (x : Except Errno α) : LogM α := .ofExcept (x.mapError .errno)

section Code

variable (sys : System)

def access (path : Bytes) : LogM (Except Errno Unit) := do
  emit (.access path)
  return sys.access path

/-- `open_executable`. -/
def open_executable (path : Bytes) : LogM Node := do
  nixResult (← access sys path)
  emit (.opened path)
  nixResult (sys.openRdonly path)

/-- `peek_executable`. -/
def peek_executable (path : Bytes) (len : Nat) : LogM Bytes := do
  match ← open_executable sys path with
  | .file content _ _ => return content.take len
  | .dir _ _ => nixResult (.error .EISDIR)

/-- `open_executable`, then `Mmap::map`. -/
def mmap_executable (path : Bytes) : LogM Bytes := do
  match ← open_executable sys path with
  | .file content _ _ => return content
  | .dir _ _ => nixResult (.error .ENODEV)

/-- `parse_shebang`. -/
def parseShebang (peek_executable : Bytes → Nat → LogM Bytes) (path : Bytes)
    (options : ParseShebangOptions) : LogM (Option Shebang) := do
  let buf ← peek_executable path PEEK_SIZE
  nixResult (parseLine buf options)

/-- The probe that `Exec::resolve` hands to `which`. -/
def probe (on_path_access : PathAccess → LogM Unit) (path : Bytes) :
    LogM (Except Errno Unit) := do
  on_path_access (.read path)
  access sys path

/-- The `PATH` search of `Exec::resolve`. -/
def search (on_path_access : PathAccess → LogM Unit) (exec : Exec)
    (search_path : Option SearchPath) : LogM Exec :=
  match search_path with
  | none => pure exec
  | some search_path => do
      let program ← nixResult (← Search.which (fun _ ↦ .fail .panic) exec.program
        (search_path.path sys) (probe sys on_path_access) (fun program ↦ pure (.ok program)))
      return { exec with program }

/-- `Exec::parse_shebang`. -/
def parse_shebang (on_path_access : PathAccess → LogM Unit) (exec : Exec)
    (options : ParseShebangOptions) : LogM Exec := do
  let peek := fun path len ↦ do
    on_path_access (.read path)
    peek_executable sys path len
  match ← parseShebang peek exec.program options with
  | some shebang => .ofExcept (exec.withShebang shebang).result
  | none => pure exec

/-- `Exec::resolve`. -/
def resolve (on_path_access : PathAccess → LogM Unit) (exec : Exec)
    (config : ExecResolveConfig) : LogM Exec := do
  let exec ← search sys on_path_access exec config.search_path
  parse_shebang sys on_path_access exec config.shebang_options

/-- `handle_exec` (linux). -/
def linuxHandleExec (minimal_parse : ElfCrate) (command : Exec)
    (encoded_payload : EncodedPayload) : LogM (Exec × Option PreExec) := do
  let executable_mmap ← mmap_executable sys command.program
  let dynamic ← nixResult (is_dynamically_linked_to_libc minimal_parse executable_mmap)
  let (envs, pre_exec) ← nixResult (Linux.trackEnvs encoded_payload command.envs dynamic)
  return ({ command with envs }, pre_exec)

/-- The callback of `handle_exec`: paths are reported absolute. -/
def report (path_access : PathAccess) : LogM Unit :=
  if Lib.Path.isAbsolute path_access.path then emit (.report path_access)
  else match sys.absolute path_access.path with
    -- "Failed to get cwd"
    | none => .fail .panic
    | some path => emit (.report { path_access with path })

/-- `handle_exec`. -/
def handle_exec (minimal_parse : ElfCrate) (command : Exec) (config : ExecResolveConfig)
    (encoded_payload : EncodedPayload) : LogM (Exec × Option PreExec) := do
  let command ← resolve sys (report sys) command config
  report sys (.read command.program)
  linuxHandleExec sys minimal_parse command encoded_payload

end Code

/-! ## The log without the calls -/

/-- What the caller of `handle_exec` sees of the log. -/
def Consult.reported : Consult → Option PathAccess
  | report path_access => some path_access
  | access _ => none
  | opened _ => none

section Erase

variable (sys : System)

theorem erase_nixResult {α : Type} (x : Except Errno α) :
    (nixResult x).erase Consult.reported = Unix.nixResult x :=
  erase_ofExcept _

theorem erase_report (path_access : PathAccess) :
    (report sys path_access).erase Consult.reported = Unix.report sys path_access := by
  rw [report, Unix.report]
  split
  · exact erase_emit_of_some rfl
  · cases sys.absolute path_access.path with
    | none => exact erase_fail _
    | some path => exact erase_emit_of_some rfl

/-- The callback sees no probe. -/
theorem erase_access (path : Bytes) :
    (access sys path).erase Consult.reported = pure (sys.access path) := by
  rw [access, erase_bind, erase_emit_of_none rfl, pure_bind, erase_pure]

theorem erase_open_executable (path : Bytes) :
    (open_executable sys path).erase Consult.reported =
      Unix.nixResult (sys.open_executable path) := by
  rw [open_executable, System.open_executable, erase_bind, erase_access, pure_bind, erase_bind,
    erase_nixResult]
  cases sys.access path with
  | error e => rfl
  | ok u => rfl

theorem erase_peek_executable (path : Bytes) (len : Nat) :
    (peek_executable sys path len).erase Consult.reported =
      Unix.nixResult (sys.peek_executable path len) := by
  rw [peek_executable, System.peek_executable, erase_bind, erase_open_executable]
  cases sys.open_executable path with
  | error e => rfl
  | ok node => cases node <;> rfl

theorem erase_mmap_executable (path : Bytes) :
    (mmap_executable sys path).erase Consult.reported =
      Unix.nixResult (sys.mmap_executable path) := by
  rw [mmap_executable, System.mmap_executable, erase_bind, erase_open_executable]
  cases sys.open_executable path with
  | error e => rfl
  | ok node => cases node <;> rfl

/-- The search over the candidates, its closures erased. -/
theorem erase_search {R : Type} (access_executable : Bytes → LogM (Except Errno Unit))
    (callback : Bytes → LogM (Except Errno R)) (cs : List Bytes) (seen_eacces : Bool)
    (last_err : Errno) :
    (Search.search access_executable callback cs seen_eacces last_err).erase Consult.reported =
      Search.search (fun path ↦ (access_executable path).erase Consult.reported)
        (fun path ↦ (callback path).erase Consult.reported) cs seen_eacces last_err := by
  induction cs generalizing seen_eacces last_err with
  | nil => rfl
  | cons c cs ih =>
      rw [Search.search, Search.search, erase_bind]
      refine bind_congr fun answer ↦ ?_
      cases answer with
      | ok u => rfl
      | error err =>
          dsimp only
          split
          · exact ih _ _
          · rfl

theorem erase_which {R : Type} (file path : Bytes)
    (access_executable : Bytes → LogM (Except Errno Unit))
    (callback : Bytes → LogM (Except Errno R)) :
    (Search.which (fun _ ↦ .fail .panic) file path access_executable callback).erase
        Consult.reported =
      Search.which (fun _ ↦ .fail .panic) file path
        (fun path ↦ (access_executable path).erase Consult.reported)
        (fun path ↦ (callback path).erase Consult.reported) := by
  rw [Search.which_eq, Search.which_eq]
  split
  · rfl
  · split
    · rfl
    · split
      · rfl
      · exact erase_search _ _ _ _ _

theorem erase_probe (path : Bytes) :
    (probe sys (report sys) path).erase Consult.reported =
      Unix.probe sys (Unix.report sys) path := by
  rw [probe, Unix.probe, erase_bind, erase_report]
  rfl

theorem erase_exec_search (exec : Exec) (search_path : Option SearchPath) :
    (search sys (report sys) exec search_path).erase Consult.reported =
      exec.search sys (Unix.report sys) search_path := by
  cases search_path with
  | none => rfl
  | some search_path =>
      have hcallback : (fun path : Bytes ↦ (pure (.ok path) : LogM (Except Errno Bytes)).erase
          Consult.reported) = Search.nixCallback pure := rfl
      simp only [search, Exec.search, Search.which_eq_which, erase_bind, erase_which, erase_probe,
        hcallback, bind_assoc]
      rfl

theorem erase_parse_shebang (exec : Exec) (options : ParseShebangOptions) :
    (parse_shebang sys (report sys) exec options).erase Consult.reported =
      exec.parse_shebang sys (Unix.report sys) options := by
  simp only [parse_shebang, Exec.parse_shebang, parseShebang, Unix.parse_shebang, erase_bind,
    erase_report, erase_peek_executable, erase_nixResult]
  refine bind_congr fun shebang ↦ ?_
  cases shebang with
  | none => rfl
  | some shebang =>
      change Lib.Traced.ofExcept (exec.withShebang shebang).result = exec.withShebang shebang
      rw [Exec.withShebang]
      cases exec.args <;> rfl

theorem erase_resolve (exec : Exec) (config : ExecResolveConfig) :
    (resolve sys (report sys) exec config).erase Consult.reported =
      exec.resolve sys (Unix.report sys) config := by
  simp only [resolve, Exec.resolve, erase_bind, erase_exec_search, erase_parse_shebang]

theorem erase_linuxHandleExec (minimal_parse : ElfCrate) (command : Exec)
    (encoded_payload : EncodedPayload) :
    (linuxHandleExec sys minimal_parse command encoded_payload).erase Consult.reported =
      Unix.nixResult (Linux.handle_exec sys minimal_parse command encoded_payload) := by
  simp only [linuxHandleExec, Linux.handle_exec, nixResult_bind, erase_bind,
    erase_mmap_executable, erase_nixResult]
  rfl

/-- **The log without the calls is the trace of the model.** -/
theorem erase_handle_exec (minimal_parse : ElfCrate) (command : Exec)
    (config : ExecResolveConfig) (encoded_payload : EncodedPayload) :
    (handle_exec sys minimal_parse command config encoded_payload).erase Consult.reported =
      Unix.handle_exec sys minimal_parse command config encoded_payload := by
  simp only [handle_exec, Unix.handle_exec, erase_bind, erase_resolve, erase_report,
    erase_linuxHandleExec]

end Erase

/-! ## The log -/

section Log

variable (sys : System)

/-- The report of a path. -/
def reportLog (path : Bytes) : List Consult :=
  (sys.absolutePath path).toList.map fun path ↦ .report (.read path)

/-- A candidate is reported, then probed. -/
def probeLog (path : Bytes) : List Consult := reportLog sys path ++ [.access path]

/-- A file is probed, and opened if it can be executed. -/
def openLog (path : Bytes) : List Consult :=
  .access path ::
    match sys.access path with
    | .ok () => [.opened path]
    | .error _ => []

/-- A file is reported before it is opened. -/
def fileLog (path : Bytes) : List Consult := reportLog sys path ++ openLog sys path

variable {sys} {path : Bytes}

theorem report_of_anchored (h : ¬sys.Unanchored path) : ∃ absolute,
    sys.absolutePath path = some absolute ∧
      report sys (.read path) = ⟨.ok (), reportLog sys path⟩ := by
  rw [report, reportLog, System.absolutePath]
  simp only [PathAccess.read]
  by_cases habs : Lib.Path.isAbsolute path = true
  · simp only [habs, if_true]
    exact ⟨path, rfl, rfl⟩
  · simp only [habs, if_false, Bool.false_eq_true]
    cases habsolute : sys.absolute path with
    | none => exact absurd habsolute h
    | some absolute => exact ⟨absolute, rfl, rfl⟩

/-- The searched candidates, one after the other. -/
theorem search_log (cs : List Bytes) (seen_eacces : Bool) (last_err : Errno)
    (h : ∀ c ∈ searched sys.access cs, ¬sys.Unanchored c) :
    (Search.search (probe sys (report sys)) (fun c ↦ pure (.ok c)) cs seen_eacces last_err :
      LogM (Except Errno Bytes)).trace = (searched sys.access cs).flatMap (probeLog sys) := by
  induction cs generalizing seen_eacces last_err with
  | nil => rfl
  | cons c cs ih =>
      rw [searched] at h
      obtain ⟨absolute, -, hreport⟩ := report_of_anchored (h c List.mem_cons_self)
      have hprobe : probe sys (report sys) c = ⟨.ok (sys.access c), probeLog sys c⟩ := by
        rw [probe, hreport]
        rfl
      rw [Search.search, bind_of_ok (congrArg Lib.Traced.result hprobe), hprobe, searched,
        List.flatMap_cons]
      refine congrArg (probeLog sys c ++ ·) ?_
      cases hacc : sys.access c with
      | ok u => rfl
      | error err =>
          dsimp only
          cases hgo : goesOn err with
          | false => rfl
          | true =>
              simp only [if_true]
              refine ih _ _ fun c' hc' ↦ h c' (List.mem_cons_of_mem c ?_)
              rw [hacc]
              simpa [hgo] using hc'

theorem exec_search_log {exec : Exec} {search_path : Option SearchPath}
    (h : ∀ c ∈ exec.probed sys search_path, ¬sys.Unanchored c) :
    (search sys (report sys) exec search_path).trace =
      (exec.probed sys search_path).flatMap (probeLog sys) := by
  cases search_path with
  | none => rfl
  | some search_path =>
      rw [search, trace_bind_of_quiet fun program ↦ by cases program <;> rfl, Search.which_eq]
      rw [Exec.probed] at h ⊢
      split
      · rfl
      · rename_i hfile
        rw [if_neg hfile] at h
        split
        · rfl
        · rename_i hsep
          rw [if_neg hsep] at h
          split
          · rfl
          · rename_i hlong
            rw [if_neg hlong] at h
            exact search_log _ _ _ h

theorem open_executable_log : (open_executable sys path).trace = openLog sys path := by
  have haccess : (access sys path).result = .ok (sys.access path) := rfl
  rw [open_executable, bind_of_ok haccess, openLog]
  cases hacc : sys.access path with
  | error e => rfl
  | ok u =>
      cases sys.openRdonly path <;> rfl

/-- The end of `peek_executable` and of `mmap_executable` is no call. -/
theorem peek_executable_log (len : Nat) :
    (peek_executable sys path len).trace = (open_executable sys path).trace :=
  trace_bind_of_quiet fun node ↦ by cases node <;> rfl

theorem mmap_executable_log :
    (mmap_executable sys path).trace = (open_executable sys path).trace :=
  trace_bind_of_quiet fun node ↦ by cases node <;> rfl

/-- The program is reported before it is probed and opened. -/
theorem parse_shebang_log {exec : Exec} {options : ParseShebangOptions}
    (h : ¬sys.Unanchored exec.program) :
    (parse_shebang sys (report sys) exec options).trace = fileLog sys exec.program := by
  obtain ⟨absolute, -, hreport⟩ := report_of_anchored h
  rw [parse_shebang, trace_bind_of_quiet fun shebang ↦ by cases shebang <;> rfl, parseShebang,
    trace_bind_of_quiet fun buf ↦ rfl, bind_of_ok (congrArg Lib.Traced.result hreport)]
  dsimp only
  rw [peek_executable_log, open_executable_log, hreport, fileLog]

theorem linuxHandleExec_log {minimal_parse : ElfCrate} {command : Exec}
    {encoded_payload : EncodedPayload} :
    (linuxHandleExec sys minimal_parse command encoded_payload).trace =
      (open_executable sys command.program).trace := by
  rw [linuxHandleExec, trace_bind_of_quiet, mmap_executable_log]
  intro content
  refine (trace_bind_of_quiet fun dynamic ↦ ?_).trans rfl
  exact (trace_bind_of_quiet fun envs ↦ rfl).trans rfl

variable {minimal_parse : ElfCrate} {command : Exec} {config : ExecResolveConfig}
  {encoded_payload : EncodedPayload}

/-- The files resolution looks at, in order. -/
def consulted (sys : System) (command : Exec) (config : ExecResolveConfig) : List Bytes :=
  command.probed sys config.search_path ++
    ((command.target sys config.search_path).toList ++ (command.resolved sys config).toList)

/-- The search, if it finds a program. -/
theorem search_result_of_target {p : Bytes}
    (hanchored : ∀ c ∈ command.probed sys config.search_path, ¬sys.Unanchored c)
    (ht : command.target sys config.search_path = some p) :
    (search sys (report sys) command config.search_path).result =
      .ok { command with program := p } := by
  have hsearch := congrArg Lib.Traced.result (erase_exec_search sys command config.search_path)
  rw [result_erase] at hsearch
  rw [hsearch, Exec.search_eq_ok]
  exact ⟨fun c hc ↦ report_eq_ok.mpr (hanchored c hc), p, ht, rfl⟩

/-- The search, if it finds none. -/
theorem search_result_of_none (ht : command.target sys config.search_path = none) :
    ∃ e, (search sys (report sys) command config.search_path).result = .error e := by
  have hsearch := congrArg Lib.Traced.result (erase_exec_search sys command config.search_path)
  rw [result_erase] at hsearch
  cases hres : (search sys (report sys) command config.search_path).result with
  | error e => exact ⟨e, rfl⟩
  | ok exec =>
      obtain ⟨-, p, hp, -⟩ := Exec.search_eq_ok.mp (hsearch ▸ hres)
      rw [ht] at hp
      cases hp

theorem resolve_log (h : NoPanic (command.resolve sys (Unix.report sys) config).result) :
    (resolve sys (report sys) command config).trace =
      (command.probed sys config.search_path).flatMap (probeLog sys) ++
        (command.target sys config.search_path).toList.flatMap (fileLog sys) := by
  rw [NoPanic, ne_eq, resolve_eq_panic, not_or, not_and] at h
  obtain ⟨hprobed, htarget⟩ := h
  have hanchored : ∀ c ∈ command.probed sys config.search_path, ¬sys.Unanchored c :=
    fun c hc hu ↦ hprobed ⟨c, hc, hu⟩
  rw [resolve]
  cases ht : command.target sys config.search_path with
  | none =>
      obtain ⟨e, hres⟩ := search_result_of_none ht
      rw [bind_of_error hres, exec_search_log hanchored]
      simp
  | some p =>
      have hp : ¬sys.Unanchored p := fun hu ↦ htarget hanchored ⟨p, ht, .inl hu⟩
      rw [bind_of_ok (search_result_of_target hanchored ht), exec_search_log hanchored,
        parse_shebang_log hp]
      simp

/-- **The log of a run that does not panic.** -/
theorem handle_exec_log
    (h : NoPanic (Unix.handle_exec sys minimal_parse command config encoded_payload).result) :
    (handle_exec sys minimal_parse command config encoded_payload).trace =
      (command.probed sys config.search_path).flatMap (probeLog sys) ++
        ((command.target sys config.search_path).toList.flatMap (fileLog sys) ++
          (command.resolved sys config).toList.flatMap (fileLog sys)) := by
  rw [NoPanic, ne_eq, handle_exec_eq_panic, not_or] at h
  obtain ⟨hresolve, hfinal⟩ := h
  have hlog := resolve_log hresolve
  have hres : (resolve sys (report sys) command config).result =
      (command.resolve sys (Unix.report sys) config).result :=
    congrArg Lib.Traced.result (erase_resolve sys command config)
  rw [handle_exec]
  cases hexec : (resolve sys (report sys) command config).result with
  | error e =>
      have hnone : command.resolved sys config = none := by
        cases hq : command.resolved sys config with
        | none => rfl
        | some q =>
            obtain ⟨exec', hok⟩ := exists_resolve_of_resolved hresolve hq
            rw [← hres, hexec] at hok
            cases hok
      rw [bind_of_error hexec, hnone, hlog]
      simp
  | ok exec' =>
      have hanchored : ¬sys.Unanchored exec'.program :=
        fun hu ↦ hfinal ⟨exec', hres ▸ hexec, hu⟩
      obtain ⟨absolute, -, hreport⟩ := report_of_anchored hanchored
      rw [bind_of_ok hexec, resolved_of_resolve (hres ▸ hexec), hlog,
        bind_of_ok (congrArg Lib.Traced.result hreport), hreport, linuxHandleExec_log,
        open_executable_log, ← fileLog]
      simp

/-! ## Reports come first -/

/-- The entry is a call on this path. -/
def Consult.LooksAt (e : Consult) (path : Bytes) : Prop := e = .access path ∨ e = .opened path

/-- No file of the log is looked at before it has been reported. -/
def Preceded (sys : System) (log : List Consult) : Prop :=
  ∀ before e after path, log = before ++ e :: after → e.LooksAt path →
    ∃ absolute, sys.absolutePath path = some absolute ∧ .report (.read absolute) ∈ before

theorem Preceded.append {log log' : List Consult} (h : Preceded sys log)
    (h' : Preceded sys log') : Preceded sys (log ++ log') := by
  intro before e after path hsplit he
  rcases List.append_eq_append_iff.mp hsplit with ⟨more, rfl, hlog'⟩ | ⟨more, hlog, hafter⟩
  · obtain ⟨absolute, habs, hmem⟩ := h' more e after path hlog' he
    exact ⟨absolute, habs, List.mem_append_right _ hmem⟩
  · cases more with
    | nil =>
        obtain ⟨absolute, habs, hmem⟩ := h' [] e after path hafter.symm he
        cases hmem
    | cons e' more =>
        obtain ⟨rfl, -⟩ := List.cons.inj hafter
        exact h before e more path hlog he

theorem Preceded.flatMap {α : Type} {f : α → List Consult} {l : List α}
    (h : ∀ a ∈ l, Preceded sys (f a)) : Preceded sys (l.flatMap f) := by
  induction l with
  | nil =>
      intro before e after path hsplit
      exact absurd hsplit.symm (List.append_ne_nil_of_right_ne_nil _ (List.cons_ne_nil e after))
  | cons a l ih =>
      rw [List.flatMap_cons]
      exact (h a List.mem_cons_self).append (ih fun b hb ↦ h b (List.mem_cons_of_mem a hb))

/-- A report, then calls on the path that was reported. -/
theorem preceded_of_report {calls : List Consult} (hpath : ¬sys.Unanchored path)
    (hcalls : ∀ e ∈ calls, e.LooksAt path) : Preceded sys (reportLog sys path ++ calls) := by
  obtain ⟨absolute, habs, -⟩ := report_of_anchored hpath
  have hlog : reportLog sys path = [.report (.read absolute)] := by rw [reportLog, habs]; rfl
  rw [hlog]
  intro before e after path' hsplit he
  cases before with
  | nil =>
      obtain ⟨rfl, -⟩ := List.cons.inj hsplit
      rcases he with he | he <;> cases he
  | cons e' before =>
      obtain ⟨rfl, hcalls'⟩ := List.cons.inj hsplit
      have hmem : e ∈ calls := by
        rw [show calls = before ++ e :: after from hcalls']
        exact List.mem_append_right _ List.mem_cons_self
      have hsame : path' = path := by
        rcases hcalls e hmem with rfl | rfl <;> rcases he with he | he <;> cases he <;> rfl
      exact ⟨absolute, hsame ▸ habs, List.mem_cons_self⟩

theorem looksAt_openLog {e : Consult} (he : e ∈ openLog sys path) : e.LooksAt path := by
  rcases List.mem_cons.mp he with rfl | he
  · exact .inl rfl
  · split at he
    · exact .inr (List.mem_singleton.mp he)
    · cases he

theorem looksAt_probe {e : Consult} (he : e ∈ [Consult.access path]) : e.LooksAt path :=
  .inl (List.mem_singleton.mp he)

/-- What a caller sees of a file in the log. -/
theorem reported_reportLog (calls : List Consult) (h : ∀ e ∈ calls, e.LooksAt path) :
    (reportLog sys path ++ calls).filterMap Consult.reported =
      (sys.absolutePath path).toList.map .read := by
  have hnone : calls.filterMap Consult.reported = [] := by
    rw [List.filterMap_eq_nil_iff]
    intro e he
    rcases h e he with rfl | rfl <;> rfl
  rw [List.filterMap_append, hnone, List.append_nil, reportLog]
  cases sys.absolutePath path <;> rfl

theorem reported_probes (paths : List Bytes) :
    (paths.flatMap (probeLog sys)).filterMap Consult.reported =
      paths.flatMap fun path ↦ (sys.absolutePath path).toList.map .read := by
  rw [List.filterMap_flatMap]
  exact List.flatMap_congr fun path _ ↦ reported_reportLog _ fun _ ↦ looksAt_probe

theorem reported_files (paths : List Bytes) :
    (paths.flatMap (fileLog sys)).filterMap Consult.reported =
      paths.flatMap fun path ↦ (sys.absolutePath path).toList.map .read := by
  rw [List.filterMap_flatMap]
  exact List.flatMap_congr fun path _ ↦ reported_reportLog _ fun _ ↦ looksAt_openLog

/-- Unless `handle_exec` panics, every file it looks at has an absolute path. -/
theorem anchored_of_noPanic
    (h : NoPanic (Unix.handle_exec sys minimal_parse command config encoded_payload).result) :
    ∀ c ∈ consulted sys command config, ¬sys.Unanchored c := by
  rw [NoPanic, ne_eq, handle_exec_eq_panic, not_or] at h
  have hprobed : ∀ c ∈ command.probed sys config.search_path, ¬sys.Unanchored c :=
    fun c hc hu ↦ h.1 (resolve_eq_panic.mpr (.inl ⟨c, hc, hu⟩))
  intro c hc
  rw [consulted, List.mem_append, List.mem_append, Option.mem_toList, Option.mem_toList] at hc
  rcases hc with hc | hc | hc
  · exact hprobed c hc
  · exact fun hu ↦ h.1 (resolve_eq_panic.mpr (.inr ⟨hprobed, c, hc, .inl hu⟩))
  · obtain ⟨exec', hexec⟩ := exists_resolve_of_resolved h.1 hc
    rw [resolved_of_resolve hexec] at hc
    obtain rfl := Option.some.inj hc
    exact fun hu ↦ h.2 ⟨exec', hexec, hu⟩

theorem map_some_reports {paths : List Bytes} (h : ∀ c ∈ paths, ¬sys.Unanchored c) :
    (paths.flatMap fun path ↦ (sys.absolutePath path).toList.map PathAccess.read).map some =
      paths.map fun path ↦ (sys.absolutePath path).map .read := by
  induction paths with
  | nil => rfl
  | cons c paths ih =>
      obtain ⟨absolute, habs, -⟩ := report_of_anchored (h c List.mem_cons_self)
      rw [List.flatMap_cons, List.map_append, ih fun d hd ↦ h d (List.mem_cons_of_mem c hd),
        List.map_cons, habs]
      rfl

/-- **Resolution reports exactly the files it consults**, with their absolute paths and in
the order in which it consults them, and no file before its report. -/
theorem handle_exec_reports
    (h : NoPanic (Unix.handle_exec sys minimal_parse command config encoded_payload).result) :
    (Unix.handle_exec sys minimal_parse command config encoded_payload).trace.map some =
        (consulted sys command config).map (fun path ↦ (sys.absolutePath path).map .read) ∧
      (handle_exec sys minimal_parse command config encoded_payload).erase Consult.reported =
        Unix.handle_exec sys minimal_parse command config encoded_payload ∧
      Preceded sys (handle_exec sys minimal_parse command config encoded_payload).trace := by
  have herase := erase_handle_exec sys minimal_parse command config encoded_payload
  have hanchored := anchored_of_noPanic h
  have hlog := handle_exec_log h
  refine ⟨?_, herase, ?_⟩
  · rw [← herase, erase, hlog, List.filterMap_append, List.filterMap_append, reported_probes,
      reported_files, reported_files, ← List.flatMap_append, ← List.flatMap_append]
    exact map_some_reports hanchored
  · rw [consulted] at hanchored
    simp only [List.mem_append] at hanchored
    rw [hlog]
    refine .append (.flatMap fun c hc ↦ ?_) (.append (.flatMap fun c hc ↦ ?_)
      (.flatMap fun c hc ↦ ?_))
    · exact preceded_of_report (hanchored c (.inl hc)) fun _ ↦ looksAt_probe
    · exact preceded_of_report (hanchored c (.inr (.inl hc))) fun _ ↦ looksAt_openLog
    · exact preceded_of_report (hanchored c (.inr (.inr hc))) fun _ ↦ looksAt_openLog

/-- A script that is found in the second element of `PATH`. -/
def sampleSystem : System :=
  { System.ofFiles [(ascii "/b/s", .file (ascii "#!/bin/sh\n") true true),
      (ascii "/bin/sh", .file [] true true)] with
    PATH := some (ascii "/a:/b") }

theorem handle_exec_reports_sample :
    (Unix.handle_exec sampleSystem (fun _ ↦ none) ⟨ascii "s", [ascii "s"], []⟩
        (.search_path_enabled none) samplePayload).trace.map some =
      [ascii "/a/s", ascii "/b/s", ascii "/b/s", ascii "/bin/sh"].map
        (fun path ↦ some (.read path)) ∧
      (handle_exec sampleSystem (fun _ ↦ none) ⟨ascii "s", [ascii "s"], []⟩
          (.search_path_enabled none) samplePayload).erase Consult.reported =
        Unix.handle_exec sampleSystem (fun _ ↦ none) ⟨ascii "s", [ascii "s"], []⟩
          (.search_path_enabled none) samplePayload ∧
      Preceded sampleSystem (handle_exec sampleSystem (fun _ ↦ none) ⟨ascii "s", [ascii "s"], []⟩
          (.search_path_enabled none) samplePayload).trace := by
  have h := @handle_exec_reports sampleSystem (fun _ ↦ none) ⟨ascii "s", [ascii "s"], []⟩
    (.search_path_enabled none) samplePayload (by decide)
  exact ⟨h.1.trans (by decide), h.2⟩

end Log

end Fspy.Unix.Consulted
