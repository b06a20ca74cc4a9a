import Fspy.Unix.Which

/-!
# Resolving a program like the exec family

`Exec::resolve` replaces a program by the file the search finds and, if that is a
script, by its interpreter.  `Exec.target` and `System.script` say what these two
are; `resolve_eq_ok` and `resolve_eq_panic` are what the rest of the development
knows about resolution.
-/

namespace Fspy.Unix

/-- `SearchPath`. -/
structure SearchPath where
  custom_path : Option Bytes
deriving DecidableEq, Repr

/-- `ExecResolveConfig`. -/
structure ExecResolveConfig where
  search_path : Option SearchPath
  shebang_options : ParseShebangOptions
deriving DecidableEq, Repr

namespace ExecResolveConfig

/-- execve: no `PATH` search. -/
def search_path_disabled : ExecResolveConfig := ⟨none, .default⟩

/-- execlp, execvp, execvpe. -/
def search_path_enabled (custom_path : Option Bytes) : ExecResolveConfig :=
  ⟨some ⟨custom_path⟩, .default⟩

end ExecResolveConfig

/-- An environment, entry by entry; the value is `none` when there is no `=`. -/
abbrev Envs := List (Bytes × Option Bytes)

/-- `Exec`. -/
structure Exec where
  program : Bytes
  args : List Bytes
  envs : Envs
deriving DecidableEq, Repr

/-- The search path of a process without `PATH`. -/
def default_path : Bytes := ascii "/usr/local/bin:/bin:/usr/bin"

/-- The path `Exec::resolve` searches. -/
def SearchPath.path (search_path : SearchPath) (sys : System) : Bytes :=
  match search_path.custom_path with
  | some custom_path => custom_path
  | none => match sys.PATH with
      | some path => path
      | none => default_path

namespace Exec

/-- What a shebang does to the program and its arguments: `args[0]` is replaced, the
arguments of the interpreter and the path of the script come after it. -/
def withShebang (exec : Exec) (shebang : Shebang) : ExecM Exec :=
  match exec.args with
  | [] => .fail .panic
  | _ :: rest => pure
      { exec with
        program := shebang.interpreter
        args := shebang.interpreter :: (shebang.arguments ++ exec.program :: rest) }

/-- `Exec::parse_shebang`. -/
def parse_shebang (sys : System) (on_path_access : PathAccess → ExecM Unit) (exec : Exec)
    (options : ParseShebangOptions) : ExecM Exec := do
  let peek_executable := fun path len ↦ do
    on_path_access (.read path)
    nixResult (sys.peek_executable path len)
  match ← Unix.parse_shebang peek_executable exec.program options with
  | some shebang => exec.withShebang shebang
  | none => pure exec

/-- The `PATH` search of `Exec::resolve`. -/
def search (sys : System) (on_path_access : PathAccess → ExecM Unit) (exec : Exec)
    (search_path : Option SearchPath) : ExecM Exec :=
  match search_path with
  | none => pure exec
  | some search_path => do
      let program ← which exec.program (search_path.path sys) (probe sys on_path_access) pure
      return { exec with program }

/-- `Exec::resolve`. -/
def resolve (sys : System) (on_path_access : PathAccess → ExecM Unit) (exec : Exec)
    (config : ExecResolveConfig) : ExecM Exec := do
  let exec ← exec.search sys on_path_access config.search_path
  exec.parse_shebang sys on_path_access config.shebang_options

end Exec

/-- The first value an environment binds a name to. -/
def existingValue (envs : Envs) (name : Bytes) : Option Bytes :=
  envs.findSome? fun (n, v) ↦ if n = name then v else none

/-- `ensure_env`. -/
def ensure_env (envs : Envs) (name value : Bytes) : Except Errno Envs :=
  match existingValue envs name with
  | some existing_value => if existing_value = value then .ok envs else .error .EINVAL
  | none => .ok (envs ++ [(name, some value)])

/-- Either the name is already bound to the value, or the binding is appended. -/
theorem ensure_env_eq_ok {envs envs' : Envs} {name value : Bytes} :
    ensure_env envs name value = .ok envs' ↔
      existingValue envs name = some value ∧ envs' = envs ∨
        existingValue envs name = none ∧ envs' = envs ++ [(name, some value)] := by
  rw [ensure_env]
  cases existingValue envs name with
  | none => simp [eq_comm]
  | some v =>
      by_cases h : v = value
      · simp [h, eq_comm]
      · simp [h]

theorem existingValue_append (envs envs' : Envs) (name : Bytes) :
    existingValue (envs ++ envs') name =
      (existingValue envs name).or (existingValue envs' name) :=
  List.findSome?_append

/-- What is bound after `ensure_env`. -/
theorem existingValue_of_ensure_env {envs envs' : Envs} {name value : Bytes}
    (h : ensure_env envs name value = .ok envs') : existingValue envs' name = some value := by
  rcases ensure_env_eq_ok.mp h with ⟨hv, rfl⟩ | ⟨hv, rfl⟩
  · exact hv
  · rw [existingValue_append, hv]
    simp [existingValue]

/-! ## What resolution does -/

/-- The candidates of a program without a slash. -/
def candidates (path program : Bytes) : List Bytes := (path.splitOn 58).map (candidate program)

namespace Exec

/-- The candidates the search probes. -/
def probed (exec : Exec) (sys : System) (search_path : Option SearchPath) : List Bytes :=
  match search_path with
  | none => []
  | some search_path =>
      if exec.program.isEmpty then []
      else if exec.program.contains Lib.Path.sep then []
      else if exec.program.length > NAME_MAX then []
      else searched sys.access (candidates (search_path.path sys) exec.program)

/-- The program the search settles on. -/
def target (exec : Exec) (sys : System) (search_path : Option SearchPath) : Option Bytes :=
  match search_path with
  | none => some exec.program
  | some search_path =>
      if exec.program.isEmpty then none
      else if exec.program.contains Lib.Path.sep then some exec.program
      else if exec.program.length > NAME_MAX then none
      else found sys.access (candidates (search_path.path sys) exec.program)

end Exec

/-- The shebang of a program, if it can be opened and has one. -/
def System.script (sys : System) (program : Bytes) (options : ParseShebangOptions) :
    Option Shebang :=
  match sys.mmap_executable program with
  | .ok content => shebangOf content options
  | .error _ => none

namespace Exec

variable {sys : System} {on_path_access : PathAccess → ExecM Unit} {exec exec' : Exec}
  {search_path : Option SearchPath} {options : ParseShebangOptions}

theorem search_eq_ok : (exec.search sys on_path_access search_path).result = .ok exec' ↔
    (∀ c ∈ exec.probed sys search_path, (on_path_access (.read c)).result = .ok ()) ∧
      ∃ p, exec.target sys search_path = some p ∧ exec' = { exec with program := p } := by
  cases search_path with
  | none =>
      simp only [search, probed, target, Lib.Traced.result_pure, List.not_mem_nil, false_implies,
        implies_true, true_and, Option.some.injEq, Except.ok.injEq]
      constructor
      · rintro rfl
        exact ⟨_, rfl, rfl⟩
      · rintro ⟨p, rfl, rfl⟩
        rfl
  | some search_path =>
      rw [search, Lib.Traced.bind_eq_ok, probed, target]
      simp only [which]
      split
      · simp
      · split
        · simp [eq_comm]
        · split
          · simp
          · simp only [whichLoop_eq_ok, candidates, Lib.Traced.result_pure, Except.ok.injEq]
            constructor
            · rintro ⟨p, ⟨hreports, hfound⟩, rfl⟩
              exact ⟨hreports, p, hfound, rfl⟩
            · rintro ⟨hreports, p, hfound, rfl⟩
              exact ⟨p, ⟨hreports, hfound⟩, rfl⟩

theorem search_eq_panic (hreport : ∀ pa e, (on_path_access pa).result ≠ .error (.errno e)) :
    (exec.search sys on_path_access search_path).result = .error .panic ↔
      ∃ c ∈ exec.probed sys search_path, (on_path_access (.read c)).result = .error .panic := by
  cases search_path with
  | none => simp [search, probed]
  | some search_path =>
      rw [search, Lib.Traced.bind_eq_error, probed]
      simp only [which]
      split
      · simp
      · split
        · simp
        · split
          · simp
          · simp [whichLoop_eq_panic hreport, candidates]

theorem withShebang_eq_ok {shebang : Shebang} :
    (exec.withShebang shebang).result = .ok exec' ↔
      ∃ arg rest, exec.args = arg :: rest ∧
        exec' = ⟨shebang.interpreter,
          shebang.interpreter :: (shebang.arguments ++ exec.program :: rest), exec.envs⟩ := by
  rw [withShebang]
  cases h : exec.args <;> simp [eq_comm]

theorem withShebang_eq_panic {shebang : Shebang} :
    (exec.withShebang shebang).result = .error .panic ↔ exec.args = [] := by
  rw [withShebang]
  cases h : exec.args <;> simp

/-- What is left of `parse_shebang` once the program is reported and opened. -/
def rewritten (exec : Exec) (options : ParseShebangOptions) (content : Bytes) :
    Except Stop Exec :=
  match shebangOf content options with
  | some shebang => (exec.withShebang shebang).result
  | none => .ok exec

theorem rewritten_of_some {content : Bytes} {shebang : Shebang} {arg : Bytes} {rest : List Bytes}
    (hs : shebangOf content options = some shebang) (hargs : exec.args = arg :: rest) :
    exec.rewritten options content = .ok ⟨shebang.interpreter,
      shebang.interpreter :: (shebang.arguments ++ exec.program :: rest), exec.envs⟩ := by
  rw [rewritten, hs]
  exact withShebang_eq_ok.mpr ⟨arg, rest, hargs, rfl⟩

theorem rewritten_of_none {content : Bytes} (hs : shebangOf content options = none) :
    exec.rewritten options content = .ok exec := by
  rw [rewritten, hs]

/-- With an `args[0]` to replace, nothing can go wrong. -/
theorem rewritten_of_ne_nil (exec : Exec) (hargs : exec.args ≠ []) (options : ParseShebangOptions)
    (content : Bytes) : ∃ exec', exec.rewritten options content = .ok exec' := by
  obtain ⟨arg, rest, hcons⟩ := List.exists_cons_of_ne_nil hargs
  cases hs : shebangOf content options with
  | some shebang => exact ⟨_, rewritten_of_some hs hcons⟩
  | none => exact ⟨_, rewritten_of_none hs⟩

/-- The file that is left to execute: the interpreter, or the program itself. -/
def interpreterOr (options : ParseShebangOptions) (content program : Bytes) : Bytes :=
  match shebangOf content options with
  | some shebang => shebang.interpreter
  | none => program

/-- The program that resolution leaves. -/
def resolved (exec : Exec) (sys : System) (config : ExecResolveConfig) : Option Bytes :=
  match exec.target sys config.search_path with
  | none => none
  | some program => match sys.mmap_executable program with
    | .error _ => none
    | .ok content => some (interpreterOr config.shebang_options content program)

theorem rewritten_program {content : Bytes} (h : exec.rewritten options content = .ok exec') :
    exec'.program = interpreterOr options content exec.program ∧ exec'.envs = exec.envs := by
  rw [rewritten] at h
  rw [interpreterOr]
  cases hs : shebangOf content options with
  | some shebang =>
      rw [hs] at h
      obtain ⟨arg, rest, -, rfl⟩ := withShebang_eq_ok.mp h
      exact ⟨rfl, rfl⟩
  | none =>
      rw [hs] at h
      cases h
      exact ⟨rfl, rfl⟩

/-- There still is an `args[0]`. -/
theorem rewritten_args_ne_nil {content : Bytes} (hargs : exec.args ≠ [])
    (h : exec.rewritten options content = .ok exec') : exec'.args ≠ [] := by
  rw [rewritten] at h
  split at h
  · obtain ⟨arg, rest, -, rfl⟩ := withShebang_eq_ok.mp h
    exact List.cons_ne_nil _ _
  · cases h
    exact hargs

theorem parse_shebang_eq_ok :
    (exec.parse_shebang sys on_path_access options).result = .ok exec' ↔
      (on_path_access (.read exec.program)).result = .ok () ∧
        ∃ content, sys.mmap_executable exec.program = .ok content ∧
          exec.rewritten options content = .ok exec' := by
  simp only [parse_shebang, Unix.parse_shebang, Lib.Traced.bind_eq_ok, nixResult_eq_ok,
    System.peek_eq_ok_iff_mmap]
  constructor
  · rintro ⟨shebang, ⟨buf, ⟨u, hreport, content, hcontent, rfl⟩, hparse⟩, hrest⟩
    rw [parseLine_eq, Except.ok.injEq] at hparse
    subst hparse
    refine ⟨hreport, content, hcontent, ?_⟩
    rw [rewritten]
    cases hs : shebangOf content options with
    | some shebang =>
        rw [hs] at hrest
        exact hrest
    | none =>
        rw [hs] at hrest
        exact hrest
  · rintro ⟨hreport, content, hcontent, hrest⟩
    refine ⟨_, ⟨_, ⟨(), hreport, content, hcontent, rfl⟩, parseLine_eq content options⟩, ?_⟩
    rw [rewritten] at hrest
    cases hs : shebangOf content options with
    | some shebang =>
        rw [hs] at hrest
        exact hrest
    | none =>
        rw [hs] at hrest
        exact hrest

theorem parse_shebang_eq_panic :
    (exec.parse_shebang sys on_path_access options).result = .error .panic ↔
      (on_path_access (.read exec.program)).result = .error .panic ∨
        (on_path_access (.read exec.program)).result = .ok () ∧
          ∃ shebang, sys.script exec.program options = some shebang ∧ exec.args = [] := by
  simp only [parse_shebang, Unix.parse_shebang, Lib.Traced.bind_eq_ok, Lib.Traced.bind_eq_error,
    nixResult_eq_ok, nixResult_ne_panic, System.peek_eq_ok_iff_mmap, and_false, exists_false,
    or_false]
  apply or_congr_right
  constructor
  · rintro ⟨shebang, ⟨buf, ⟨u, hreport, content, hcontent, rfl⟩, hparse⟩, hrest⟩
    rw [parseLine_eq, Except.ok.injEq] at hparse
    subst hparse
    refine ⟨hreport, ?_⟩
    cases hs : shebangOf content options with
    | some shebang =>
        rw [hs] at hrest
        refine ⟨shebang, ?_, withShebang_eq_panic.mp hrest⟩
        rw [System.script, hcontent]
        exact hs
    | none =>
        rw [hs] at hrest
        cases hrest
  · rintro ⟨hreport, shebang, hscript, hargs⟩
    rw [System.script] at hscript
    split at hscript
    · rename_i content hcontent
      refine ⟨_, ⟨_, ⟨(), hreport, content, hcontent, rfl⟩, parseLine_eq content options⟩, ?_⟩
      rw [hscript]
      exact withShebang_eq_panic.mpr hargs
    · cases hscript

/-- **What resolution returns**: every report goes through, the search settles on a
program, and that can be opened and is rewritten by its shebang. -/
theorem resolve_eq_ok {config : ExecResolveConfig} :
    (exec.resolve sys on_path_access config).result = .ok exec' ↔
      (∀ c ∈ exec.probed sys config.search_path,
        (on_path_access (.read c)).result = .ok ()) ∧
      ∃ p content, exec.target sys config.search_path = some p ∧
        (on_path_access (.read p)).result = .ok () ∧
        sys.mmap_executable p = .ok content ∧
        { exec with program := p }.rewritten config.shebang_options content = .ok exec' := by
  simp only [resolve, Lib.Traced.bind_eq_ok, search_eq_ok, parse_shebang_eq_ok]
  constructor
  · rintro ⟨exec₁, ⟨hreports, p, htarget, rfl⟩, hreport, content, hcontent, hrest⟩
    exact ⟨hreports, p, content, htarget, hreport, hcontent, hrest⟩
  · rintro ⟨hreports, p, content, htarget, hreport, hcontent, hrest⟩
    exact ⟨_, ⟨hreports, p, htarget, rfl⟩, hreport, content, hcontent, hrest⟩

/-- **When resolution panics**, if reporting a path panics or returns. -/
theorem resolve_eq_panic {config : ExecResolveConfig}
    (hreport : ∀ pa e, (on_path_access pa).result ≠ .error (.errno e)) :
    (exec.resolve sys on_path_access config).result = .error .panic ↔
      (∃ c ∈ exec.probed sys config.search_path,
        (on_path_access (.read c)).result = .error .panic) ∨
      (∀ c ∈ exec.probed sys config.search_path,
        (on_path_access (.read c)).result = .ok ()) ∧
      ∃ p, exec.target sys config.search_path = some p ∧
        ((on_path_access (.read p)).result = .error .panic ∨
          (on_path_access (.read p)).result = .ok () ∧
            ∃ shebang, sys.script p config.shebang_options = some shebang ∧ exec.args = []) := by
  simp only [resolve, Lib.Traced.bind_eq_error, search_eq_panic hreport, search_eq_ok,
    parse_shebang_eq_panic]
  apply or_congr_right
  constructor
  · rintro ⟨exec₁, ⟨hreports, p, htarget, rfl⟩, hrest⟩
    exact ⟨hreports, p, htarget, hrest⟩
  · rintro ⟨hreports, p, htarget, hrest⟩
    exact ⟨_, ⟨hreports, p, htarget, rfl⟩, hrest⟩

end Exec

end Fspy.Unix
