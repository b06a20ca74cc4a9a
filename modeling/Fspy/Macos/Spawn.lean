import Fspy.Lib.Components
import Fspy.Unix.EnvBindings
import Fspy.Unix.Spawn

/-!
# Preparing an exec on macOS

The programs in `/bin` and `/usr/bin` are protected: the loader ignores the preload
library for them.  `handle_exec` puts a shell or a multi-call binary of its own in the
place of the ones it knows, and gives up on tracking the others.
-/

namespace Fspy.Macos

open Lib Unix

/-- `Fixtures`. -/
structure Fixtures where
  bash_path : Bytes
  coreutils_path : Bytes
deriving DecidableEq, Repr

/-- `Payload`, on macOS. -/
structure Payload where
  ipc_fd : Int
  preload_path : Bytes
  fixtures : Fixtures
deriving DecidableEq, Repr

/-- `EncodedPayload`. -/
structure EncodedPayload where
  payload : Payload
  encoded_string : Bytes
deriving DecidableEq, Repr

def COREUTILS_FUNCTIONS : List Bytes := [
  "[", "arch", "b2sum", "b3sum", "base32", "base64", "basename", "basenc",
  "cat", "chgrp", "chmod", "chown", "chroot", "cksum", "comm", "cp", "csplit",
  "cut", "date", "dd", "df", "dir", "dircolors", "dirname", "du", "echo", "env",
  "expand", "expr", "factor", "false", "fmt", "fold", "groups", "hashsum", "head",
  "hostid", "hostname", "id", "install", "join", "kill", "link", "ln", "logname",
  "ls", "md5sum", "mkdir", "mkfifo", "mknod", "mktemp", "more", "mv", "nice", "nl",
  "nohup", "nproc", "numfmt", "od", "paste", "pathchk", "pinky", "pr", "printenv",
  "printf", "ptx", "pwd", "readlink", "realpath", "rm", "rmdir", "seq", "sha1sum",
  "sha224sum", "sha256sum", "sha3-224sum", "sha3-256sum", "sha3-384sum", "sha3-512sum",
  "sha384sum", "sha3sum", "sha512sum", "shake128sum", "shake256sum", "shred", "shuf",
  "sleep", "sort", "split", "stat", "stdbuf", "stty", "sum", "sync", "tac", "tail",
  "tee", "test", "timeout", "touch", "tr", "true", "truncate", "tsort", "tty", "uname",
  "unexpand", "uniq", "unlink", "uptime", "users", "vdir", "wc", "who", "whoami", "yes"
  ].map ascii

/-- What becomes of a program. -/
inductive Decision where
  /-- It is replaced by the shell of the fixtures. -/
  | bash
  /-- It is replaced by the multi-call binary. -/
  | coreutils
  | notInjectable
  | injectable
deriving DecidableEq, Repr

/-- What `handle_exec` decides, from the path alone. -/
def decision (program_path : Bytes) : Decision :=
  match Path.parent program_path, Path.fileName program_path with
  | some parent, some file_name =>
      if parent = ascii "/bin" ∨ parent = ascii "/usr/bin" then
        if file_name = ascii "sh" ∨ file_name = ascii "bash" then .bash
        else if file_name ∈ COREUTILS_FUNCTIONS then .coreutils
        else .notInjectable
      else .injectable
  | _, _ => .injectable

namespace Decision

/-- The program to execute. -/
def program (fixtures : Fixtures) (program : Bytes) : Decision → Bytes
  | bash => fixtures.bash_path
  | coreutils => fixtures.coreutils_path
  | notInjectable | injectable => program

/-- The local variable `injectable`. -/
def isInjectable : Decision → Bool
  | bash | coreutils | injectable => true
  | notInjectable => false

end Decision

def DYLD_INSERT_LIBRARIES : Bytes := ascii "DYLD_INSERT_LIBRARIES"

/-- The program's path, made absolute if it does not start with a slash. -/
def absolutePath (sys : System) (program : Bytes) : Option Bytes :=
  if program.head? = some Path.sep then some program else sys.absolute program

/-- What `handle_exec` does to the environment. -/
def injectEnvs (encoded_payload : EncodedPayload) (injectable : Bool) (envs : Envs) :
    Except Errno Unit × Envs :=
  if injectable then
    match ensure_env_mut envs DYLD_INSERT_LIBRARIES encoded_payload.payload.preload_path with
    | (.error e, envs) => (.error e, envs)
    | (.ok (), envs) => ensure_env_mut envs PAYLOAD_ENV_NAME encoded_payload.encoded_string
  else (.ok (), envs.filter fun (name, _) ↦ name != DYLD_INSERT_LIBRARIES &&
    name != PAYLOAD_ENV_NAME)

/-- `handle_exec` (macos): what it returns, which is `None` unless it fails, and the
command it leaves. -/
def handle_exec (sys : System) (command : Exec) (encoded_payload : EncodedPayload) :
    Except Stop Unit × Exec :=
  match absolutePath sys command.program with
  -- "Failed to get absolute path"
  | none => (.error .panic, command)
  | some program =>
      let (result, envs) :=
        injectEnvs encoded_payload (decision program).isInjectable command.envs
      (result.mapError .errno, {
        command with
        program := (decision program).program encoded_payload.payload.fixtures program
        envs })

/-! ## Spelling -/

/-- The last component of a path to a protected program. -/
def protectedName (program : Bytes) : Option Bytes :=
  if Path.isAbsolute program then
    match Path.components program with
    | [dir, name] => if dir = ascii "bin" ∧ name ≠ ascii ".." then some name else none
    | [usr, dir, name] =>
        if usr = ascii "usr" ∧ dir = ascii "bin" ∧ name ≠ ascii ".." then some name else none
    | _ => none
  else none

/-- The directory is written without repeated slashes and dots. -/
def Plain (program : Bytes) : Prop :=
  ascii "/bin/" <+: program ∨ ascii "/usr/bin/" <+: program

instance (program : Bytes) : Decidable (Plain program) := inferInstanceAs (Decidable (_ ∨ _))

/-- Two spellings of a path: they differ in repeated slashes and dots. -/
structure Respelled (program program' : Bytes) : Prop where
  root : Path.isAbsolute program = Path.isAbsolute program'
  components : Path.components program = Path.components program'

/-- What becomes of a protected program. -/
def protectedDecision (name : Bytes) : Decision :=
  if name = ascii "sh" ∨ name = ascii "bash" then .bash
  else if name ∈ COREUTILS_FUNCTIONS then .coreutils
  else .notInjectable

variable {sys : System} {encoded_payload : EncodedPayload} {program program' name : Bytes}

theorem protectedName_sep_cons {t : Bytes} : protectedName (Path.sep :: t) = some name ↔
    (Path.components (Path.sep :: t) = [ascii "bin", name] ∨
      Path.components (Path.sep :: t) = [ascii "usr", ascii "bin", name]) ∧
      name ≠ ascii ".." := by
  rw [protectedName, if_pos (show Path.isAbsolute (Path.sep :: t) = true from rfl)]
  split
  · rename_i dir last h
    rw [h]
    simp only [Option.ite_none_right_eq_some, Option.some.injEq, List.cons.injEq, and_true,
      reduceCtorEq, and_false, or_false]
    constructor
    · rintro ⟨⟨rfl, hdots⟩, rfl⟩
      exact ⟨⟨rfl, rfl⟩, hdots⟩
    · rintro ⟨⟨rfl, rfl⟩, hdots⟩
      exact ⟨⟨rfl, hdots⟩, rfl⟩
  · rename_i usr dir last h
    rw [h]
    simp only [Option.ite_none_right_eq_some, Option.some.injEq, List.cons.injEq, and_true,
      reduceCtorEq, and_false, false_or]
    constructor
    · rintro ⟨⟨rfl, rfl, hdots⟩, rfl⟩
      exact ⟨⟨rfl, rfl, rfl⟩, hdots⟩
    · rintro ⟨⟨rfl, rfl, rfl⟩, hdots⟩
      exact ⟨⟨rfl, rfl, hdots⟩, rfl⟩
  · rename_i htwo hthree
    refine iff_of_false (fun heq ↦ nomatch heq) ?_
    rintro ⟨h | h, -⟩
    · exact htwo _ _ h
    · exact hthree _ _ _ h

/-- The directory of a path is taken for a protected one if the path is that of a protected
program, and plain. -/
theorem parent_protected_iff {t : Bytes} :
    (Path.parent (Path.sep :: t) = some (ascii "/bin") ∨
        Path.parent (Path.sep :: t) = some (ascii "/usr/bin")) ∧
        Path.fileName (Path.sep :: t) = some name ↔
      protectedName (Path.sep :: t) = some name ∧ Plain (Path.sep :: t) := by
  have hcanonical : Path.Canonical (ascii "bin") := by decide
  have hcanonical' : Path.Canonical (ascii "usr/bin") := by decide
  have hsplit : (ascii "bin").splitOn Path.sep = [ascii "bin"] := by decide
  have hsplit' : (ascii "usr/bin").splitOn Path.sep = [ascii "usr", ascii "bin"] := by decide
  have hbin := Path.parent_fileName_iff (t := t) hcanonical name
  have husr := Path.parent_fileName_iff (t := t) hcanonical' name
  rw [hsplit, show Path.sep :: ascii "bin" = ascii "/bin" from rfl] at hbin
  rw [hsplit', show Path.sep :: ascii "usr/bin" = ascii "/usr/bin" from rfl] at husr
  have hstarts : ascii "/bin/" <+: Path.sep :: t ↔ ascii "bin" ++ [Path.sep] <+: t :=
    List.prefix_cons_inj _
  have hstarts' : ascii "/usr/bin/" <+: Path.sep :: t ↔ ascii "usr/bin" ++ [Path.sep] <+: t :=
    List.prefix_cons_inj _
  rw [or_and_right, hbin, husr, protectedName_sep_cons, Plain, hstarts, hstarts']
  constructor
  · rintro (⟨hcomponents, hdots, hfront⟩ | ⟨hcomponents, hdots, hfront⟩)
    · exact ⟨⟨.inl hcomponents, hdots⟩, .inl hfront⟩
    · exact ⟨⟨.inr hcomponents, hdots⟩, .inr hfront⟩
  · rintro ⟨⟨hcomponents | hcomponents, hdots⟩, hfront | hfront⟩
    · exact .inl ⟨hcomponents, hdots, hfront⟩
    · -- it would start with another component
      have hparts := Path.components_of_starts hcanonical' hfront
      rw [hsplit', hcomponents, List.cons_prefix_cons] at hparts
      exact absurd hparts.1 (by decide)
    · have hparts := Path.components_of_starts hcanonical hfront
      rw [hsplit, hcomponents, List.cons_prefix_cons] at hparts
      exact absurd hparts.1 (by decide)
    · exact .inr ⟨hcomponents, hdots, hfront⟩

theorem decision_of_plain (hname : protectedName program = some name) (hplain : Plain program) :
    decision program = protectedDecision name := by
  have habs : Path.isAbsolute program = true := by
    rw [protectedName] at hname
    by_contra habs
    rw [if_neg habs] at hname
    cases hname
  obtain ⟨t, rfl⟩ := Path.eq_sep_cons_of_isAbsolute habs
  obtain ⟨hparent, hfile⟩ := parent_protected_iff.mpr ⟨hname, hplain⟩
  rw [decision, hfile]
  rcases hparent with hparent | hparent <;> rw [hparent] <;> rfl

/-- Any other path is left alone. -/
theorem decision_of_not (h : ∀ name, protectedName program = some name → ¬Plain program) :
    decision program = .injectable := by
  rw [decision]
  split
  · rename_i parent file_name hparent hfile
    rw [if_neg]
    intro hdir
    have habs : Path.isAbsolute program = true := by
      refine Path.isAbsolute_of_parent hparent ?_
      rcases hdir with rfl | rfl <;> rfl
    obtain ⟨t, rfl⟩ := Path.eq_sep_cons_of_isAbsolute habs
    have hdir' : Path.parent (Path.sep :: t) = some (ascii "/bin") ∨
        Path.parent (Path.sep :: t) = some (ascii "/usr/bin") := by
      rw [hparent, Option.some.injEq, Option.some.injEq]
      exact hdir
    obtain ⟨hname, hplain⟩ := parent_protected_iff.mp ⟨hdir', hfile⟩
    exact h _ hname hplain
  · rfl

theorem protectedDecision_ne_injectable (name : Bytes) : protectedDecision name ≠ .injectable := by
  rw [protectedDecision]
  split
  · simp
  · split <;> simp

/-- A protected program is taken for an injectable one exactly if its path is not plain. -/
theorem decision_eq_injectable_iff (hname : protectedName program = some name) :
    decision program = .injectable ↔ ¬Plain program := by
  constructor
  · intro h hplain
    rw [decision_of_plain hname hplain] at h
    exact protectedDecision_ne_injectable name h
  · exact fun hplain ↦ decision_of_not fun _ _ ↦ hplain

/-- The decision for a program, if its path can be made absolute. -/
def taken (sys : System) (program : Bytes) : Option Decision :=
  (absolutePath sys program).map decision

/-- The two spellings of a program are treated alike, and if the program is a protected one
neither of them as injectable. -/
structure TreatedAlike (sys : System) (encoded_payload : EncodedPayload) (command : Exec)
    (program program' : Bytes) : Prop where
  decision : taken sys program = taken sys program'
  result : (handle_exec sys { command with program } encoded_payload).1 =
    (handle_exec sys { command with program := program' } encoded_payload).1
  envs : (handle_exec sys { command with program } encoded_payload).2.envs =
    (handle_exec sys { command with program := program' } encoded_payload).2.envs
  tracked : ∀ spelling ∈ [program, program'], ∀ path,
    absolutePath sys spelling = some path → protectedName path ≠ none →
      Macos.decision path ≠ .injectable

/-- The rest of the command depends on the decision only. -/
theorem handle_exec_of_taken (sys : System) (encoded_payload : EncodedPayload)
    (command : Exec) (program : Bytes) :
    (handle_exec sys { command with program } encoded_payload).1 = (match taken sys program with
      | none => .error .panic
      | some d => (injectEnvs encoded_payload d.isInjectable command.envs).1.mapError .errno) ∧
    (handle_exec sys { command with program } encoded_payload).2.envs =
      match taken sys program with
      | none => command.envs
      | some d => (injectEnvs encoded_payload d.isInjectable command.envs).2 := by
  rw [handle_exec, taken]
  cases absolutePath sys program <;> exact ⟨rfl, rfl⟩

theorem Respelled.absolutePath (h : Respelled program program') {path path' : Bytes}
    (hpath : absolutePath sys program = some path)
    (hpath' : absolutePath sys program' = some path') : Respelled path path' := by
  simp only [Macos.absolutePath, ← Path.isAbsolute_iff] at hpath hpath'
  rw [← h.root] at hpath'
  cases habs : Path.isAbsolute program with
  | true =>
      rw [habs, if_pos rfl] at hpath hpath'
      cases hpath
      cases hpath'
      exact h
  | false =>
      rw [habs, if_neg Bool.false_ne_true, System.absolute] at hpath hpath'
      cases hcwd : sys.cwd.toOption with
      | none =>
          rw [hcwd, Path.absolute_eq_none.mpr (.inr ⟨habs, rfl⟩)] at hpath
          cases hpath
      | some cwd =>
          rw [hcwd] at hpath hpath'
          obtain ⟨hcomponents, hroot⟩ := Path.absolute_of_relative habs hpath
          obtain ⟨hcomponents', hroot'⟩ := Path.absolute_of_relative (h.root ▸ habs) hpath'
          rw [← h.components] at hcomponents' hroot'
          exact ⟨hroot.trans hroot'.symm, hcomponents.trans hcomponents'.symm⟩

theorem Respelled.protectedName (h : Respelled program program') :
    protectedName program = protectedName program' := by
  rw [Macos.protectedName, Macos.protectedName, h.root, h.components]

/-- Two plain spellings of the same program. -/
theorem Respelled.decision (h : Respelled program program')
    (hplain : Macos.protectedName program ≠ none → Plain program)
    (hplain' : Macos.protectedName program' ≠ none → Plain program') :
    decision program = decision program' := by
  have hsame := h.protectedName
  cases hname : Macos.protectedName program with
  | some name =>
      rw [hname] at hsame
      rw [decision_of_plain hname (hplain (by simp [hname])),
        decision_of_plain hsame.symm (hplain' (by simp [← hsame]))]
  | none =>
      rw [hname] at hsame
      rw [decision_of_not (by simp [hname]), decision_of_not (by simp [← hsame])]

/-- **When the spelling of a program does not matter**: both spellings can be made absolute, or
neither, and a protected program is written plainly. -/
theorem treatedAlike_iff (h : Respelled program program') (sys : System)
    (encoded_payload : EncodedPayload) (command : Exec) :
    TreatedAlike sys encoded_payload command program program' ↔
      (absolutePath sys program).isSome = (absolutePath sys program').isSome ∧
        ∀ spelling ∈ [program, program'], ∀ path, absolutePath sys spelling = some path →
          protectedName path ≠ none → Plain path := by
  constructor
  · intro hsame
    refine ⟨?_, ?_⟩
    · have := congrArg Option.isSome hsame.decision
      simpa only [taken, Option.isSome_map] using this
    · intro spelling hspelling path hpath hname
      obtain ⟨name, hname'⟩ := Option.ne_none_iff_exists'.mp hname
      have htracked := hsame.tracked spelling hspelling path hpath hname
      rw [ne_eq, decision_eq_injectable_iff hname', not_not] at htracked
      exact htracked
  · rintro ⟨hboth, hplain⟩
    have htaken : taken sys program = taken sys program' := by
      rw [taken, taken]
      cases hpath : absolutePath sys program with
      | none =>
          rw [hpath] at hboth
          have hnone : absolutePath sys program' = none := by simpa using hboth.symm
          rw [hnone]
      | some path =>
          rw [hpath] at hboth
          obtain ⟨path', hpath'⟩ := Option.isSome_iff_exists.mp hboth.symm
          rw [hpath']
          exact congrArg some ((h.absolutePath hpath hpath').decision
            (hplain program (by simp) path hpath) (hplain program' (by simp) path' hpath'))
    obtain ⟨hresult, henvs⟩ := handle_exec_of_taken sys encoded_payload command program
    obtain ⟨hresult', henvs'⟩ := handle_exec_of_taken sys encoded_payload command program'
    refine ⟨htaken, ?_, ?_, ?_⟩
    · rw [hresult, hresult', htaken]
    · rw [henvs, henvs', htaken]
    · intro spelling hspelling path hpath hname
      obtain ⟨name, hname'⟩ := Option.ne_none_iff_exists'.mp hname
      rw [ne_eq, decision_eq_injectable_iff hname', not_not]
      exact hplain spelling hspelling path hpath hname

/-- A command without arguments or environment. -/
def sampleCommand : Exec := ⟨ascii "/bin/ls", [ascii "ls"], []⟩

def samplePayload : EncodedPayload :=
  ⟨⟨3, ascii "/tmp/fspy.dylib", ⟨ascii "/tmp/bash", ascii "/tmp/coreutils"⟩⟩, ascii "payload"⟩

theorem treatedAlike_sample :
    TreatedAlike (System.ofFiles []) samplePayload sampleCommand (ascii "/bin/ls")
        (ascii "/bin/.//ls") ↔
      (absolutePath (System.ofFiles []) (ascii "/bin/ls")).isSome =
          (absolutePath (System.ofFiles []) (ascii "/bin/.//ls")).isSome ∧
        ∀ spelling ∈ [ascii "/bin/ls", ascii "/bin/.//ls"], ∀ path,
          absolutePath (System.ofFiles []) spelling = some path →
            protectedName path ≠ none → Plain path :=
  treatedAlike_iff ⟨by decide, by decide⟩ (System.ofFiles []) samplePayload sampleCommand

/-- With two slashes in front, `ls` is executed as it is, and not tracked. -/
theorem treatedAlike_slashes :
    taken (System.ofFiles []) (ascii "/bin/ls") = some .coreutils ∧
      taken (System.ofFiles []) (ascii "//bin/ls") = some .injectable ∧
      Respelled (ascii "/bin/ls") (ascii "//bin/ls") ∧
      ¬TreatedAlike (System.ofFiles []) samplePayload sampleCommand (ascii "/bin/ls")
        (ascii "//bin/ls") := by
  refine ⟨by decide +kernel, by decide +kernel, ⟨by decide, by decide⟩, fun h ↦ ?_⟩
  have hdecision := h.decision
  revert hdecision
  decide +kernel

/-! ## The multi-call binary -/

/-- Every utility has a name of its own to go by: one component, and not that of a shell. -/
theorem coreutils_functions_names : ∀ name ∈ COREUTILS_FUNCTIONS,
    name.splitOn Path.sep = [name] ∧ Path.skipped name = false ∧ name ≠ ascii ".." ∧
      name ≠ ascii "sh" ∧ name ≠ ascii "bash" := by
  decide +kernel

/-- What the multi-call binary goes by: the base name of its first argument, or else the
second one. -/
structure Multicall (select : List Bytes → Option Bytes) : Prop where
  by_name : ∀ args name, args.head?.bind Path.fileName = some name →
    name ∈ COREUTILS_FUNCTIONS → select args = some name
  by_argument : ∀ args, (∀ name, args.head?.bind Path.fileName = some name →
    name ∉ COREUTILS_FUNCTIONS) → select args = args[1]?.filter (· ∈ COREUTILS_FUNCTIONS)

/-- The arguments name the utility. -/
def Named (args : List Bytes) (name : Bytes) : Prop :=
  args.head?.bind Path.fileName = some name ∨
    (∀ other, args.head?.bind Path.fileName = some other → other ∉ COREUTILS_FUNCTIONS) ∧
      args[1]? = some name

theorem Multicall.select_eq_some_iff {select : List Bytes → Option Bytes}
    (h : Multicall select) {args : List Bytes} (hname : name ∈ COREUTILS_FUNCTIONS) :
    select args = some name ↔ Named args name := by
  by_cases hother : ∀ other, args.head?.bind Path.fileName = some other →
      other ∉ COREUTILS_FUNCTIONS
  · rw [h.by_argument args hother, Option.filter_eq_some_iff, decide_eq_true_iff,
      and_iff_left hname, Named, and_iff_right hother, or_iff_right]
    exact fun hbase ↦ hother name hbase hname
  · have hbase := hother
    simp only [not_forall, not_not] at hbase
    obtain ⟨other, hbase, hmem⟩ := hbase
    rw [h.by_name args other hbase hmem, Named, hbase, or_iff_left]
    rintro ⟨hnone, -⟩
    exact hother (hbase ▸ hnone)

/-- A utility in one of the two directories. -/
def IsUtility (program name : Bytes) : Prop :=
  name ∈ COREUTILS_FUNCTIONS ∧
    (program = ascii "/bin/" ++ name ∨ program = ascii "/usr/bin/" ++ name)

instance (program name : Bytes) : Decidable (IsUtility program name) :=
  inferInstanceAs (Decidable (_ ∧ _))

theorem IsUtility.protectedName (h : IsUtility program name) :
    protectedName program = some name ∧ Plain program := by
  obtain ⟨hmem, hprogram⟩ := h
  obtain ⟨hsplit, hskipped, hdots, -⟩ := coreutils_functions_names name hmem
  have hcomponents : ∀ dir, Path.Canonical dir →
      Path.components (Path.sep :: (dir ++ Path.sep :: name)) = dir.splitOn Path.sep ++ [name] := by
    intro dir hdir
    rw [Path.components_sep_cons, Path.splitOn_append_sep, List.filter_append, hdir.filter,
      hsplit, List.filter_cons_of_pos (by simp [hskipped]), List.filter_nil]
  rcases hprogram with rfl | rfl
  · exact ⟨protectedName_sep_cons.mpr
      ⟨.inl ((hcomponents (ascii "bin") (by decide)).trans rfl), hdots⟩,
      .inl (List.prefix_append _ _)⟩
  · exact ⟨protectedName_sep_cons.mpr
      ⟨.inr ((hcomponents (ascii "usr/bin") (by decide)).trans rfl), hdots⟩,
      .inr (List.prefix_append _ _)⟩

theorem IsUtility.decision (h : IsUtility program name) : decision program = .coreutils := by
  obtain ⟨hname, hplain⟩ := h.protectedName
  obtain ⟨-, -, -, hsh, hbash⟩ := coreutils_functions_names name h.1
  rw [decision_of_plain hname hplain, protectedDecision, if_neg (not_or.mpr ⟨hsh, hbash⟩),
    if_pos h.1]

theorem IsUtility.fileName (h : IsUtility program name) : Path.fileName program = some name := by
  obtain ⟨hname, hplain⟩ := h.protectedName
  obtain ⟨t, rfl⟩ : ∃ t, program = Path.sep :: t := by
    rcases h.2 with rfl | rfl <;> exact ⟨_, rfl⟩
  exact (parent_protected_iff.mpr ⟨hname, hplain⟩).2

/-- A script whose interpreter is a utility names it. -/
theorem named_of_withShebang {exec exec' : Exec} {shebang : Shebang}
    (h : (exec.withShebang shebang).result = .ok exec') (hutility : IsUtility exec'.program name) :
    Named exec'.args name := by
  obtain ⟨arg, rest, -, rfl⟩ := Exec.withShebang_eq_ok.mp h
  exact .inl hutility.fileName

/-- **When the utility that was asked for is run**: the arguments name it, whatever the
program was. -/
theorem coreutils_selects_iff {select : List Bytes → Option Bytes} (hselect : Multicall select)
    (sys : System) (encoded_payload : EncodedPayload) (command command' : Exec) (name : Bytes)
    (hutility : IsUtility command.program name)
    (h : handle_exec sys command encoded_payload = (.ok (), command')) :
    command'.program = encoded_payload.payload.fixtures.coreutils_path ∧
      (select command'.args = some name ↔ Named command.args name) := by
  have habs : absolutePath sys command.program = some command.program := by
    rw [absolutePath, if_pos]
    rcases hutility.2 with hprogram | hprogram <;> rw [hprogram] <;> rfl
  rw [handle_exec, habs] at h
  dsimp only at h
  rw [hutility.decision] at h
  obtain ⟨-, rfl⟩ := Prod.mk.inj h
  exact ⟨rfl, hselect.select_eq_some_iff hutility.1⟩

/-- A multi-call binary. -/
def sampleSelect (args : List Bytes) : Option Bytes :=
  match args.head?.bind Path.fileName with
  | some name =>
      if name ∈ COREUTILS_FUNCTIONS then some name
      else args[1]?.filter (· ∈ COREUTILS_FUNCTIONS)
  | none => args[1]?.filter (· ∈ COREUTILS_FUNCTIONS)

theorem multicall_sampleSelect : Multicall sampleSelect where
  by_name args name hbase hmem := by
    rw [sampleSelect, hbase]
    exact if_pos hmem
  by_argument args hother := by
    rw [sampleSelect]
    cases hbase : args.head?.bind Path.fileName with
    | none => rfl
    | some other => exact if_neg (hother other hbase)

/-- The name that was typed is the one that counts. -/
theorem coreutils_selects_sample :
    (handle_exec (System.ofFiles []) sampleCommand samplePayload).2.program =
        ascii "/tmp/coreutils" ∧
      (sampleSelect (handle_exec (System.ofFiles []) sampleCommand samplePayload).2.args =
        some (ascii "ls") ↔ Named [ascii "ls"] (ascii "ls")) :=
  coreutils_selects_iff multicall_sampleSelect (System.ofFiles []) samplePayload sampleCommand _
    (ascii "ls") (by decide +kernel) (by decide +kernel)

/-- `/bin/ls` under the name of another utility. -/
theorem coreutils_selects_cat :
    (handle_exec (System.ofFiles []) ⟨ascii "/bin/ls", [ascii "cat"], []⟩ samplePayload).1 =
        .ok () ∧
      (handle_exec (System.ofFiles []) ⟨ascii "/bin/ls", [ascii "cat"], []⟩
        samplePayload).2.program = ascii "/tmp/coreutils" ∧
      ∀ select, Multicall select → select (handle_exec (System.ofFiles [])
        ⟨ascii "/bin/ls", [ascii "cat"], []⟩ samplePayload).2.args ≠ some (ascii "ls") := by
  refine ⟨by decide +kernel, by decide +kernel, fun select hselect ↦ ?_⟩
  have hargs : (handle_exec (System.ofFiles []) ⟨ascii "/bin/ls", [ascii "cat"], []⟩
      samplePayload).2.args = [ascii "cat"] := by decide +kernel
  rw [hargs, hselect.by_name [ascii "cat"] (ascii "cat") (by decide) (by decide +kernel)]
  decide

end Fspy.Macos
