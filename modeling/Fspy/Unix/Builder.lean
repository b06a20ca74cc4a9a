import Fspy.Unix.Coverage

/-!
# From the builder to the child

A command is put together by calls of a builder, rewritten by `handle_exec` and handed to the
standard library.  `spawned_of_builds` says what is left of the calls in the child: the last
one for a name of the environment decides, the arguments come in order, and the directory is
the last one.
-/

namespace Fspy.Unix

open Lib

/-- A call of the builder. -/
inductive Build where
  | env (key val : Bytes)
  | envs (vars : List (Bytes × Bytes))
  | env_remove (key : Bytes)
  | arg (arg : Bytes)
  | args (args : List Bytes)
  | arg0 (arg : Bytes)
  | current_dir (dir : Bytes)

namespace Command

/-- `Spy::new_command`. -/
def new (program : Bytes) : Command := ⟨program, [], ∅, none, none⟩

/-- What a call of the builder does. -/
def build (command : Command) : Build → Command
  | .env key val => { command with envs := command.envs.insert key val }
  | .envs vars =>
      { command with envs := vars.foldl (fun envs (key, val) ↦ envs.insert key val) command.envs }
  | .env_remove key => { command with envs := command.envs.erase key }
  | .arg a => { command with args := command.args ++ [a] }
  | .args as => { command with args := command.args ++ as }
  | .arg0 a => { command with arg0 := some a }
  | .current_dir dir => { command with cwd := some dir }

end Command

/-! ## What the calls say -/

namespace Build

/-- The names that a call assigns a value to, or removes. -/
def assigns : Build → List (Bytes × Option Bytes)
  | .env key val => [(key, some val)]
  | .envs vars => vars.map fun (key, val) ↦ (key, some val)
  | .env_remove key => [(key, none)]
  | _ => []

def newArgs : Build → List Bytes
  | .arg a => [a]
  | .args as => as
  | _ => []

def newArg0 : Build → Option Bytes
  | .arg0 a => some a
  | _ => none

def newDir : Build → Option Bytes
  | .current_dir dir => some dir
  | _ => none

/-- The value that a name has in the end: the last call decides. -/
def valueOf (builds : List Build) (name : Bytes) : Option Bytes :=
  ((builds.flatMap assigns).reverse.lookup name).join

/-- What the last call says that says something. -/
def lastOf {α : Type} (f : Build → Option α) (builds : List Build) : Option α :=
  builds.reverse.findSome? f

end Build

/-! ## What the builder keeps -/

/-- One assignment. -/
def assign (envs : AList fun _ : Bytes ↦ Bytes) : Bytes × Option Bytes → AList fun _ : Bytes ↦ Bytes
  | (key, some val) => envs.insert key val
  | (key, none) => envs.erase key

theorem lookup_assign (envs : AList fun _ : Bytes ↦ Bytes) (key name : Bytes) (val : Option Bytes) :
    (assign envs (key, val)).lookup name = if name = key then val else envs.lookup name := by
  split
  · rename_i hname
    subst hname
    cases val with
    | none => exact AList.lookup_erase name envs
    | some val => exact AList.lookup_insert envs
  · rename_i hname
    cases val with
    | none => exact AList.lookup_erase_ne hname
    | some val => exact AList.lookup_insert_ne hname

/-- The last assignment to a name decides. -/
theorem lookup_foldl_assign (assigns : List (Bytes × Option Bytes))
    (envs : AList fun _ : Bytes ↦ Bytes) (name : Bytes) :
    (assigns.foldl assign envs).lookup name =
      (assigns.reverse.lookup name).getD (envs.lookup name) := by
  rw [← List.foldr_reverse]
  induction assigns.reverse with
  | nil => rfl
  | cons a rest ih =>
      obtain ⟨key, val⟩ := a
      rw [List.foldr_cons, lookup_assign, List.lookup_cons, ih]
      by_cases hname : name = key
      · subst hname
        rw [if_pos rfl, beq_self_eq_true]
        rfl
      · rw [if_neg hname, beq_eq_false_iff_ne.mpr hname]

theorem envs_build (command : Command) (build : Build) :
    (command.build build).envs = build.assigns.foldl assign command.envs := by
  cases build with
  | envs vars =>
      rw [Command.build, Build.assigns, List.foldl_map]
      rfl
  | _ => rfl

theorem envs_foldl_build (command : Command) (builds : List Build) :
    (builds.foldl Command.build command).envs =
      (builds.flatMap Build.assigns).foldl assign command.envs := by
  induction builds generalizing command with
  | nil => rfl
  | cons build builds ih =>
      rw [List.foldl_cons, ih, envs_build, List.flatMap_cons, List.foldl_append]

theorem args_foldl_build (command : Command) (builds : List Build) :
    (builds.foldl Command.build command).args = command.args ++ builds.flatMap Build.newArgs := by
  induction builds generalizing command with
  | nil => exact (List.append_nil _).symm
  | cons build builds ih =>
      have hone : (command.build build).args = command.args ++ build.newArgs := by
        cases build <;> first | rfl | exact (List.append_nil _).symm
      rw [List.foldl_cons, ih, hone, List.flatMap_cons, List.append_assoc]

/-- A setting that a call makes, or leaves. -/
theorem last_foldl_build {α : Type} {get : Command → Option α} {said : Build → Option α}
    (hone : ∀ (command : Command) build, get (command.build build) = (said build).or (get command))
    (command : Command) (builds : List Build) :
    get (builds.foldl Command.build command) = (Build.lastOf said builds).or (get command) := by
  rw [Build.lastOf, ← List.foldr_reverse]
  induction builds.reverse with
  | nil => rfl
  | cons build rest ih =>
      rw [List.foldr_cons, hone, ih, List.findSome?_cons]
      cases said build <;> rfl

theorem arg0_foldl_build (command : Command) (builds : List Build) :
    (builds.foldl Command.build command).arg0 =
      (Build.lastOf Build.newArg0 builds).or command.arg0 :=
  last_foldl_build (fun _ build ↦ by cases build <;> rfl) command builds

theorem cwd_foldl_build (command : Command) (builds : List Build) :
    (builds.foldl Command.build command).cwd = (Build.lastOf Build.newDir builds).or command.cwd :=
  last_foldl_build (fun _ build ↦ by cases build <;> rfl) command builds

theorem program_foldl_build (command : Command) (builds : List Build) :
    (builds.foldl Command.build command).program = command.program := by
  induction builds generalizing command with
  | nil => rfl
  | cons build builds ih =>
      rw [List.foldl_cons, ih]
      cases build <;> rfl

/-! ## The environment of the child -/

/-- A list without a repeated key has at most one entry of a key. -/
theorem filter_key {l : List (Sigma fun _ : Bytes ↦ Bytes)} (h : l.NodupKeys) (key : Bytes) :
    (l.filter fun entry ↦ entry.1 == key) = (l.dlookup key).toList.map (Sigma.mk key) := by
  induction l with
  | nil => rfl
  | cons entry l ih =>
      obtain ⟨k, v⟩ := entry
      obtain ⟨hk, hl⟩ := List.nodupKeys_cons.mp h
      rw [List.filter_cons, ih hl]
      by_cases hkey : k = key
      · subst hkey
        rw [List.dlookup_cons_eq, List.dlookup_eq_none.mpr hk, if_pos (beq_self_eq_true _)]
        rfl
      · rw [List.dlookup_cons_ne l ⟨k, v⟩ (Ne.symm hkey), if_neg (by simpa using hkey)]

/-- Where no name has a `=`, a name has the one entry that the map has. -/
theorem environ_filter {command : Command} {var : Bytes} (hvar : eqSign ∉ var)
    (hnames : ∀ name ∈ command.envs, eqSign ∉ name) : command.environ.filter (binds var) =
      (command.envs.lookup var).toList.map fun value ↦ var ++ eqSign :: value := by
  have hbinds : ∀ env ∈ command.envs.entries,
      (binds var ∘ fun env ↦ env.1 ++ eqSign :: env.2) env = (env.1 == var) := by
    intro env henv
    rw [Function.comp_apply, Bool.eq_iff_iff, binds_iff, beq_iff_eq]
    constructor
    · rintro ⟨value, heq⟩
      have hsplit := congrArg splitEnv heq
      have hname : eqSign ∉ env.1 := hnames _ (List.mem_keys_of_mem henv)
      rw [splitEnv_append hname, splitEnv_append hvar] at hsplit
      exact (Prod.mk.inj hsplit).1
    · rintro rfl
      exact ⟨_, rfl⟩
  rw [Command.environ, List.filter_map, List.filter_congr hbinds,
    filter_key command.envs.nodupKeys, List.map_map]
  rfl

/-- No call names a variable with a `=`. -/
def Build.Named (build : Build) : Prop := ∀ a ∈ build.assigns, eqSign ∉ a.1

instance (build : Build) : Decidable build.Named :=
  inferInstanceAs (Decidable (∀ a ∈ build.assigns, eqSign ∉ a.1))

section

variable {program : Bytes} {builds : List Build}

theorem lookup_of_builds (name : Bytes) :
    (builds.foldl Command.build (.new program)).envs.lookup name = Build.valueOf builds name := by
  rw [envs_foldl_build, lookup_foldl_assign, Build.valueOf]
  cases (builds.flatMap Build.assigns).reverse.lookup name with
  | none => exact AList.lookup_empty name
  | some val => rfl

theorem named_of_lookup {name value : Bytes} (hnamed : ∀ build ∈ builds, build.Named)
    (h : Build.valueOf builds name = some value) : eqSign ∉ name := by
  rw [Build.valueOf, Option.join_eq_some_iff] at h
  obtain ⟨before, after, heq, -⟩ := List.lookup_eq_some_iff.mp h
  have hmem : (name, some value) ∈ builds.flatMap Build.assigns := by
    rw [← List.mem_reverse, heq]
    exact List.mem_append_right _ List.mem_cons_self
  obtain ⟨build, hbuild, hassign⟩ := List.mem_flatMap.mp hmem
  exact hnamed build hbuild _ hassign

end

/-! ## What is spawned -/

variable {minimal_parse : ElfCrate} {encoded_payload : EncodedPayload}

section Spawned

variable {sys : System} {command command' : Command} {exec : Exec} {pre_exec : Option PreExec}

/-- A variable that the child has is one of the command's, or one of the two names. -/
theorem name_of_spawned {dynamic : Bool} (hnames : ∀ name ∈ command.envs, eqSign ∉ name)
    (htrack : Linux.trackEnvs encoded_payload command.get_exec.envs dynamic =
      .ok (exec.envs, pre_exec))
    (hset : command.set_exec exec = .ok command') : ∀ name ∈ command'.envs, eqSign ∉ name := by
  intro name hname
  by_cases hpreload : name = LD_PRELOAD
  · exact hpreload ▸ eqSign_notMem_preload
  · by_cases hpayload : name = PAYLOAD_ENV_NAME
    · exact hpayload ▸ eqSign_notMem_payload
    · apply hnames
      rw [← AList.lookup_isSome] at hname ⊢
      rwa [← lookup_set_exec hpreload hpayload htrack hset]

/-- The two names of the tracking, in the map that the child is given. -/
theorem lookup_binding {dynamic : Bool}
    (htrack : Linux.trackEnvs encoded_payload command.get_exec.envs dynamic =
      .ok (exec.envs, pre_exec))
    (hset : command.set_exec exec = .ok command')
    (hnames : ∀ name ∈ command'.envs, eqSign ∉ name) {name value : Bytes}
    (hbinding : (name, value) ∈ bindings encoded_payload) :
    command'.envs.lookup name = if dynamic then some value else none := by
  cases dynamic with
  | true =>
      have hvalue : eqSign ∉ name ∧ existingValue exec.envs name = some value := by
        obtain ⟨hpreload, hpayload⟩ := existingValue_of_trackEnvs htrack
        rcases List.mem_cons.mp hbinding with heq | hbinding
        · cases heq
          exact ⟨eqSign_notMem_preload, hpreload⟩
        · cases List.mem_singleton.mp hbinding
          exact ⟨eqSign_notMem_payload, hpayload⟩
      have hmap : OfMap exec.envs := by
        obtain ⟨envs₁, h₁, htrack⟩ := bind_eq_ok.mp htrack
        obtain ⟨envs₂, h₂, htrack⟩ := bind_eq_ok.mp htrack
        cases htrack
        exact ofMap_ensure_env (ofMap_ensure_env (ofMap_get_exec command) h₁) h₂
      have hmem : name ++ eqSign :: value ∈ command'.environ.filter (binds name) :=
        List.mem_filter.mpr ⟨mem_environ hmap hset hvalue.2, binds_iff.mpr ⟨value, rfl⟩⟩
      rw [environ_filter hvalue.1 hnames] at hmem
      obtain ⟨value', hvalue', heq⟩ := List.mem_map.mp hmem
      rw [List.append_cancel_left_eq, List.cons.injEq] at heq
      rw [if_pos rfl, ← heq.2]
      exact Option.mem_toList.mp hvalue'
  | false =>
      obtain ⟨arg0, args, -, rfl⟩ := set_exec_eq_ok.mp hset
      rw [AList.lookup_to_alist, if_neg Bool.false_ne_true, List.dlookup_eq_none]
      intro hkey
      rw [List.keys, List.mem_map] at hkey
      obtain ⟨entry, hentry, rfl⟩ := hkey
      obtain ⟨env, henv, rfl⟩ := List.mem_map.mp (List.mem_reverse.mp hentry)
      have henvs : _ = exec.envs := (Prod.mk.inj (Except.ok.inj htrack)).1
      rw [← henvs] at henv
      have hkept : env.1 ≠ LD_PRELOAD ∧ env.1 ≠ PAYLOAD_ENV_NAME := by
        simpa using (List.mem_filter.mp henv).2
      rcases List.mem_cons.mp hbinding with heq | hbinding
      · exact hkept.1 (Prod.mk.inj heq).1
      · exact hkept.2 (Prod.mk.inj (List.mem_singleton.mp hbinding)).1

/-- The arguments that the child is given. -/
theorem args_of_spawned
    (hexec : (handle_exec sys minimal_parse command.get_exec (.search_path_enabled none)
      encoded_payload).result = .ok (exec, pre_exec))
    (hset : command.set_exec exec = .ok command') :
    ∃ p, command.get_exec.target sys (some ⟨none⟩) = some p ∧
      command'.get_exec.args = match sys.script p .default with
        | some shebang => shebang.interpreter :: (shebang.arguments ++ p :: command.args)
        | none => command.arg0.getD command.program :: command.args := by
  obtain ⟨exec', hres, -, hlinux⟩ := handle_exec_eq_ok.mp hexec
  obtain ⟨-, -, envs, -, -, -, rfl⟩ := Linux.handle_exec_eq_ok.mp hlinux
  obtain ⟨-, p, content, htarget, -, hcontent, hrew⟩ := resolve_eq_ok.mp hres
  obtain ⟨arg0, args, hargs, rfl⟩ := set_exec_eq_ok.mp hset
  refine ⟨p, htarget, ?_⟩
  have hout : exec'.args = arg0 :: args := hargs
  rw [System.script, hcontent, Command.get_exec]
  dsimp only [Option.getD_some]
  rw [← hout]
  replace hrew : { command.get_exec with program := p }.rewritten .default content = .ok exec' :=
    hrew
  cases hs : shebangOf content ParseShebangOptions.default with
  | some shebang =>
      rw [Exec.rewritten, hs] at hrew
      obtain ⟨arg, rest, hcons, rfl⟩ := Exec.withShebang_eq_ok.mp hrew
      rw [← (List.cons.inj hcons).2]
  | none =>
      rw [Exec.rewritten_of_none hs] at hrew
      cases hrew
      rfl

end Spawned

/-- **What is left of the builder in the child.**  Let `handle_exec` return for a command that
was put together by any calls in which no name has an `=`.  Then `set_exec` takes what it
returns, and a name other than the two of the tracking has, in the
environment that is handed to the child, exactly the value that the last call for it gives,
or none; the two names are there if and only if no filter is installed.  The arguments are
those of the calls in order, behind `argv[0]`, or behind the interpreter of a script with its
arguments and the path of the script; the directory is the last one. -/
theorem spawned_of_builds {program : Bytes} {builds : List Build} {sys : System} {exec : Exec}
    {pre_exec : Option PreExec} (hnamed : ∀ build ∈ builds, build.Named)
    (hexec : (handle_exec sys minimal_parse (builds.foldl Command.build (.new program)).get_exec
      (.search_path_enabled none) encoded_payload).result = .ok (exec, pre_exec)) :
    ∃ command, (builds.foldl Command.build (.new program)).set_exec exec = .ok command ∧
      (∀ var, eqSign ∉ var → var ≠ LD_PRELOAD → var ≠ PAYLOAD_ENV_NAME →
        command.environ.filter (binds var) =
          (Build.valueOf builds var).toList.map fun value ↦ var ++ eqSign :: value) ∧
      (∀ name value, (name, value) ∈ bindings encoded_payload →
        command.environ.filter (binds name) =
          if pre_exec.isNone then [name ++ eqSign :: value] else []) ∧
      (∃ p, (builds.foldl Command.build (.new program)).get_exec.target sys (some ⟨none⟩) =
          some p ∧
        command.get_exec.args = match sys.script p .default with
          | some shebang => shebang.interpreter ::
              (shebang.arguments ++ p :: builds.flatMap Build.newArgs)
          | none => (Build.lastOf Build.newArg0 builds).getD program ::
              builds.flatMap Build.newArgs) ∧
      command.cwd = Build.lastOf Build.newDir builds := by
  obtain ⟨command, hset⟩ := exists_set_exec hexec
  obtain ⟨-, dynamic, -, -, htrack⟩ := tracked_of_handle_exec hexec
  have hgiven : ∀ name ∈ (builds.foldl Command.build (.new program)).envs, eqSign ∉ name := by
    intro name hname
    rw [← AList.lookup_isSome, lookup_of_builds] at hname
    obtain ⟨value, hvalue⟩ := Option.isSome_iff_exists.mp hname
    exact named_of_lookup hnamed hvalue
  have hnames := name_of_spawned hgiven htrack hset
  refine ⟨command, hset, fun var hvar hpreload hpayload ↦ ?_, fun name value hbinding ↦ ?_, ?_, ?_⟩
  · rw [environ_filter hvar hnames, lookup_set_exec hpreload hpayload htrack hset, lookup_of_builds]
  · have hname : eqSign ∉ name := by
      rcases List.mem_cons.mp hbinding with heq | hbinding
      · exact (Prod.mk.inj heq).1 ▸ eqSign_notMem_preload
      · exact (Prod.mk.inj (List.mem_singleton.mp hbinding)).1 ▸ eqSign_notMem_payload
    rw [environ_filter hname hnames, lookup_binding htrack hset hnames hbinding,
      pre_exec_of_trackEnvs htrack]
    cases dynamic <;> rfl
  · obtain ⟨p, htarget, hargs⟩ := args_of_spawned hexec hset
    rw [args_foldl_build, arg0_foldl_build, program_foldl_build] at hargs
    refine ⟨p, htarget, hargs.trans ?_⟩
    cases Build.lastOf Build.newArg0 builds <;> rfl
  · obtain ⟨-, -, -, rfl⟩ := set_exec_eq_ok.mp hset
    refine (cwd_foldl_build _ _).trans ?_
    cases Build.lastOf Build.newDir builds <;> rfl

/-- Calls of the builder of `/b`. -/
def sampleBuilds : List Build :=
  [.env (ascii "A") (ascii "1"), .arg (ascii "x"), .envs [(ascii "B", ascii "2"),
    (ascii "A", ascii "3")], .env_remove (ascii "B"), .args [ascii "y", ascii "z"],
    .current_dir (ascii "/d")]

theorem spawned_of_builds_sample : ∃ exec command,
    (handle_exec twoPrograms twoCrate (sampleBuilds.foldl Command.build
      (.new (ascii "/b"))).get_exec (.search_path_enabled none) samplePayload).result =
        .ok (exec, none) ∧
    (sampleBuilds.foldl Command.build (.new (ascii "/b"))).set_exec exec = .ok command ∧
    command.environ.filter (binds (ascii "A")) = [ascii "A=3"] ∧
    command.environ.filter (binds (ascii "B")) = [] ∧
    command.get_exec.args = [ascii "/b", ascii "x", ascii "y", ascii "z"] ∧
    command.cwd = some (ascii "/d") := by
  obtain ⟨exec, hexec⟩ : ∃ exec, (handle_exec twoPrograms twoCrate
      (sampleBuilds.foldl Command.build (.new (ascii "/b"))).get_exec (.search_path_enabled none)
        samplePayload).result = .ok (exec, none) := by
    refine ⟨⟨ascii "/b", [ascii "/b", ascii "x", ascii "y", ascii "z"],
      [(ascii "A", some (ascii "3")), (LD_PRELOAD, some samplePayload.payload.preload_path),
        (PAYLOAD_ENV_NAME, some samplePayload.encoded_string)]⟩, by decide +kernel⟩
  have hnamed : ∀ build ∈ sampleBuilds, build.Named := by decide
  obtain ⟨command, hset, henv, -, ⟨p, htarget, hargs⟩, hcwd⟩ := spawned_of_builds hnamed hexec
  refine ⟨exec, command, hexec, hset, henv _ (by decide) (by decide) (by decide),
    henv _ (by decide) (by decide) (by decide), ?_, hcwd⟩
  obtain rfl : ascii "/b" = p := Option.some.inj htarget
  rw [hargs]
  decide +kernel

end Fspy.Unix
