import Fspy.Unix.RawExec

/-!
# Resolution against the kernel's own

The kernel follows `#!` lines itself: it opens one file after the other until it meets
a binary.  Resolution takes the first of these steps in user space, and what it leaves
loads the same binary with the same arguments, since the kernel is one step ahead and
a shorter way fits any limit (`Kernel.load_mono`).  Accepting a program is another
matter: `handle_exec` examines the file that is left after this one step.
-/

namespace Fspy.Unix

open Lib

/-- The parts of `execve` that differ between kernels. -/
structure Kernel where
  /-- The binaries it loads. -/
  loads : Bytes → Bool
  /-- How many files it opens for one call. -/
  limit : Nat
  /-- How it reads a `#!` line. -/
  shebang_options : ParseShebangOptions

namespace Kernel

variable (k : Kernel) (sys : System)

/-- `ELOOP`: too many interpreters. -/
def ELOOP : Errno := .other 40

/-- What the kernel does with a path and arguments, in at most `n` files: the path of
the binary it loads, and the arguments it starts it with. -/
def load : Nat → Bytes → List Bytes → Except Errno (Bytes × List Bytes)
  | 0, _, _ => .error ELOOP
  | n + 1, path, argv => match sys.node path with
    | .error e => .error e
    | .ok (.dir _ _) => .error .EACCES
    | .ok (.file content executable _) =>
        if executable then
          match shebangOf content k.shebang_options with
          | some shebang => load n (cstr shebang.interpreter)
              (cstr shebang.interpreter :: (shebang.arguments.map cstr ++ path :: argv.tail))
          | none => if k.loads content then .ok (path, argv) else .error .ENOEXEC
        else .error .EACCES

/-- `execve(path, argv, _)`. -/
def execve (raw : RawExec) : Except Errno (Bytes × List Bytes) :=
  k.load sys k.limit (cstr raw.prog) (cstrs raw.argv)

variable {k sys} {n m : Nat} {path : Bytes} {argv : List Bytes} {image : Bytes × List Bytes}

/-- What the kernel found when it loads a binary. -/
theorem load_succ_eq_ok : k.load sys (n + 1) path argv = .ok image ↔
    ∃ content readable, sys.node path = .ok (.file content true readable) ∧
      match shebangOf content k.shebang_options with
      | some shebang => k.load sys n (cstr shebang.interpreter)
          (cstr shebang.interpreter :: (shebang.arguments.map cstr ++ path :: argv.tail)) =
            .ok image
      | none => k.loads content ∧ image = (path, argv) := by
  rw [load]
  cases hnode : sys.node path with
  | error e => simp
  | ok node =>
      cases node with
      | dir => simp
      | file content executable readable =>
          cases executable with
          | false => simp
          | true =>
              cases hs : shebangOf content k.shebang_options with
              | some shebang => simp [hs]
              | none => cases hl : k.loads content <;> simp [hs, hl, eq_comm (b := image)]

/-- A higher limit changes nothing about what is loaded. -/
theorem load_mono (hle : n ≤ m) (h : k.load sys n path argv = .ok image) :
    k.load sys m path argv = .ok image := by
  induction n generalizing m path argv with
  | zero => cases h
  | succ n ih =>
      obtain ⟨m, rfl⟩ := Nat.exists_eq_add_one_of_ne_zero (Nat.pos_iff_ne_zero.mp
        (Nat.lt_of_lt_of_le n.succ_pos hle))
      obtain ⟨content, readable, hnode, hrest⟩ := load_succ_eq_ok.mp h
      refine load_succ_eq_ok.mpr ⟨content, readable, hnode, ?_⟩
      split
      · rename_i shebang hs
        rw [hs] at hrest
        exact ih (Nat.le_of_succ_le_succ hle) hrest
      · rename_i hs
        rw [hs] at hrest
        exact hrest

/-- What the kernel found, with whatever limit it loaded something. -/
theorem load_eq_ok (h : k.load sys n path argv = .ok image) :
    ∃ m content readable, n = m + 1 ∧ sys.node path = .ok (.file content true readable) ∧
      match shebangOf content k.shebang_options with
      | some shebang => k.load sys m (cstr shebang.interpreter)
          (cstr shebang.interpreter :: (shebang.arguments.map cstr ++ path :: argv.tail)) =
            .ok image
      | none => k.loads content ∧ image = (path, argv) := by
  cases n with
  | zero => cases h
  | succ n =>
      obtain ⟨content, readable, hnode, hrest⟩ := load_succ_eq_ok.mp h
      exact ⟨n, content, readable, rfl, hnode, hrest⟩

end Kernel

variable {k : Kernel} {sys : System} {raw : RawExec} {image : Bytes × List Bytes}
  {on_path_access : PathAccess → ExecM Unit} {exec' : Exec}

/-- Without a `PATH` search, resolution rewrites the program it is given. -/
theorem resolve_disabled_eq_ok {exec : Exec} {options : ParseShebangOptions} :
    (exec.resolve sys on_path_access ⟨none, options⟩).result = .ok exec' ↔
      ∃ content, (on_path_access (.read exec.program)).result = .ok () ∧
        sys.mmap_executable exec.program = .ok content ∧
        exec.rewritten options content = .ok exec' := by
  simp [Exec.resolve_eq_ok, Exec.probed, Exec.target]

/-- What `execve` makes of a rewritten program. -/
theorem execve_rewritten {content : Bytes} {n : Nat} {readable : Bool} (hlimit : k.limit = n + 1)
    (hnode : sys.node (cstr raw.prog) = .ok (.file content true readable))
    (hrew : raw.to_exec.rewritten k.shebang_options content = .ok exec')
    (h : k.execve sys raw = .ok image) : k.execve sys (.from_exec exec') = .ok image := by
  obtain ⟨n', content', readable', hlimit', hnode', hload⟩ := Kernel.load_eq_ok h
  obtain rfl : n' = n := Nat.succ.inj (hlimit'.symm.trans hlimit)
  rw [hnode, Except.ok.injEq, Node.file.injEq] at hnode'
  obtain ⟨rfl, -, rfl⟩ := hnode'
  rw [Exec.rewritten] at hrew
  cases hs : shebangOf content k.shebang_options with
  | some shebang =>
      rw [hs] at hrew hload
      obtain ⟨arg, rest, hargs, rfl⟩ := Exec.withShebang_eq_ok.mp hrew
      have hmem : ∀ s ∈ rest, s ∈ cstrs raw.argv := fun s hs ↦ by
        rw [show cstrs raw.argv = arg :: rest from hargs]
        exact List.mem_cons_of_mem _ hs
      have hrest : rest.map cstr = rest :=
        map_cstr_of_nulFree fun s hs ↦ nulFree_of_mem_cstrs (hmem s hs)
      -- the rewritten call starts where the original one is after one step
      have hstart : k.execve sys (.from_exec ⟨shebang.interpreter,
          shebang.interpreter :: (shebang.arguments ++ raw.to_exec.program :: rest),
          raw.to_exec.envs⟩) =
          k.load sys k.limit (cstr shebang.interpreter) (cstr shebang.interpreter ::
            (shebang.arguments.map cstr ++ cstr raw.prog :: (cstrs raw.argv).tail)) := by
        rw [Kernel.execve, show cstrs raw.argv = arg :: rest from hargs]
        simp only [RawExec.from_exec, RawExec.to_exec, cstr_toCStr, cstrs_toCStrs,
          List.map_cons, List.map_append, cstr_cstr, hrest, List.tail_cons]
      rw [hstart, hlimit]
      exact Kernel.load_mono n'.le_succ hload
  | none =>
      rw [hs] at hrew
      cases hrew
      have hargv : (cstrs raw.argv).map cstr = cstrs raw.argv :=
        map_cstr_of_nulFree fun _ ↦ nulFree_of_mem_cstrs
      rw [← h]
      simp only [Kernel.execve, RawExec.from_exec, RawExec.to_exec, cstr_toCStr, cstr_cstr,
        cstrs_toCStrs, hargv]

/-- **Exec rewriting preserves meaning.**  If the kernel loads an image for the original
call, it loads the same image with the same arguments for what comes out of resolution,
and something comes out unless the file may be executed but not read. -/
theorem execve_resolved (hargv : cstrs raw.argv ≠ []) (h : k.execve sys raw = .ok image) :
    (∀ exec', (raw.to_exec.resolve sys on_path_access ⟨none, k.shebang_options⟩).result =
      .ok exec' → k.execve sys (.from_exec exec') = .ok image) ∧
    ((∀ path_access, (on_path_access path_access).result = .ok ()) →
      (∃ content, sys.node (cstr raw.prog) = .ok (.file content true false)) ∨
        ∃ exec', (raw.to_exec.resolve sys on_path_access ⟨none, k.shebang_options⟩).result =
          .ok exec') := by
  obtain ⟨n, content, readable, hlimit, hnode, -⟩ := Kernel.load_eq_ok h
  have hnix : sys.nixPath (cstr raw.prog) = .ok (.file content true readable) := by
    rw [System.nixPath_of_nulFree (nulFree_cstr _), hnode]
  constructor
  · intro exec' hres
    obtain ⟨content', -, hcontent, hrew⟩ := resolve_disabled_eq_ok.mp hres
    have hopen := System.mmap_executable_eq_ok.mp hcontent
    rw [show raw.to_exec.program = cstr raw.prog from rfl, hnix, Except.ok.injEq,
      Node.file.injEq] at hopen
    obtain ⟨rfl, -, -⟩ := hopen
    exact execve_rewritten hlimit hnode hrew h
  · intro hreports
    cases readable with
    | false => exact .inl ⟨content, hnode⟩
    | true =>
        obtain ⟨exec', hrew⟩ := raw.to_exec.rewritten_of_ne_nil hargv k.shebang_options content
        exact .inr ⟨exec', resolve_disabled_eq_ok.mpr
          ⟨content, hreports _, System.mmap_executable_eq_ok.mpr hnix, hrew⟩⟩

/-- A kernel that loads the sample binary. -/
def sampleKernel : Kernel where
  loads := (· == sampleElf)
  limit := 6
  shebang_options := .default

/-- A script whose interpreter is a script. -/
def nestedScripts : System := .ofFiles
  [(ascii "/a", .file (ascii "#!/b x y\n") true true),
    (ascii "/b", .file (ascii "#!/c\n") true true), (ascii "/c", .file sampleElf true true)]

def nestedCall : RawExec where
  prog := toCStr (ascii "/a")
  argv := toCStrs [ascii "a", ascii "1"]
  envp := [none]

theorem execve_resolved_nested : ∃ exec',
    (nestedCall.to_exec.resolve nestedScripts (report nestedScripts) .search_path_disabled).result =
      .ok exec' ∧
    sampleKernel.execve nestedScripts (.from_exec exec') = .ok
      (ascii "/c", [ascii "/c", ascii "/b", ascii "x y", ascii "/a", ascii "1"]) := by
  have hres : (nestedCall.to_exec.resolve nestedScripts (report nestedScripts)
      .search_path_disabled).result =
      .ok ⟨ascii "/b", [ascii "/b", ascii "x y", ascii "/a", ascii "1"], []⟩ := by decide +kernel
  have h : sampleKernel.execve nestedScripts nestedCall = .ok
      (ascii "/c", [ascii "/c", ascii "/b", ascii "x y", ascii "/a", ascii "1"]) := by
    decide +kernel
  exact ⟨_, hres, (execve_resolved (by decide) h).1 _ hres⟩

/-! ## What is accepted -/

/-- A file that `handle_exec` can examine: it can be reported and opened for reading,
and the `elf` crate makes sense of it. -/
def Examinable (sys : System) (minimal_parse : ElfCrate) (path : Bytes) : Prop :=
  ¬sys.Unanchored path ∧ ∃ content dynamic, sys.mmap_executable path = .ok content ∧
    is_dynamically_linked_to_libc minimal_parse content = .ok dynamic

variable {minimal_parse : ElfCrate} {encoded_payload : EncodedPayload}

/-- Names that are not bound can be bound. -/
theorem trackEnvs_of_unbound {envs : Envs} {dynamic : Bool}
    (hpreload : existingValue envs LD_PRELOAD = none)
    (hpayload : existingValue envs PAYLOAD_ENV_NAME = none) :
    ∃ out, Linux.trackEnvs encoded_payload envs dynamic = .ok out := by
  cases dynamic with
  | false => exact ⟨_, rfl⟩
  | true =>
      have hpayload' : existingValue
          (envs ++ [(LD_PRELOAD, some encoded_payload.payload.preload_path)])
          PAYLOAD_ENV_NAME = none := by
        rw [existingValue_append, hpayload]
        rfl
      exact ⟨_, bind_eq_ok.mpr ⟨_, ensure_env_eq_ok.mpr (.inr ⟨hpreload, rfl⟩),
        bind_eq_ok.mpr ⟨_, ensure_env_eq_ok.mpr (.inr ⟨hpayload', rfl⟩), rfl⟩⟩⟩

/-- A resolved program is accepted if it can be examined. -/
theorem accepts_iff_examinable {exec : Exec}
    (hpreload : existingValue exec.envs LD_PRELOAD = none)
    (hpayload : existingValue exec.envs PAYLOAD_ENV_NAME = none) :
    (¬sys.Unanchored exec.program ∧
      ∃ out, Linux.handle_exec sys minimal_parse exec encoded_payload = .ok out) ↔
      Examinable sys minimal_parse exec.program := by
  apply and_congr_right
  intro _
  constructor
  · rintro ⟨⟨exec', pre_exec⟩, h⟩
    obtain ⟨content, dynamic, envs, hcontent, hdynamic, -, -⟩ := Linux.handle_exec_eq_ok.mp h
    exact ⟨content, dynamic, hcontent, hdynamic⟩
  · rintro ⟨content, dynamic, hcontent, hdynamic⟩
    obtain ⟨⟨envs, pre_exec⟩, htrack⟩ := trackEnvs_of_unbound hpreload hpayload
    exact ⟨_, Linux.handle_exec_eq_ok.mpr ⟨content, dynamic, envs, hcontent, hdynamic, htrack, rfl⟩⟩

/-- **When the hook accepts an exec that the kernel accepts**: the program can be
reported, the file the kernel opens for it can be read, and the file left after one
`#!` line can be examined. -/
theorem handle_exec_accepts_iff (hargv : cstrs raw.argv ≠ [])
    (hpreload : (cstrs raw.envp).any (binds LD_PRELOAD) = false)
    (hpayload : (cstrs raw.envp).any (binds PAYLOAD_ENV_NAME) = false)
    (h : k.execve sys raw = .ok image) :
    (∃ out, (Client.handle_exec sys minimal_parse ⟨none, k.shebang_options⟩ raw
        encoded_payload).result = .ok out) ↔
      ¬sys.Unanchored (cstr raw.prog) ∧
      ∀ content readable, sys.node (cstr raw.prog) = .ok (.file content true readable) →
        readable ∧ Examinable sys minimal_parse
          (Exec.interpreterOr k.shebang_options content (cstr raw.prog)) := by
  obtain ⟨n, content, readable, -, hnode, -⟩ := Kernel.load_eq_ok h
  have hopen : ∀ content', sys.mmap_executable (cstr raw.prog) = .ok content' ↔
      readable = true ∧ content' = content := fun content' ↦ by
    rw [System.mmap_executable_eq_ok, System.nixPath_of_nulFree (nulFree_cstr _), hnode]
    simp only [Except.ok.injEq, Node.file.injEq, true_and, and_comm, eq_comm]
  rw [← existingValue_eq_none eqSign_notMem_preload] at hpreload
  rw [← existingValue_eq_none eqSign_notMem_payload] at hpayload
  constructor
  · rintro ⟨out, hout⟩
    obtain ⟨⟨command', pre_exec⟩, hexec, -⟩ := Traced.bind_eq_ok.mp hout
    obtain ⟨exec', hres, hu, hlinux⟩ := handle_exec_eq_ok.mp hexec
    obtain ⟨content', hreport, hcontent, hrew⟩ := resolve_disabled_eq_ok.mp hres
    obtain ⟨hreadable, rfl⟩ := (hopen content').mp hcontent
    obtain ⟨hprog, henvs⟩ := Exec.rewritten_program hrew
    have hexam := (accepts_iff_examinable (henvs ▸ hpreload) (henvs ▸ hpayload)).mp
      ⟨hu, _, hlinux⟩
    rw [hprog] at hexam
    refine ⟨report_eq_ok.mp hreport, fun content₂ readable₂ hnode₂ ↦ ?_⟩
    rw [hnode, Except.ok.injEq, Node.file.injEq] at hnode₂
    obtain ⟨rfl, -, rfl⟩ := hnode₂
    exact ⟨hreadable, hexam⟩
  · rintro ⟨hanchored, hfile⟩
    obtain ⟨hreadable, hexam⟩ := hfile content readable hnode
    obtain ⟨exec', hrew⟩ := raw.to_exec.rewritten_of_ne_nil hargv k.shebang_options content
    obtain ⟨hprog, henvs⟩ := Exec.rewritten_program hrew
    rw [show cstr raw.prog = raw.to_exec.program from rfl, ← hprog] at hexam
    obtain ⟨hu, out, hlinux⟩ :=
      (accepts_iff_examinable (henvs ▸ hpreload) (henvs ▸ hpayload)).mpr hexam
    have hres : (raw.to_exec.resolve sys (report sys) ⟨none, k.shebang_options⟩).result =
        .ok exec' := resolve_disabled_eq_ok.mpr
      ⟨content, report_eq_ok.mpr hanchored, (hopen content).mpr ⟨hreadable, rfl⟩, hrew⟩
    exact ⟨_, Traced.bind_eq_ok.mpr ⟨out, handle_exec_eq_ok.mpr ⟨exec', hres, hu, hlinux⟩, rfl⟩⟩

/-- A chain of two scripts. -/
theorem handle_exec_refuses_nested :
    sampleKernel.execve nestedScripts nestedCall = .ok
      (ascii "/c", [ascii "/c", ascii "/b", ascii "x y", ascii "/a", ascii "1"]) ∧
    (Client.handle_exec nestedScripts sampleCrate .search_path_disabled nestedCall
      samplePayload).result = .error (.errno .ENOEXEC) := by
  decide +kernel

/-- The inner one of them, called on its own. -/
theorem handle_exec_accepts_script :
    ∃ out, (Client.handle_exec nestedScripts sampleCrate .search_path_disabled
      { nestedCall with prog := toCStr (ascii "/b") } samplePayload).result = .ok out := by
  have h : sampleKernel.execve nestedScripts { nestedCall with prog := toCStr (ascii "/b") } =
      .ok (ascii "/c", [ascii "/c", ascii "/b", ascii "1"]) := by decide +kernel
  refine (handle_exec_accepts_iff (by decide) (by decide) (by decide) h).mpr
    ⟨by decide, fun content readable hnode ↦ ?_⟩
  have hnode' : nestedScripts.node (cstr (toCStr (ascii "/b"))) =
      .ok (.file (ascii "#!/c\n") true true) := by decide
  cases hnode'.symm.trans hnode
  exact ⟨rfl, by decide, sampleElf, true, by decide +kernel, by decide +kernel⟩

end Fspy.Unix
