import Fspy.Unix.ShebangLine
import Fspy.Unix.World

/-!
# The search against `execvp`

libc finds a program in `PATH` by executing one candidate after the other; resolution
asks whether a candidate may be executed and opens only the one it settles on.  Both
pass over a candidate that does not exist.  They part where a candidate may be executed
and yet cannot be: a directory, or a script whose interpreter is missing.
-/

namespace Fspy.Unix

open Lib

variable {k : Kernel} {sys : System} {exec : Exec} {on_path_access : PathAccess → ExecM Unit}
  {custom_path : Option Bytes}

/-- The candidates that are tried before this one. -/
def before (cs : List Bytes) (c : Bytes) : List Bytes := cs.takeWhile (· != c)

theorem before_append {pre post : List Bytes} {c : Bytes} (h : c ∉ pre) :
    before (pre ++ c :: post) c = pre := by
  rw [before, List.takeWhile_append_of_pos, List.takeWhile_cons_of_neg (by simp),
    List.append_nil]
  intro a ha
  rw [bne_iff_ne]
  rintro rfl
  exact h ha

/-- A search settles on a candidate if it passes over those before it. -/
theorem found_eq_some_iff {attempt : Bytes → Except Errno Unit} {cs : List Bytes} {c : Bytes} :
    found attempt cs = some c ↔ c ∈ cs ∧
      (∀ a ∈ before cs c, ∃ err, attempt a = .error err ∧ goesOn err) ∧ attempt c = .ok () := by
  rw [found_eq_some]
  constructor
  · rintro ⟨pre, post, rfl, hpre, hc⟩
    have hnot : c ∉ pre := by
      intro hmem
      obtain ⟨err, herr, -⟩ := hpre c hmem
      rw [herr] at hc
      cases hc
    rw [before_append hnot]
    exact ⟨by simp, hpre, hc⟩
  · rintro ⟨hmem, hpre, hc⟩
    obtain ⟨pre, post, rfl, hnot⟩ := List.eq_append_cons_of_mem hmem
    rw [before_append hnot] at hpre
    exact ⟨pre, post, rfl, hpre, hc⟩

/-- A candidate that the kernel passes over is passed over by `access` as well, unless it
may be executed. -/
theorem access_of_attempt {a : Bytes} {err : Errno} (hnul : NulFree a)
    (h : k.attempt sys a = .error err) (hgo : goesOn err = true) :
    (∃ err', sys.access a = .error err' ∧ goesOn err') ↔
      ∀ node, sys.node a = .ok node → node.executable = false := by
  rw [System.access, System.nixPath_of_nulFree hnul]
  cases hnode : sys.node a with
  | ok node => cases hx : node.executable <;> simp [hx, goesOn]
  | error e =>
      have hsame : e = err ∨ err = Kernel.ELOOP := by
        rw [Kernel.attempt] at h
        cases hlimit : k.limit with
        | zero =>
            rw [hlimit] at h
            cases h
            exact .inr rfl
        | succ n =>
            rw [hlimit, Kernel.load, hnode] at h
            cases h
            exact .inl rfl
      rcases hsame with rfl | rfl
      · simp [hgo]
      · cases hgo

/-- What the kernel executes may be executed. -/
theorem access_of_executed {c : Bytes} (hnul : NulFree c) (h : k.attempt sys c = .ok ()) :
    sys.access c = .ok () := by
  obtain ⟨content, readable, hnode⟩ := Kernel.node_of_attempt h
  rw [System.access_eq_ok, System.nixPath_of_nulFree hnul]
  exact ⟨_, hnode, rfl⟩

theorem nulFree_candidates {path program c : Bytes} (hpath : NulFree path)
    (hprogram : NulFree program) (hc : c ∈ candidates path program) : NulFree c := by
  obtain ⟨p, hp, rfl⟩ := List.mem_map.mp hc
  have hp' : (0 : UInt8) ∉ p := fun hzero ↦ hpath (mem_of_mem_splitOnP hp hzero).1
  intro hzero
  simp only [candidate, concat, List.flatten_cons, List.flatten_nil, List.append_nil,
    List.mem_append] at hzero
  rcases hzero with hzero | hzero | hzero
  · exact hp' hzero
  · split at hzero
    · cases hzero
    · exact absurd hzero (by decide)
  · exact hprogram hzero

/-- What stands before the candidate that `execvp` starts, and what that is. -/
structure Distinct (sys : System) (path : Bytes) (exec : Exec) (c : Bytes) : Prop where
  /-- No file or directory before it may be executed. -/
  before : ∀ a ∈ before (candidates path exec.program) c, ∀ node, sys.node a = .ok node →
    node.executable = false
  /-- It can be read, not only executed. -/
  readable : ∀ node, sys.node c = .ok node → node.readable = true
  /-- A script needs an argument to replace. -/
  args : ∀ content executable readable, sys.node c = .ok (.file content executable readable) →
    (ascii "#!").isPrefixOf (content.take PEEK_SIZE) = true → exec.args ≠ []

theorem shebangOf_eq_none_iff {content : Bytes} {options : ParseShebangOptions} :
    shebangOf content options = none ↔
      (ascii "#!").isPrefixOf (content.take PEEK_SIZE) = false := by
  have h := parseLine_eq content options
  cases hmagic : (ascii "#!").isPrefixOf (content.take PEEK_SIZE) with
  | false =>
      rw [parseLine, hmagic] at h
      simpa using (Except.ok.inj h).symm
  | true =>
      rw [parseLine_eq_ok hmagic] at h
      rw [← Except.ok.inj h]
      simp

/-- A name without a slash is searched. -/
theorem found_of_execvp {path file : Bytes} {argv : List Bytes} {c : Bytes}
    (hsep : file.contains Path.sep = false) (h : execvp k sys path file argv = some c) :
    ¬file.isEmpty = true ∧ ¬file.length > NAME_MAX ∧
      found (k.attempt sys) (candidates path file) = some c := by
  rw [execvp_eq, attempts, hsep] at h
  split at h
  · cases h
  · rename_i hne
    rw [if_neg Bool.false_ne_true] at h
    split at h
    · cases h
    · rename_i hlong
      exact ⟨hne, hlong, h⟩

/-- Where the search settles. -/
theorem target_eq_some_iff {c : Bytes} (hpath : NulFree ((SearchPath.mk custom_path).path sys))
    (hprogram : NulFree exec.program) (hsep : exec.program.contains Path.sep = false)
    (h : execvp k sys ((SearchPath.mk custom_path).path sys) exec.program exec.args = some c) :
    exec.target sys (some ⟨custom_path⟩) = some c ↔
      ∀ a ∈ before (candidates ((SearchPath.mk custom_path).path sys) exec.program) c,
        ∀ node, sys.node a = .ok node → node.executable = false := by
  obtain ⟨hne, hlong, hfound⟩ := found_of_execvp hsep h
  obtain ⟨hmem, hbefore, hc⟩ := found_eq_some_iff.mp hfound
  rw [Exec.target, if_neg hne, hsep, if_neg Bool.false_ne_true, if_neg hlong, found_eq_some_iff,
    and_iff_right hmem,
    and_iff_left (access_of_executed (nulFree_candidates hpath hprogram hmem) hc)]
  refine forall₂_congr fun a ha ↦ ?_
  obtain ⟨err, herr, hgo⟩ := hbefore a ha
  have hnul := nulFree_candidates hpath hprogram ((List.takeWhile_prefix _).subset ha)
  exact access_of_attempt hnul herr hgo

/-- Only a script needs an argument to be rewritten. -/
theorem exists_rewritten_iff {content : Bytes} {options : ParseShebangOptions} :
    (∃ exec', exec.rewritten options content = .ok exec') ↔
      ((ascii "#!").isPrefixOf (content.take PEEK_SIZE) = true → exec.args ≠ []) := by
  constructor
  · rintro ⟨exec', hrew⟩ hmagic hargs
    rw [Exec.rewritten] at hrew
    cases hs : shebangOf content options with
    | none =>
        rw [shebangOf_eq_none_iff, hmagic] at hs
        cases hs
    | some shebang =>
        rw [hs] at hrew
        obtain ⟨arg, rest, hcons, -⟩ := Exec.withShebang_eq_ok.mp hrew
        rw [hcons] at hargs
        cases hargs
  · intro hargs
    cases hs : shebangOf content options with
    | none => exact ⟨exec, Exec.rewritten_of_none hs⟩
    | some shebang =>
        have hmagic : (ascii "#!").isPrefixOf (content.take PEEK_SIZE) = true := by
          by_contra hno
          rw [shebangOf_eq_none_iff.mpr (Bool.eq_false_iff.mpr hno)] at hs
          cases hs
        exact Exec.rewritten_of_ne_nil exec (hargs hmagic) options content

/-- Whether what the kernel executes can be resolved. -/
theorem exists_mmap_rewritten_iff {c : Bytes} {options : ParseShebangOptions} (hnul : NulFree c)
    (hc : k.attempt sys c = .ok ()) :
    (∃ content exec', sys.mmap_executable c = .ok content ∧
      { exec with program := c }.rewritten options content = .ok exec') ↔
      (∀ node, sys.node c = .ok node → node.readable = true) ∧
        ∀ content executable readable, sys.node c = .ok (.file content executable readable) →
          (ascii "#!").isPrefixOf (content.take PEEK_SIZE) = true → exec.args ≠ [] := by
  obtain ⟨content, readable, hnode⟩ := Kernel.node_of_attempt hc
  have hmmap : ∀ content', sys.mmap_executable c = .ok content' ↔
      content' = content ∧ readable = true := by
    intro content'
    rw [System.mmap_executable_eq_ok, System.nixPath_of_nulFree hnul, hnode]
    simp [eq_comm]
  simp only [exists_and_left, exists_rewritten_iff, hmmap, hnode, Except.ok.injEq, forall_eq']
  constructor
  · rintro ⟨content', ⟨rfl, rfl⟩, hargs⟩
    refine ⟨rfl, ?_⟩
    rintro content'' executable readable ⟨rfl, rfl, rfl⟩
    exact hargs
  · rintro ⟨hreadable, hargs⟩
    exact ⟨content, ⟨rfl, hreadable⟩, hargs content true readable rfl⟩

/-- **When resolution selects what `execvp` starts** and returns: no candidate before it may
be executed, it can be read, and a script is called with an argument. -/
theorem search_selects_iff (k : Kernel) (sys : System) (on_path_access : PathAccess → ExecM Unit)
    (hreport : ∀ pa, (on_path_access pa).result = .ok ()) (exec : Exec)
    (custom_path : Option Bytes) (hpath : NulFree ((SearchPath.mk custom_path).path sys))
    (hprogram : NulFree exec.program) (hsep : exec.program.contains Path.sep = false) (c : Bytes)
    (h : execvp k sys ((SearchPath.mk custom_path).path sys) exec.program exec.args = some c) :
    ((exec.search sys on_path_access (some ⟨custom_path⟩)).result =
          .ok { exec with program := c } ∧
        ∃ exec', (exec.resolve sys on_path_access
          (.search_path_enabled custom_path)).result = .ok exec') ↔
      Distinct sys ((SearchPath.mk custom_path).path sys) exec c := by
  have hsearch : (exec.search sys on_path_access (some ⟨custom_path⟩)).result =
      .ok { exec with program := c } ↔ exec.target sys (some ⟨custom_path⟩) = some c := by
    rw [Exec.search_eq_ok]
    constructor
    · rintro ⟨-, p, htarget, heq⟩
      rw [htarget, show c = p from congrArg Exec.program heq]
    · exact fun htarget ↦ ⟨fun a _ ↦ hreport _, c, htarget, rfl⟩
  have hattempt : c ∈ candidates ((SearchPath.mk custom_path).path sys) exec.program ∧
      k.attempt sys c = .ok () := by
    obtain ⟨-, -, hfound⟩ := found_of_execvp hsep h
    exact ⟨(found_eq_some_iff.mp hfound).1, (found_eq_some_iff.mp hfound).2.2⟩
  have hnul := nulFree_candidates hpath hprogram hattempt.1
  rw [hsearch]
  constructor
  · rintro ⟨htarget, exec', hexec⟩
    obtain ⟨-, p, content, hp, -, hcontent, hrew⟩ := Exec.resolve_eq_ok.mp hexec
    obtain rfl := Option.some.inj (htarget.symm.trans hp)
    obtain ⟨hreadable, hargs⟩ := (exists_mmap_rewritten_iff hnul hattempt.2).mp
      ⟨content, exec', hcontent, hrew⟩
    exact ⟨(target_eq_some_iff hpath hprogram hsep h).mp htarget, hreadable, hargs⟩
  · intro hdistinct
    have htarget := (target_eq_some_iff hpath hprogram hsep h).mpr hdistinct.before
    obtain ⟨content, exec', hcontent, hrew⟩ := (exists_mmap_rewritten_iff hnul hattempt.2).mpr
      ⟨hdistinct.readable, hdistinct.args⟩
    exact ⟨htarget, exec', Exec.resolve_eq_ok.mpr
      ⟨fun a _ ↦ hreport _, c, content, htarget, hreport _, hcontent, hrew⟩⟩

/-- A directory and, later in `PATH`, a program of the same name. -/
def shadowed : System :=
  { System.ofFiles [(ascii "/a/s", .dir true true), (ascii "/b/s", .file sampleElf true true)] with
    PATH := some (ascii "/a:/b") }

theorem search_selects_sample :
    ((Exec.search shadowed .emit ⟨ascii "s", [ascii "s"], []⟩ (some ⟨some (ascii "/b")⟩)).result =
          .ok ⟨ascii "/b/s", [ascii "s"], []⟩ ∧
        ∃ exec', (Exec.resolve shadowed .emit ⟨ascii "s", [ascii "s"], []⟩
          (.search_path_enabled (some (ascii "/b")))).result = .ok exec') ↔
      Distinct shadowed (ascii "/b") ⟨ascii "s", [ascii "s"], []⟩ (ascii "/b/s") :=
  search_selects_iff sampleKernel shadowed .emit (fun _ ↦ rfl) ⟨ascii "s", [ascii "s"], []⟩
    (some (ascii "/b")) (by decide) (by decide) (by decide) (ascii "/b/s") (by decide +kernel)

/-- `execvp` passes over the directory; resolution settles on it and fails. -/
theorem search_selects_directory :
    execvp sampleKernel shadowed (ascii "/a:/b") (ascii "s") [ascii "s"] = some (ascii "/b/s") ∧
      (Exec.search shadowed .emit ⟨ascii "s", [ascii "s"], []⟩ (some ⟨none⟩)).result =
        .ok ⟨ascii "/a/s", [ascii "s"], []⟩ ∧
      (Exec.resolve shadowed .emit ⟨ascii "s", [ascii "s"], []⟩
        (.search_path_enabled none)).result = .error (.errno .EISDIR) := by
  decide +kernel

end Fspy.Unix
