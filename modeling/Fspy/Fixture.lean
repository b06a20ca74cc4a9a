import Fspy.Basic
import Fspy.Lib.Digits
import Fspy.Lib.Transition
import Mathlib.Logic.Function.Basic

/-!
# Installing a fixture

Any number of processes may install the same file at the same time, and be killed while
they do.  Each writes a temporary file of its own and renames it, so the file appears
whole or not at all; a rename that fails because another process was first is as good as
one that succeeds.
-/

namespace Fspy

open Lib

structure Fixture where
  name : String
  content : Bytes
  hash : String

/-- The files of a directory, by name. -/
abbrev Directory := String → Option Bytes

namespace Fixture

/-- The name of the file. -/
def path (fixture : Fixture) (suffix : String) : String :=
  fixture.name ++ "_" ++ fixture.hash ++ suffix

/-- The name of a temporary file. -/
def tmp_path (random : Nat) : String := .ofList (Nat.toDigits 16 random)

/-- Where a call of `write_to` is. -/
inductive Pc where
  | idle
  /-- The first `fs::exists`. -/
  | checking
  | opening
  /-- In `write_all`, with so much to write. -/
  | writing (rest : Bytes)
  /-- The temporary file is closed, and about to be renamed. -/
  | closed
  /-- The rename has failed. -/
  | rechecking (err : Errno)
  | removing
  | returned (result : Except Errno String)
  | killed

/-- What a call does next, with what it is answered. -/
inductive Action where
  | start
  | existsPath (ret : Except Errno Unit)
  | open (ret : Except Errno Unit)
  /-- A call of `write`. -/
  | write (ret : Except Errno Nat)
  | rename (ret : Except Errno Unit)
  | remove_file (ret : Except Errno Unit)
  | kill

/-- The file exists. -/
def EEXIST : Errno := .other 17

/-- The error of `write_all` if nothing is written. -/
def WriteZero : Errno := .other 5

/-- In `write_all`: the file is dropped when nothing is left to write. -/
def Pc.write (rest : Bytes) : Pc := if rest.isEmpty then .closed else .writing rest

/-- One step of `Fixture::write_to`, in a call that has drawn `random`.  A rename replaces
an existing file, or fails. -/
def write_to (fixture : Fixture) (suffix : String) (replaces : Bool) (random : Nat)
    (files : Directory) : Pc → Action → Option (Pc × Directory)
  | .idle, .start => some (.checking, files)
  | .checking, .existsPath ret => match ret with
      | .error e => some (.returned (.error e), files)
      | .ok () =>
          if (files (fixture.path suffix)).isSome then
            some (.returned (.ok (fixture.path suffix)), files)
          else some (.opening, files)
  | .opening, .open ret => match ret, files (tmp_path random) with
      | .error e, _ => some (.returned (.error e), files)
      -- `create_new`
      | .ok (), some _ => some (.returned (.error EEXIST), files)
      | .ok (), none =>
          some (.write fixture.content, Function.update files (tmp_path random) (some []))
  | .writing rest, .write ret => match ret with
      | .error .EINTR => some (.writing rest, files)
      | .error e => some (.returned (.error e), files)
      | .ok 0 => some (.returned (.error WriteZero), files)
      | .ok (n + 1) => some (.write (rest.drop (n + 1)), Function.update files (tmp_path random)
          ((files (tmp_path random)).map (· ++ rest.take (n + 1))))
  | .closed, .rename ret => match ret, files (tmp_path random) with
      | .error e, _ => some (.rechecking e, files)
      | .ok (), none => some (.rechecking .ENOENT, files)
      | .ok (), some content =>
          if (files (fixture.path suffix)).isSome && !replaces then
            some (.rechecking EEXIST, files)
          else
            some (.returned (.ok (fixture.path suffix)),
              Function.update (Function.update files (tmp_path random) none)
                (fixture.path suffix) (some content))
  | .rechecking err, .existsPath ret => match ret with
      | .error e => some (.returned (.error e), files)
      | .ok () =>
          if (files (fixture.path suffix)).isSome then some (.removing, files)
          else some (.returned (.error err), files)
  | .removing, .remove_file ret => match ret with
      | .error e => some (.returned (.error e), files)
      | .ok () => some (.returned (.ok (fixture.path suffix)),
          Function.update files (tmp_path random) none)
  | .returned _, .kill => none
  | _, .kill => some (.killed, files)
  | _, _ => none

/-- A directory, and the calls, each by the number that it draws. -/
structure State where
  files : Directory
  pc : Nat → Pc

/-- One step of one of the calls. -/
def step (fixture : Fixture) (suffix : String) (replaces : Bool) (s : State)
    (l : Nat × Action) : Option State := do
  let (pc, files) ← fixture.write_to suffix replaces l.1 s.files (s.pc l.1) l.2
  return ⟨files, Function.update s.pc l.1 pc⟩

/-! ## The names are different -/

theorem tmp_path_injective {n m : Nat} (h : tmp_path n = tmp_path m) : n = m :=
  toDigits_injective (by decide) (by decide) (String.ofList_injective h)

/-- There is an underscore in the name of the file. -/
theorem tmp_path_ne_path (fixture : Fixture) (suffix : String) (random : Nat) :
    tmp_path random ≠ fixture.path suffix := by
  intro h
  apply underscore_not_mem_toDigits (b := 16) (n := random) (by decide) (by decide)
  have hlist := congrArg String.toList h
  rw [tmp_path, String.toList_ofList] at hlist
  rw [hlist]
  simp [path, String.toList_append]

/-! ## The file is whole -/

/-- The file does not exist, or is whole. -/
def Whole (fixture : Fixture) (suffix : String) (files : Directory) : Prop :=
  ∀ content, files (fixture.path suffix) = some content → content = fixture.content

/-- What a call has made of its temporary file. -/
def Pc.Own (fixture : Fixture) (suffix : String) (random : Nat) (files : Directory) : Pc → Prop
  | .idle | .checking | .opening => files (tmp_path random) = none
  | .writing rest => ∃ written, files (tmp_path random) = some written ∧
      written ++ rest = fixture.content
  | .closed | .rechecking _ => files (tmp_path random) = some fixture.content
  | .removing => files (tmp_path random) = some fixture.content ∧
      (files (fixture.path suffix)).isSome
  | .returned (.ok path) => path = fixture.path suffix ∧ (files path).isSome ∧
      files (tmp_path random) = none
  | .returned (.error _) | .killed => True

variable {fixture : Fixture} {suffix : String} {replaces : Bool} {random : Nat}
  {files files' : Directory} {pc pc' : Pc} {action : Action}

theorem Pc.own_write (written : Bytes) {rest : Bytes} (h : files (tmp_path random) = some written)
    (hcontent : written ++ rest = fixture.content) :
    (Pc.write rest).Own fixture suffix random files := by
  rw [Pc.write]
  split
  · rename_i hempty
    rw [List.isEmpty_iff.mp hempty, List.append_nil] at hcontent
    rw [hcontent] at h
    exact h
  · exact ⟨written, h, hcontent⟩

/-- What a step of a call does to the directory: nothing, something to its temporary file,
or the rename. -/
inductive Wrote (fixture : Fixture) (suffix : String) (random : Nat) (files : Directory) :
    Directory → Prop
  | nothing : Wrote fixture suffix random files files
  | tmp (content : Option Bytes) :
      Wrote fixture suffix random files (Function.update files (tmp_path random) content)
  | renamed : Wrote fixture suffix random files
      (Function.update (Function.update files (tmp_path random) none)
        (fixture.path suffix) (some fixture.content))

/-- What a step of a call does. -/
theorem write_to_spec (hown : pc.Own fixture suffix random files)
    (h : fixture.write_to suffix replaces random files pc action = some (pc', files')) :
    pc'.Own fixture suffix random files' ∧ Wrote fixture suffix random files files' := by
  have hne := tmp_path_ne_path fixture suffix random
  rw [write_to.eq_def] at h
  split at h
  · cases h
    exact ⟨hown, .nothing⟩
  · -- the first `fs::exists`
    split at h
    · cases h
      exact ⟨trivial, .nothing⟩
    · split at h
      · rename_i hexists
        cases h
        exact ⟨⟨rfl, hexists, hown⟩, .nothing⟩
      · cases h
        exact ⟨hown, .nothing⟩
  · -- `open`
    split at h
    · cases h
      exact ⟨trivial, .nothing⟩
    · cases h
      exact ⟨trivial, .nothing⟩
    · cases h
      exact ⟨Pc.own_write [] (Function.update_self ..) (List.nil_append _), .tmp _⟩
  · -- `write`
    obtain ⟨written, hwritten, hcontent⟩ := hown
    split at h
    · cases h
      exact ⟨⟨written, hwritten, hcontent⟩, .nothing⟩
    · cases h
      exact ⟨trivial, .nothing⟩
    · cases h
      exact ⟨trivial, .nothing⟩
    · rename_i rest _ n
      cases h
      refine ⟨Pc.own_write (written ++ rest.take (n + 1)) ?_ ?_, .tmp _⟩
      · rw [Function.update_self, hwritten]
        rfl
      · rw [List.append_assoc, List.take_append_drop]
        exact hcontent
  · -- `rename`
    split at h
    · cases h
      exact ⟨hown, .nothing⟩
    · cases h
      exact ⟨hown, .nothing⟩
    · rename_i content htmp
      obtain rfl : content = fixture.content := Option.some.inj (htmp.symm.trans hown)
      split at h
      · cases h
        exact ⟨hown, .nothing⟩
      · cases h
        refine ⟨⟨rfl, ?_, ?_⟩, .renamed⟩
        · rw [Function.update_self]
          rfl
        · rw [Function.update_of_ne hne, Function.update_self]
  · -- the second `fs::exists`
    split at h
    · cases h
      exact ⟨trivial, .nothing⟩
    · split at h
      · rename_i hexists
        cases h
        exact ⟨⟨hown, hexists⟩, .nothing⟩
      · cases h
        exact ⟨trivial, .nothing⟩
  · -- `remove_file`
    split at h
    · cases h
      exact ⟨trivial, .nothing⟩
    · cases h
      refine ⟨⟨rfl, ?_, Function.update_self ..⟩, .tmp none⟩
      rw [Function.update_of_ne hne.symm]
      exact hown.2
  · cases h
  · cases h
    exact ⟨trivial, .nothing⟩
  · cases h

theorem Wrote.whole (h : Wrote fixture suffix random files files')
    (hwhole : fixture.Whole suffix files) : fixture.Whole suffix files' := by
  cases h with
  | nothing => exact hwhole
  | tmp content =>
      rw [Whole, Function.update_of_ne (tmp_path_ne_path fixture suffix random).symm]
      exact hwhole
  | renamed =>
      intro content hcontent
      rw [Function.update_self] at hcontent
      exact (Option.some.inj hcontent).symm

/-- The file stays once it is there. -/
theorem Wrote.path_isSome (h : Wrote fixture suffix random files files')
    (hsome : (files (fixture.path suffix)).isSome) : (files' (fixture.path suffix)).isSome := by
  cases h with
  | nothing => exact hsome
  | tmp content =>
      rw [Function.update_of_ne (tmp_path_ne_path fixture suffix random).symm]
      exact hsome
  | renamed =>
      rw [Function.update_self]
      rfl

/-- No other temporary file is touched. -/
theorem Wrote.tmp_of_ne (h : Wrote fixture suffix random files files') {other : Nat}
    (ho : other ≠ random) : files' (tmp_path other) = files (tmp_path other) := by
  have hne : tmp_path other ≠ tmp_path random := fun heq ↦ ho (tmp_path_injective heq)
  cases h with
  | nothing => rfl
  | tmp content => exact Function.update_of_ne hne ..
  | renamed =>
      rw [Function.update_of_ne (tmp_path_ne_path fixture suffix other),
        Function.update_of_ne hne]

/-- What a call has made is left alone by the others. -/
theorem Pc.Own.frame {other : Nat} (h : pc.Own fixture suffix other files)
    (hwrote : Wrote fixture suffix random files files') (ho : other ≠ random) :
    pc.Own fixture suffix other files' := by
  have htmp := hwrote.tmp_of_ne ho
  cases pc with
  | idle | checking | opening | closed | rechecking err => exact htmp.trans h
  | writing rest =>
      obtain ⟨written, hwritten, hcontent⟩ := h
      exact ⟨written, htmp.trans hwritten, hcontent⟩
  | removing => exact ⟨htmp.trans h.1, hwrote.path_isSome h.2⟩
  | returned result =>
      cases result with
      | error e => trivial
      | ok path =>
          obtain ⟨rfl, hsome, hnone⟩ := h
          exact ⟨rfl, hwrote.path_isSome hsome, htmp.trans hnone⟩
  | killed => trivial

/-! ## Every run -/

/-- The directory before a run: the file is whole if it is there, and the calls that left
their temporary files will not go on. -/
structure State.Fresh (fixture : Fixture) (suffix : String) (s : State) : Prop where
  whole : fixture.Whole suffix s.files
  pc : ∀ random, s.pc random = .killed ∨
    s.pc random = .idle ∧ s.files (tmp_path random) = none

structure Inv (fixture : Fixture) (suffix : String) (s : State) : Prop where
  whole : fixture.Whole suffix s.files
  own : ∀ random, (s.pc random).Own fixture suffix random s.files

variable {s s' : State} {l : Nat × Action} {ls : List (Nat × Action)}

theorem State.Fresh.inv (h : s.Fresh fixture suffix) : Inv fixture suffix s where
  whole := h.whole
  own random := by
    rcases h.pc random with hpc | ⟨hpc, htmp⟩
    · rw [hpc]
      trivial
    · rw [hpc]
      exact htmp

theorem Inv.of_step (h : Inv fixture suffix s)
    (hstep : step fixture suffix replaces s l = some s') : Inv fixture suffix s' := by
  obtain ⟨random, action⟩ := l
  simp only [step, Option.bind_eq_bind, Option.bind_eq_some_iff, Option.pure_def,
    Option.some.injEq] at hstep
  obtain ⟨⟨pc, files⟩, hcall, rfl⟩ := hstep
  obtain ⟨hown, hwrote⟩ := write_to_spec (h.own random) hcall
  refine ⟨hwrote.whole h.whole, fun other ↦ ?_⟩
  dsimp only
  by_cases ho : other = random
  · subst ho
    rw [Function.update_self]
    exact hown
  · rw [Function.update_of_ne ho]
    exact (h.own other).frame hwrote ho

/-- **Installation is atomic**: the file is absent or whole in every state, and a call that
has returned has the file in place and its temporary file removed. -/
theorem atomic_of_run (hfresh : s.Fresh fixture suffix)
    (hrun : runs (step fixture suffix replaces) s ls = some s') :
    (∀ content, s'.files (fixture.path suffix) = some content → content = fixture.content) ∧
      ∀ random path, s'.pc random = .returned (.ok path) → path = fixture.path suffix ∧
        s'.files path = some fixture.content ∧ s'.files (tmp_path random) = none := by
  have h : Inv fixture suffix s' :=
    runs_invariant _ hfresh.inv (fun _ _ _ h hstep ↦ h.of_step hstep) hrun
  refine ⟨h.whole, ?_⟩
  intro random path hpc
  have hown := h.own random
  rw [hpc] at hown
  obtain ⟨rfl, hsome, hnone⟩ := hown
  obtain ⟨content, hcontent⟩ := Option.isSome_iff_exists.mp hsome
  rw [hcontent, h.whole content hcontent]
  exact ⟨rfl, rfl, hnone⟩

def sampleFixture : Fixture := ⟨"lib", ascii "abc", "1f"⟩

/-- Two calls meet, the first is second to rename, and a third is killed while it writes. -/
def sampleRace : List (Nat × Action) :=
  [(1, .start), (2, .start), (3, .start), (1, .existsPath (.ok ())), (2, .existsPath (.ok ())),
    (3, .existsPath (.ok ())), (1, .open (.ok ())), (2, .open (.ok ())), (3, .open (.ok ())),
    (1, .write (.ok 2)), (2, .write (.ok 3)), (3, .write (.ok 1)), (3, .kill),
    (2, .rename (.ok ())), (1, .write (.ok 1)), (1, .rename (.ok ())),
    (1, .existsPath (.ok ())), (1, .remove_file (.ok ()))]

theorem atomic_sample : ∃ s,
    runs (step sampleFixture ".so" false) ⟨fun _ ↦ none, fun _ ↦ .idle⟩ sampleRace = some s ∧
      s.files "lib_1f.so" = some (ascii "abc") ∧ s.files "1" = none ∧
      s.files "3" = some (ascii "a") ∧ sampleFixture.Whole ".so" s.files := by
  have hfiles : (runs (step sampleFixture ".so" false) ⟨fun _ ↦ none, fun _ ↦ .idle⟩
      sampleRace).map (fun s ↦ (s.files "lib_1f.so", s.files "1", s.files "3")) =
      some (some (ascii "abc"), none, some (ascii "a")) := by
    decide +kernel
  obtain ⟨s, hrun, heq⟩ := Option.map_eq_some_iff.mp hfiles
  simp only [Prod.mk.injEq] at heq
  have hfresh : State.Fresh sampleFixture ".so" ⟨fun _ ↦ none, fun _ ↦ .idle⟩ :=
    ⟨fun _ h ↦ (Option.some_ne_none _ h.symm).elim, fun _ ↦ .inr ⟨rfl, rfl⟩⟩
  exact ⟨s, hrun, heq.1, heq.2.1, heq.2.2, (atomic_of_run hfresh hrun).1⟩

end Fixture

end Fspy
