import Fspy.Unix.Kernel

/-!
# One file system, several processes

`World` is the file system itself: which file an absolute path leads to, and what that
file is.  A process sees it from its directory, and `World.system` is what its system
calls then see.  Two processes agree on absolute paths, and on all paths if they stand
in the same directory; a search in `PATH` may end elsewhere all the same.
-/

namespace Fspy.Unix

/-- A file system. -/
structure World where
  /-- The file that an absolute path leads to. -/
  walk : Bytes → Except Errno Nat
  node : Nat → Node

/-- What a process brings to a path lookup. -/
structure Process where
  /-- The directory relative paths start from. -/
  dir : Bytes
  /-- The error of `getcwd`, if it fails. -/
  getcwd_error : Option Errno
  PATH : Option Bytes

namespace World

variable (w : World) (proc child : Process)

/-- The file that a path leads to. -/
def file (path : Bytes) : Except Errno Nat :=
  if path.isEmpty then .error .ENOENT
  else w.walk (if Lib.Path.isAbsolute path then path else Lib.Path.push proc.dir path)

/-- What the system calls of a process see. -/
def system : System where
  lookup path := (w.file proc path).map w.node
  cwd := match proc.getcwd_error with
    | some e => .error e
    | none => .ok proc.dir
  PATH := proc.PATH

/-- `chdir`. -/
def chdir (path : Bytes) : Except Errno Process :=
  match (w.system proc).node path with
  | .error e => .error e
  | .ok (.file _ _ _) => .error .ENOTDIR
  | .ok (.dir executable _) =>
      if executable then
        .ok { proc with dir := Lib.Path.push proc.dir path, getcwd_error := none }
      else .error .EACCES

variable {w proc child} {path : Bytes}

end World

/-! ## Searching a file to execute -/

/-- Whether the kernel executes a path. -/
def Kernel.attempt (k : Kernel) (sys : System) (path : Bytes) : Except Errno Unit :=
  (k.load sys k.limit path []).map fun _ ↦ ()

/-- It does not depend on the arguments. -/
theorem Kernel.load_map_unit (k : Kernel) (sys : System) (n : Nat) (path : Bytes)
    (argv argv' : List Bytes) :
    (k.load sys n path argv).map (fun _ ↦ ()) = (k.load sys n path argv').map fun _ ↦ () := by
  induction n generalizing path argv argv' with
  | zero => rfl
  | succ n ih =>
      rw [Kernel.load, Kernel.load]
      cases sys.node path with
      | error e => rfl
      | ok node =>
          cases node with
          | dir => rfl
          | file content executable readable =>
              cases executable with
              | false => rfl
              | true =>
                  cases hs : shebangOf content k.shebang_options with
                  | some shebang =>
                      simp only [hs, if_true]
                      exact ih _ _ _
                  | none => cases hl : k.loads content <;> simp [hs, hl, Except.map]

/-- What the kernel executes is a file that may be executed. -/
theorem Kernel.node_of_attempt {k : Kernel} {sys : System} {path : Bytes}
    (h : k.attempt sys path = .ok ()) :
    ∃ content readable, sys.node path = .ok (.file content true readable) := by
  rw [Kernel.attempt] at h
  cases hload : k.load sys k.limit path [] with
  | error e =>
      rw [hload] at h
      cases h
  | ok image =>
      obtain ⟨m, content, readable, -, hnode, -⟩ := Kernel.load_eq_ok hload
      exact ⟨content, readable, hnode⟩

/-- The paths that libc tries for a file. -/
def attempts (path file : Bytes) : List Bytes :=
  if file.isEmpty then []
  else if file.contains Lib.Path.sep then [file]
  else if file.length > NAME_MAX then []
  else candidates path file

/-- `execvp` with the search path `path`, as far as `which` replicates it: the path that is
executed. -/
def execvp (k : Kernel) (sys : System) (path file : Bytes) (argv : List Bytes) : Option Bytes :=
  found (fun c ↦ (k.load sys k.limit c argv).map fun _ ↦ ()) (attempts path file)

theorem execvp_eq (k : Kernel) (sys : System) (path file : Bytes) (argv : List Bytes) :
    execvp k sys path file argv = found (k.attempt sys) (attempts path file) :=
  congrArg (found · _) (funext fun c ↦ k.load_map_unit sys k.limit c argv [])

/-- A search that executes one path after the other, up to the first that is executed or fails
with an error that is not passed over. -/
def searchExec {α : Type} (passes : Errno → Bool) (attempt : Bytes → Except Errno α) :
    List Bytes → Option α
  | [] => none
  | c :: cs => match attempt c with
    | .ok a => some a
    | .error err => if passes err then searchExec passes attempt cs else none

/-- The search ends at the first path that is not passed over. -/
theorem searchExec_eq_some {α : Type} {passes : Errno → Bool} {attempt : Bytes → Except Errno α}
    {cs : List Bytes} {a : α} :
    searchExec passes attempt cs = some a ↔ ∃ pre c post, cs = pre ++ c :: post ∧
      (∀ b ∈ pre, ∃ err, attempt b = .error err ∧ passes err) ∧ attempt c = .ok a := by
  induction cs with
  | nil => simp [searchExec]
  | cons c cs ih =>
      rw [searchExec]
      constructor
      · intro h
        cases hc : attempt c with
        | ok a' =>
            rw [hc] at h
            obtain rfl := Option.some.inj h
            exact ⟨[], c, cs, rfl, by simp, hc⟩
        | error err =>
            rw [hc] at h
            dsimp only at h
            split at h
            · rename_i hgo
              obtain ⟨pre, d, post, rfl, hpre, hd⟩ := ih.mp h
              refine ⟨c :: pre, d, post, rfl, ?_, hd⟩
              intro b hb
              rcases List.mem_cons.mp hb with rfl | hb
              · exact ⟨err, hc, hgo⟩
              · exact hpre b hb
            · cases h
      · rintro ⟨pre, d, post, hcs, hpre, hd⟩
        cases pre with
        | nil =>
            obtain ⟨rfl, rfl⟩ := List.cons.inj hcs
            rw [hd]
        | cons b pre =>
            obtain ⟨rfl, rfl⟩ := List.cons.inj hcs
            obtain ⟨err, hb, hgo⟩ := hpre c List.mem_cons_self
            rw [hb]
            dsimp only
            rw [if_pos hgo]
            exact ih.mpr ⟨pre, d, post, rfl, fun b hb ↦ hpre b (List.mem_cons_of_mem _ hb), hd⟩

theorem found_eq_searchExec (attempt : Bytes → Except Errno Unit) (cs : List Bytes) :
    found attempt cs = searchExec goesOn (fun c ↦ (attempt c).map fun _ ↦ c) cs := by
  induction cs with
  | nil => rfl
  | cons c cs ih =>
      rw [found, searchExec, ih]
      cases attempt c <;> rfl

theorem found_eq_some {attempt : Bytes → Except Errno Unit} {cs : List Bytes} {c : Bytes} :
    found attempt cs = some c ↔ ∃ pre post, cs = pre ++ c :: post ∧
      (∀ a ∈ pre, ∃ err, attempt a = .error err ∧ goesOn err) ∧ attempt c = .ok () := by
  have herror : ∀ a err, (attempt a).map (fun _ ↦ a) = .error err ↔ attempt a = .error err := by
    intro a err
    cases attempt a <;> simp [Except.map]
  have hok : ∀ a, (attempt a).map (fun _ ↦ a) = .ok c ↔ a = c ∧ attempt a = .ok () := by
    intro a
    cases attempt a <;> simp [Except.map]
  rw [found_eq_searchExec, searchExec_eq_some]
  simp only [herror, hok]
  constructor
  · rintro ⟨pre, a, post, hcs, hpre, rfl, ha⟩
    exact ⟨pre, post, hcs, hpre, ha⟩
  · rintro ⟨pre, post, hcs, hpre, hc⟩
    exact ⟨pre, c, post, hcs, hpre, rfl, hc⟩

end Fspy.Unix
