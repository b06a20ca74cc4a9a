import Fspy.Unix.Shebang

/-!
# Searching a program in `PATH`

`which` tries the candidates of a program in the order of `PATH`.  What it does is
said once, in terms of the candidates alone: `searched` are the candidates it tries,
`found` is the one it settles on, and `whichLoop_eq_ok` reads both off its result.
-/

namespace Fspy.Unix

def NAME_MAX : Nat := 255

/-- `concat`.  The buffer has the size of all the pieces, which fill it exactly. -/
def concat (s : List Bytes) : Bytes := s.flatten

/-- The path `which` tries for an element of `PATH`. -/
def candidate (file p : Bytes) : Bytes :=
  concat [p, if p.isEmpty then [] else ascii "/", file]

/-- The errors of a probe after which the search goes on. -/
def goesOn (err : Errno) : Bool := err == .EACCES || err == .ENOENT || err == .ENOTDIR

variable {R : Type}

/-- The loop of `which` over the elements of `PATH`.  The loop ends with the first
call of `callback`, so `Option::take` finds it in place. -/
def whichLoop (file : Bytes) (access_executable : Bytes → ExecM (Except Errno Unit))
    (callback : Bytes → ExecM R) : List Bytes → Bool → Errno → ExecM R
  | [], seen_eacces, last_err => .fail (.errno (if seen_eacces then .EACCES else last_err))
  | p :: ps, seen_eacces, _ => do
      match ← access_executable (candidate file p) with
      | .ok () => callback (candidate file p)
      | .error err =>
          if goesOn err then
            whichLoop file access_executable callback ps (seen_eacces || err == .EACCES) err
          else .fail (.errno err)

/-- `which`. -/
def which (file path : Bytes) (access_executable : Bytes → ExecM (Except Errno Unit))
    (callback : Bytes → ExecM R) : ExecM R :=
  if file.isEmpty then .fail (.errno .ENOENT)
  else if file.contains Lib.Path.sep then callback file
  else if file.length > NAME_MAX then .fail (.errno .ENAMETOOLONG)
  else whichLoop file access_executable callback (path.splitOn 58) false .ENOENT

/-! ## The search in terms of the candidates -/

section Search

variable (attempt : Bytes → Except Errno Unit)

/-- The candidates the search tries. -/
def searched : List Bytes → List Bytes
  | [] => []
  | c :: cs => c :: match attempt c with
      | .ok () => []
      | .error err => if goesOn err then searched cs else []

/-- The candidate the search settles on. -/
def found : List Bytes → Option Bytes
  | [] => none
  | c :: cs => match attempt c with
      | .ok () => some c
      | .error err => if goesOn err then found cs else none

variable (sys : System)

/-- The probe that `Exec::resolve` hands to `which`. -/
def probe (on_path_access : PathAccess → ExecM Unit) (path : Bytes) :
    ExecM (Except Errno Unit) := do
  on_path_access (.read path)
  return sys.access path

variable {sys} {on_path_access : PathAccess → ExecM Unit} {file r : Bytes} {ps : List Bytes}
  {seen_eacces : Bool} {last_err : Errno}

/-- The search returns the first accessible candidate, once the reports of all
candidates up to it have gone through. -/
theorem whichLoop_eq_ok :
    (whichLoop file (probe sys on_path_access) pure ps seen_eacces last_err).result = .ok r ↔
      (∀ c ∈ searched sys.access (ps.map (candidate file)),
        (on_path_access (.read c)).result = .ok ()) ∧
        found sys.access (ps.map (candidate file)) = some r := by
  induction ps generalizing seen_eacces last_err with
  | nil => simp [whichLoop, searched, found]
  | cons p ps ih =>
      rw [whichLoop, Lib.Traced.bind_eq_ok, List.map_cons, searched, found]
      simp only [probe, Lib.Traced.bind_eq_ok, Lib.Traced.result_pure, Except.ok.injEq]
      cases hacc : sys.access (candidate file p) with
      | ok u => simp
      | error err =>
          cases hgo : goesOn err with
          | false => simp [hgo]
          | true => simp [hgo, ih, and_assoc]

/-- The search panics only in a report. -/
theorem whichLoop_eq_panic
    (hreport : ∀ pa e, (on_path_access pa).result ≠ .error (.errno e)) :
    (whichLoop file (probe sys on_path_access) pure ps seen_eacces last_err).result =
        (.error .panic : Except Stop Bytes) ↔
      ∃ c ∈ searched sys.access (ps.map (candidate file)),
        (on_path_access (.read c)).result = .error .panic := by
  induction ps generalizing seen_eacces last_err with
  | nil => simp [whichLoop, searched]
  | cons p ps ih =>
      rw [whichLoop, Lib.Traced.bind_eq_error, List.map_cons, searched]
      simp only [probe, Lib.Traced.bind_eq_ok, Lib.Traced.bind_eq_error, Lib.Traced.result_pure,
        Except.ok.injEq]
      cases hr : (on_path_access (.read (candidate file p))).result with
      | error stop =>
          cases stop with
          | errno e => exact absurd hr (hreport _ _)
          | panic => simp [hr]
      | ok u =>
          cases hacc : sys.access (candidate file p) with
          | ok u => simp [hr]
          | error err => cases hgo : goesOn err <;> simp [hr, hgo, ih]

end Search

end Fspy.Unix
