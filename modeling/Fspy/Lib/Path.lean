import Mathlib.Data.List.Basic

/-!
# Unix paths as `std::path` sees them

Paths are byte strings.  `components` leaves out what a path walk ignores, repeated
slashes and `.`, and keeps `..`; `absolute` is purely textual and looks at the
current directory of a relative path only.
-/

namespace Fspy.Lib.Path

/-- The byte `/`. -/
def sep : UInt8 := 47

/-- `Path::is_absolute`. -/
def isAbsolute (p : List UInt8) : Bool := p.head? == some sep

/-- The `ParentDir` and `Normal` components of a path. -/
def components (p : List UInt8) : List (List UInt8) :=
  (p.splitOn sep).filter fun c ↦ !c.isEmpty && c != [46]

/-- `PathBuf::push`. -/
def push (buf p : List UInt8) : List UInt8 :=
  if isAbsolute p then p
  else if buf.isEmpty || buf.getLast? == some sep then buf ++ p
  else buf ++ sep :: p

/-- `Path::file_name`. -/
def fileName (p : List UInt8) : Option (List UInt8) :=
  match (components p).getLast? with
  | some c => if c = [46, 46] then none else some c
  | none => none

/-- What a rooted path starts with: two leading slashes, but not more, are kept. -/
def root (p : List UInt8) : List UInt8 :=
  if [sep, sep].isPrefixOf p && !([sep, sep, sep].isPrefixOf p) then [sep, sep] else [sep]

/-- `std::path::absolute`, in a process with the current directory `cwd`, if that can
be read. -/
def absolute (cwd : Option (List UInt8)) (p : List UInt8) : Option (List UInt8) :=
  if p.isEmpty then none
  else
    (if isAbsolute p then some (root p) else cwd).map fun start ↦
      let normalized := (components p).foldl push start
      if p.getLast? = some sep then push normalized [] else normalized

/-- The three reasons for which a path can be made absolute or not. -/
theorem absolute_eq_none {cwd : Option (List UInt8)} {p : List UInt8} :
    absolute cwd p = none ↔ p = [] ∨ isAbsolute p = false ∧ cwd = none := by
  cases p with
  | nil => simp [absolute]
  | cons b p =>
      rw [absolute, if_neg (by simp), Option.map_eq_none_iff]
      cases h : isAbsolute (b :: p) <;> simp

theorem isAbsolute_iff {p : List UInt8} : isAbsolute p = true ↔ p.head? = some sep := by
  simp [isAbsolute]

/-- Both sides of a slash are split on their own. -/
theorem splitOn_append_sep (s t : List UInt8) :
    (s ++ sep :: t).splitOn sep = s.splitOn sep ++ t.splitOn sep := by
  rw [List.splitOn_eq_splitOnP, List.splitOn_eq_splitOnP, List.splitOn_eq_splitOnP]
  exact List.splitOnP_append_cons s t (by simp)

theorem isAbsolute_push {buf p : List UInt8} (h : isAbsolute buf) : isAbsolute (push buf p) := by
  rw [push]
  split
  · assumption
  · cases buf with
    | nil => cases h
    | cons b buf => split <;> exact h

theorem isAbsolute_foldl_push {buf : List UInt8} (ps : List (List UInt8)) (h : isAbsolute buf) :
    isAbsolute (ps.foldl push buf) := by
  induction ps generalizing buf with
  | nil => exact h
  | cons p ps ih => exact ih (isAbsolute_push h)

theorem isAbsolute_root (p : List UInt8) : isAbsolute (root p) := by
  rw [root]
  split <;> rfl

/-- What `absolute` makes of a path is absolute, if the current directory is. -/
theorem isAbsolute_absolute {cwd : Option (List UInt8)} {p q : List UInt8}
    (hcwd : ∀ dir, cwd = some dir → isAbsolute dir) (h : absolute cwd p = some q) :
    isAbsolute q := by
  rw [absolute] at h
  split at h
  · cases h
  · obtain ⟨start, hstart, rfl⟩ := Option.map_eq_some_iff.mp h
    have habs : isAbsolute start := by
      split at hstart
      · obtain rfl := Option.some.inj hstart
        exact isAbsolute_root p
      · exact hcwd start hstart
    have hfold := isAbsolute_foldl_push (components p) habs
    dsimp only
    split
    · exact isAbsolute_push hfold
    · exact hfold

end Fspy.Lib.Path
