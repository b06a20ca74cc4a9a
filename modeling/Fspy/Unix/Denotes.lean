import Fspy.Lib.Walk
import Fspy.Unix.Open

/-!
# The file that a recorded path denotes

The conversions of the hooks join a pathname to the text of its directory and look at
neither.  In any directory graph, looking up the joined path from the root is the same
as looking up the pathname in the directory, whatever links and `..` they contain: the
record names the file that the call is about.
-/

namespace Fspy.Unix

open Lib

/-- The descriptor of the directory and the pathname of the call that is converted. -/
def PathArg.call : PathArg → Option (Int × Bytes)
  | .fd _ => none
  | .maybeRelative path => some (AT_FDCWD, path)
  | .pathAt dirfd pathname => some (dirfd, cstr pathname)
  | .c_char pathname => some (AT_FDCWD, cstr pathname)

/-- The path that is made of a pathname in a directory with this text. -/
def joined (text name : Bytes) : Bytes := if Path.isAbsolute name then name else below text name

variable {helpers : Helpers} {arg : PathArg} {dirfd : Int} {name text : Bytes} {ν : Type}
  {g : DirGraph ν} {d : ν}

/-- The three conversions have one body. -/
theorem to_absolute_path_of_call (h : arg.call = some (dirfd, name)) {R : Type}
    (f : Option Bytes → Except Errno R) :
    arg.to_absolute_path helpers f = atPath helpers dirfd name f := by
  cases arg with
  | fd raw_fd => cases h
  | maybeRelative path | pathAt fd pathname | c_char pathname =>
      cases h
      rfl

theorem atPath_of_isAbsolute (h : Path.isAbsolute name) {R : Type}
    (f : Option Bytes → Except Errno R) : atPath helpers dirfd name f = f (some name) := by
  rw [atPath, if_pos (Path.isAbsolute_iff.mp h)]

/-- The callback is given the joined path. -/
theorem atPath_of_dirPath (h : helpers.dirPath dirfd = .ok text) {R : Type}
    (f : Option Bytes → Except Errno R) :
    atPath helpers dirfd name f = f (some (joined text name)) := by
  rw [joined]
  by_cases habs : Path.isAbsolute name = true
  · rw [if_pos habs, atPath_of_isAbsolute habs]
  · have habsorbed : helpers.Absorbed dirfd := by
      intro e he
      rw [h] at he
      cases he
    have hpath : get_fd_path helpers dirfd = .ok (some text) := by
      rw [get_fd_path_eq_ok, h]
      exact ⟨habsorbed, rfl⟩
    rw [if_neg habs, atPath, if_neg (fun hsep ↦ habs (Path.isAbsolute_iff.mpr hsep)),
      except_bind_of_ok hpath]

/-- **Looking up what is recorded** is looking up the pathname in its directory. -/
theorem lookup_joined (hd : g.Lookup true g.root text d) (hne : name ≠ []) (follow : Bool)
    (r : ν) : g.Lookup follow g.root (joined text name) r ↔ g.Lookup follow d name r := by
  rw [joined]
  by_cases habs : Path.isAbsolute name = true
  · rw [if_pos habs, DirGraph.Lookup, DirGraph.Lookup, DirGraph.start, DirGraph.start,
      if_pos habs, if_pos habs]
  · have hbelow : below text name = Path.push text name := by
      rw [below, if_neg (by simpa using hne)]
    rw [if_neg habs, hbelow, DirGraph.lookup_push hd (Bool.eq_false_iff.mpr habs) hne]

theorem isAbsolute_joined (h : Path.isAbsolute text) : Path.isAbsolute (joined text name) := by
  rw [joined]
  split
  · assumption
  · rename_i habs
    rw [isAbsolute_below _ (Bool.eq_false_iff.mpr habs)]
    · exact h
    · rintro rfl
      cases h

/-- **What the conversions record.**  An absolute pathname is passed on as it is, whatever
the descriptor; conversions of the same call agree; and if the text of the descriptor
names its directory, the path names the file of the call, or the directory itself for the
empty pathname. -/
theorem to_absolute_path_denotes (g : DirGraph ν) (helpers : Helpers) (arg : PathArg)
    (dirfd : Int) (name : Bytes) (hcall : arg.call = some (dirfd, name)) :
    (Path.isAbsolute name → ∀ (R : Type) (f : Option Bytes → Except Errno R),
        arg.to_absolute_path helpers f = f (some name)) ∧
      (∀ arg' : PathArg, arg'.call = some (dirfd, name) →
        ∀ (R : Type) (f : Option Bytes → Except Errno R),
          arg'.to_absolute_path helpers f = arg.to_absolute_path helpers f) ∧
      ∀ text d, helpers.dirPath dirfd = .ok text → g.Lookup true g.root text d →
        ∃ path, (∀ (R : Type) (f : Option Bytes → Except Errno R),
            arg.to_absolute_path helpers f = f (some path)) ∧
          (Path.isAbsolute text → Path.isAbsolute path) ∧
          (name = [] → path = text ∧ g.Lookup true g.root path d) ∧
          (name ≠ [] → ∀ follow r,
            g.Lookup follow g.root path r ↔ g.Lookup follow d name r) := by
  refine ⟨fun habs R f ↦ ?_, fun arg' hcall' R f ↦ ?_, fun text d htext hd ↦ ?_⟩
  · rw [to_absolute_path_of_call hcall, atPath_of_isAbsolute habs]
  · rw [to_absolute_path_of_call hcall, to_absolute_path_of_call hcall']
  · refine ⟨joined text name, fun R f ↦ ?_, isAbsolute_joined, ?_, fun hne ↦ ?_⟩
    · rw [to_absolute_path_of_call hcall, atPath_of_dirPath htext]
    · rintro rfl
      exact ⟨rfl, hd⟩
    · exact lookup_joined hd hne

/-- A root with a directory `d` in it, and in that a link `l` to the directory above. -/
def sampleGraph : DirGraph Nat where
  root := 0
  isDir n := n < 2
  parent _ := 0
  entry n c := if n = 0 ∧ c = ascii "d" then some 1 else
    if n = 1 ∧ c = ascii "l" then some 2 else none
  target n := if n = 2 then some (ascii "..") else none

theorem lookup_sample : sampleGraph.Lookup true 0 (ascii "/d") 1 := by
  have hroot : sampleGraph.isDir 0 := Nat.zero_lt_two
  have hwalk : sampleGraph.Walk true 0 [[], ascii "d"] 1 :=
    .stay hroot (.inl rfl) (.enter hroot (by decide) rfl (.inl rfl) .done)
  exact ⟨by decide, hwalk⟩

/-- A call with the name `l` and descriptor 3, the directory `d`. -/
theorem to_absolute_path_denotes_sample :
    ∃ path, (∀ (R : Type) (f : Option Bytes → Except Errno R),
        (PathArg.pathAt 3 (toCStr (ascii "l"))).to_absolute_path
          ⟨.error .ENOENT, fun _ ↦ .ok (ascii "/d")⟩ f = f (some path)) ∧
      (Path.isAbsolute (ascii "/d") → Path.isAbsolute path) ∧
      (ascii "l" = [] → path = ascii "/d" ∧ sampleGraph.Lookup true 0 path 1) ∧
      (ascii "l" ≠ [] → ∀ follow r,
        sampleGraph.Lookup follow 0 path r ↔ sampleGraph.Lookup follow 1 (ascii "l") r) :=
  (to_absolute_path_denotes sampleGraph ⟨.error .ENOENT, fun _ ↦ .ok (ascii "/d")⟩
    (.pathAt 3 (toCStr (ascii "l"))) 3 (ascii "l") (by decide)).2.2 (ascii "/d") 1 rfl
    lookup_sample

end Fspy.Unix
