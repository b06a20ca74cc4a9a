import Fspy.Lib.Path

/-!
# Looking up a path

A directory graph is what a path is looked up in: names lead from a directory to its
entries, `..` to its parent, and an entry may be a symbolic link.  A lookup walks along
the components of the path one by one; a link on the way is replaced by a walk along its
text, and the last component is followed too if the caller says so.  Walks compose, and a
walk reaches at most one node.
-/

namespace Fspy.Lib

/-- What paths are looked up in. -/
structure DirGraph (ν : Type) where
  root : ν
  isDir : ν → Prop
  /-- Where `..` leads. -/
  parent : ν → ν
  entry : ν → List UInt8 → Option ν
  /-- The text of a symbolic link. -/
  target : ν → Option (List UInt8)

/-- A component that stays in the directory: empty, or a dot. -/
def Stays (c : List UInt8) : Prop := c = [] ∨ c = [46]

instance (c : List UInt8) : Decidable (Stays c) := inferInstanceAs (Decidable (_ ∨ _))

/-- The component `..`. -/
def dotdot : List UInt8 := [46, 46]

namespace DirGraph

variable {ν : Type} (g : DirGraph ν)

/-- Where the lookup of a path starts. -/
def start (d : ν) (path : List UInt8) : ν := if Path.isAbsolute path then g.root else d

/-- Walking along some components from a node; only a directory can be left.  `follow`
is about a link in the last component. -/
inductive Walk : Bool → ν → List (List UInt8) → ν → Prop
  | done {follow : Bool} {d : ν} : Walk follow d [] d
  | stay {follow : Bool} {d r : ν} {c : List UInt8} {cs : List (List UInt8)} (hdir : g.isDir d)
      (hc : Stays c) (hrest : Walk follow d cs r) : Walk follow d (c :: cs) r
  | up {follow : Bool} {d r : ν} {cs : List (List UInt8)} (hdir : g.isDir d)
      (hrest : Walk follow (g.parent d) cs r) : Walk follow d (dotdot :: cs) r
  | enter {follow : Bool} {d n r : ν} {c : List UInt8} {cs : List (List UInt8)}
      (hdir : g.isDir d) (hc : ¬Stays c ∧ c ≠ dotdot) (hentry : g.entry d c = some n)
      (hlink : g.target n = none ∨ cs = [] ∧ follow = false) (hrest : Walk follow n cs r) :
      Walk follow d (c :: cs) r
  | link {follow : Bool} {d n m r : ν} {c text : List UInt8} {cs : List (List UInt8)}
      (hdir : g.isDir d) (hc : ¬Stays c ∧ c ≠ dotdot) (hentry : g.entry d c = some n)
      (htarget : g.target n = some text) (hfollow : cs ≠ [] ∨ follow = true)
      (htext : text ≠ []) (hlink : Walk true (g.start d text) (text.splitOn Path.sep) m)
      (hrest : Walk follow m cs r) : Walk follow d (c :: cs) r

/-- Looking up a path from a directory. -/
def Lookup (follow : Bool) (d : ν) (path : List UInt8) (r : ν) : Prop :=
  path ≠ [] ∧ g.Walk follow (g.start d path) (path.splitOn Path.sep) r

variable {g} {follow : Bool} {d m r r' : ν} {cs ds : List (List UInt8)}

theorem not_stays_dotdot : ¬Stays dotdot := by
  rintro (h | h) <;> cases h

/-- A link is either followed or where the walk ends. -/
theorem not_stopped {n : ν} {text : List UInt8}
    (hstop : g.target n = none ∨ cs = [] ∧ follow = false) (htarget : g.target n = some text)
    (hfollow : cs ≠ [] ∨ follow = true) : False := by
  rcases hstop with hnone | ⟨hnil, hfalse⟩
  · rw [hnone] at htarget
    cases htarget
  · rcases hfollow with hne | htrue
    · exact hne hnil
    · rw [hfalse] at htrue
      cases htrue

/-- A walk reaches at most one node. -/
theorem Walk.unique (h : g.Walk follow d cs r) (h' : g.Walk follow d cs r') : r = r' := by
  induction h generalizing r' with
  | done =>
      cases h'
      rfl
  | stay hdir hc hrest ih =>
      cases h' with
      | stay hdir' hc' hrest' => exact ih hrest'
      | up hdir' hrest' => exact absurd hc not_stays_dotdot
      | enter hdir' hc' => exact absurd hc hc'.1
      | link hdir' hc' => exact absurd hc hc'.1
  | up hdir hrest ih =>
      cases h' with
      | stay hdir' hc' hrest' => exact absurd hc' not_stays_dotdot
      | up hdir' hrest' => exact ih hrest'
      | enter hdir' hc' => exact absurd rfl hc'.2
      | link hdir' hc' => exact absurd rfl hc'.2
  | enter hdir hc hentry hlink hrest ih =>
      cases h' with
      | stay hdir' hc' => exact absurd hc' hc.1
      | up hdir' => exact absurd rfl hc.2
      | enter hdir' hc' hentry' hlink' hrest' =>
          rw [hentry] at hentry'
          cases hentry'
          exact ih hrest'
      | link hdir' hc' hentry' htarget' hfollow' =>
          rw [hentry] at hentry'
          cases hentry'
          exact (not_stopped hlink htarget' hfollow').elim
  | link hdir hc hentry htarget hfollow htext hlink hrest ihlink ih =>
      cases h' with
      | stay hdir' hc' => exact absurd hc' hc.1
      | up hdir' => exact absurd rfl hc.2
      | enter hdir' hc' hentry' hlink' =>
          rw [hentry] at hentry'
          cases hentry'
          exact (not_stopped hlink' htarget hfollow).elim
      | link hdir' hc' hentry' htarget' hfollow' htext' hlink' hrest' =>
          rw [hentry] at hentry'
          cases hentry'
          rw [htarget] at htarget'
          cases htarget'
          obtain rfl := ihlink hlink'
          exact ih hrest'

/-- A walk with more components to come follows every link. -/
theorem Walk.append (h : g.Walk true d cs m) (hne : ds ≠ []) (h' : g.Walk follow m ds r) :
    g.Walk follow d (cs ++ ds) r := by
  generalize htrue : true = b at h
  induction h with
  | done => exact h'
  | stay hdir hc hrest ih => exact .stay hdir hc (ih h' htrue)
  | up hdir hrest ih => exact .up hdir (ih h' htrue)
  | enter hdir hc hentry hlink hrest ih =>
      refine .enter hdir hc hentry (.inl (hlink.resolve_right ?_)) (ih h' htrue)
      rintro ⟨-, hfalse⟩
      rw [hfalse] at htrue
      cases htrue
  | link hdir hc hentry htarget hfollow htext hlink hrest ihlink ih =>
      exact .link hdir hc hentry htarget (.inl (List.append_ne_nil_of_right_ne_nil _ hne)) htext
        hlink (ih h' htrue)

/-- Where a walk is after the first of its components. -/
theorem Walk.split (hne : ds ≠ []) (h : g.Walk follow d (cs ++ ds) r) :
    ∃ m, g.Walk true d cs m ∧ g.Walk follow m ds r := by
  induction cs generalizing d with
  | nil => exact ⟨d, .done, h⟩
  | cons c cs ih =>
      cases h with
      | stay hdir hc hrest =>
          obtain ⟨m, hm, hr⟩ := ih hrest
          exact ⟨m, .stay hdir hc hm, hr⟩
      | up hdir hrest =>
          obtain ⟨m, hm, hr⟩ := ih hrest
          exact ⟨m, .up hdir hm, hr⟩
      | enter hdir hc hentry hlink hrest =>
          obtain ⟨m, hm, hr⟩ := ih hrest
          have hnone := hlink.resolve_right fun h ↦
            List.append_ne_nil_of_right_ne_nil cs hne h.1
          exact ⟨m, .enter hdir hc hentry (.inl hnone) hm, hr⟩
      | link hdir hc hentry htarget hfollow htext hlink hrest =>
          obtain ⟨m, hm, hr⟩ := ih hrest
          exact ⟨m, .link hdir hc hentry htarget (.inr rfl) htext hlink hm, hr⟩

/-- **Walks compose.** -/
theorem walk_append_iff (hne : ds ≠ []) :
    g.Walk follow d (cs ++ ds) r ↔ ∃ m, g.Walk true d cs m ∧ g.Walk follow m ds r :=
  ⟨Walk.split hne, fun ⟨_, h, h'⟩ ↦ h.append hne h'⟩

/-- Going on from where a walk has led. -/
theorem Walk.append_iff (h : g.Walk true d cs m) (hne : ds ≠ []) :
    g.Walk follow d (cs ++ ds) r ↔ g.Walk follow m ds r := by
  rw [walk_append_iff hne]
  constructor
  · rintro ⟨m', hm', hr⟩
    obtain rfl := h.unique hm'
    exact hr
  · exact fun hr ↦ ⟨m, h, hr⟩

/-! ## Joining paths -/

variable {dir name : List UInt8}

theorem start_of_relative (d : ν) (h : Path.isAbsolute name = false) : g.start d name = d := by
  rw [start, h]
  rfl

theorem start_root (path : List UInt8) : g.start g.root path = g.root := by
  rw [start]
  split <;> rfl

/-- A directory that is reached with a trailing slash is reached without it. -/
theorem Walk.of_trailing (h : g.Walk true d ((dir ++ [Path.sep]).splitOn Path.sep) r) :
    g.Walk true d (dir.splitOn Path.sep) r := by
  rw [Path.splitOn_append_sep] at h
  obtain ⟨m, hm, hr⟩ := h.split (List.splitOn_ne_nil _ _)
  cases hr with
  | stay hdir hc hrest =>
      cases hrest
      exact hm
  | enter hdir hc => exact absurd (Or.inl rfl) hc.1
  | link hdir hc => exact absurd (Or.inl rfl) hc.1

/-- **Looking up a joined path** is looking up the name where the directory is. -/
theorem lookup_push (hdir : g.Lookup true g.root dir d) (hname : Path.isAbsolute name = false)
    (hne : name ≠ []) : g.Lookup follow g.root (Path.push dir name) r ↔
      g.Lookup follow d name r := by
  obtain ⟨hdirne, hwalk⟩ := hdir
  rw [start_root] at hwalk
  rw [Lookup, Lookup, start_root, start_of_relative d hname, Path.push,
    if_neg (Bool.eq_false_iff.mp hname), List.isEmpty_eq_false_iff.mpr hdirne, Bool.false_or]
  by_cases hlast : dir.getLast? = some Path.sep
  · obtain ⟨init, rfl⟩ := List.getLast?_eq_some_iff.mp hlast
    rw [if_pos (by simp), List.append_assoc, List.singleton_append, Path.splitOn_append_sep,
      hwalk.of_trailing.append_iff (List.splitOn_ne_nil _ _)]
    simp [hne]
  · rw [if_neg (by simpa using hlast), Path.splitOn_append_sep,
      hwalk.append_iff (List.splitOn_ne_nil _ _)]
    simp [hne]

end DirGraph

end Fspy.Lib
