import Fspy.Lib.Path
import Fspy.Lib.Words

/-!
# The text around the components of a path

`std::path` iterates over the components of a path and skips what is none, but what it
hands out of a path is a part of its text: between the first component and the last, the
repeated slashes and dots are still there.
-/

namespace Fspy.Lib.Path

/-- A piece between two slashes that is no component. -/
def skipped (piece : List UInt8) : Bool := piece.isEmpty || piece == [46]

/-- The root, or a dot in front of everything else. -/
def lead (p : List UInt8) : List UInt8 :=
  if isAbsolute p then [sep] else if p = [46] ∨ [46, sep].isPrefixOf p then [46] else []

/-- The pieces of the rest, between its slashes. -/
def pieces (p : List UInt8) : List (List UInt8) := (p.drop (lead p).length).splitOn sep

def join (ps : List (List UInt8)) : List UInt8 := [sep].intercalate ps

/-- `Path::parent`. -/
def parent (p : List UInt8) : Option (List UInt8) :=
  let kept := (pieces p).rdropWhile skipped
  if kept.isEmpty then if lead p = [46] then some [] else none
  else some (lead p ++ join (kept.dropLast.rdropWhile skipped))

/-- What is left after some components. -/
def dropComponents : List (List UInt8) → List (List UInt8) → Option (List (List UInt8))
  | [], ps => some ps
  | c :: cs, ps => match ps.dropWhile skipped with
      | [] => none
      | p :: ps => if p = c then dropComponents cs ps else none

/-- `Path::strip_prefix`: the rest starts and ends with a component. -/
def stripPrefix (base p : List UInt8) : Option (List UInt8) :=
  let cs := (pieces base).filter (!skipped ·)
  if lead base = [] ∧ cs = [] then some (lead p ++ join ((pieces p).rdropWhile skipped))
  else if lead p = lead base then
    (dropComponents cs (pieces p)).map fun ps ↦ join (trim skipped ps)
  else none

variable {p s t : List UInt8} {c : List UInt8} {ps qs : List (List UInt8)}

theorem components_eq (p : List UInt8) : components p = (p.splitOn sep).filter (!skipped ·) := by
  simp [components, skipped, bne]

theorem join_append (hp : ps ≠ []) (hq : qs ≠ []) :
    join (ps ++ qs) = join ps ++ sep :: join qs := by
  induction ps with
  | nil => exact absurd rfl hp
  | cons p ps ih =>
      cases ps with
      | nil =>
          rw [List.singleton_append, join, List.intercalate_cons_of_ne_nil hq]
          simp [join]
      | cons p' ps =>
          have hrest := ih (List.cons_ne_nil p' ps)
          rw [join, join] at hrest ⊢
          simp only [List.cons_append, List.intercalate_cons_cons] at hrest ⊢
          rw [hrest, List.append_assoc (p ++ [sep])]

theorem join_splitOn (s : List UInt8) : join (s.splitOn sep) = s := List.intercalate_splitOn sep

/-- Joining pieces without slashes loses nothing. -/
theorem splitOn_join (hne : ps ≠ []) (hsep : ∀ p ∈ ps, sep ∉ p) : (join ps).splitOn sep = ps :=
  List.splitOn_intercalate sep hsep hne

theorem sep_notMem_of_mem_splitOn (h : c ∈ p.splitOn sep) : sep ∉ c := by
  intro hsep
  rw [List.splitOn_eq_splitOnP] at h
  have := (mem_of_mem_splitOnP h hsep).2
  simp at this

/-! ## Absolute paths -/

theorem lead_of_isAbsolute (h : isAbsolute p) : lead p = [sep] := by
  rw [lead, if_pos h]

theorem eq_sep_cons_of_isAbsolute (h : isAbsolute p) : ∃ body, p = sep :: body := by
  cases p with
  | nil => cases h
  | cons b body =>
      obtain rfl := Option.some.inj (isAbsolute_iff.mp h)
      exact ⟨body, rfl⟩

theorem pieces_sep_cons (s : List UInt8) : pieces (sep :: s) = s.splitOn sep := by
  rw [pieces, lead_of_isAbsolute rfl]
  rfl

theorem components_sep_cons (s : List UInt8) :
    components (sep :: s) = (s.splitOn sep).filter (!skipped ·) := by
  have := splitOn_append_sep [] s
  rw [List.nil_append] at this
  rw [components_eq, this]
  rfl

/-- The last component, what precedes it, and the skipped pieces around it. -/
theorem exists_split_last (h : ps.rdropWhile skipped ≠ []) :
    ∃ gap last trail, Blank skipped gap ∧ skipped last = false ∧ Blank skipped trail ∧
      ps = (ps.rdropWhile skipped).dropLast.rdropWhile skipped ++ (gap ++ last :: trail) := by
  obtain ⟨trail, htrail, hps⟩ := exists_rdropWhile (p := skipped) ps
  obtain ⟨gap, hgap, hinit⟩ := exists_rdropWhile (p := skipped) (ps.rdropWhile skipped).dropLast
  refine ⟨gap, (ps.rdropWhile skipped).getLast h, trail, hgap, ?_, htrail, ?_⟩
  · exact lastFree_rdropWhile ps _ (List.getLast?_eq_some_getLast h)
  · conv => lhs; rw [hps, ← List.dropLast_append_getLast h, hinit]
    simp

/-- Between two components, skipped pieces only. -/
theorem filter_split_last {gap trail : List (List UInt8)} {last : List UInt8}
    (hgap : Blank skipped gap) (hlast : skipped last = false) (htrail : Blank skipped trail) :
    (ps ++ (gap ++ last :: trail)).filter (!skipped ·) = ps.filter (!skipped ·) ++ [last] := by
  have hnil : ∀ {l : List (List UInt8)}, Blank skipped l → l.filter (!skipped ·) = [] := by
    intro l hl
    rw [List.filter_eq_nil_iff]
    intro c hc
    simp [hl c hc]
  rw [List.filter_append, List.filter_append, hnil hgap, List.nil_append,
    List.filter_cons_of_pos (by simp [hlast]), hnil htrail]

theorem fileName_eq_some {c : List UInt8} (h : components p = ps ++ [c]) {name : List UInt8} :
    fileName p = some name ↔ name = c ∧ name ≠ [46, 46] := by
  rw [fileName, h, List.getLast?_concat]
  dsimp only
  split
  · rename_i hdots
    simp only [reduceCtorEq, false_iff, not_and, not_not]
    rintro rfl
    exact hdots
  · rename_i hdots
    rw [Option.some.injEq]
    constructor
    · rintro rfl
      exact ⟨rfl, hdots⟩
    · exact fun h ↦ h.1.symm

/-- A text whose pieces are all components. -/
def Canonical (s : List UInt8) : Prop := ∀ c ∈ s.splitOn sep, skipped c = false

instance (s : List UInt8) : Decidable (Canonical s) :=
  inferInstanceAs (Decidable (∀ c ∈ s.splitOn sep, skipped c = false))

theorem Canonical.filter (h : Canonical s) :
    (s.splitOn sep).filter (!skipped ·) = s.splitOn sep := by
  rw [List.filter_eq_self]
  intro c hc
  simp [h c hc]

/-- **The parent of an absolute path is a given text** if the path has its components and
one more, and starts with that very text. -/
theorem parent_fileName_iff (hs : Canonical s) (name : List UInt8) :
    parent (sep :: t) = some (sep :: s) ∧ fileName (sep :: t) = some name ↔
      components (sep :: t) = s.splitOn sep ++ [name] ∧ name ≠ [46, 46] ∧ s ++ [sep] <+: t := by
  rw [components_sep_cons, parent, pieces_sep_cons, lead_of_isAbsolute rfl]
  constructor
  · rintro ⟨hparent, hname⟩
    split at hparent
    · cases hparent
    · rename_i hkept
      rw [List.isEmpty_iff] at hkept
      obtain ⟨gap, last, trail, hgap, hlast, htrail, hpieces⟩ := exists_split_last hkept
      generalize ((t.splitOn sep).rdropWhile skipped).dropLast.rdropWhile skipped = init at *
      have hjoin : join init = s := List.cons.inj (Option.some.inj hparent) |>.2
      have hne : init ≠ [] := by
        rintro rfl
        subst hjoin
        exact absurd (hs [] (by simp [join])) (by decide)
      have hinit : init = s.splitOn sep := by
        rw [← hjoin, splitOn_join hne]
        intro c hc
        exact sep_notMem_of_mem_splitOn (hpieces ▸ List.mem_append_left _ hc)
      have hcomponents : (t.splitOn sep).filter (!skipped ·) = s.splitOn sep ++ [last] := by
        rw [hpieces, filter_split_last hgap hlast htrail, hinit, hs.filter]
      rw [← components_sep_cons] at hcomponents ⊢
      obtain ⟨rfl, hdots⟩ := (fileName_eq_some hcomponents).mp hname
      refine ⟨hcomponents, hdots, join (gap ++ name :: trail), ?_⟩
      conv => rhs; rw [← join_splitOn t, hpieces, join_append hne (by simp), hjoin]
      simp
  · rintro ⟨hcomponents, hdots, rest, rfl⟩
    rw [List.append_assoc, List.singleton_append, splitOn_append_sep, List.filter_append,
      hs.filter] at hcomponents
    have hrest := List.append_cancel_left hcomponents
    obtain ⟨gap, trail, hsplit, hgap, hname, htrail⟩ := List.filter_eq_cons_iff.mp hrest
    have hgap' : Blank skipped gap := fun c hc ↦ by simpa using hgap c hc
    have htrail' : Blank skipped trail := fun c hc ↦ by
      simpa using List.filter_eq_nil_iff.mp htrail c hc
    have hname' : skipped name = false := by simpa using hname
    have hlast : LastFree skipped (s.splitOn sep) :=
      fun c hc ↦ hs c (List.mem_of_getLast? hc)
    have hkept : ((s ++ [sep] ++ rest).splitOn sep).rdropWhile skipped =
        s.splitOn sep ++ gap ++ [name] := by
      rw [List.append_assoc, List.singleton_append, splitOn_append_sep, hsplit,
        ← List.append_assoc, List.append_cons, rdropWhile_append_of_blank htrail',
        rdropWhile_of_lastFree]
      intro c hc
      rw [List.getLast?_concat] at hc
      obtain rfl := Option.some.inj hc
      exact hname'
    have hall : components (sep :: (s ++ [sep] ++ rest)) = s.splitOn sep ++ [name] := by
      rw [components_sep_cons, List.append_assoc, List.singleton_append, splitOn_append_sep,
        List.filter_append, hs.filter, hrest]
    refine ⟨?_, (fileName_eq_some hall).mpr ⟨rfl, hdots⟩⟩
    rw [hkept, if_neg (by simp), List.dropLast_concat, rdropWhile_append_of_blank hgap',
      rdropWhile_of_lastFree hlast, join_splitOn]
    rfl

/-- A path that starts with a canonical directory has its components first. -/
theorem components_of_starts (hs : Canonical s) (h : s ++ [sep] <+: t) :
    s.splitOn sep <+: components (sep :: t) := by
  obtain ⟨rest, rfl⟩ := h
  rw [components_sep_cons, List.append_assoc, List.singleton_append, splitOn_append_sep,
    List.filter_append, hs.filter]
  exact List.prefix_append _ _

/-! ## Any path -/

theorem join_take (n : Nat) (ps : List (List UInt8)) : join (ps.take n) <+: join ps := by
  cases hn : ps.take n with
  | nil => exact List.nil_prefix
  | cons p init =>
      cases hd : ps.drop n with
      | nil =>
          have hall : p :: init = ps :=
            hn.symm.trans (List.take_of_length_le (List.drop_eq_nil_iff.mp hd))
          exact ⟨[], by rw [List.append_nil, hall]⟩
      | cons q rest =>
          conv => rhs; rw [← List.take_append_drop n ps, hn, hd,
            join_append (List.cons_ne_nil _ _) (List.cons_ne_nil _ _)]
          exact List.prefix_append _ _

theorem lead_append_drop (p : List UInt8) : lead p ++ p.drop (lead p).length = p := by
  rw [lead]
  split
  · rename_i habs
    obtain ⟨body, rfl⟩ := eq_sep_cons_of_isAbsolute habs
    rfl
  · split
    · rename_i hdot
      rcases hdot with rfl | hdot
      · rfl
      · obtain ⟨rest, rfl⟩ := List.isPrefixOf_iff_prefix.mp hdot
        rfl
    · rfl

/-- The parent is the front of the text. -/
theorem parent_of_eq_some {q : List UInt8} (h : parent p = some q) : q <+: p := by
  rw [parent] at h
  split at h
  · split at h
    · obtain rfl := Option.some.inj h
      exact List.nil_prefix
    · cases h
  · obtain rfl := Option.some.inj h
    conv => rhs; rw [← lead_append_drop p]
    rw [List.prefix_append_right_inj]
    have hinit : ∃ n, ((pieces p).rdropWhile skipped).dropLast.rdropWhile skipped =
        (pieces p).take n := by
      have hprefix := (List.rdropWhile_prefix skipped _).trans
        ((List.dropLast_prefix _).trans (List.rdropWhile_prefix skipped (pieces p)))
      exact ⟨_, List.prefix_iff_eq_take.mp hprefix⟩
    obtain ⟨n, hn⟩ := hinit
    rw [hn]
    conv => rhs; rw [← join_splitOn (p.drop (lead p).length)]
    exact join_take n _

theorem isAbsolute_of_parent {q : List UInt8} (h : parent p = some q) (hq : isAbsolute q) :
    isAbsolute p := by
  obtain ⟨rest, rfl⟩ := parent_of_eq_some h
  obtain ⟨body, rfl⟩ := eq_sep_cons_of_isAbsolute hq
  rfl

/-- A slash at the end is no component. -/
theorem components_push_nil (p : List UInt8) : components (push p []) = components p := by
  rw [push, if_neg (by decide)]
  split
  · rw [List.append_nil]
  · rw [components_eq, splitOn_append_sep, List.filter_append, components_eq]
    exact List.append_nil _

theorem isAbsolute_push_nil (p : List UInt8) : isAbsolute (push p []) = isAbsolute p := by
  cases p with
  | nil => rfl
  | cons b p =>
      rw [push, if_neg (by decide)]
      split <;> rfl

/-- Making a relative path absolute looks at its components only. -/
theorem absolute_of_relative {cwd q : List UInt8} (hrel : isAbsolute p = false)
    (h : absolute (some cwd) p = some q) :
    components q = components ((components p).foldl push cwd) ∧
      isAbsolute q = isAbsolute ((components p).foldl push cwd) := by
  rw [absolute] at h
  split at h
  · cases h
  · rw [hrel, if_neg Bool.false_ne_true, Option.map_some] at h
    obtain rfl := Option.some.inj h
    dsimp only
    split
    · exact ⟨components_push_nil _, isAbsolute_push_nil _⟩
    · exact ⟨rfl, rfl⟩

end Fspy.Lib.Path
