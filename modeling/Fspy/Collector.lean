import Fspy.Ipc.Access
import Fspy.Lib.Components

/-!
# The accesses of a snapshot

The accesses below a directory are collected by their path relative to it, with one mode
for each.  They arrive in any order, so what is collected is followed path by path: the
modes that arrive at one path make up what is reported of it.
-/

namespace Fspy.Collector

open Lib

/-- `AccessCollector`; the keys of the map are strings. -/
structure AccessCollector where
  dir : Bytes
  accesses : String → Option AccessMode

/-- `Path::to_str`. -/
def to_str (path : Bytes) : Option String := String.fromUTF8? ⟨path.toArray⟩

/-- The mode of an entry after another access. -/
def merge : AccessMode → AccessMode → AccessMode
  | _, .ReadWrite => .ReadWrite
  | .Read, .ReadDir => .ReadDir
  | occupied_mode, _ => occupied_mode

/-- The entry itself, which may be vacant. -/
def record (entry : Option AccessMode) (mode : AccessMode) : Option AccessMode :=
  match entry with
  | none => some mode
  | some occupied_mode => some (merge occupied_mode mode)

namespace AccessCollector

def new (dir : Bytes) : AccessCollector := ⟨dir, fun _ ↦ none⟩

/-- `AccessCollector::add`. -/
def add (collector : AccessCollector) (access : PathAccess) : Except Stop AccessCollector :=
  match Path.stripPrefix collector.dir access.path with
  | none => .ok collector
  | some relative_path => match to_str relative_path with
      -- relative path should be valid UTF-8
      | none => .error .panic
      | some relative_path => .ok { collector with
          accesses := Function.update collector.accesses relative_path
            (record (collector.accesses relative_path) access.mode) }

/-- The loop over the accesses of a case. -/
def collect (dir : Bytes) (accesses : List PathAccess) : Except Stop AccessCollector :=
  accesses.foldlM add (new dir)

end AccessCollector

/-- The key of an access, if there is one for it. -/
def key (dir : Bytes) (access : PathAccess) : Option String :=
  (Path.stripPrefix dir access.path).bind to_str

/-- An access below the directory that has none. -/
def Unreadable (dir : Bytes) (access : PathAccess) : Prop :=
  ∃ relative_path, Path.stripPrefix dir access.path = some relative_path ∧
    to_str relative_path = none

/-- The modes of the accesses at a path, in the order of their arrival. -/
def modesAt (dir : Bytes) (path : String) (accesses : List PathAccess) : List AccessMode :=
  (accesses.filter fun access ↦ key dir access = some path).map PathAccess.mode

def writes : AccessMode → Bool
  | .Write | .ReadWrite => true
  | .Read | .ReadDir => false

/-- Whatever the order of arrival, there is one map that is collected, and a path that was
written is reported so. -/
def OrderIndependent (dir : Bytes) (accesses : List PathAccess) : Prop :=
  ∃ collector,
    (∀ accesses', accesses'.Perm accesses →
      AccessCollector.collect dir accesses' = .ok collector) ∧
    ∀ path, (∃ mode ∈ modesAt dir path accesses, writes mode) →
      ∃ mode, collector.accesses path = some mode ∧ writes mode

/-! ## What is reported of one path -/

/-- What is reported of these modes. -/
def reported (modes : List AccessMode) : Option AccessMode := modes.foldl record none

/-- What an entry becomes after these modes. -/
def settle (occupied_mode : AccessMode) (modes : List AccessMode) : AccessMode :=
  if .ReadWrite ∈ occupied_mode :: modes then .ReadWrite
  else if occupied_mode = .Read ∧ .ReadDir ∈ modes then .ReadDir
  else occupied_mode

/-- The modes are such that their order does not matter. -/
def Agreeable (modes : List AccessMode) : Prop :=
  .ReadWrite ∈ modes ∨ .Write ∉ modes ∨ ∀ mode ∈ modes, mode = .Write

/-- What agreeable modes come to. -/
def summary (modes : List AccessMode) : Option AccessMode :=
  if modes = [] then none
  else some <|
    if .ReadWrite ∈ modes then .ReadWrite
    else if .Write ∈ modes then .Write
    else if .ReadDir ∈ modes then .ReadDir
    else .Read

variable {dir : Bytes} {path : String} {modes modes' : List AccessMode}
  {accesses accesses' : List PathAccess} {access : PathAccess}

theorem foldl_record (occupied_mode : AccessMode) (modes : List AccessMode) :
    modes.foldl record (some occupied_mode) = some (settle occupied_mode modes) := by
  induction modes generalizing occupied_mode with
  | nil => cases occupied_mode <;> rfl
  | cons mode modes ih =>
      rw [List.foldl_cons, record, ih]
      cases occupied_mode <;> cases mode <;> simp [merge, settle]

theorem modesAt_cons (accesses : List PathAccess) (h : key dir access = some path) :
    modesAt dir path (access :: accesses) = access.mode :: modesAt dir path accesses := by
  rw [modesAt, List.filter_cons, if_pos (decide_eq_true h)]
  rfl

theorem modesAt_cons_of_ne (accesses : List PathAccess) (h : key dir access ≠ some path) :
    modesAt dir path (access :: accesses) = modesAt dir path accesses := by
  rw [modesAt, List.filter_cons, if_neg (by rwa [decide_eq_true_eq]), modesAt]

theorem reported_cons (mode : AccessMode) (modes : List AccessMode) :
    reported (mode :: modes) = some (settle mode modes) := foldl_record mode modes

theorem reported_of_agreeable (h : Agreeable modes) : reported modes = summary modes := by
  cases modes with
  | nil => rfl
  | cons mode modes =>
      rw [reported_cons, settle, summary, if_neg (List.cons_ne_nil mode modes)]
      by_cases hrw : .ReadWrite ∈ mode :: modes
      · rw [if_pos hrw, if_pos hrw]
      rw [if_neg hrw, if_neg hrw]
      rcases h with h | h | h
      · exact absurd h hrw
      · rw [if_neg h]
        cases mode with
        | Read => simp
        | ReadDir => simp
        | Write => exact absurd List.mem_cons_self h
        | ReadWrite => exact absurd List.mem_cons_self hrw
      · obtain rfl := h mode List.mem_cons_self
        simp

theorem Agreeable.perm (h : Agreeable modes) (hperm : modes'.Perm modes) : Agreeable modes' := by
  rw [Agreeable] at h ⊢
  simpa only [hperm.mem_iff] using h

theorem summary_perm (hperm : modes'.Perm modes) : summary modes' = summary modes := by
  have hnil : modes' = [] ↔ modes = [] := by
    rw [← List.length_eq_zero_iff, hperm.length_eq, List.length_eq_zero_iff]
  simp only [summary, hnil, hperm.mem_iff]

/-- A write is not hidden. -/
theorem writes_of_summary {mode : AccessMode} (hmem : mode ∈ modes) (hwrites : writes mode) :
    ∃ mode, summary modes = some mode ∧ writes mode := by
  rw [summary, if_neg (List.ne_nil_of_mem hmem)]
  by_cases hrw : .ReadWrite ∈ modes
  · exact ⟨.ReadWrite, congrArg some (if_pos hrw), rfl⟩
  rw [if_neg hrw]
  by_cases hw : .Write ∈ modes
  · exact ⟨.Write, congrArg some (if_pos hw), rfl⟩
  cases mode with
  | Read => cases hwrites
  | ReadDir => cases hwrites
  | Write => exact absurd hmem hw
  | ReadWrite => exact absurd hmem hrw

/-- Where a path is read before it is written, and never both at once, the write is
hidden. -/
theorem not_writes_settle {mode : AccessMode} (hmode : mode ≠ .Write)
    (hrw : .ReadWrite ∉ mode :: modes) : writes (settle mode modes) = false := by
  rw [settle, if_neg hrw]
  cases mode with
  | Write => exact absurd rfl hmode
  | ReadWrite => exact absurd List.mem_cons_self hrw
  | Read => split <;> rfl
  | ReadDir => rfl

/-! ## What is collected -/

namespace AccessCollector

variable {collector : AccessCollector}

/-- The collector with one access more. -/
def added (collector : AccessCollector) (access : PathAccess) : AccessCollector :=
  ⟨collector.dir, fun path ↦
    if key collector.dir access = some path then record (collector.accesses path) access.mode
    else collector.accesses path⟩

theorem add_of_readable (h : ¬Unreadable collector.dir access) :
    collector.add access = .ok (collector.added access) := by
  rw [add, added, key]
  cases hstrip : Path.stripPrefix collector.dir access.path with
  | none => rfl
  | some relative_path =>
      cases hstr : to_str relative_path with
      | none => exact absurd ⟨relative_path, hstrip, hstr⟩ h
      | some name =>
          dsimp only
          rw [hstr, Option.bind_some, hstr]
          dsimp only
          congr 2
          funext path
          by_cases hname : path = name
          · rw [hname, Function.update_self, if_pos rfl]
          · rw [Function.update_of_ne hname, if_neg fun h ↦ hname (Option.some.inj h).symm]

theorem add_of_unreadable (h : Unreadable collector.dir access) :
    collector.add access = .error .panic := by
  obtain ⟨relative_path, hstrip, hstr⟩ := h
  rw [add, hstrip]
  dsimp only
  rw [hstr]

theorem foldlM_of_readable (h : ∀ access ∈ accesses, ¬Unreadable collector.dir access) :
    accesses.foldlM add collector = .ok ⟨collector.dir, fun path ↦
      (modesAt collector.dir path accesses).foldl record (collector.accesses path)⟩ := by
  induction accesses generalizing collector with
  | nil => rfl
  | cons access accesses ih =>
      rw [List.foldlM_cons, add_of_readable (h access (.head _))]
      refine (@ih (collector.added access) fun access' haccess ↦
        h access' (.tail _ haccess)).trans ?_
      congr 2
      funext path
      rw [added]
      dsimp only
      by_cases hkey : key collector.dir access = some path
      · rw [if_pos hkey, modesAt_cons accesses hkey, List.foldl_cons]
      · rw [if_neg hkey, modesAt_cons_of_ne accesses hkey]

theorem foldlM_of_unreadable (h : ∃ access ∈ accesses, Unreadable collector.dir access) :
    accesses.foldlM add collector = .error .panic := by
  induction accesses generalizing collector with
  | nil => exact absurd h (by simp)
  | cons access accesses ih =>
      rw [List.foldlM_cons]
      by_cases haccess : Unreadable collector.dir access
      · rw [add_of_unreadable haccess]
        rfl
      · rw [add_of_readable haccess]
        obtain ⟨access', hmem, hunreadable⟩ := h
        rcases List.mem_cons.mp hmem with rfl | hmem
        · exact absurd hunreadable haccess
        · exact ih ⟨access', hmem, hunreadable⟩

/-- Every path is collected by itself. -/
theorem collect_of_readable (h : ∀ access ∈ accesses, ¬Unreadable dir access) :
    collect dir accesses = .ok ⟨dir, fun path ↦ reported (modesAt dir path accesses)⟩ :=
  @foldlM_of_readable accesses (new dir) h

theorem collect_of_unreadable (h : ∃ access ∈ accesses, Unreadable dir access) :
    collect dir accesses = .error .panic :=
  @foldlM_of_unreadable accesses (new dir) h

end AccessCollector

theorem modesAt_perm (hperm : accesses'.Perm accesses) (dir : Bytes) (path : String) :
    (modesAt dir path accesses').Perm (modesAt dir path accesses) :=
  (hperm.filter _).map _

theorem not_orderIndependent_of_unreadable (h : ∃ access ∈ accesses, Unreadable dir access) :
    ¬OrderIndependent dir accesses := by
  rintro ⟨collector, hsame, -⟩
  cases (AccessCollector.collect_of_unreadable h).symm.trans (hsame accesses (.refl _))

theorem orderIndependent_of_agreeable (hread : ∀ access ∈ accesses, ¬Unreadable dir access)
    (h : ∀ path, Agreeable (modesAt dir path accesses)) : OrderIndependent dir accesses := by
  refine ⟨⟨dir, fun path ↦ summary (modesAt dir path accesses)⟩, ?_, ?_⟩
  · intro accesses' hperm
    rw [AccessCollector.collect_of_readable
      fun access hmem ↦ hread access (hperm.mem_iff.mp hmem)]
    congr 2
    funext path
    have hmodes := modesAt_perm hperm dir path
    rw [reported_of_agreeable ((h path).perm hmodes), summary_perm hmodes]
  · rintro path ⟨mode, hmem, hwrites⟩
    exact writes_of_summary hmem hwrites

/-- A read that arrives first at a path hides the writes there. -/
theorem agreeable_of_orderIndependent (hread : ∀ access ∈ accesses, ¬Unreadable dir access)
    (h : OrderIndependent dir accesses) (path : String) :
    Agreeable (modesAt dir path accesses) := by
  by_contra hagree
  simp only [Agreeable, not_or, not_not, not_forall] at hagree
  obtain ⟨hrw, hwrite, mode, hmem, hmode⟩ := hagree
  obtain ⟨access, haccess, rfl⟩ := List.mem_map.mp hmem
  obtain ⟨haccess, hkey⟩ := List.mem_filter.mp haccess
  have hperm := (List.perm_cons_erase haccess).symm
  obtain ⟨collector, hsame, hreports⟩ := h
  have hsame := hsame _ hperm
  rw [AccessCollector.collect_of_readable
    fun access hmem ↦ hread access (hperm.mem_iff.mp hmem)] at hsame
  obtain rfl := Except.ok.inj hsame
  obtain ⟨mode, hreported, hwrites⟩ := hreports path ⟨.Write, hwrite, rfl⟩
  have hfirst := modesAt_cons (accesses.erase access) (of_decide_eq_true hkey)
  have hhidden := not_writes_settle hmode
    (hfirst ▸ fun hmem ↦ hrw ((modesAt_perm hperm dir path).mem_iff.mp hmem))
  dsimp only at hreported
  rw [hfirst, reported_cons, Option.some.injEq] at hreported
  rw [hreported, hwrites] at hhidden
  cases hhidden

/-- **When the order of arrival does not matter**: if every path can be read, and what was
written at a path was also read and written at once, or only written. -/
theorem orderIndependent_iff (dir : Bytes) (accesses : List PathAccess) :
    OrderIndependent dir accesses ↔ (∀ access ∈ accesses, ¬Unreadable dir access) ∧
      ∀ path, Agreeable (modesAt dir path accesses) := by
  constructor
  · intro h
    have hread : ∀ access ∈ accesses, ¬Unreadable dir access :=
      fun access hmem hunreadable ↦ not_orderIndependent_of_unreadable ⟨access, hmem, hunreadable⟩ h
    exact ⟨hread, agreeable_of_orderIndependent hread h⟩
  · rintro ⟨hread, h⟩
    exact orderIndependent_of_agreeable hread h

/-- A file is read and written: the one that arrives first is reported. -/
theorem collect_order :
    (AccessCollector.collect (ascii "/d")
        [⟨.Read, ascii "/d/f"⟩, ⟨.Write, ascii "/d/f"⟩]).map (·.accesses "f") =
        .ok (some .Read) ∧
      (AccessCollector.collect (ascii "/d")
        [⟨.Write, ascii "/d/f"⟩, ⟨.Read, ascii "/d/f"⟩]).map (·.accesses "f") =
        .ok (some .Write) ∧
      ¬OrderIndependent (ascii "/d") [⟨.Read, ascii "/d/f"⟩, ⟨.Write, ascii "/d/f"⟩] := by
  have hread : (AccessCollector.collect (ascii "/d")
      [⟨.Read, ascii "/d/f"⟩, ⟨.Write, ascii "/d/f"⟩]).map (·.accesses "f") =
      .ok (some .Read) := by decide +kernel
  have hwrite : (AccessCollector.collect (ascii "/d")
      [⟨.Write, ascii "/d/f"⟩, ⟨.Read, ascii "/d/f"⟩]).map (·.accesses "f") =
      .ok (some .Write) := by decide +kernel
  refine ⟨hread, hwrite, ?_⟩
  rintro ⟨collector, hsame, -⟩
  rw [hsame _ (.refl _)] at hread
  rw [hsame _ (.swap _ _ [])] at hwrite
  cases hread.symm.trans hwrite

end Fspy.Collector
