import Fspy.Windows.Access
import Fspy.Windows.Winapi
import Mathlib.Data.List.ReduceOption
import Mathlib.Data.List.TakeWhile

/-!
# The names that the NT hooks report

A hook is given a counted string, which need not end with a NUL, and perhaps the handle
of a directory.  It reports one path.  What the two decide of it is looked at apart:
first which characters of the memory make up the name, then whether the name is taken
relative to the directory.
-/

namespace Fspy.Windows

abbrev HANDLE := UInt64

abbrev HRESULT := Int32

abbrev ACCESS_MASK := UInt32

/-- The length is in bytes. -/
structure UNICODE_STRING where
  Length : UInt16
  Buffer : Nat

structure OBJECT_ATTRIBUTES where
  RootDirectory : HANDLE
  ObjectName : UNICODE_STRING

abbrev Memory := Nat → UInt8

/-- What a process sees of the system. -/
structure Os where
  memory : Memory
  /-- The path of the file behind a handle. -/
  finalPath : HANDLE → Except ERROR Wide
  PathAllocCombine : Wide → Wide → Except HRESULT Wide

/-! ## Counted strings -/

/-- The wide character at an address. -/
def unit (memory : Memory) (addr : Nat) : UInt16 :=
  (memory addr).toUInt16 ||| (memory (addr + 1)).toUInt16 <<< 8

/-- A slice of wide characters. -/
def units (memory : Memory) (addr : Nat) : Nat → Wide
  | 0 => []
  | n + 1 => unit memory addr :: units memory (addr + 2) n

/-- The characters before the first NUL. -/
def beforeNul (chars : Wide) : Wide := chars.takeWhile (· != 0)

/-- `U16CStr::from_slice_truncate`. -/
def from_slice_truncate (chars : Wide) : Option Wide :=
  if 0 ∈ chars then some (beforeNul chars) else none

def get_u16_str (memory : Memory) (ustring : UNICODE_STRING) : Wide :=
  let chars := units memory ustring.Buffer ustring.Length.toNat
  match from_slice_truncate chars with
  | some str => str
  | none => chars

/-! ## Absolute paths -/

def combine_paths (os : Os) (path1 path2 : Wide) : Except Failure Wide :=
  match os.PathAllocCombine path1 path2 with
  | .ok out => .ok out
  -- `try_into` of a negative number
  | .error hr => if hr < 0 then .error .panic else .error (.err hr.toUInt32)

/-- `Result::unwrap`. -/
def unwrap {α : Type} : Except Failure α → Except Failure α
  | .ok a => .ok a
  | .error _ => .error .panic

/-- `U16CStr::from_ptr_str`, of a buffer that is written up to a NUL. -/
def from_ptr_str (buffer : List (Option UInt16)) : Wide := beforeNul buffer.reduceOption

/-- `get_path_name`, of a handle whose file keeps its name meanwhile. -/
def Os.get_path_name (os : Os) (handle : HANDLE) : Except Failure (List (Option UInt16)) :=
  Windows.get_path_name (os.finalPath handle) (os.finalPath handle)

/-- The test for `\\...` and `C:...`. -/
def is_absolute (filename_slice : Wide) : Bool :=
  (filename_slice[0]? == some 92 && filename_slice[1]? == some 92) ||
    filename_slice[1]? == some 58

class ToAbsolutePath (α : Type) where
  to_absolute_path {R : Type} : Os → α → (Option Wide → Except Failure R) → Except Failure R

export ToAbsolutePath (to_absolute_path)

instance : ToAbsolutePath HANDLE where
  to_absolute_path os self f := match os.get_path_name self with
    | .error .panic => .error .panic
    | .error (.err _) => f none
    | .ok path => f (some path.reduceOption)

instance : ToAbsolutePath OBJECT_ATTRIBUTES where
  to_absolute_path os self f :=
    let filename_str := get_u16_str os.memory self.ObjectName
    if is_absolute filename_str then
      match os.get_path_name self.RootDirectory with
      | .error .panic => .error .panic
      | .error (.err _) => f none
      | .ok root_dir => do
          let abs_path ← unwrap
            (combine_paths os (from_ptr_str (root_dir ++ [some 0])) (beforeNul filename_str))
          f (some abs_path)
    else f (some filename_str)

/-! ## The hooks -/

def GENERIC_READ : ACCESS_MASK := 0x80000000

def GENERIC_WRITE : ACCESS_MASK := 0x40000000

def access_mask_to_mode (desired_access : ACCESS_MASK) : AccessMode :=
  let has_write := desired_access &&& GENERIC_WRITE != 0
  let has_read := desired_access &&& GENERIC_READ != 0
  if has_write then if has_read then .ReadWrite else .Write else .Read

class ToAccessMode (α : Type) where
  to_access_mode : α → AccessMode

export ToAccessMode (to_access_mode)

instance : ToAccessMode AccessMode := ⟨id⟩

instance : ToAccessMode ACCESS_MASK := ⟨access_mask_to_mode⟩

/-- The mode and the path of an access that is sent. -/
abbrev Sent := AccessMode × Wide

/-- `Iterator::rposition`. -/
def rposition (p : UInt16 → Bool) : Wide → Option Nat
  | [] => none
  | c :: path => match rposition p path with
      | some i => some (i + 1)
      | none => if p c then some 0 else none

/-- `handle_open`: what it sends, if anything. -/
def handle_open {M P : Type} [ToAccessMode M] [ToAbsolutePath P] (os : Os) (acces_mode : M)
    (path : P) : Except Failure (Option Sent) :=
  unwrap <| to_absolute_path os path fun
    | none => .ok none
    | some path => .ok <| some <| match rposition (· == 42) path with
        | some wildcard_pos =>
            let path_before_wildcard := path.take wildcard_pos
            let slash_pos := (rposition (fun c ↦ c == 92 || c == 47) path_before_wildcard).getD 0
            (.ReadDir, path.take slash_pos)
        | none => (to_access_mode acces_mode, path)

/-- `to_path_access` of the hooks, which makes a path absolute by itself. -/
def to_path_access (os : Os) (mode : AccessMode) (object_attributes : OBJECT_ATTRIBUTES) :
    Except Failure (Option Sent) :=
  let filename_str := get_u16_str os.memory object_attributes.ObjectName
  if is_absolute filename_str then
    match os.get_path_name object_attributes.RootDirectory with
    | .error .panic => .error .panic
    | .error (.err _) => .ok none
    | .ok root_dir => do
        let abs_path ← unwrap
          (combine_paths os (from_ptr_str (root_dir ++ [some 0])) (beforeNul filename_str))
        return some (mode, abs_path)
  else .ok (some (mode, filename_str))

/-- A call of a function that is detoured, with the arguments that its hook looks at. -/
inductive NtCall where
  | NtCreateFile (desired_access : ACCESS_MASK) (object_attributes : OBJECT_ATTRIBUTES)
  | NtOpenFile (desired_access : ACCESS_MASK) (object_attributes : OBJECT_ATTRIBUTES)
  | NtQueryAttributesFile (object_attributes : OBJECT_ATTRIBUTES)
  | NtQueryFullAttributesFile (object_attributes : OBJECT_ATTRIBUTES)
  | NtOpenSymbolicLinkObject (desired_access : ACCESS_MASK)
      (object_attributes : OBJECT_ATTRIBUTES)
  | NtQueryInformationByName (object_attributes : OBJECT_ATTRIBUTES)
  | NtQueryDirectoryFile (file_handle : HANDLE)

namespace NtCall

def object_attributes : NtCall → Option OBJECT_ATTRIBUTES
  | NtCreateFile _ object_attributes
  | NtOpenFile _ object_attributes
  | NtQueryAttributesFile object_attributes
  | NtQueryFullAttributesFile object_attributes
  | NtOpenSymbolicLinkObject _ object_attributes
  | NtQueryInformationByName object_attributes => some object_attributes
  | NtQueryDirectoryFile _ => none

/-- What the hook sends before the real function is called. -/
def hook (os : Os) : NtCall → Except Failure (Option Sent)
  | NtCreateFile desired_access object_attributes =>
      handle_open os desired_access object_attributes
  | NtOpenFile desired_access object_attributes =>
      handle_open os desired_access object_attributes
  | NtQueryAttributesFile object_attributes => handle_open os AccessMode.Read object_attributes
  | NtQueryFullAttributesFile object_attributes => handle_open os GENERIC_READ object_attributes
  | NtOpenSymbolicLinkObject desired_access object_attributes =>
      handle_open os desired_access object_attributes
  | NtQueryInformationByName object_attributes => handle_open os GENERIC_READ object_attributes
  | NtQueryDirectoryFile file_handle => handle_open os AccessMode.ReadDir file_handle

end NtCall

/-! ## What is known of the system -/

/-- A drive letter and a colon. -/
def drive (name : Wide) : Bool :=
  name[0]?.any (fun c ↦ (65 ≤ c && c ≤ 90) || (97 ≤ c && c ≤ 122)) && name[1]? == some 58

/-- A name that says by itself where it is. -/
def absolute (name : Wide) : Bool := name[0]? == some 92 || drive name

/-- A name that `PathAllocCombine` takes as it is. -/
def fullyQualified (name : Wide) : Bool :=
  (name[0]? == some 92 && name[1]? == some 92) || drive name

/-- What is known of the two functions of the system. -/
structure Os.Documented (os : Os) (PathAllocCanonicalize : Wide → Except HRESULT Wide) : Prop where
  /-- It is given in the form `\\?\C:\...`, and ends with a NUL. -/
  finalPath_ok {handle : HANDLE} {path : Wide} : os.finalPath handle = .ok path →
    fullyQualified path ∧ 0 ∉ path
  combine_fullyQualified (path1 : Wide) {path2 : Wide} : fullyQualified path2 →
    os.PathAllocCombine path1 path2 = PathAllocCanonicalize path2
  /-- Any other name stays below the root of the directory. -/
  combine_directory {handle : HANDLE} {dir name path : Wide} : os.finalPath handle = .ok dir →
    ¬fullyQualified name → os.PathAllocCombine dir name = .ok path → fullyQualified path

/-- A process that sees one directory.  Its memory starts with some text; a name that is
not fully qualified is appended to a directory. -/
def sampleOs (text : Wide) : Os where
  memory addr := (castSlice text).getD addr 0
  finalPath handle := if handle = 0 then .error 6 else .ok (wide "\\\\?\\C:\\dir")
  PathAllocCombine path1 path2 :=
    .ok (if fullyQualified path2 then path2 else path1 ++ wide "\\" ++ path2)

/-- The fully qualified names of the samples are canonical. -/
def sampleCanonicalize (path : Wide) : Except HRESULT Wide := .ok path

theorem fullyQualified_append {path : Wide} (h : fullyQualified path) (rest : Wide) :
    fullyQualified (path ++ rest) := by
  rcases path with _ | ⟨c, _ | ⟨d, path⟩⟩
  · cases h
  · simp [fullyQualified, drive] at h
  · exact h

theorem finalPath_sampleOs {text path : Wide} {handle : HANDLE}
    (h : (sampleOs text).finalPath handle = .ok path) : fullyQualified path ∧ 0 ∉ path := by
  rw [sampleOs] at h
  dsimp only at h
  split at h
  · cases h
  · cases h
    decide

theorem documented_sampleOs (text : Wide) :
    (sampleOs text).Documented sampleCanonicalize where
  finalPath_ok := finalPath_sampleOs
  combine_fullyQualified path1 path2 h := by
    rw [sampleOs, sampleCanonicalize]
    exact congrArg _ (if_pos h)
  combine_directory {handle dir name path} hdir hname h := by
    rw [sampleOs] at h
    cases h
    rw [if_neg hname, List.append_assoc]
    exact fullyQualified_append (finalPath_sampleOs hdir).1 _

/-! ## What is read of the memory -/

/-- The counted string: the characters of its bytes, before the first NUL. -/
def counted (memory : Memory) (ustring : UNICODE_STRING) : Wide :=
  beforeNul (units memory ustring.Buffer (ustring.Length.toNat / 2))

/-- The memories have the same bytes in the string. -/
def AgreeOn (ustring : UNICODE_STRING) (memory memory' : Memory) : Prop :=
  ∀ i < ustring.Length.toNat, memory' (ustring.Buffer + i) = memory (ustring.Buffer + i)

/-- Whatever follows the string, its characters are what is read, and the hooks report
the same. -/
def CountedOnly (os : Os) (ustring : UNICODE_STRING) : Prop :=
  ∀ memory, AgreeOn ustring os.memory memory →
    get_u16_str memory ustring = counted os.memory ustring ∧
    ∀ call : NtCall, call.object_attributes.map (·.ObjectName) = some ustring →
      call.hook { os with memory := memory } = call.hook os

theorem length_units (memory : Memory) (addr n : Nat) : (units memory addr n).length = n := by
  induction n generalizing addr with
  | zero => rfl
  | succ n ih => rw [units, List.length_cons, ih]

theorem units_add (memory : Memory) (addr m n : Nat) :
    units memory addr (m + n) = units memory addr m ++ units memory (addr + 2 * m) n := by
  induction m generalizing addr with
  | zero => rw [Nat.zero_add, units, List.nil_append, Nat.mul_zero, Nat.add_zero]
  | succ m ih =>
      have haddr : addr + 2 * (m + 1) = addr + 2 + 2 * m := by omega
      rw [Nat.succ_add, units, units, ih, List.cons_append, haddr]

/-- A slice depends on its bytes. -/
theorem units_congr {memory memory' : Memory} {addr n : Nat}
    (h : ∀ i < 2 * n, memory' (addr + i) = memory (addr + i)) :
    units memory' addr n = units memory addr n := by
  induction n generalizing addr with
  | zero => rfl
  | succ n ih =>
      have hlow : memory' addr = memory addr := h 0 (by omega)
      have hhigh : memory' (addr + 1) = memory (addr + 1) := h 1 (by omega)
      have hrest : units memory' (addr + 2) n = units memory (addr + 2) n := by
        refine ih fun i hi ↦ ?_
        rw [Nat.add_assoc]
        exact h (2 + i) (by omega)
      rw [units, units, unit, unit, hlow, hhigh, hrest]

/-- A character with a byte that is not zero. -/
theorem unit_ne_zero {memory : Memory} {addr : Nat} (h : memory (addr + 1) = 1) :
    unit memory addr ≠ 0 := by
  rw [unit, h]
  exact fun hzero ↦ absurd (UInt16.or_eq_zero_iff.mp hzero).2 (by decide)

theorem beforeNul_of_not_mem {chars : Wide} (h : 0 ∉ chars) : beforeNul chars = chars :=
  List.takeWhile_eq_self_iff.mpr fun _ hc ↦ bne_iff_ne.mpr (ne_of_mem_of_not_mem hc h)

/-- With or without a NUL, what is before the first is what is read. -/
theorem get_u16_str_eq (memory : Memory) (ustring : UNICODE_STRING) :
    get_u16_str memory ustring =
      beforeNul (units memory ustring.Buffer ustring.Length.toNat) := by
  rw [get_u16_str, from_slice_truncate]
  by_cases hnul : 0 ∈ units memory ustring.Buffer ustring.Length.toNat
  · rw [if_pos hnul]
  · rw [if_neg hnul]
    exact (beforeNul_of_not_mem hnul).symm

theorem mem_units {memory : Memory} {addr n : Nat} {c : UInt16} :
    c ∈ units memory addr n ↔ ∃ i < n, c = unit memory (addr + 2 * i) := by
  induction n generalizing addr with
  | zero => exact iff_of_false List.not_mem_nil fun ⟨i, hi, _⟩ ↦ Nat.not_lt_zero i hi
  | succ n ih =>
      rw [units, List.mem_cons, ih]
      constructor
      · rintro (hc | ⟨i, hi, hc⟩)
        · exact ⟨0, Nat.succ_pos n, hc⟩
        · exact ⟨i + 1, Nat.succ_lt_succ hi, by rw [hc, Nat.mul_succ]; congr 1; omega⟩
      · rintro ⟨_ | i, hi, hc⟩
        · exact .inl hc
        · exact .inr ⟨i, Nat.lt_of_succ_lt_succ hi, by rw [hc, Nat.mul_succ]; congr 1; omega⟩

/-- A NUL ends the string before what comes later. -/
theorem beforeNul_append {chars : Wide} (h : 0 ∈ chars) (rest : Wide) :
    beforeNul (chars ++ rest) = beforeNul chars := by
  rw [beforeNul, List.takeWhile_append, if_neg]
  · rfl
  · intro hlength
    have hall := (List.takeWhile_prefix (· != 0)).eq_of_length hlength
    exact absurd (List.takeWhile_eq_self_iff.mp hall 0 h) (by decide)

/-- The path depends on the memory through the name alone. -/
theorem to_absolute_path_congr {os : Os} {memory : Memory} {attributes : OBJECT_ATTRIBUTES}
    (h : get_u16_str memory attributes.ObjectName = get_u16_str os.memory attributes.ObjectName)
    {R : Type} (f : Option Wide → Except Failure R) :
    to_absolute_path { os with memory := memory } attributes f =
      to_absolute_path os attributes f := by
  change (if is_absolute (get_u16_str memory attributes.ObjectName) then _ else _) = _
  rw [h]
  rfl

theorem NtCall.hook_congr {os : Os} {memory : Memory} {ustring : UNICODE_STRING}
    (h : get_u16_str memory ustring = get_u16_str os.memory ustring) {call : NtCall}
    (hcall : call.object_attributes.map (·.ObjectName) = some ustring) :
    call.hook { os with memory := memory } = call.hook os := by
  have hopen : ∀ {M : Type} [ToAccessMode M] (mode : M) (attributes : OBJECT_ATTRIBUTES),
      some attributes.ObjectName = some ustring →
      handle_open { os with memory := memory } mode attributes = handle_open os mode attributes := by
    intro M _ mode attributes hname
    rw [← Option.some.inj hname] at h
    rw [handle_open, handle_open, to_absolute_path_congr h]
  cases call with
  | NtCreateFile | NtOpenFile | NtQueryAttributesFile | NtQueryFullAttributesFile
  | NtOpenSymbolicLinkObject | NtQueryInformationByName => exact hopen _ _ hcall
  | NtQueryDirectoryFile => cases hcall

/-- A memory in which no NUL follows the string. -/
def unterminated (memory : Memory) (ustring : UNICODE_STRING) : Memory := fun addr ↦
  if addr < ustring.Buffer + ustring.Length.toNat then memory addr else 1

theorem agreeOn_unterminated (memory : Memory) (ustring : UNICODE_STRING) :
    AgreeOn ustring memory (unterminated memory ustring) := fun _ hi ↦
  if_pos (Nat.add_lt_add_left hi _)

variable {memory memory' : Memory} {ustring : UNICODE_STRING}

/-- The characters of the bytes are the same in both. -/
theorem AgreeOn.units_eq (h : AgreeOn ustring memory memory') :
    units memory' ustring.Buffer (ustring.Length.toNat / 2) =
      units memory ustring.Buffer (ustring.Length.toNat / 2) :=
  units_congr fun i hi ↦ h i (by omega)

/-- What is read: the counted characters, and as many again. -/
theorem units_length (memory : Memory) (ustring : UNICODE_STRING) :
    units memory ustring.Buffer ustring.Length.toNat =
      units memory ustring.Buffer (ustring.Length.toNat / 2) ++
        units memory (ustring.Buffer + 2 * (ustring.Length.toNat / 2))
          (ustring.Length.toNat - ustring.Length.toNat / 2) := by
  rw [← units_add]
  congr 1
  omega

/-- Without a NUL in the string, more than its characters is read. -/
theorem get_u16_str_unterminated
    (h : 0 ∉ units memory ustring.Buffer (ustring.Length.toNat / 2)) :
    (get_u16_str (unterminated memory ustring) ustring).length = ustring.Length.toNat := by
  rw [get_u16_str_eq, beforeNul_of_not_mem, length_units]
  rw [units_length, (agreeOn_unterminated memory ustring).units_eq, List.mem_append, not_or]
  refine ⟨h, fun hafter ↦ ?_⟩
  obtain ⟨i, -, hzero⟩ := mem_units.mp hafter
  exact unit_ne_zero (if_neg (by omega)) hzero.symm

/-- A string with a NUL is read as far as that. -/
theorem get_u16_str_of_nul (h : 0 ∈ units memory ustring.Buffer (ustring.Length.toNat / 2)) :
    get_u16_str memory ustring = counted memory ustring := by
  rw [get_u16_str_eq, units_length, beforeNul_append h, counted]

/-- **When a counted string is read within its count**: if it is empty, or a NUL is among
its characters. -/
theorem countedOnly_iff (os : Os) (ustring : UNICODE_STRING) :
    CountedOnly os ustring ↔ ustring.Length = 0 ∨
      0 ∈ units os.memory ustring.Buffer (ustring.Length.toNat / 2) := by
  have hstr : ∀ memory, AgreeOn ustring os.memory memory →
      (ustring.Length = 0 ∨ 0 ∈ units os.memory ustring.Buffer (ustring.Length.toNat / 2)) →
      get_u16_str memory ustring = counted os.memory ustring := by
    rintro memory hagree (hzero | hnul)
    · rw [get_u16_str_eq, counted, hzero]
      rfl
    · rw [get_u16_str_of_nul (by rwa [hagree.units_eq]), counted, hagree.units_eq, counted]
  constructor
  · intro h
    by_contra hno
    obtain ⟨hlength, hnul⟩ := not_or.mp hno
    have hread := (h _ (agreeOn_unterminated os.memory ustring)).1
    have hlong := get_u16_str_unterminated hnul
    have hshort : (counted os.memory ustring).length ≤ ustring.Length.toNat / 2 := by
      rw [counted, beforeNul]
      exact (List.takeWhile_prefix _).length_le.trans_eq (length_units _ _ _)
    have hpos : ustring.Length.toNat ≠ 0 := fun hzero ↦ hlength (UInt16.toNat_inj.mp hzero)
    rw [hread] at hlong
    omega
  · intro h memory hagree
    have hsame : get_u16_str os.memory ustring = counted os.memory ustring :=
      hstr os.memory (fun _ _ ↦ rfl) h
    refine ⟨hstr memory hagree h, fun call hcall ↦ NtCall.hook_congr ?_ hcall⟩
    rw [hstr memory hagree h, hsame]

/-- The string `a` in a buffer where `b` follows. -/
theorem countedOnly_adjacent :
    get_u16_str (sampleOs (wide "ab")).memory ⟨2, 0⟩ = wide "ab" ∧
      counted (sampleOs (wide "ab")).memory ⟨2, 0⟩ = wide "a" ∧
      ¬CountedOnly (sampleOs (wide "ab")) ⟨2, 0⟩ := by
  have hread : get_u16_str (sampleOs (wide "ab")).memory ⟨2, 0⟩ = wide "ab" := by rfl
  have hcounted : counted (sampleOs (wide "ab")).memory ⟨2, 0⟩ = wide "a" := by rfl
  refine ⟨hread, hcounted, fun h ↦ ?_⟩
  have heq := (h _ fun _ _ ↦ rfl).1
  rw [hread, hcounted] at heq
  exact absurd heq (by decide)

/-! ## Which way round a name is made absolute -/

/-- An absolute name is itself the path; any other is combined with the directory, and
without one there is no path. -/
def MadeAbsolute (os : Os) (attributes : OBJECT_ATTRIBUTES) : Prop :=
  let name := get_u16_str os.memory attributes.ObjectName
  let yielded := to_absolute_path os attributes Except.ok
  if absolute name then yielded = .ok (some name)
  else match os.finalPath attributes.RootDirectory with
    | .ok dir => ∀ path, yielded = .ok (some path) ↔ os.PathAllocCombine dir name = .ok path
    | .error _ => ∀ path, yielded ≠ .ok (some path)

theorem is_absolute_of_fullyQualified {name : Wide} (h : fullyQualified name) :
    is_absolute name := by
  rw [fullyQualified, Bool.or_eq_true] at h
  rw [is_absolute, Bool.or_eq_true]
  exact h.imp_right fun hdrive ↦ (Bool.and_eq_true _ _ ▸ hdrive).2

theorem zero_not_mem_beforeNul (chars : Wide) : 0 ∉ beforeNul chars := fun h ↦
  absurd (List.mem_takeWhile_imp h) (by decide)

/-- A string that is passed on is not cut again. -/
theorem zero_not_mem_get_u16_str (memory : Memory) (ustring : UNICODE_STRING) :
    0 ∉ get_u16_str memory ustring := by
  rw [get_u16_str_eq]
  exact zero_not_mem_beforeNul _

/-- The path of a handle, with the NUL that is pushed. -/
theorem from_ptr_str_push {path : Wide} (h : 0 ∉ path) :
    from_ptr_str (path.map some ++ [some 0]) = path := by
  have hbuffer : (path.map some ++ [some 0]).reduceOption = path ++ [0] := by
    rw [← List.map_singleton, ← List.map_append]
    rw [List.reduceOption, List.filterMap_map]
    exact List.filterMap_some
  have hpath : ∀ c ∈ path, (c != 0) = true :=
    fun c hc ↦ bne_iff_ne.mpr (ne_of_mem_of_not_mem hc h)
  rw [from_ptr_str, hbuffer, beforeNul, List.takeWhile_append_of_pos hpath]
  exact List.append_nil path

theorem unwrap_combine_paths_eq_ok {os : Os} {path1 path2 path : Wide} :
    (unwrap (combine_paths os path1 path2)).map some = .ok (some path) ↔
      os.PathAllocCombine path1 path2 = .ok path := by
  rw [combine_paths]
  cases os.PathAllocCombine path1 path2 with
  | ok out =>
      exact ⟨fun h ↦ congrArg Except.ok (Option.some.inj (Except.ok.inj h)),
        fun h ↦ congrArg (Except.ok <| some ·) (Except.ok.inj h)⟩
  | error hr =>
      dsimp only
      split <;> exact iff_of_false (fun h ↦ nomatch h) fun h ↦ nomatch h

/-- The copy in the hooks reports what the other yields. -/
theorem to_path_access_eq (os : Os) (mode : AccessMode) (attributes : OBJECT_ATTRIBUTES) :
    to_path_access os mode attributes =
      to_absolute_path os attributes fun path ↦ .ok (path.map (mode, ·)) := by
  change _ = (if is_absolute _ then _ else _)
  rw [to_path_access]
  rfl

section Documented

variable {os : Os} {PathAllocCanonicalize : Wide → Except HRESULT Wide}
  {attributes : OBJECT_ATTRIBUTES}

/-- The name is taken relative to the directory when the test says that it is absolute. -/
theorem to_absolute_path_eq (hos : os.Documented PathAllocCanonicalize) :
    to_absolute_path os attributes Except.ok =
      let name := get_u16_str os.memory attributes.ObjectName
      if is_absolute name then match os.finalPath attributes.RootDirectory with
        | .error _ => .ok none
        | .ok dir => (unwrap (combine_paths os dir name)).map some
      else .ok (some name) := by
  change (if is_absolute _ then _ else _) = _
  dsimp only
  congr 1
  rw [Os.get_path_name, beforeNul_of_not_mem (zero_not_mem_get_u16_str _ _)]
  cases hdir : os.finalPath attributes.RootDirectory with
  | error e => rfl
  | ok dir =>
      obtain ⟨hqualified, hnul⟩ := hos.finalPath_ok hdir
      have hne : dir ≠ [] := by
        rintro rfl
        cases hqualified
      rw [get_path_name_stable hne]
      dsimp only
      rw [from_ptr_str_push hnul]
      rfl

/-- **When a name is made absolute the right way round**: if the test takes it for the
opposite of what it is, or it is fully qualified and canonical and there is a directory. -/
theorem madeAbsolute_iff (hos : os.Documented PathAllocCanonicalize)
    (attributes : OBJECT_ATTRIBUTES) :
    MadeAbsolute os attributes ↔
      let name := get_u16_str os.memory attributes.ObjectName
      (is_absolute name = !absolute name) ∨
        (∃ dir, os.finalPath attributes.RootDirectory = .ok dir) ∧
          fullyQualified name ∧ PathAllocCanonicalize name = .ok name := by
  rw [MadeAbsolute, to_absolute_path_eq hos]
  generalize get_u16_str os.memory attributes.ObjectName = name
  dsimp only
  have hcombined : ∀ {dir}, os.finalPath attributes.RootDirectory = .ok dir →
      os.PathAllocCombine dir name = .ok name → fullyQualified name := fun hdir h ↦ by
    by_contra hname
    exact hname (hos.combine_directory hdir hname h)
  cases htest : is_absolute name <;> cases habsolute : absolute name
  case false.true => exact iff_of_true rfl (.inl rfl)
  case true.false =>
    refine iff_of_true ?_ (.inl rfl)
    cases hdir : os.finalPath attributes.RootDirectory with
    | error e => exact fun path h ↦ nomatch h
    | ok dir => exact fun path ↦ unwrap_combine_paths_eq_ok
  case false.false =>
    -- a relative name is yielded as it is
    have hqualified : ¬fullyQualified name := fun h ↦
      absurd (is_absolute_of_fullyQualified h) (by rw [htest]; decide)
    refine iff_of_false ?_ fun h ↦ h.elim (fun h ↦ nomatch h) fun h ↦ hqualified h.2.1
    cases hdir : os.finalPath attributes.RootDirectory with
    | error e => exact fun h ↦ h name rfl
    | ok dir => exact fun h ↦ hqualified (hcombined hdir ((h name).mp rfl))
  case true.true =>
    -- an absolute one is combined with the directory
    cases hdir : os.finalPath attributes.RootDirectory with
    | error e =>
        refine iff_of_false (fun h ↦ nomatch h) ?_
        rintro (h | ⟨⟨dir, h⟩, -⟩) <;> cases h
    | ok dir =>
        refine unwrap_combine_paths_eq_ok.trans ⟨fun h ↦ ?_, ?_⟩
        · have hqualified := hcombined hdir h
          rw [hos.combine_fullyQualified dir hqualified] at h
          exact .inr ⟨⟨dir, rfl⟩, hqualified, h⟩
        · rintro (h | ⟨-, hqualified, hcanonical⟩)
          · cases h
          · rw [hos.combine_fullyQualified dir hqualified, hcanonical]

/-- The name `C:\foo` in another directory. -/
theorem madeAbsolute_sample :
    MadeAbsolute (sampleOs (wide "C:\\foo")) ⟨1, ⟨12, 0⟩⟩ := by
  refine (madeAbsolute_iff (documented_sampleOs _) _).mpr (.inr ⟨⟨_, rfl⟩, ?_, rfl⟩)
  decide

/-- The name `foo` in the directory `C:\dir` is reported as `foo`, and the name `C:\foo`
without a directory is not reported. -/
theorem madeAbsolute_reversed :
    to_absolute_path (sampleOs (wide "foo")) (⟨1, ⟨6, 0⟩⟩ : OBJECT_ATTRIBUTES) Except.ok =
        .ok (some (wide "foo")) ∧
      to_absolute_path (sampleOs (wide "C:\\foo")) (⟨0, ⟨12, 0⟩⟩ : OBJECT_ATTRIBUTES) Except.ok =
        .ok none ∧
      ¬MadeAbsolute (sampleOs (wide "foo")) ⟨1, ⟨6, 0⟩⟩ ∧
      ¬MadeAbsolute (sampleOs (wide "C:\\foo")) ⟨0, ⟨12, 0⟩⟩ := by
  have hrelative : to_absolute_path (sampleOs (wide "foo")) (⟨1, ⟨6, 0⟩⟩ : OBJECT_ATTRIBUTES)
      Except.ok = .ok (some (wide "foo")) := by rfl
  have habsolute : to_absolute_path (sampleOs (wide "C:\\foo"))
      (⟨0, ⟨12, 0⟩⟩ : OBJECT_ATTRIBUTES) Except.ok = .ok none := by rfl
  refine ⟨hrelative, habsolute, fun h ↦ ?_, fun h ↦ ?_⟩
  · have hcombined := (h (wide "foo")).mp hrelative
    exact absurd hcombined (by decide)
  · exact absurd (habsolute.symm.trans h) (by decide)

end Documented

end Fspy.Windows
