import Fspy.Basic

/-!
# The Windows API as the hooks call it

Some calls report success by a `BOOL`, some by an error code, and some return a length
whose meaning depends on the size of the buffer they were given.  The module holds the
helpers around them.
-/

namespace Fspy.Windows

/-- A wide string. -/
abbrev Wide := List UInt16

/-- The characters of an ASCII literal. -/
def wide (s : String) : Wide := s.toList.map fun c ↦ UInt16.ofNat c.toNat

abbrev DWORD := UInt32

/-- `co::ERROR`. -/
abbrev ERROR := DWORD

/-- How a call in a hook ends that does not return a value. -/
inductive Failure where
  | err (error : ERROR)
  | panic
deriving DecidableEq, Repr

abbrev BOOL := Int32

def FALSE : BOOL := 0

def TRUE : BOOL := 1

def NO_ERROR : DWORD := 0

/-- `ck`; the error is the last one. -/
def ck (GetLastError : ERROR) (b : BOOL) : Except Failure Unit :=
  if b = FALSE then .error (.err GetLastError) else .ok ()

/-- `ck_long`. -/
def ck_long (val : Int32) : Except Failure Unit :=
  if 0 = NO_ERROR then .ok () else .error (.err val.toUInt32)

theorem ck_long_eq (val : Int32) : ck_long val = .ok () := rfl

/-! ## `get_path_name` -/

/-- `GetFinalPathNameByHandleW`, for a handle with this path: the length it returns, and
the buffer after it. -/
def GetFinalPathNameByHandleW (path : Except ERROR Wide) (buffer : List (Option UInt16)) :
    Nat × List (Option UInt16) :=
  match path with
  | .error _ => (0, buffer)
  | .ok path =>
      if path.length < buffer.length then
        (path.length, (path ++ [0]).map some ++ buffer.drop (path.length + 1))
      -- the size that is required, with the NUL
      else (path.length + 1, buffer)

/-- `GetLastError` after the call. -/
def lastError : Except ERROR Wide → ERROR
  | .error e => e
  | .ok _ => NO_ERROR

def MAX_PATH : Nat := 260

/-- `get_path_name`, where the two calls see these paths; entries of the vector that were
not written are `none`. -/
def get_path_name (first second : Except ERROR Wide) :
    Except Failure (List (Option UInt16)) :=
  let (len, path) := GetFinalPathNameByHandleW first (List.replicate MAX_PATH none)
  if len = 0 then .error (.err (lastError first))
  else if len ≤ MAX_PATH then .ok (path.take len)
  else
    -- `reserve_exact`
    let (len, path) := GetFinalPathNameByHandleW second (List.replicate len none)
    if len = 0 then .error (.err (lastError second))
    -- `unreachable!()`
    else if path.length < len then .error .panic
    else .ok (path.take len)

/-- The path of the file under one of its names, or an error. -/
def PathOrError (first second : Except ERROR Wide) (r : Except Failure (List (Option UInt16))) :
    Prop :=
  (∃ path, (first = .ok path ∨ second = .ok path) ∧ r = .ok (path.map some)) ∨
    ∃ e, r = .error (.err e)

variable {path : Wide} {first second : Except ERROR Wide}

/-- A buffer that can hold the path and its NUL. -/
theorem GetFinalPathNameByHandleW_of_lt {buffer : List (Option UInt16)}
    (h : path.length < buffer.length) : GetFinalPathNameByHandleW (.ok path) buffer =
      (path.length, path.map some ++ some 0 :: buffer.drop (path.length + 1)) := by
  rw [GetFinalPathNameByHandleW, if_pos h, List.map_append, List.append_assoc]
  rfl

theorem GetFinalPathNameByHandleW_of_le {buffer : List (Option UInt16)}
    (h : buffer.length ≤ path.length) :
    GetFinalPathNameByHandleW (.ok path) buffer = (path.length + 1, buffer) := by
  rw [GetFinalPathNameByHandleW, if_neg (Nat.not_lt.mpr h)]

/-- What a call has written, up to the length it returned. -/
theorem take_written (path : Wide) (rest : List (Option UInt16)) :
    (path.map some ++ rest).take path.length = path.map some :=
  List.take_left' (List.length_map _)

/-- The path is found by the first call. -/
theorem get_path_name_of_lt (h : path.length < MAX_PATH) :
    get_path_name (.ok path) second =
      if path.length = 0 then .error (.err NO_ERROR) else .ok (path.map some) := by
  have hbuffer : path.length < (List.replicate MAX_PATH (none : Option UInt16)).length := by
    rwa [List.length_replicate]
  rw [get_path_name, GetFinalPathNameByHandleW_of_lt hbuffer]
  dsimp only
  rw [take_written, if_pos (Nat.le_of_lt h)]
  rfl

/-- The second call has room for a path that is as long as the one the first call saw. -/
theorem get_path_name_of_le (h : MAX_PATH ≤ path.length) :
    get_path_name (.ok path) second = match second with
      | .error e => .error (.err e)
      | .ok path' =>
          if path.length < path'.length then .error .panic
          else if path'.length = 0 then .error (.err NO_ERROR)
          else .ok (path'.map some) := by
  have hbuffer : (List.replicate MAX_PATH (none : Option UInt16)).length ≤ path.length := by
    rwa [List.length_replicate]
  rw [get_path_name, GetFinalPathNameByHandleW_of_le hbuffer]
  dsimp only
  rw [if_neg (Nat.succ_ne_zero _), if_neg (by omega)]
  cases second with
  | error e => rfl
  | ok path' =>
      dsimp only
      by_cases hlt : path.length < path'.length
      · rw [if_pos hlt, GetFinalPathNameByHandleW_of_le (by rw [List.length_replicate]; exact hlt)]
        dsimp only
        rw [if_neg (Nat.succ_ne_zero _), if_pos (by rw [List.length_replicate]; omega)]
      · have hroom : path'.length < (List.replicate (path.length + 1)
            (none : Option UInt16)).length := by
          rw [List.length_replicate]
          omega
        have hlen : ¬(path'.map some ++ some 0 :: (List.replicate (path.length + 1)
            (none : Option UInt16)).drop (path'.length + 1)).length < path'.length := by
          simp
        rw [if_neg hlt, GetFinalPathNameByHandleW_of_lt hroom]
        dsimp only
        rw [take_written, if_neg hlen]
        by_cases hempty : path'.length = 0
        · rw [if_pos hempty, if_pos hempty]
          rfl
        · rw [if_neg hempty, if_neg hempty]

/-- Both calls see the same path. -/
theorem get_path_name_stable (hne : path ≠ []) :
    get_path_name (.ok path) (.ok path) = .ok (path.map some) := by
  have hlength : path.length ≠ 0 := fun h ↦ hne (List.length_eq_zero_iff.mp h)
  rcases Nat.lt_or_ge path.length MAX_PATH with hlt | hle
  · rw [get_path_name_of_lt hlt, if_neg hlength]
  · rw [get_path_name_of_le hle]
    dsimp only
    rw [if_neg (Nat.lt_irrefl _), if_neg hlength]

/-- **When a renamed file still has a path**: unless its first path does not fit the inline
buffer and its second is longer still. -/
theorem get_path_name_iff (first second : Except ERROR Wide) :
    PathOrError first second (get_path_name first second) ↔
      ∀ path path', first = .ok path → second = .ok path' → MAX_PATH ≤ path.length →
        path'.length ≤ path.length := by
  have herror : ∀ e, PathOrError first second (.error (.err e)) := fun e ↦ .inr ⟨e, rfl⟩
  cases first with
  | error e => exact iff_of_true (herror e) fun path path' h ↦ nomatch h
  | ok path =>
      rcases Nat.lt_or_ge path.length MAX_PATH with hlt | hle
      · refine iff_of_true ?_ ?_
        · rw [get_path_name_of_lt hlt]
          split
          · exact herror _
          · exact .inl ⟨path, .inl rfl, rfl⟩
        · rintro _ _ ⟨⟩ - hle
          exact absurd hlt (Nat.not_lt.mpr hle)
      · rw [get_path_name_of_le hle]
        cases second with
        | error e => exact iff_of_true (herror e) fun path path' _ h ↦ nomatch h
        | ok path' =>
            dsimp only
            by_cases hlong : path.length < path'.length
            · rw [if_pos hlong]
              refine iff_of_false ?_ fun h ↦ Nat.not_le.mpr hlong (h path path' rfl rfl hle)
              rintro (⟨_, -, h⟩ | ⟨_, h⟩) <;> cases h
            · rw [if_neg hlong]
              refine iff_of_true ?_ (by rintro _ _ ⟨⟩ ⟨⟩ -; exact Nat.not_lt.mp hlong)
              split
              · exact herror _
              · exact .inl ⟨path', .inr rfl, rfl⟩

/-- A file with a path of 260 characters, whose name gets one longer. -/
theorem get_path_name_renamed :
    get_path_name (.ok (List.replicate 260 97)) (.ok (List.replicate 261 97)) =
        .error .panic ∧
      ¬PathOrError (.ok (List.replicate 260 97)) (.ok (List.replicate 261 97))
        (get_path_name (.ok (List.replicate 260 97)) (.ok (List.replicate 261 97))) := by
  have hpanic : get_path_name (.ok (List.replicate 260 97)) (.ok (List.replicate 261 97)) =
      .error .panic := by
    rw [get_path_name_of_le (by rw [List.length_replicate]; decide)]
    exact if_pos (by simp only [List.length_replicate]; decide)
  refine ⟨hpanic, ?_⟩
  rw [hpanic]
  rintro (⟨_, -, h⟩ | ⟨_, h⟩) <;> cases h

end Fspy.Windows
