import Fspy.Seccomp.Handler
import Mathlib.Data.Nat.Find

/-!
# Reading a string in several pieces

`process_vm_readv` may answer with fewer bytes than it was asked for.  Here it reads a
memory, and a `Schedule` says how many bytes every call returns.  `CStrPtr::read` goes on
after such an answer, but asks for the same address again: it is right only where it
never has to go on, or where there is nothing to find.
-/

namespace Fspy.Seccomp

/-- The memory of a process, from address to address. -/
abbrev Memory := Nat → UInt8

namespace Memory

variable (mem : Memory)

/-- The bytes from an address on. -/
def bytes (start len : Nat) : Bytes := (List.range' start len).map mem

variable {mem} {start len : Nat}

@[simp] theorem length_bytes : (mem.bytes start len).length = len := by simp [bytes]

theorem zero_mem_bytes : (0 : UInt8) ∈ mem.bytes start len ↔ ∃ i < len, mem (start + i) = 0 := by
  simp only [bytes, List.mem_map, List.mem_range'_1]
  constructor
  · rintro ⟨a, ⟨hle, hlt⟩, ha⟩
    exact ⟨a - start, by omega, by rwa [Nat.add_sub_cancel' hle]⟩
  · rintro ⟨i, hi, ha⟩
    exact ⟨start + i, ⟨by omega, by omega⟩, ha⟩

/-- A longer read goes on where the shorter one ends. -/
theorem bytes_append (len more : Nat) :
    mem.bytes start len ++ mem.bytes (start + len) more = mem.bytes start (len + more) := by
  rw [bytes, bytes, ← List.map_append, List.range'_append_1, bytes]

/-- A string of this length starts here. -/
structure StringAt (mem : Memory) (start length : Nat) : Prop where
  letters : ∀ i < length, mem (start + i) ≠ 0
  terminator : mem (start + length) = 0

theorem exists_stringAt (h : (0 : UInt8) ∈ mem.bytes start len) :
    ∃ length, StringAt mem start length := by
  obtain ⟨i, -, hi⟩ := zero_mem_bytes.mp h
  have hex : ∃ i, mem (start + i) = 0 := ⟨i, hi⟩
  exact ⟨Nat.find hex, fun j hj ↦ Nat.find_min hex hj, Nat.find_spec hex⟩

variable {length : Nat}

theorem StringAt.zero_mem_iff (h : StringAt mem start length) :
    (0 : UInt8) ∈ mem.bytes start len ↔ length < len := by
  rw [zero_mem_bytes]
  constructor
  · rintro ⟨i, hi, hzero⟩
    exact (Nat.not_lt.mp fun hlt ↦ h.letters i hlt hzero).trans_lt hi
  · exact fun hlt ↦ ⟨length, hlt, h.terminator⟩

/-- What a read that reaches the terminator contains. -/
theorem StringAt.cstr_eq (h : StringAt mem start length) (hlen : length < len) :
    Lib.cstr (mem.bytes start len) = mem.bytes start length := by
  obtain ⟨more, rfl⟩ := Nat.exists_eq_add_of_lt hlen
  have htail : mem.bytes (start + length) (more + 1) =
      mem (start + length) :: mem.bytes (start + length + 1) more := by
    rw [bytes, List.range'_succ, List.map_cons, bytes]
  rw [Nat.add_assoc, ← bytes_append, Lib.cstr, List.takeWhile_append_of_pos, htail,
    List.takeWhile_cons_of_neg (by simp [h.terminator]), List.append_nil]
  intro c hc
  rw [bytes, List.mem_map] at hc
  obtain ⟨a, ha, rfl⟩ := hc
  rw [List.mem_range'_1] at ha
  have := h.letters (a - start) (by omega)
  rw [Nat.add_sub_cancel' ha.1] at this
  simpa using this

end Memory

/-- How many bytes every call returns: at least one, and no more than it was asked for. -/
structure Schedule where
  count : Nat → Nat → Nat
  count_pos : ∀ i len, 0 < len → 0 < count i len
  count_le : ∀ i len, count i len ≤ len

namespace Schedule

variable (schedule : Schedule) (mem : Memory)

/-- The `i`th call. -/
def call (i : Nat) : Readv := fun _ address len ↦ .ok (mem.bytes address.toNat
  (schedule.count i len))

/-- The calls from the `i`th on. -/
def calls (i : Nat) : Nat → List Readv
  | 0 => []
  | n + 1 => schedule.call mem i :: calls (i + 1) n

end Schedule

namespace CStrPtr

variable (path : CStrPtr) (schedule : Schedule) (mem : Memory)

/-- What a read into a buffer of this capacity is meant to return. -/
def expected (mem : Memory) (capacity : Nat) : Except IoError Bytes :=
  if 0 ∈ mem.bytes path.remote_ptr.toNat capacity then
    .ok (Lib.cstr (mem.bytes path.remote_ptr.toNat capacity))
  else .error .invalidFilename

variable {path schedule mem} {n room : Nat} {buf : Bytes}

/-- One call: it finds the end of the string, or the loop goes on with the same address. -/
theorem read_calls_succ (i : Nat) :
    path.read (schedule.calls mem i (n + 1)) (room + 1) buf =
      let chunk := mem.bytes path.remote_ptr.toNat (schedule.count i (room + 1))
      if 0 ∈ chunk then some (.ok (buf ++ Lib.cstr chunk))
      else path.read (schedule.calls mem (i + 1) n)
        (room + 1 - schedule.count i (room + 1)) (buf ++ chunk) := by
  dsimp only
  split
  · rename_i hnul
    exact read_of_mem rfl hnul
  · rename_i hnul
    rw [Schedule.calls, read, Schedule.call]
    dsimp only
    rw [List.idxOf?_eq_none_iff.mpr hnul, Memory.length_bytes]

/-- A buffer with room for as many bytes as there are calls is filled, or the read ends
before. -/
theorem read_ne_none (i : Nat) (h : room ≤ n) :
    path.read (schedule.calls mem i n) room buf ≠ none := by
  induction n generalizing i room buf with
  | zero =>
      obtain rfl := Nat.le_zero.mp h
      simp [read]
  | succ n ih =>
      cases room with
      | zero => simp [read]
      | succ room =>
          rw [read_calls_succ]
          dsimp only
          split
          · simp
          · have := schedule.count_pos i (room + 1) (Nat.succ_pos room)
            exact ih (i + 1) (by omega)

/-- Where the buffer has no room for the whole string, it is filled. -/
theorem read_of_notMem (i : Nat) (h : room ≤ n)
    (hnul : (0 : UInt8) ∉ mem.bytes path.remote_ptr.toNat room) :
    path.read (schedule.calls mem i n) room buf = some (.error .invalidFilename) := by
  induction n generalizing i room buf with
  | zero =>
      obtain rfl := Nat.le_zero.mp h
      rfl
  | succ n ih =>
      cases room with
      | zero => simp [read]
      | succ room =>
          have hpos := schedule.count_pos i (room + 1) (Nat.succ_pos room)
          have hle := schedule.count_le i (room + 1)
          have hshort : ∀ len ≤ room + 1,
              (0 : UInt8) ∉ mem.bytes path.remote_ptr.toNat len := by
            intro len hlen hmem
            obtain ⟨j, hj, hzero⟩ := Memory.zero_mem_bytes.mp hmem
            exact hnul (Memory.zero_mem_bytes.mpr ⟨j, by omega, hzero⟩)
          rw [read_calls_succ]
          dsimp only
          rw [if_neg (hshort _ hle)]
          exact ih (i + 1) (by omega) (hshort _ (by omega))

/-- What has been read stays in front of the string. -/
theorem length_of_read {length : Nat} (hstring : mem.StringAt path.remote_ptr.toNat length)
    {result : Bytes} (i : Nat)
    (h : path.read (schedule.calls mem i n) room buf = some (.ok result)) :
    buf.length + length ≤ result.length := by
  induction n generalizing i room buf with
  | zero => cases room <;> cases h
  | succ n ih =>
      cases room with
      | zero => simp [read] at h
      | succ room =>
          rw [read_calls_succ] at h
          dsimp only at h
          split at h
          · rename_i hnul
            obtain rfl := Except.ok.inj (Option.some.inj h)
            rw [hstring.cstr_eq (hstring.zero_mem_iff.mp hnul)]
            simp
          · have := ih (i + 1) h
            rw [List.length_append] at this
            omega

/-- Where the string fits, the first call has to reach its end. -/
theorem read_eq_expected_of_mem {capacity : Nat} (h : capacity ≤ n)
    (hnul : (0 : UInt8) ∈ mem.bytes path.remote_ptr.toNat capacity) :
    path.read (schedule.calls mem 0 n) capacity [] = some (path.expected mem capacity) ↔
      (0 : UInt8) ∈ mem.bytes path.remote_ptr.toNat (schedule.count 0 capacity) := by
  obtain ⟨length, hstring⟩ := Memory.exists_stringAt hnul
  have hlt : length < capacity := hstring.zero_mem_iff.mp hnul
  obtain ⟨room, rfl⟩ := Nat.exists_eq_succ_of_ne_zero (Nat.ne_zero_of_lt hlt)
  obtain ⟨calls, rfl⟩ := Nat.exists_eq_succ_of_ne_zero (Nat.ne_zero_of_lt (hlt.trans_le h))
  have hpos := schedule.count_pos 0 (room + 1) (Nat.succ_pos room)
  rw [expected, if_pos hnul, hstring.cstr_eq hlt, Nat.succ_eq_add_one, read_calls_succ]
  dsimp only
  split
  · rename_i hfirst
    rw [hstring.cstr_eq (hstring.zero_mem_iff.mp hfirst)]
    simp [hfirst]
  · rename_i hfirst
    refine ⟨fun hread ↦ ?_, fun hmem ↦ absurd hmem hfirst⟩
    have := length_of_read hstring 1 hread
    simp at this
    omega

/-- **When a string is read as it stands**: it does not fit, or the first call returns all
of it.  In any case the read ends, after at most as many calls as the buffer has bytes. -/
theorem read_eq_expected_iff (path : CStrPtr) (schedule : Schedule) (mem : Memory)
    (capacity n : Nat) (h : capacity ≤ n) :
    path.read (schedule.calls mem 0 n) capacity [] ≠ none ∧
      (path.read (schedule.calls mem 0 n) capacity [] = some (path.expected mem capacity) ↔
        (0 : UInt8) ∉ mem.bytes path.remote_ptr.toNat capacity ∨
          (0 : UInt8) ∈ mem.bytes path.remote_ptr.toNat (schedule.count 0 capacity)) := by
  refine ⟨read_ne_none 0 h, ?_⟩
  by_cases hnul : (0 : UInt8) ∈ mem.bytes path.remote_ptr.toNat capacity
  · rw [read_eq_expected_of_mem h hnul]
    simp [hnul]
  · rw [read_of_notMem 0 h hnul, expected, if_neg hnul]
    simp [hnul]

/-- Calls that return one byte each. -/
def bytewise : Schedule where
  count _ len := min 1 len
  count_pos _ _ h := lt_min Nat.one_pos h
  count_le _ _ := min_le_right _ _

/-- The string `"ab"`, and zeros. -/
def abMemory : Memory := fun i ↦ (ascii "ab").getD i 0

theorem read_eq_expected_sample :
    (⟨7, 0⟩ : CStrPtr).read (bytewise.calls abMemory 0 4) 4 [] ≠ none ∧
      ((⟨7, 0⟩ : CStrPtr).read (bytewise.calls abMemory 0 4) 4 [] =
          some ((⟨7, 0⟩ : CStrPtr).expected abMemory 4) ↔
        (0 : UInt8) ∉ abMemory.bytes 0 4 ∨ (0 : UInt8) ∈ abMemory.bytes 0 (bytewise.count 0 4)) :=
  read_eq_expected_iff ⟨7, 0⟩ bytewise abMemory 4 4 (Nat.le_refl 4)

/-- Read byte by byte, `"ab"` is a buffer full of `a`s. -/
theorem read_bytewise :
    (⟨7, 0⟩ : CStrPtr).read (bytewise.calls abMemory 0 4) 4 [] =
        some (.error .invalidFilename) ∧
      (⟨7, 0⟩ : CStrPtr).expected abMemory 4 = .ok (ascii "ab") ∧
      (⟨7, 0⟩ : CStrPtr).read (bytewise.calls abMemory 0 4) 4 [] ≠
        some ((⟨7, 0⟩ : CStrPtr).expected abMemory 4) := by
  decide

end CStrPtr

end Fspy.Seccomp
