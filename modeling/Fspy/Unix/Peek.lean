import Fspy.Unix.Shebang

/-!
# Peeking at a file that is read in pieces

`read` may deliver less than there is room for.  `peek_executable` goes on in the rest of
its buffer until a call delivers nothing, and `parse_shebang` slices the buffer by the
count it returns.  Here both are followed call by call, for any `Schedule` of deliveries;
`System.peek_executable` is what they come to.
-/

namespace Fspy.Unix.Peek

/-- A file that is open for reading, and the offset of the next `read`. -/
structure OpenFile where
  content : Bytes
  offset : Nat

/-- What is left to read. -/
def OpenFile.left (file : OpenFile) : Bytes := file.content.drop file.offset

/-- What the calls of `read` return, by their number, the length of the slice they are
given, and how many bytes are left of the file. -/
abbrev Reads := (call len left : Nat) → Except Errno Nat

/-- Bytes that are copied to a buffer, from a place on. -/
def copyTo (buf : Bytes) (start : Nat) (data : Bytes) : Bytes :=
  buf.take start ++ data ++ buf.drop (start + data.length)

/-- The loop of `peek_executable`: what it returns, if it does within this many calls, and
the buffer after it. -/
def readLoop (reads : Reads) : (fuel call : Nat) → OpenFile → Bytes → Nat →
    Option (Except Stop Nat × Bytes)
  | 0, _, _, _, _ => none
  | fuel + 1, call, file, buf, total_read_size =>
      -- `buf[total_read_size..]`
      if buf.length < total_read_size then some (.error .panic, buf)
      else match reads call (buf.length - total_read_size) file.left.length with
        | .error e => some (.error (.errno e), buf)
        | .ok read_size =>
            if read_size = 0 then some (.ok total_read_size, buf)
            else readLoop reads fuel (call + 1) { file with offset := file.offset + read_size }
              (copyTo buf total_read_size (file.left.take read_size))
              (total_read_size + read_size)

/-- `peek_executable`, with the buffer it is given. -/
def peek_executable (sys : System) (reads : Reads) (fuel : Nat) (path buf : Bytes) :
    Option (Except Stop Nat × Bytes) :=
  match sys.open_executable path with
  | .error e => some (.error (.errno e), buf)
  | .ok (.file content _ _) => readLoop reads fuel 0 ⟨content, 0⟩ buf 0
  | .ok (.dir _ _) => readLoop (fun _ _ _ ↦ .error .EISDIR) fuel 0 ⟨[], 0⟩ buf 0

/-- `parse_shebang`, with its buffer. -/
def parse_shebang (peek_executable : Bytes → Bytes → Option (Except Stop Nat × Bytes))
    (path : Bytes) (options : ParseShebangOptions) : Option (Except Stop (Option Shebang)) :=
  match peek_executable path (List.replicate PEEK_SIZE 0) with
  | none => none
  | some (.error stop, _) => some (.error stop)
  | some (.ok total_read_size, buf) =>
      -- `buf[..total_read_size]`
      if buf.length < total_read_size then some (.error .panic)
      else some ((parseLine (buf.take total_read_size) options).mapError .errno)

/-- How many bytes the calls deliver, where none fails: nothing only into an empty slice or
at the end of the file. -/
structure Schedule where
  count : (call len left : Nat) → Nat
  count_le_len (call len left : Nat) : count call len left ≤ len
  count_le_left (call len left : Nat) : count call len left ≤ left
  count_pos (call len left : Nat) : 0 < len → 0 < left → 0 < count call len left

def Schedule.reads (schedule : Schedule) : Reads :=
  fun call len left ↦ .ok (schedule.count call len left)

/-- The front of a file has been peeked into the front of a buffer. -/
structure Peeked (content buf : Bytes) (total_read_size : Nat) (buf' : Bytes) : Prop where
  size : total_read_size = min buf.length content.length
  length : buf'.length = buf.length
  front : ∀ i < total_read_size, buf'[i]? = content[i]?
  rest : ∀ i, total_read_size ≤ i → buf'[i]? = buf[i]?

/-! ## The buffer in the loop -/

/-- A buffer with the first `n` bytes of a file in front. -/
def filled (content buf : Bytes) (n : Nat) : Bytes := content.take n ++ buf.drop n

variable {content buf path : Bytes} {n k fuel call : Nat}

theorem length_filled (hbuf : n ≤ buf.length) (hcontent : n ≤ content.length) :
    (filled content buf n).length = buf.length := by
  rw [filled, List.length_append, List.length_take_of_le hcontent, List.length_drop,
    Nat.add_sub_cancel' hbuf]

/-- The next bytes of the file come after those that are there. -/
theorem copyTo_filled (h : n + k ≤ content.length) :
    copyTo (filled content buf n) n ((content.drop n).take k) = filled content buf (n + k) := by
  have htake : (content.take n).length = n := List.length_take_of_le (by omega)
  have hdata : ((content.drop n).take k).length = k :=
    List.length_take_of_le (by rw [List.length_drop]; omega)
  have hfront : (filled content buf n).take n = content.take n := List.take_left' htake
  have hrest : (filled content buf n).drop (n + k) = buf.drop (n + k) := by
    rw [filled, List.drop_append, htake, Nat.add_sub_cancel_left,
      List.drop_of_length_le (by omega), List.nil_append, List.drop_drop]
  rw [copyTo, hdata, hfront, hrest, filled, List.take_add]

theorem peeked_filled (content buf : Bytes) :
    Peeked content buf (min buf.length content.length)
      (filled content buf (min buf.length content.length)) := by
  have htake : (content.take (min buf.length content.length)).length =
      min buf.length content.length := List.length_take_of_le (Nat.min_le_right _ _)
  refine ⟨rfl, length_filled (Nat.min_le_left _ _) (Nat.min_le_right _ _), ?_, ?_⟩
  · intro i hi
    rw [filled, List.getElem?_append_left (by rwa [htake]), List.getElem?_take_of_lt hi]
  · intro i hi
    rw [filled, List.getElem?_append_right (by rwa [htake]), htake, List.getElem?_drop,
      Nat.add_sub_cancel' hi]

/-! ## The loop -/

/-- The loop ends: every call but the last one fills more of the buffer. -/
theorem readLoop_filled (schedule : Schedule) (hbuf : n ≤ buf.length)
    (hcontent : n ≤ content.length) (hfuel : buf.length < n + fuel) :
    readLoop schedule.reads fuel call ⟨content, n⟩ (filled content buf n) n =
      some (.ok (min buf.length content.length),
        filled content buf (min buf.length content.length)) := by
  induction fuel generalizing n call with
  | zero => omega
  | succ fuel ih =>
      have hleft : (⟨content, n⟩ : OpenFile).left.length = content.length - n := List.length_drop
      rw [readLoop, length_filled hbuf hcontent, if_neg (Nat.not_lt.mpr hbuf), hleft,
        Schedule.reads]
      dsimp only
      have hlen := schedule.count_le_len call (buf.length - n) (content.length - n)
      have hrest := schedule.count_le_left call (buf.length - n) (content.length - n)
      by_cases hzero : schedule.count call (buf.length - n) (content.length - n) = 0
      · -- the buffer is full, or the file has ended
        have hend : n = min buf.length content.length := by
          by_contra hmore
          have hpos := schedule.count_pos call (buf.length - n) (content.length - n) (by omega)
            (by omega)
          omega
        rw [if_pos hzero, ← hend]
      · rw [if_neg hzero, OpenFile.left, copyTo_filled (by omega)]
        exact ih (by omega) (by omega) (by omega)

/-! ## The calls against their outcome -/

variable {sys : System}

theorem peek_executable_of_open (schedule : Schedule) {executable readable : Bool}
    (hopen : sys.open_executable path = .ok (.file content executable readable))
    (hfuel : buf.length < fuel) :
    peek_executable sys schedule.reads fuel path buf =
      some (.ok (min buf.length content.length),
        filled content buf (min buf.length content.length)) := by
  rw [peek_executable, hopen]
  exact @readLoop_filled content buf 0 fuel 0 schedule (Nat.zero_le _) (Nat.zero_le _)
    (by rwa [Nat.zero_add])

/-- However the file is delivered, the buffer is what `System.peek_executable` says. -/
theorem peek_executable_eq (sys : System) (schedule : Schedule) (path : Bytes)
    (hfuel : buf.length < fuel) :
    peek_executable sys schedule.reads fuel path buf =
      some (match sys.peek_executable path buf.length with
        | .error e => (.error (.errno e), buf)
        | .ok data => (.ok data.length, data ++ buf.drop data.length)) := by
  rw [System.peek_executable]
  cases hopen : sys.open_executable path with
  | error e =>
      rw [peek_executable, hopen]
      rfl
  | ok node =>
      cases node with
      | dir executable readable =>
          obtain ⟨fuel, rfl⟩ := Nat.exists_eq_succ_of_ne_zero (Nat.ne_zero_of_lt hfuel)
          rw [peek_executable, hopen]
          dsimp only
          rw [readLoop, if_neg (Nat.not_lt_zero _)]
          rfl
      | file content executable readable =>
          rw [peek_executable_of_open schedule hopen hfuel]
          change _ = some (Except.ok (content.take buf.length).length,
            content.take buf.length ++ buf.drop (content.take buf.length).length)
          rw [filled, List.length_take, ← List.take_eq_take_min]

/-- So the shebang is the one that is parsed of the file. -/
theorem parse_shebang_eq (sys : System) (schedule : Schedule) (path : Bytes)
    (options : ParseShebangOptions) (hfuel : PEEK_SIZE < fuel) :
    parse_shebang (peek_executable sys schedule.reads fuel) path options =
      some (Unix.parse_shebang (fun path len ↦ nixResult (sys.peek_executable path len)) path
        options).result := by
  rw [parse_shebang, peek_executable_eq sys schedule path (by rwa [List.length_replicate]),
    List.length_replicate]
  cases hpeek : sys.peek_executable path PEEK_SIZE with
  | error e =>
      rw [Unix.parse_shebang, hpeek]
      rfl
  | ok data =>
      have hslice : ¬(data ++ (List.replicate PEEK_SIZE (0 : UInt8)).drop data.length).length <
          data.length := by
        rw [List.length_append]
        exact Nat.not_lt.mpr (Nat.le_add_right _ _)
      rw [Unix.parse_shebang, hpeek]
      dsimp only
      rw [if_neg hslice, List.take_left]
      rfl

theorem parse_shebang_ne_panic (sys : System) (path : Bytes) (options : ParseShebangOptions) :
    (Unix.parse_shebang (fun path len ↦ nixResult (sys.peek_executable path len)) path
      options).result ≠ .error .panic := by
  intro h
  rcases Lib.Traced.bind_eq_error.mp h with hpeek | ⟨buf, -, hline⟩
  · exact nixResult_ne_panic hpeek
  · exact nixResult_ne_panic hline

/-- **`peek_executable` under short reads**: it returns after at most one call more than the
buffer has bytes, with the front of the file in the buffer.  The shebang that is parsed is
the same for every schedule, and no slice is out of range. -/
theorem peek_executable_exact (sys : System) (path : Bytes) (fuel : Nat) :
    (∀ (schedule : Schedule) (content buf : Bytes) (executable readable : Bool),
      sys.open_executable path = .ok (.file content executable readable) →
      buf.length < fuel → ∃ total_read_size buf',
        peek_executable sys schedule.reads fuel path buf = some (.ok total_read_size, buf') ∧
          Peeked content buf total_read_size buf') ∧
      (PEEK_SIZE < fuel → ∀ options, ∃ result, result ≠ .error .panic ∧
        ∀ schedule : Schedule,
          parse_shebang (peek_executable sys schedule.reads fuel) path options = some result) := by
  constructor
  · intro schedule content buf executable readable hopen hfuel
    exact ⟨_, _, peek_executable_of_open schedule hopen hfuel, peeked_filled content buf⟩
  · intro hfuel options
    exact ⟨_, parse_shebang_ne_panic sys path options,
      fun schedule ↦ parse_shebang_eq sys schedule path options hfuel⟩

/-- Calls that deliver one byte each. -/
def bytewise : Schedule where
  count _ len left := min 1 (min len left)
  count_le_len _ _ _ := (Nat.min_le_right _ _).trans (Nat.min_le_left _ _)
  count_le_left _ _ _ := (Nat.min_le_right _ _).trans (Nat.min_le_right _ _)
  count_pos _ _ _ hlen hleft := lt_min Nat.one_pos (lt_min hlen hleft)

/-- A script of ten bytes. -/
def sampleScript : System :=
  .ofFiles [(ascii "/run", .file (ascii "#!/bin/sh\n") true true)]

/-- Four bytes of it, one at a time, and the line of its interpreter. -/
theorem peek_executable_exact_sample :
    (∃ total_read_size buf', peek_executable sampleScript bytewise.reads 5 (ascii "/run")
        [9, 9, 9, 9] = some (.ok total_read_size, buf') ∧
      Peeked (ascii "#!/bin/sh\n") [9, 9, 9, 9] total_read_size buf') ∧
      ∃ result, result ≠ .error .panic ∧ ∀ schedule : Schedule,
        parse_shebang (peek_executable sampleScript schedule.reads 129) (ascii "/run")
          .default = some result :=
  ⟨(peek_executable_exact sampleScript (ascii "/run") 5).1 bytewise _ _ true true (by decide)
    (by decide), (peek_executable_exact sampleScript (ascii "/run") 129).2 (by decide) .default⟩

end Fspy.Unix.Peek
