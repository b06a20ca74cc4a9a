import Fspy.Shm.Reader
import Fspy.Shm.Steps
import Mathlib.Algebra.Ring.Nat

/-!
# A send interrupted by a send

`open` and `stat` may be called from a signal handler, so a thread can be anywhere in
`Client::send` when a hooked function is called on it again.  One thread is a stack of
sends here, of which only the innermost one runs, and they share the `RefCell` of the
thread's cursor.  Up to `borrow_mut` a send can be interrupted by any number of others:
it finds the cursor they leave, or stores its own over it.  From `borrow_mut` to the end
of `with_shm_buf` it cannot: the other send panics when it borrows the cell again.  A send
also panics where `new_shm` returns an error.

`Inv` holds under the condition that neither happens; `pub` in it are the records
published in each chunk.
-/

namespace Fspy.Shm.Signal

open Lib

/-- Where a send stands.  `again` is as in the transition system of the log. -/
inductive Pc where
  /-- In `get_or_try`, before the cursor is looked up. -/
  | lookup (a : PathAccess)
  | newShm (a : PathAccess) (again : Bool) (stage : NewShm)
  /-- `new_shm` has returned the cursor `cur`. -/
  | store (a : PathAccess) (again : Bool) (cur : ShmCursor)
  /-- `get_or_try` has returned. -/
  | borrow (a : PathAccess)
  | advance (a : PathAccess) (again : Bool)
  /-- `n` bytes of the record are written to the buffer at `start` in the chunk `k`. -/
  | write (a : PathAccess) (k start n : Nat)
  /-- The flag is stored; the guard of the cell is dropped next. -/
  | release (a : PathAccess)
  | panicked (a : PathAccess)
deriving DecidableEq, Repr

/-- A thread: its cursor, the flag of the cell around it, and its sends, the innermost
one first. -/
structure State where
  mem : Mem
  cursor : Option ShmCursor
  borrowed : Bool
  frames : List Pc

/-- A hooked function is called, or the innermost send goes on, or the call of `new_shm`
it is at fails: `sendmsg` does with `EINTR` after a handler without `SA_RESTART` has run. -/
inductive Label where
  | call (a : PathAccess)
  | run
  | fail
deriving DecidableEq, Repr

variable (c : Codec PathAccess)

/-- The next step of the innermost send, where no call fails. -/
def runTop (s : State) (rest : List Pc) : Pc → Option State
  | .lookup a => match s.cursor with
      | some _ => some { s with frames := .borrow a :: rest }
      | none => some { s with frames := .newShm a false .shmOpen :: rest }
  | .newShm a again .shmOpen => some
      { s with
        mem := { s.mem with chunks := s.mem.chunks ++ [⟨0, []⟩] }
        frames := .newShm a again (.sendFd s.mem.chunks.length) :: rest }
  | .newShm a again (.sendFd k) => some
      { s with
        mem := { s.mem with received := s.mem.received ++ [k] }
        frames := .newShm a again (.ftruncate k) :: rest }
  | .newShm a again (.ftruncate k) => some
      { s with
        mem := s.mem.setBytes k fun _ ↦ List.replicate SHM_CHUNK_SIZE 0
        frames := .newShm a again (.map k) :: rest }
  | .newShm a again (.map k) => (s.mem.chunks[k]?).map fun ch ↦
      { s with frames := .store a again ⟨k, ch.bytes.length, 0⟩ :: rest }
  | .store a again cur => some
      { s with
        cursor := some cur
        frames := (if again then .advance a true else .borrow a) :: rest }
  | .borrow a =>
      if s.borrowed then some { s with frames := .panicked a :: rest }
      else some { s with borrowed := true, frames := .advance a false :: rest }
  | .advance a again => match s.cursor with
      | none => none
      | some cur => match cur.advance (1 + c.size a) with
          | some (start, cur') => some
              { s with cursor := some cur', frames := .write a cur.chunk start 0 :: rest }
          | none => if again then some { s with frames := .panicked a :: rest }
              else some { s with frames := .newShm a true .shmOpen :: rest }
  | .write a k start n => match (c.encode a)[n]? with
      | some b => some
          { s with
            mem := s.mem.setBytes k (·.set (start + 1 + n) b)
            frames := .write a k start (n + 1) :: rest }
      | none => some
          { s with mem := s.mem.setBytes k (·.set start 1), frames := .release a :: rest }
  | .release _ => some { s with borrowed := false, frames := rest }
  | .panicked _ => none

/-- One step of the thread.  A panic leaves a hook through `extern "C"`, which aborts. -/
def step (s : State) : Label → Option State
  | .call a => match s.frames with
      | .panicked _ :: _ => none
      | frames => if filtered a then some s else some { s with frames := .lookup a :: frames }
  | .run => match s.frames with
      | [] => none
      | pc :: rest => runTop c s rest pc
  | .fail => match s.frames with
      -- the error goes up to the hook, which unwraps it
      | .newShm a _ _ :: rest => some { s with frames := .panicked a :: rest }
      | _ => none

/-- A thread that has not sent anything. -/
def init : State := ⟨⟨[], []⟩, none, false, []⟩

/-- A hooked function is called while no send holds the cell, and its record fits a
chunk; or its access is not recorded at all.  No call of `new_shm` fails. -/
def Interruptible (s : State) : Label → Prop
  | .call a => filtered a ∨ s.borrowed = false ∧ 1 + c.size a ≤ SHM_CHUNK_SIZE
  | .run => True
  | .fail => False

/-! ## What a program point says -/

namespace Pc

def access : Pc → PathAccess
  | lookup a | newShm a _ _ | store a _ _ | borrow a | advance a _ | write a _ _ _ | release a
  | panicked a => a

/-- The chunk that a send is making. -/
def chunk : Pc → Option Nat
  | newShm _ _ (.sendFd k) | newShm _ _ (.ftruncate k) | newShm _ _ (.map k) => some k
  | store _ _ cur => some cur.chunk
  | _ => none

/-- The send holds the cell. -/
def borrows : Pc → Bool
  | newShm _ again _ | store _ again _ => again
  | advance _ _ | write _ _ _ _ | release _ | panicked _ => true
  | _ => false

/-- The record of the send is not published yet. -/
def pending : Pc → Option PathAccess
  | release _ => none
  | pc => some pc.access

end Pc

/-- The accesses that are being sent. -/
def State.sending (s : State) : List PathAccess := s.frames.filterMap Pc.pending

/-- The accesses that the thread was asked to record. -/
def called (ls : List Label) : List PathAccess :=
  ls.filterMap fun
    | .call a => if filtered a then none else some a
    | .run | .fail => none

/-- What the tracker has received from the thread. -/
def State.collected (s : State) : PathAccessIterable := Shm.collected ⟨s.mem, []⟩

/-! ## The bytes of a chunk -/

def bytesAt (m : Mem) (k : Nat) : Option Bytes := (m.chunks[k]?).map Chunk.bytes

variable {c} {m m' : Mem} {pub : Nat → List PathAccess} {k k' : Nat} {bytes : Bytes}

theorem lt_of_bytesAt (h : bytesAt m k = some bytes) : k < m.chunks.length := by
  obtain ⟨ch, hch, -⟩ := Option.map_eq_some_iff.mp h
  exact (List.getElem?_eq_some_iff.mp hch).1

theorem bytesAt_setBytes_self (f : Bytes → Bytes) (h : bytesAt m k = some bytes) :
    bytesAt (m.setBytes k f) k = some (f bytes) := by
  obtain ⟨ch, hch, rfl⟩ := Option.map_eq_some_iff.mp h
  rw [bytesAt, Mem.getElem?_setBytes, hch]
  simp

theorem bytesAt_setBytes_of_ne (f : Bytes → Bytes) (h : k' ≠ k) :
    bytesAt (m.setBytes k f) k' = bytesAt m k' := by
  rw [bytesAt, bytesAt, Mem.getElem?_setBytes]
  simp [Ne.symm h]

theorem bytesAt_append (ch : Chunk) (received : List Nat) (h : k < m.chunks.length) :
    bytesAt ⟨m.chunks ++ [ch], received⟩ k = bytesAt m k := by
  rw [bytesAt, bytesAt, List.getElem?_append_left h]

/-- The chunks read back as the records published in them. -/
structure Readable (c : Codec PathAccess) (m : Mem) (pub : Nat → List PathAccess) : Prop where
  scan : ∀ k bytes, bytesAt m k = some bytes → c.scan bytes = some (pub k)
  nodup : m.received.Nodup
  lt : ∀ k ∈ m.received, k < m.chunks.length
  published : ∀ k, pub k ≠ [] → k ∈ m.received

/-- A chunk that is truncated to its size. -/
def zeros : Bytes := List.replicate SHM_CHUNK_SIZE 0

theorem quiet_zeros : c.Quiet [] SHM_CHUNK_SIZE zeros := Codec.quiet_zeros _

/-- Nothing is published in a chunk of zeros, or in an empty one. -/
theorem Readable.pub_eq_nil (h : Readable c m pub)
    (hbytes : bytesAt m k = some zeros ∨ bytesAt m k = some []) : pub k = [] := by
  rcases hbytes with hbytes | hbytes
  · exact Option.some.inj ((h.scan k _ hbytes).symm.trans quiet_zeros.scan)
  · exact Option.some.inj ((h.scan k _ hbytes).symm.trans (c.scan_unpublished trivial))

/-! ## The invariant -/

/-- The chunk that a send is making is as far as the send is. -/
def Pc.Made (m : Mem) : Pc → Prop
  | .newShm _ _ (.sendFd k) => bytesAt m k = some [] ∧ k ∉ m.received
  | .newShm _ _ (.ftruncate k) => bytesAt m k = some [] ∧ k ∈ m.received
  | .newShm _ _ (.map k) => bytesAt m k = some zeros ∧ k ∈ m.received
  | .store _ _ cur => bytesAt m cur.chunk = some zeros ∧ cur.chunk ∈ m.received ∧
      cur.len = SHM_CHUNK_SIZE ∧ cur.position = 0
  | _ => True

/-- The record that a send is writing. -/
def Pc.writing : Pc → Option (PathAccess × Nat × Nat × Nat)
  | .write a k start n => some (a, k, start, n)
  | _ => none

/-- The cursor stands behind the published records of its chunk, and behind the record
that is being written. -/
structure CursorAt (c : Codec PathAccess) (m : Mem) (pub : Nat → List PathAccess)
    (cur : ShmCursor) (writing : Option (PathAccess × Nat × Nat × Nat)) : Prop where
  len : cur.len = SHM_CHUNK_SIZE
  le : cur.position ≤ SHM_CHUNK_SIZE
  received : cur.chunk ∈ m.received
  shape : ∃ bytes, bytesAt m cur.chunk = some bytes ∧
    match writing with
    | some (a, k, start, n) => k = cur.chunk ∧
        start = (c.frames (pub cur.chunk)).length ∧ cur.position = start + (1 + c.size a) ∧
        n ≤ c.size a ∧ c.Pending (pub cur.chunk) a n (SHM_CHUNK_SIZE - cur.position) bytes
    | none => cur.position = (c.frames (pub cur.chunk)).length ∧
        c.Quiet (pub cur.chunk) (SHM_CHUNK_SIZE - cur.position) bytes

/-- What holds of the chunks: no two of those that are being made or written to are the
same. -/
structure Chunks (c : Codec PathAccess) (m : Mem) (cursor : Option ShmCursor)
    (frames : List Pc) (pub : Nat → List PathAccess) : Prop where
  readable : Readable c m pub
  made : ∀ pc ∈ frames, pc.Made m
  excl : (frames.filterMap Pc.chunk).Nodup
  apart : ∀ cur, cursor = some cur → cur.chunk ∉ frames.filterMap Pc.chunk
  cursor : ∀ cur, cursor = some cur → CursorAt c m pub cur (frames.head?.bind Pc.writing)

/-- There is a cursor. -/
def Pc.stored : Pc → Bool
  | .borrow _ | .advance _ _ | .write _ _ _ _ | .release _ => true
  | _ => false

/-- What holds of the sends: only the innermost one may hold the cell. -/
structure Control (c : Codec PathAccess) (cursor : Option ShmCursor) (borrowed : Bool)
    (frames : List Pc) : Prop where
  borrowed : borrowed = frames.head?.any Pc.borrows
  waiting : ∀ pc ∈ frames.tail, pc.borrows = false
  calm : ∀ pc ∈ frames, ∀ a, pc ≠ .panicked a
  fits : ∀ pc ∈ frames, 1 + c.size pc.access ≤ SHM_CHUNK_SIZE
  stored : ∀ pc ∈ frames, pc.stored → cursor.isSome
  fresh : ∀ a cur, frames.head? = some (.advance a true) → cursor = some cur → cur.position = 0

structure Inv (c : Codec PathAccess) (ls : List Label) (s : State)
    (pub : Nat → List PathAccess) : Prop where
  chunks : Chunks c s.mem s.cursor s.frames pub
  control : Control c s.cursor s.borrowed s.frames
  account : (s.mem.received.flatMap pub ++ s.sending).Perm (called ls)

variable {cursor cursor' : Option ShmCursor} {borrowed borrowed' : Bool} {pc pc' : Pc}
  {rest frames : List Pc} {a : PathAccess}

/-! ## Moving on -/

/-- The innermost send goes on. -/
theorem Control.move (h : Control c cursor borrowed (pc :: rest))
    (haccess : pc'.access = pc.access) (hcalm : ∀ a, pc' ≠ .panicked a)
    (hkeep : cursor.isSome → cursor'.isSome) (hstored : pc'.stored → cursor'.isSome)
    (hfresh : ∀ a cur, pc' = .advance a true → cursor' = some cur → cur.position = 0) :
    Control c cursor' pc'.borrows (pc' :: rest) where
  borrowed := by simp
  waiting := h.waiting
  calm := by
    rw [List.forall_mem_cons]
    exact ⟨hcalm, fun q hq ↦ h.calm q (List.mem_cons_of_mem _ hq)⟩
  fits := by
    rw [List.forall_mem_cons]
    exact ⟨haccess ▸ h.fits pc List.mem_cons_self,
      fun q hq ↦ h.fits q (List.mem_cons_of_mem _ hq)⟩
  stored := by
    rw [List.forall_mem_cons]
    exact ⟨hstored, fun q hq hs ↦ hkeep (h.stored q (List.mem_cons_of_mem _ hq) hs)⟩
  fresh a cur htop hcur := hfresh a cur (Option.some.inj htop) hcur

/-- A send starts while none holds the cell. -/
theorem Control.push (h : Control c cursor false frames)
    (hfits : 1 + c.size a ≤ SHM_CHUNK_SIZE) : Control c cursor false (.lookup a :: frames) where
  borrowed := rfl
  waiting := by
    intro pc hpc
    cases frames with
    | nil => cases hpc
    | cons top rest =>
        rcases List.mem_cons.mp hpc with rfl | hpc
        · simpa using h.borrowed.symm
        · exact h.waiting pc hpc
  calm := by
    rw [List.forall_mem_cons]
    exact ⟨by simp, h.calm⟩
  fits := by
    rw [List.forall_mem_cons]
    exact ⟨hfits, h.fits⟩
  stored := by
    rw [List.forall_mem_cons]
    exact ⟨by simp [Pc.stored], h.stored⟩
  fresh := by rintro _ _ ⟨⟩

/-- The innermost send returns. -/
theorem Control.pop (h : Control c cursor borrowed (pc :: rest)) :
    Control c cursor false rest where
  borrowed := by
    cases rest with
    | nil => rfl
    | cons top rest => exact (h.waiting top List.mem_cons_self).symm
  waiting q hq := h.waiting q (List.mem_of_mem_tail hq)
  calm q hq := h.calm q (List.mem_cons_of_mem _ hq)
  fits q hq := h.fits q (List.mem_cons_of_mem _ hq)
  stored q hq := h.stored q (List.mem_cons_of_mem _ hq)
  fresh a cur htop := by
    cases rest with
    | nil => cases htop
    | cons top rest =>
        obtain rfl := Option.some.inj htop
        cases h.waiting _ List.mem_cons_self

/-- Only a send that holds the cell writes. -/
theorem writing_eq_none (h : Control c cursor false frames) :
    frames.head?.bind Pc.writing = none := by
  have hborrowed := h.borrowed
  cases frames with
  | nil => rfl
  | cons top rest => cases top with
    | write a k start n => cases hborrowed
    | _ => rfl

/-- A chunk in the making is still as far if it is not touched. -/
theorem Pc.Made.congr (h : pc.Made m) (hsame : ∀ k, pc.chunk = some k →
    bytesAt m' k = bytesAt m k ∧ (k ∈ m'.received ↔ k ∈ m.received)) : pc.Made m' := by
  cases pc with
  | newShm a again stage =>
      cases stage with
      | shmOpen => trivial
      | sendFd k =>
          obtain ⟨hbytes, hmem⟩ := hsame k rfl
          exact ⟨hbytes.trans h.1, fun hk ↦ h.2 (hmem.mp hk)⟩
      | ftruncate k | map k =>
          obtain ⟨hbytes, hmem⟩ := hsame k rfl
          exact ⟨hbytes.trans h.1, hmem.mpr h.2⟩
  | store a again cur =>
      obtain ⟨hbytes, hmem⟩ := hsame cur.chunk rfl
      exact ⟨hbytes.trans h.1, hmem.mpr h.2.1, h.2.2⟩
  | _ => trivial

theorem Pc.Made.exists_bytes (h : pc.Made m) (hk : pc.chunk = some k) :
    ∃ bytes, bytesAt m k = some bytes := by
  cases pc with
  | newShm a again stage =>
      cases stage with
      | shmOpen => cases hk
      | sendFd k' | ftruncate k' | map k' =>
          obtain rfl := Option.some.inj hk
          exact ⟨_, h.1⟩
  | store a again cur =>
      obtain rfl := Option.some.inj hk
      exact ⟨_, h.1⟩
  | _ => cases hk

theorem CursorAt.congr {cur : ShmCursor} {writing} {pub' : Nat → List PathAccess}
    (h : CursorAt c m pub cur writing) (hbytes : bytesAt m' cur.chunk = bytesAt m cur.chunk)
    (hpub : pub' cur.chunk = pub cur.chunk) (hreceived : cur.chunk ∈ m'.received) :
    CursorAt c m' pub' cur writing where
  len := h.len
  le := h.le
  received := hreceived
  shape := by
    rw [hbytes, hpub]
    exact h.shape

namespace Chunks

theorem lt_of_mem (h : Chunks c m cursor frames pub) (hk : k ∈ frames.filterMap Pc.chunk) :
    k < m.chunks.length := by
  obtain ⟨pc, hpc, hchunk⟩ := List.mem_filterMap.mp hk
  obtain ⟨bytes, hbytes⟩ := (h.made pc hpc).exists_bytes hchunk
  exact lt_of_bytesAt hbytes

/-- The innermost send goes on, and touches no chunk of another one. -/
theorem move {pub' : Nat → List PathAccess} (h : Chunks c m cursor (pc :: rest) pub)
    (hreadable : Readable c m' pub') (hmade : pc'.Made m')
    (hsame : ∀ k ∈ rest.filterMap Pc.chunk,
      bytesAt m' k = bytesAt m k ∧ (k ∈ m'.received ↔ k ∈ m.received))
    (hexcl : ∀ k, pc'.chunk = some k → k ∉ rest.filterMap Pc.chunk ∧
      ∀ cur, cursor' = some cur → cur.chunk ≠ k)
    (hcursor : ∀ cur, cursor' = some cur → cur.chunk ∉ rest.filterMap Pc.chunk ∧
      CursorAt c m' pub' cur pc'.writing) :
    Chunks c m' cursor' (pc' :: rest) pub' where
  readable := hreadable
  made := by
    rw [List.forall_mem_cons]
    refine ⟨hmade, fun q hq ↦ (h.made q (List.mem_cons_of_mem _ hq)).congr fun k hk ↦ ?_⟩
    exact hsame k (List.mem_filterMap.mpr ⟨q, hq, hk⟩)
  excl := by
    have hrest := h.excl
    rw [List.filterMap_cons] at hrest ⊢
    have hnodup : (rest.filterMap Pc.chunk).Nodup := by
      cases hchunk : pc.chunk with
      | none => simpa [hchunk] using hrest
      | some k =>
          rw [hchunk] at hrest
          exact (List.nodup_cons.mp hrest).2
    cases hchunk : pc'.chunk with
    | none => exact hnodup
    | some k => exact List.nodup_cons.mpr ⟨(hexcl k hchunk).1, hnodup⟩
  apart := by
    intro cur hcur
    rw [List.filterMap_cons]
    cases hchunk : pc'.chunk with
    | none => exact (hcursor cur hcur).1
    | some k =>
        rw [List.mem_cons, not_or]
        exact ⟨(hexcl k hchunk).2 cur hcur, (hcursor cur hcur).1⟩
  cursor cur hcur := (hcursor cur hcur).2

theorem apart_rest (h : Chunks c m cursor (pc :: rest) pub) {cur : ShmCursor}
    (hcur : cursor = some cur) : cur.chunk ∉ rest.filterMap Pc.chunk := by
  intro hmem
  apply h.apart cur hcur
  obtain ⟨q, hq, hchunk⟩ := List.mem_filterMap.mp hmem
  exact List.mem_filterMap.mpr ⟨q, List.mem_cons_of_mem _ hq, hchunk⟩

/-- The chunk that the innermost send is making belongs to nobody else. -/
theorem own (h : Chunks c m cursor (pc :: rest) pub) (hk : pc.chunk = some k) :
    k ∉ rest.filterMap Pc.chunk ∧ ∀ cur, cursor = some cur → cur.chunk ≠ k := by
  have hexcl := h.excl
  rw [List.filterMap_cons, hk] at hexcl
  refine ⟨(List.nodup_cons.mp hexcl).1, ?_⟩
  rintro cur hcur rfl
  apply h.apart cur hcur
  rw [List.filterMap_cons, hk]
  exact List.mem_cons_self

/-- The innermost send goes on without touching the log. -/
theorem still (h : Chunks c m cursor (pc :: rest) pub) (hmade : pc'.Made m)
    (hchunk : pc'.chunk = pc.chunk) (hwriting : pc'.writing = pc.writing) :
    Chunks c m cursor (pc' :: rest) pub := by
  refine h.move h.readable hmade (fun _ _ ↦ ⟨rfl, Iff.rfl⟩) ?_ ?_
  · intro k hk
    exact h.own (hchunk ▸ hk)
  · intro cur hcur
    rw [hwriting]
    exact ⟨h.apart_rest hcur, h.cursor cur hcur⟩

theorem push (h : Chunks c m cursor frames pub) (hwriting : frames.head?.bind Pc.writing = none) :
    Chunks c m cursor (.lookup a :: frames) pub where
  readable := h.readable
  made := by
    rw [List.forall_mem_cons]
    exact ⟨trivial, h.made⟩
  excl := h.excl
  apart := h.apart
  cursor cur hcur := by
    have hat := h.cursor cur hcur
    rw [hwriting] at hat
    exact hat

theorem pop (h : Chunks c m cursor (.release a :: rest) pub)
    (hwriting : rest.head?.bind Pc.writing = none) : Chunks c m cursor rest pub where
  readable := h.readable
  made q hq := h.made q (List.mem_cons_of_mem _ hq)
  excl := h.excl
  apart := h.apart
  cursor cur hcur := by
    rw [hwriting]
    exact h.cursor cur hcur

end Chunks

/-! ## Making a chunk -/

namespace Readable

theorem append (h : Readable c m pub) :
    Readable c ⟨m.chunks ++ [⟨0, []⟩], m.received⟩ pub where
  scan k bytes hbytes := by
    by_cases hk : k < m.chunks.length
    · rw [bytesAt_append _ _ hk] at hbytes
      exact h.scan k bytes hbytes
    · have hpub : pub k = [] := by
        by_contra hne
        exact hk (h.lt k (h.published k hne))
      rw [bytesAt, List.getElem?_append_right (Nat.not_lt.mp hk)] at hbytes
      obtain ⟨ch, hch, rfl⟩ := Option.map_eq_some_iff.mp hbytes
      rw [List.mem_singleton.mp (List.mem_of_getElem? hch), hpub]
      exact c.scan_unpublished trivial
  nodup := h.nodup
  lt k hk := by
    rw [List.length_append]
    exact Nat.lt_add_right _ (h.lt k hk)
  published := h.published

theorem receive (h : Readable c m pub) (hk : k ∉ m.received) (hlt : k < m.chunks.length) :
    Readable c ⟨m.chunks, m.received ++ [k]⟩ pub where
  scan := h.scan
  nodup := by
    refine List.nodup_append.mpr ⟨h.nodup, by simp, ?_⟩
    rintro j hj j' hj' rfl
    rw [List.mem_singleton.mp hj'] at hj
    exact hk hj
  lt j hj := by
    rcases List.mem_append.mp hj with hj | hj
    · exact h.lt j hj
    · rw [List.mem_singleton.mp hj]
      exact hlt
  published j hj := List.mem_append_left _ (h.published j hj)

theorem setBytes (h : Readable c m pub) {f : Bytes → Bytes} (hbytes : bytesAt m k = some bytes)
    (hf : c.scan (f bytes) = some (pub k)) : Readable c (m.setBytes k f) pub where
  scan j bytes' hj := by
    by_cases hjk : j = k
    · subst hjk
      rw [bytesAt_setBytes_self f hbytes] at hj
      rw [← Option.some.inj hj]
      exact hf
    · rw [bytesAt_setBytes_of_ne f hjk] at hj
      exact h.scan j bytes' hj
  nodup := h.nodup
  lt j hj := by simpa using h.lt j hj
  published := h.published

/-- One more record is published in the chunk. -/
theorem publish (h : Readable c m pub) {f : Bytes → Bytes} (hbytes : bytesAt m k = some bytes)
    (hf : c.scan (f bytes) = some (pub k ++ [a])) (hk : k ∈ m.received) :
    Readable c (m.setBytes k f) (Function.update pub k (pub k ++ [a])) where
  scan j bytes' hj := by
    by_cases hjk : j = k
    · subst hjk
      rw [bytesAt_setBytes_self f hbytes] at hj
      rw [← Option.some.inj hj, Function.update_self]
      exact hf
    · rw [bytesAt_setBytes_of_ne f hjk] at hj
      rw [Function.update_of_ne hjk]
      exact h.scan j bytes' hj
  nodup := h.nodup
  lt j hj := by simpa using h.lt j hj
  published j hj := by
    by_cases hjk : j = k
    · rw [hjk]
      exact hk
    · rw [Function.update_of_ne hjk] at hj
      exact h.published j hj

end Readable

namespace Chunks

variable {again : Bool}

theorem shmOpen (h : Chunks c m cursor (.newShm a again .shmOpen :: rest) pub) :
    Chunks c ⟨m.chunks ++ [⟨0, []⟩], m.received⟩ cursor
      (.newShm a again (.sendFd m.chunks.length) :: rest) pub := by
  have hrest : ∀ k ∈ rest.filterMap Pc.chunk, k < m.chunks.length := fun k hk ↦
    h.lt_of_mem (by simpa [List.filterMap_cons, Pc.chunk] using hk)
  have hcur : ∀ cur, cursor = some cur → cur.chunk < m.chunks.length := fun cur hcur ↦
    h.readable.lt _ (h.cursor cur hcur).received
  refine h.move h.readable.append ⟨?_, ?_⟩ ?_ ?_ ?_
  · simp [bytesAt]
  · exact fun hmem ↦ Nat.lt_irrefl _ (h.readable.lt _ hmem)
  · exact fun k hk ↦ ⟨bytesAt_append _ _ (hrest k hk), Iff.rfl⟩
  · rintro k ⟨⟩
    exact ⟨fun hmem ↦ Nat.lt_irrefl _ (hrest _ hmem),
      fun cur hc heq ↦ Nat.lt_irrefl _ (heq ▸ hcur cur hc)⟩
  · intro cur hc
    have hat := h.cursor cur hc
    exact ⟨h.apart_rest hc, hat.congr (bytesAt_append _ _ (hcur cur hc)) rfl hat.received⟩

theorem sendFd (h : Chunks c m cursor (.newShm a again (.sendFd k) :: rest) pub) :
    Chunks c ⟨m.chunks, m.received ++ [k]⟩ cursor
      (.newShm a again (.ftruncate k) :: rest) pub := by
  obtain ⟨hbytes, hk⟩ := h.made _ List.mem_cons_self
  obtain ⟨hrest, hcur⟩ := h.own rfl
  refine h.move (h.readable.receive hk (lt_of_bytesAt hbytes)) ⟨hbytes, by simp⟩ ?_ ?_ ?_
  · intro j hj
    refine ⟨rfl, ?_⟩
    rw [List.mem_append, List.mem_singleton, or_iff_left]
    rintro rfl
    exact hrest hj
  · rintro j ⟨⟩
    exact ⟨hrest, hcur⟩
  · intro cur hc
    have hat := h.cursor cur hc
    exact ⟨h.apart_rest hc, hat.congr rfl rfl (List.mem_append_left _ hat.received)⟩

theorem ftruncate (h : Chunks c m cursor (.newShm a again (.ftruncate k) :: rest) pub) :
    Chunks c (m.setBytes k fun _ ↦ zeros) cursor (.newShm a again (.map k) :: rest) pub := by
  obtain ⟨hbytes, hk⟩ := h.made _ List.mem_cons_self
  obtain ⟨hrest, hcur⟩ := h.own rfl
  have hscan : c.scan zeros = some (pub k) := by
    rw [h.readable.pub_eq_nil (.inr hbytes)]
    exact quiet_zeros.scan
  refine h.move (h.readable.setBytes hbytes hscan)
    ⟨bytesAt_setBytes_self _ hbytes, hk⟩ ?_ ?_ ?_
  · intro j hj
    refine ⟨bytesAt_setBytes_of_ne _ ?_, Iff.rfl⟩
    rintro rfl
    exact hrest hj
  · rintro j ⟨⟩
    exact ⟨hrest, hcur⟩
  · intro cur hc
    have hat := h.cursor cur hc
    exact ⟨h.apart_rest hc, hat.congr (bytesAt_setBytes_of_ne _ (hcur cur hc)) rfl hat.received⟩

theorem map (h : Chunks c m cursor (.newShm a again (.map k) :: rest) pub) {ch : Chunk}
    (hch : m.chunks[k]? = some ch) :
    Chunks c m cursor (.store a again ⟨k, ch.bytes.length, 0⟩ :: rest) pub := by
  obtain ⟨hbytes, hk⟩ := h.made _ List.mem_cons_self
  have hzeros : ch.bytes = zeros := by
    rw [bytesAt, hch] at hbytes
    exact Option.some.inj hbytes
  refine h.still ⟨hbytes, hk, ?_, rfl⟩ rfl rfl
  rw [hzeros]
  exact List.length_replicate

/-- The new cursor replaces the one that was there. -/
theorem store {cur : ShmCursor} (h : Chunks c m cursor (.store a again cur :: rest) pub)
    (hchunk : pc'.chunk = none) (hmade : pc'.Made m) (hwriting : pc'.writing = none) :
    Chunks c m (some cur) (pc' :: rest) pub := by
  obtain ⟨hbytes, hk, hlen, hposition⟩ := h.made _ List.mem_cons_self
  obtain ⟨hrest, -⟩ := h.own rfl
  refine h.move h.readable hmade (fun _ _ ↦ ⟨rfl, Iff.rfl⟩) ?_ ?_
  · intro k hk
    cases hchunk.symm.trans hk
  · rintro cur ⟨⟩
    refine ⟨hrest, hlen, hposition ▸ Nat.zero_le _, hk, zeros, hbytes, ?_⟩
    rw [hwriting, h.readable.pub_eq_nil (.inl hbytes), hposition]
    exact ⟨rfl, quiet_zeros⟩

/-! ## Writing a record -/

theorem advance {cur cur' : ShmCursor} {start : Nat}
    (h : Chunks c m (some cur) (.advance a again :: rest) pub)
    (hadv : cur.advance (1 + c.size a) = some (start, cur')) :
    Chunks c m (some cur') (.write a cur.chunk start 0 :: rest) pub := by
  obtain ⟨hroom, rfl, rfl⟩ := ShmCursor.advance_eq_some.mp hadv
  have hat := h.cursor cur rfl
  obtain ⟨bytes, hbytes, hposition, hquiet⟩ := hat.shape
  rw [hat.len] at hroom
  have hapart : cur.chunk ∉ rest.filterMap Pc.chunk := h.apart_rest rfl
  refine h.move h.readable trivial (fun _ _ ↦ ⟨rfl, Iff.rfl⟩) (by rintro _ ⟨⟩) ?_
  rintro cur₀ ⟨⟩
  refine ⟨hapart, hat.len, hroom, hat.received, bytes, hbytes, rfl, hposition, rfl,
    Nat.zero_le _, Codec.Quiet.reserve ?_⟩
  rw [show 1 + c.size a + (SHM_CHUNK_SIZE - (cur.position + (1 + c.size a))) =
    SHM_CHUNK_SIZE - cur.position by omega]
  exact hquiet

variable {start n : Nat}

/-- The buffer that a send writes to. -/
theorem of_write (h : Chunks c m cursor (.write a k start n :: rest) pub)
    (hcursor : cursor.isSome) : ∃ cur bytes, cursor = some cur ∧ CursorAt c m pub cur
      (some (a, k, start, n)) ∧ cur.chunk = k ∧ bytesAt m k = some bytes ∧
      start = (c.frames (pub k)).length ∧ cur.position = start + (1 + c.size a) ∧
      n ≤ c.size a ∧ c.Pending (pub k) a n (SHM_CHUNK_SIZE - cur.position) bytes := by
  obtain ⟨cur, rfl⟩ := Option.isSome_iff_exists.mp hcursor
  have hat := h.cursor cur rfl
  obtain ⟨bytes, hbytes, rfl, hstart, hposition, hn, hpending⟩ := hat.shape
  exact ⟨cur, bytes, rfl, hat, rfl, hbytes, hstart, hposition, hn, hpending⟩

theorem write {b : UInt8} (h : Chunks c m cursor (.write a k start n :: rest) pub)
    (hcursor : cursor.isSome) (hb : (c.encode a)[n]? = some b) :
    Chunks c (m.setBytes k (·.set (start + 1 + n) b)) cursor
      (.write a k start (n + 1) :: rest) pub := by
  obtain ⟨cur, bytes, rfl, hat, rfl, hbytes, rfl, hposition, -, hpending⟩ := h.of_write hcursor
  have hn : n < c.size a := (List.getElem?_eq_some_iff.mp hb).1
  have hnext := hpending.write hb
  refine h.move (h.readable.setBytes hbytes hnext.scan) trivial ?_ (by rintro _ ⟨⟩) ?_
  · intro j hj
    refine ⟨bytesAt_setBytes_of_ne _ ?_, Iff.rfl⟩
    rintro rfl
    exact h.apart_rest rfl hj
  · rintro cur₀ ⟨⟩
    exact ⟨h.apart_rest rfl, hat.len, hat.le, hat.received, _, bytesAt_setBytes_self _ hbytes,
      rfl, rfl, hposition, hn, hnext⟩

theorem publish (h : Chunks c m cursor (.write a k start n :: rest) pub)
    (hcursor : cursor.isSome) (hb : (c.encode a)[n]? = none) :
    Chunks c (m.setBytes k (·.set start 1)) cursor (.release a :: rest)
        (Function.update pub k (pub k ++ [a])) ∧
      k ∈ m.received := by
  obtain ⟨cur, bytes, rfl, hat, rfl, hbytes, rfl, hposition, hn, hpending⟩ := h.of_write hcursor
  obtain rfl : n = c.size a := Nat.le_antisymm hn (List.getElem?_eq_none_iff.mp hb)
  have hnext := hpending.publish
  refine ⟨?_, hat.received⟩
  refine h.move (h.readable.publish hbytes hnext.scan hat.received) trivial ?_
    (by rintro _ ⟨⟩) ?_
  · intro j hj
    refine ⟨bytesAt_setBytes_of_ne _ ?_, Iff.rfl⟩
    rintro rfl
    exact h.apart_rest rfl hj
  · rintro cur₀ ⟨⟩
    refine ⟨h.apart_rest rfl, hat.len, hat.le, hat.received, _,
      bytesAt_setBytes_self _ hbytes, ?_⟩
    rw [Function.update_self, c.length_frames_snoc]
    exact ⟨hposition, hnext⟩

end Chunks

/-! ## All steps -/

/-- Publishing in a chunk that was received once adds one record. -/
theorem flatMap_publish (pub : Nat → List PathAccess) (a : PathAccess) {received : List Nat}
    (hnodup : received.Nodup) (hk : k ∈ received) :
    (received.flatMap (Function.update pub k (pub k ++ [a]))).Perm
      (a :: received.flatMap pub) := by
  induction received with
  | nil => cases hk
  | cons j received ih =>
      obtain ⟨hj, hnodup⟩ := List.nodup_cons.mp hnodup
      rw [List.flatMap_cons, List.flatMap_cons]
      by_cases hjk : j = k
      · subst hjk
        have hrest : received.flatMap (Function.update pub j (pub j ++ [a])) =
            received.flatMap pub := by
          apply List.flatMap_congr
          intro i hi
          rw [Function.update_of_ne]
          rintro rfl
          exact hj hi
        rw [Function.update_self, hrest, List.append_assoc]
        exact List.perm_middle
      · rw [Function.update_of_ne hjk]
        have hmem : k ∈ received := (List.mem_cons.mp hk).resolve_left (Ne.symm hjk)
        exact ((ih hnodup hmem).append_left (pub j)).trans List.perm_middle

variable {ls : List Label} {s s' : State}

theorem inv_init (c : Codec PathAccess) : Inv c [] init fun _ ↦ [] where
  chunks := {
    readable := {
      scan := by rintro k bytes ⟨⟩
      nodup := List.nodup_nil
      lt := by rintro k ⟨⟩
      published := fun k hne ↦ absurd rfl hne }
    made := by rintro pc ⟨⟩
    excl := List.nodup_nil
    apart := by rintro cur ⟨⟩
    cursor := by rintro cur ⟨⟩ }
  control := {
    borrowed := rfl
    waiting := by rintro pc ⟨⟩
    calm := by rintro pc ⟨⟩
    fits := by rintro pc ⟨⟩
    stored := by rintro pc ⟨⟩
    fresh := by rintro a cur ⟨⟩ }
  account := .refl _

theorem called_append (l : Label) : called (ls ++ [l]) = called ls ++ called [l] :=
  List.filterMap_append

theorem called_run : called (ls ++ [.run]) = called ls := by
  rw [called_append]
  simp [called]

/-- A hooked function is called. -/
theorem Inv.call (h : Inv c ls s pub) (hmeet : Interruptible c s (.call a))
    (hstep : step c s (.call a) = some s') : Inv c (ls ++ [.call a]) s' pub := by
  obtain ⟨m, cursor, borrowed, frames⟩ := s
  rw [step] at hstep
  split at hstep
  · cases hstep
  · split at hstep
    · rename_i hfiltered
      cases hstep
      refine ⟨h.chunks, h.control, ?_⟩
      rw [called_append]
      simpa [called, hfiltered] using h.account
    · rename_i hfiltered
      cases hstep
      obtain ⟨rfl, hfits⟩ := hmeet.resolve_left hfiltered
      refine ⟨h.chunks.push (writing_eq_none h.control), h.control.push hfits, ?_⟩
      rw [called_append]
      have hcalled : called [.call a] = [a] := by simp [called, hfiltered]
      rw [hcalled]
      exact List.perm_middle.trans
        ((h.account.cons a).trans (List.perm_append_singleton a (called ls)).symm)

/-- The innermost send goes on, with its record still to be published or just so. -/
theorem Inv.goto {pub' : Nat → List PathAccess} (h : Inv c ls ⟨m, cursor, borrowed, pc :: rest⟩ pub)
    (hchunks : Chunks c m' cursor' (pc' :: rest) pub') (hborrowed : borrowed' = pc'.borrows)
    (haccess : pc'.access = pc.access) (hcalm : ∀ a, pc' ≠ .panicked a)
    (hkeep : cursor.isSome → cursor'.isSome) (hstored : pc'.stored → cursor'.isSome)
    (hfresh : ∀ a cur, pc' = .advance a true → cursor' = some cur → cur.position = 0)
    (haccount : (m'.received.flatMap pub' ++ pc'.pending.toList).Perm
      (m.received.flatMap pub ++ pc.pending.toList)) :
    Inv c (ls ++ [.run]) ⟨m', cursor', borrowed', pc' :: rest⟩ pub' where
  chunks := hchunks
  control := hborrowed ▸ h.control.move haccess hcalm hkeep hstored hfresh
  account := by
    have hsending : ∀ m cursor borrowed (pc : Pc), State.sending ⟨m, cursor, borrowed, pc :: rest⟩ =
        pc.pending.toList ++ rest.filterMap Pc.pending := by
      intro m cursor borrowed pc
      rw [State.sending, List.filterMap_cons]
      cases pc.pending <;> rfl
    rw [called_run, hsending, ← List.append_assoc]
    refine (haccount.append_right _).trans ?_
    have hacc := h.account
    rw [hsending, ← List.append_assoc] at hacc
    exact hacc

/-- The innermost send takes a step of `new_shm`. -/
theorem Inv.newShm {again : Bool} {stage : NewShm}
    (h : Inv c ls ⟨m, cursor, borrowed, .newShm a again stage :: rest⟩ pub)
    (hstep : step c ⟨m, cursor, borrowed, .newShm a again stage :: rest⟩ .run = some s') :
    Inv c (ls ++ [.run]) s' pub := by
  have hb : borrowed = again := by simpa [Pc.borrows] using h.control.borrowed
  cases stage with
  | shmOpen =>
      cases hstep
      exact h.goto h.chunks.shmOpen hb rfl (by simp) id (by simp [Pc.stored]) (by simp) (.refl _)
  | sendFd k =>
      cases hstep
      have hnil : pub k = [] :=
        h.chunks.readable.pub_eq_nil (.inr (h.chunks.made _ List.mem_cons_self).1)
      refine h.goto h.chunks.sendFd hb rfl (by simp) id (by simp [Pc.stored]) (by simp) ?_
      rw [List.flatMap_append, List.flatMap_singleton, hnil, List.append_nil]
      exact .refl _
  | ftruncate k =>
      cases hstep
      exact h.goto h.chunks.ftruncate hb rfl (by simp) id (by simp [Pc.stored]) (by simp) (.refl _)
  | map k =>
      obtain ⟨ch, hch, hs⟩ := Option.map_eq_some_iff.mp hstep
      cases hs
      exact h.goto (h.chunks.map hch) hb rfl (by simp) id (by simp [Pc.stored]) (by simp) (.refl _)

/-- The innermost send takes its buffer, or finds that it needs another chunk. -/
theorem Inv.advance {again : Bool}
    (h : Inv c ls ⟨m, cursor, borrowed, .advance a again :: rest⟩ pub)
    (hstep : step c ⟨m, cursor, borrowed, .advance a again :: rest⟩ .run = some s') :
    Inv c (ls ++ [.run]) s' pub := by
  have hb : borrowed = true := by simpa [Pc.borrows] using h.control.borrowed
  obtain ⟨cur, rfl⟩ := Option.isSome_iff_exists.mp (h.control.stored _ List.mem_cons_self rfl)
  simp only [step, runTop] at hstep
  cases hadv : cur.advance (1 + c.size a) with
  | some out =>
      obtain ⟨start, cur'⟩ := out
      rw [hadv] at hstep
      cases hstep
      exact h.goto (h.chunks.advance hadv) hb rfl (by simp) (fun _ ↦ rfl) (fun _ ↦ rfl) (by simp)
        (.refl _)
  | none =>
      cases again with
      | false =>
          rw [hadv] at hstep
          cases hstep
          exact h.goto (h.chunks.still trivial rfl rfl) hb rfl (by simp) id (by simp [Pc.stored])
            (by simp) (.refl _)
      | true =>
          -- a record that fits a chunk fits a fresh one
          have hfull := ShmCursor.advance_eq_none.mp hadv
          have hlen := (h.chunks.cursor cur rfl).len
          have hposition : cur.position = 0 := h.control.fresh a cur rfl rfl
          have hfits : 1 + c.size a ≤ SHM_CHUNK_SIZE := h.control.fits _ List.mem_cons_self
          omega

/-- The innermost send writes a byte, or publishes its record. -/
theorem Inv.write {start n : Nat}
    (h : Inv c ls ⟨m, cursor, borrowed, .write a k start n :: rest⟩ pub)
    (hstep : step c ⟨m, cursor, borrowed, .write a k start n :: rest⟩ .run = some s') :
    ∃ pub', Inv c (ls ++ [.run]) s' pub' := by
  have hb : borrowed = true := by simpa [Pc.borrows] using h.control.borrowed
  have hcursor : cursor.isSome := h.control.stored _ List.mem_cons_self rfl
  simp only [step, runTop] at hstep
  cases hbyte : (c.encode a)[n]? with
  | some b =>
      rw [hbyte] at hstep
      cases hstep
      exact ⟨pub, h.goto (h.chunks.write hcursor hbyte) hb rfl (by simp) id (fun _ ↦ hcursor)
        (by simp) (.refl _)⟩
  | none =>
      rw [hbyte] at hstep
      cases hstep
      obtain ⟨hchunks, hk⟩ := h.chunks.publish hcursor hbyte
      refine ⟨_, h.goto hchunks hb rfl (by simp) id (fun _ ↦ hcursor) (by simp) ?_⟩
      have hpublish := flatMap_publish pub a h.chunks.readable.nodup hk
      simpa [Pc.pending, Pc.access] using
        hpublish.trans (List.perm_append_singleton a _).symm

/-- The innermost send goes on. -/
theorem Inv.run (h : Inv c ls s pub) (hstep : step c s .run = some s') :
    ∃ pub', Inv c (ls ++ [.run]) s' pub' := by
  obtain ⟨m, cursor, borrowed, frames⟩ := s
  cases frames with
  | nil => cases hstep
  | cons pc rest =>
      obtain hb : borrowed = pc.borrows := by simpa using h.control.borrowed
      have hcursor := h.control.stored pc List.mem_cons_self
      cases pc with
      | lookup a =>
          cases cursor with
          | some cur =>
              cases hstep
              exact ⟨pub, h.goto (h.chunks.still trivial rfl rfl) hb rfl (by simp) id (by simp)
                (by simp) (.refl _)⟩
          | none =>
              cases hstep
              exact ⟨pub, h.goto (h.chunks.still trivial rfl rfl) hb rfl (by simp) id
                (by simp [Pc.stored]) (by simp) (.refl _)⟩
      | newShm a again stage => exact ⟨pub, h.newShm hstep⟩
      | store a again cur =>
          cases hstep
          cases again with
          | false =>
              exact ⟨pub, h.goto (h.chunks.store rfl trivial rfl) hb rfl (by simp)
                (fun _ ↦ rfl) (fun _ ↦ rfl) (by simp) (.refl _)⟩
          | true =>
              obtain ⟨-, -, -, hposition⟩ := h.chunks.made _ List.mem_cons_self
              refine ⟨pub, h.goto (h.chunks.store rfl trivial rfl) hb rfl (by simp)
                (fun _ ↦ rfl) (fun _ ↦ rfl) ?_ (.refl _)⟩
              rintro _ cur' - ⟨⟩
              exact hposition
      | borrow a =>
          obtain rfl : borrowed = false := hb
          cases hstep
          exact ⟨pub, h.goto (h.chunks.still trivial rfl rfl) rfl rfl (by simp) id
            (fun _ ↦ hcursor rfl) (by simp) (.refl _)⟩
      | advance a again => exact ⟨pub, h.advance hstep⟩
      | write a k start n => exact h.write hstep
      | release a =>
          cases hstep
          have hcontrol := h.control.pop
          have hwriting : rest.head?.bind Pc.writing = none := writing_eq_none hcontrol
          refine ⟨pub, h.chunks.pop hwriting, hcontrol, ?_⟩
          rw [called_run]
          exact h.account
      | panicked a => cases hstep

/-! ## Runs -/

theorem inv_run (hrun : runs (step c) init ls = some s)
    (hmeet : StepsMeet (step c) (Interruptible c) init ls) : ∃ pub, Inv c ls s pub := by
  refine runs_induction (fun ls s ↦ ∃ pub, Inv c ls s pub) ⟨_, inv_init c⟩ ?_ hrun hmeet
  rintro ls s l s' ⟨pub, h⟩ hmeet hstep
  cases l with
  | call a => exact ⟨pub, h.call hmeet hstep⟩
  | run => exact h.run hstep
  | fail => exact hmeet.elim

/-- What is received reads back. -/
theorem Inv.iter (h : Inv c ls s pub) :
    s.collected.iter c = .ok (s.mem.received.flatMap pub) := by
  have hbufs : List.Forall₂ (fun buf as ↦ c.scan buf = some as)
      (s.mem.received.filterMap fun k ↦ (s.mem.chunks[k]?).map Chunk.bytes)
      (s.mem.received.map pub) := by
    have hlt := h.chunks.readable.lt
    revert hlt
    generalize s.mem.received = received
    intro hlt
    induction received with
    | nil => exact .nil
    | cons k received ih =>
        have hk := List.getElem?_eq_getElem (hlt k List.mem_cons_self)
        rw [List.filterMap_cons, hk, List.map_cons]
        exact .cons (h.chunks.readable.scan k _ (by rw [bytesAt, hk]; rfl))
          (ih fun j hj ↦ hlt j (List.mem_cons_of_mem _ hj))
  rw [State.collected, Shm.collected, iter_of_scan hbufs, List.flatMap_def]

/-! ## Every send returns -/

/-- The steps a send has left. -/
def Pc.left (c : Codec PathAccess) : Pc → Nat
  | .lookup a => c.size a + 16
  | .newShm a again stage => c.size a + (if again then 4 else 11) + match stage with
      | .shmOpen => 4
      | .sendFd _ => 3
      | .ftruncate _ => 2
      | .map _ => 1
  | .store a again _ => c.size a + if again then 4 else 11
  | .borrow a => c.size a + 10
  | .advance a again => c.size a + if again then 3 else 9
  | .write a _ _ n => c.size a - n + 2
  | .release _ => 1
  | .panicked _ => 0

/-- The steps all sends have left. -/
def State.left (c : Codec PathAccess) (s : State) : Nat := (s.frames.map (Pc.left c)).sum

/-- A send that has not panicked goes on. -/
theorem Inv.progress (h : Inv c ls s pub) (hne : s.frames ≠ []) :
    ∃ s', step c s .run = some s' ∧ s'.left c < s.left c := by
  obtain ⟨m, cursor, borrowed, frames⟩ := s
  cases frames with
  | nil => exact absurd rfl hne
  | cons pc rest =>
      have hcursor := h.control.stored pc List.mem_cons_self
      have hleft : ∀ m' cursor' borrowed' (pc' : Pc), pc'.left c < pc.left c →
          State.left c ⟨m', cursor', borrowed', pc' :: rest⟩ <
            State.left c ⟨m, cursor, borrowed, pc :: rest⟩ := by
        intro m' cursor' borrowed' pc' hlt
        simp only [State.left, List.map_cons, List.sum_cons]
        omega
      cases pc with
      | lookup a =>
          cases cursor with
          | some cur => exact ⟨_, rfl, hleft _ _ _ _ (by simp only [Pc.left]; omega)⟩
          | none => exact ⟨_, rfl, hleft _ _ _ _ (by simp [Pc.left])⟩
      | newShm a again stage =>
          cases stage with
          | map k =>
              obtain ⟨hbytes, -⟩ := h.chunks.made _ List.mem_cons_self
              obtain ⟨ch, hch, -⟩ := Option.map_eq_some_iff.mp hbytes
              have hch : m.chunks[k]? = some ch := hch
              refine ⟨⟨m, cursor, borrowed, .store a again ⟨k, ch.bytes.length, 0⟩ :: rest⟩,
                ?_, hleft _ _ _ _ (by simp [Pc.left])⟩
              simp [step, runTop, hch]
          | _ => exact ⟨_, rfl, hleft _ _ _ _ (by simp [Pc.left])⟩
      | store a again cur =>
          refine ⟨_, rfl, hleft _ _ _ _ ?_⟩
          cases again <;> simp [Pc.left]
      | borrow a =>
          obtain rfl : borrowed = false := by simpa [Pc.borrows] using h.control.borrowed
          exact ⟨_, rfl, hleft _ _ _ _ (by simp [Pc.left])⟩
      | advance a again =>
          obtain ⟨cur, rfl⟩ := Option.isSome_iff_exists.mp (hcursor rfl)
          simp only [step, runTop]
          cases hadv : cur.advance (1 + c.size a) with
          | some out =>
              refine ⟨_, rfl, hleft _ _ _ _ ?_⟩
              cases again <;> simp [Pc.left]
          | none =>
              cases again with
              | false => exact ⟨_, rfl, hleft _ _ _ _ (by simp [Pc.left])⟩
              | true => exact ⟨_, rfl, hleft _ _ _ _ (by simp [Pc.left])⟩
      | write a k start n =>
          simp only [step, runTop]
          cases hbyte : (c.encode a)[n]? with
          | some b =>
              have hn : n < c.size a := (List.getElem?_eq_some_iff.mp hbyte).1
              exact ⟨_, rfl, hleft _ _ _ _ (by simp only [Pc.left]; omega)⟩
          | none => exact ⟨_, rfl, hleft _ _ _ _ (by simp [Pc.left])⟩
      | release a =>
          refine ⟨_, rfl, ?_⟩
          simp [State.left, Pc.left]
      | panicked a => exact absurd rfl (h.control.calm _ List.mem_cons_self a)

/-- Left alone, the thread finishes all its sends. -/
theorem Inv.finishes (h : Inv c ls s pub) :
    ∃ n s', runs (step c) s (List.replicate n .run) = some s' ∧ s'.frames = [] := by
  induction hleft : s.left c using Nat.strongRecOn generalizing ls s pub with
  | ind left ih =>
      by_cases hnil : s.frames = []
      · exact ⟨0, s, rfl, hnil⟩
      · obtain ⟨s₁, hstep, hlt⟩ := h.progress hnil
        obtain ⟨pub₁, h₁⟩ := h.run hstep
        obtain ⟨n, s', hrun, hs'⟩ := ih _ (hleft ▸ hlt) h₁ rfl
        exact ⟨n + 1, s', runs_cons.mpr ⟨s₁, hstep, hrun⟩, hs'⟩

/-- **Delivery across interruptions.**  If no hooked function is called while a send of
the thread holds the cell, every record fits a chunk and no call of `new_shm` fails, then
no send panics, every send returns, and the reader yields what the thread was asked to
record, each record once and intact, but for the accesses that are still being sent. -/
theorem delivered_of_interruptible (hrun : runs (step c) init ls = some s)
    (hmeet : StepsMeet (step c) (Interruptible c) init ls) :
    (∀ pc ∈ s.frames, ∀ a, pc ≠ .panicked a) ∧
      (∃ n s', runs (step c) s (List.replicate n .run) = some s' ∧ s'.frames = []) ∧
      ∃ as, s.collected.iter c = .ok as ∧ (as ++ s.sending).Perm (called ls) := by
  obtain ⟨pub, h⟩ := inv_run hrun hmeet
  exact ⟨h.control.calm, h.finishes, _, h.iter, h.account⟩

def outer : PathAccess := ⟨.Read, ascii "a"⟩

def inner : PathAccess := ⟨.Write, ascii "b"⟩

/-- A signal arrives while the first send of a thread is about to write its record. -/
def interruptedInside : List Label :=
  .call outer :: (List.replicate 7 .run ++ [.call inner, .run, .run])

/-- The interrupting send panics. -/
theorem panics_inside : ∃ s, runs (step PathAccess.shortCodec) init interruptedInside = some s ∧
    s.frames = [.panicked inner, .advance outer false] := by
  have houter : filtered outer = false := by decide
  have hinner : filtered inner = false := by decide
  have hframes : (runs (step PathAccess.shortCodec) init interruptedInside).map State.frames =
      some [.panicked inner, .advance outer false] := by
    simp [interruptedInside, runs, step, runTop, init, houter, hinner, List.replicate,
      Mem.setBytes]
  obtain ⟨s, hs, hpc⟩ := Option.map_eq_some_iff.mp hframes
  exact ⟨s, hs, hpc⟩

/-- A signal arrives while the first send of a thread makes its chunk: both records are
on their way. -/
theorem delivered_around : ∃ s,
    runs (step PathAccess.shortCodec) init [.call outer, .run, .call inner] = some s ∧
      (∃ n s', runs (step PathAccess.shortCodec) s (List.replicate n .run) = some s' ∧
        s'.frames = []) ∧
      ∃ as, s.collected.iter PathAccess.shortCodec = .ok as ∧
        (as ++ s.sending).Perm [outer, inner] := by
  have houter : filtered outer = false := by decide
  have hinner : filtered inner = false := by decide
  have hrun : runs (step PathAccess.shortCodec) init [.call outer, .run, .call inner] =
      some ⟨⟨[], []⟩, none, false, [.lookup inner, .newShm outer false .shmOpen]⟩ := by
    simp [runs, step, runTop, init, houter, hinner]
  have hmeet : StepsMeet (step PathAccess.shortCodec) (Interruptible PathAccess.shortCodec) init
      [.call outer, .run, .call inner] := by
    refine ⟨.inr ⟨rfl, by decide⟩, fun s₁ h₁ ↦ ⟨trivial, fun s₂ h₂ ↦ ⟨?_, fun _ _ ↦ trivial⟩⟩⟩
    simp only [step, init, houter, Bool.false_eq_true, if_false, Option.some.injEq] at h₁
    subst h₁
    cases h₂
    exact .inr ⟨rfl, by decide⟩
  obtain ⟨-, hfinish, has⟩ := delivered_of_interruptible hrun hmeet
  refine ⟨_, hrun, hfinish, ?_⟩
  simpa [called, houter, hinner] using has

end Fspy.Shm.Signal
