import Fspy.Ipc.Access
import Fspy.Lib.Transition
import Mathlib.Logic.Function.Basic

/-!
# The writers of the shared-memory log

Every process loaded with the preload library owns a `Client`, whose
`tls_shm_cursor` table maps a thread to the chunk it appends to.  This file is
`Client::send` cut at every point where another thread, another process or a kill
can be observed: one label of the transition system is one such step of one
thread.

* The table is keyed by the ids of the `thread_local` crate.  An id is held by at
  most one living thread; after the thread has exited the cursor stays in the
  table, and the next thread that is handed the id finds it there.
* `fork` copies the table, the chunks stay shared.  In the child only the forking
  thread exists; the ids of the others stay taken (`Owner.orphan`), and
  `reset_shm_atfork` moves the forking thread's cursor to the end of its chunk.
* Processes are numbered in the order they come to exist, so a number is never
  used twice, unlike a pid.

`shm_unlink` right after `shm_open` is not a step of its own: nothing here looks
at the name of a chunk.  A failing system call ends the thread by the `unwrap` of
its caller, which is a kill.
-/

namespace Fspy.Shm

/-- `SHM_CHUNK_SIZE`. -/
def SHM_CHUNK_SIZE : Nat := 256 * 1024

/-- `ShmCursor`: the chunk its `mmap_mut` maps, the length of that mapping, and the
write position. -/
structure ShmCursor where
  chunk : Nat
  len : Nat
  position : Nat
deriving DecidableEq, Repr

namespace ShmCursor

/-- `ShmCursor::advance`: the start of the `len` bytes handed out, and the moved
cursor.  A sum that overflows `usize` is beyond the mapping as well, so
`checked_add` needs no branch of its own. -/
def advance (cur : ShmCursor) (len : Nat) : Option (Nat × ShmCursor) :=
  let newPosition := cur.position + len
  if newPosition > cur.len then none
  else some (cur.position, { cur with position := newPosition })

/-- What `reset_shm_atfork` does to a cursor. -/
def moveToEnd (cur : ShmCursor) : ShmCursor := { cur with position := cur.len }

theorem advance_eq_some {cur cur' : ShmCursor} {len start : Nat} :
    cur.advance len = some (start, cur') ↔
      cur.position + len ≤ cur.len ∧ start = cur.position ∧
        cur' = { cur with position := cur.position + len } := by
  simp only [advance]
  split
  · simp only [reduceCtorEq, false_iff]
    omega
  · simp only [Option.some.injEq, Prod.mk.injEq]
    constructor
    · rintro ⟨rfl, rfl⟩
      exact ⟨by omega, rfl, rfl⟩
    · rintro ⟨-, rfl, rfl⟩
      exact ⟨rfl, rfl⟩

theorem advance_eq_none {cur : ShmCursor} {len : Nat} :
    cur.advance len = none ↔ cur.len < cur.position + len := by
  simp only [advance]
  split
  · simpa
  · simp only [reduceCtorEq, false_iff]
    omega

end ShmCursor

/-- The early return of `Client::send`: accesses below `/dev/`, `/proc/` and `/sys/`
are not recorded (linux). -/
def filtered (a : PathAccess) : Bool :=
  (ascii "/dev/").isPrefixOf a.path ||
    ((ascii "/proc/").isPrefixOf a.path || (ascii "/sys/").isPrefixOf a.path)

/-- The next system call of `Client::new_shm`; `k` is the chunk it made. -/
inductive NewShm where
  | shmOpen
  | sendFd (k : Nat)
  | ftruncate (k : Nat)
  | map (k : Nat)
deriving DecidableEq, Repr

/-- Where a thread stands in `Client::send`.  `again` tells the two calls of
`new_shm` in `with_shm_buf` apart: `false` inside `get_or_try`, `true` after
`advance` has found the chunk full. -/
inductive Pc where
  | idle
  | newShm (a : PathAccess) (again : Bool) (stage : NewShm)
  | advance (a : PathAccess) (again : Bool)
  | write (a : PathAccess) (start n : Nat)
  | panicked (a : PathAccess)
deriving DecidableEq, Repr

/-- Who holds an id of the `thread_local` crate in a process: nobody, a living
thread, or a thread that existed in an ancestor only. -/
inductive Owner where
  | free
  | live (pc : Pc)
  | orphan
deriving DecidableEq, Repr

/-- One row of `tls_shm_cursor`. -/
structure Slot where
  cursor : Option ShmCursor
  owner : Owner
deriving DecidableEq, Repr

/-- A process: its rows by thread id. -/
abbrev Proc := Nat → Slot

/-- A shared-memory object, with the process that made it. -/
structure Chunk where
  creator : Nat
  bytes : Bytes
deriving DecidableEq, Repr

/-- What the processes and the tracker share: every chunk ever made, and the order
in which the descriptors arrived at the tracker's end of the socket. -/
structure Mem where
  chunks : List Chunk
  received : List Nat
deriving DecidableEq, Repr

structure State where
  mem : Mem
  procs : List Proc

/-- The process and the id of a thread. -/
abbrev Key := Nat × Nat

/-- The row of a thread. -/
def State.row (s : State) (t : Key) : Option Slot := (s.procs[t.1]?).map fun proc ↦ proc t.2

/-- The bytes a send was given by `advance`. -/
structure Region where
  chunk : Nat
  start : Nat
  len : Nat
deriving DecidableEq, Repr

/-- The steps of a thread. -/
inductive Act where
  | start
  | exit
  | fork
  | call (a : PathAccess)
  | shmOpen
  | sendFd
  | ftruncate
  | map
  | advance (r : Region)
  | full
  | write
  | storeFlag (k : Nat) (a : PathAccess)
deriving DecidableEq, Repr

/-- A step of the thread that holds the id `id` in the process `pid`. -/
structure Label where
  pid : Nat
  id : Nat
  act : Act
deriving DecidableEq, Repr

namespace Mem

/-- Replace the bytes of a chunk. -/
def setBytes (m : Mem) (k : Nat) (f : Bytes → Bytes) : Mem :=
  { m with chunks := m.chunks.modify k fun ch ↦ { ch with bytes := f ch.bytes } }

end Mem

namespace Slot

/-- The same row with its thread at another point of `send`. -/
def goto (slot : Slot) (pc : Pc) : Slot := { slot with owner := .live pc }

/-- One step of the thread that holds a row of the process `p`, other than `fork`. -/
def step (c : Lib.Codec PathAccess) (m : Mem) (p : Nat) (slot : Slot) :
    Act → Option (Mem × Slot)
  | .start => match slot.owner with
      | .free => some (m, slot.goto .idle)
      | _ => none
  | .exit => match slot.owner with
      | .live .idle => some (m, { slot with owner := .free })
      | _ => none
  | .fork => none
  | .call a => match slot.owner with
      | .live .idle =>
          if filtered a then some (m, slot)
          else match slot.cursor with
            | none => some (m, slot.goto (.newShm a false .shmOpen))
            | some _ => some (m, slot.goto (.advance a false))
      | _ => none
  | .shmOpen => match slot.owner with
      | .live (.newShm a again .shmOpen) =>
          some ({ m with chunks := m.chunks ++ [⟨p, []⟩] },
            slot.goto (.newShm a again (.sendFd m.chunks.length)))
      | _ => none
  | .sendFd => match slot.owner with
      | .live (.newShm a again (.sendFd k)) =>
          some ({ m with received := m.received ++ [k] },
            slot.goto (.newShm a again (.ftruncate k)))
      | _ => none
  | .ftruncate => match slot.owner with
      | .live (.newShm a again (.ftruncate k)) =>
          some (m.setBytes k fun _ ↦ List.replicate SHM_CHUNK_SIZE 0,
            slot.goto (.newShm a again (.map k)))
      | _ => none
  | .map => match slot.owner with
      | .live (.newShm a again (.map k)) =>
          (m.chunks[k]?).map fun ch ↦
            (m, ⟨some ⟨k, ch.bytes.length, 0⟩, .live (.advance a again)⟩)
      | _ => none
  | .advance r => match slot.owner, slot.cursor with
      | .live (.advance a _), some cur =>
          match cur.advance (1 + c.size a) with
          | some (start, cur') =>
              if r = ⟨cur.chunk, start, 1 + c.size a⟩ then
                some (m, ⟨some cur', .live (.write a start 0)⟩)
              else none
          | none => none
      | _, _ => none
  | .full => match slot.owner, slot.cursor with
      | .live (.advance a again), some cur =>
          match cur.advance (1 + c.size a) with
          | some _ => none
          | none =>
              -- the second `advance` fails for good: `with_context` makes it an error
              if again then some (m, slot.goto (.panicked a))
              else some (m, slot.goto (.newShm a true .shmOpen))
      | _, _ => none
  | .write => match slot.owner, slot.cursor with
      | .live (.write a start n), some cur =>
          ((c.encode a)[n]?).map fun b ↦
            (m.setBytes cur.chunk (·.set (start + 1 + n) b), slot.goto (.write a start (n + 1)))
      | _, _ => none
  | .storeFlag k a => match slot.owner, slot.cursor with
      | .live (.write a' start n), some cur =>
          if n = c.size a' ∧ a = a' ∧ k = cur.chunk then
            some (m.setBytes cur.chunk (·.set start 1), slot.goto .idle)
          else none
      | _, _ => none

/-- What becomes of another thread's row in a forked child. -/
def inherited (slot : Slot) : Slot :=
  match slot.owner with
  | .free => slot
  | _ => { slot with owner := .orphan }

end Slot

/-- The table of a child forked by the thread with id `i`, after
`reset_shm_atfork`. -/
def afterFork (proc : Proc) (i : Nat) : Proc := fun j ↦
  if j = i then ⟨(proc i).cursor.map ShmCursor.moveToEnd, .live .idle⟩
  else (proc j).inherited

/-- One step of the system. -/
def step (c : Lib.Codec PathAccess) (s : State) (l : Label) : Option State :=
  match s.procs[l.pid]? with
  | none => none
  | some proc =>
      if l.act = .fork then
        match (proc l.id).owner with
        | .live .idle => some { s with procs := s.procs ++ [afterFork proc l.id] }
        | _ => none
      else
        ((proc l.id).step c s.mem l.pid l.act).map fun r ↦
          ⟨r.1, s.procs.set l.pid (Function.update proc l.id r.2)⟩

/-- One process with `n` threads that have not sent anything. -/
def init (n : Nat) : State :=
  ⟨⟨[], []⟩, [fun i ↦ ⟨none, if i < n then .live .idle else .free⟩]⟩

/-! ## What a trace says -/

namespace Label

/-- The thread that takes the step. -/
def key (l : Label) : Key := (l.pid, l.id)

/-- The record whose flag byte the step stores: its chunk, its sender, the access. -/
def record (l : Label) : Option (Nat × Key × PathAccess) :=
  match l.act with
  | .storeFlag k a => some (k, l.key, a)
  | _ => none

/-- The access the step asks its thread to send, unless `send` is going to drop it. -/
def called (l : Label) : Option (Key × PathAccess) :=
  match l.act with
  | .call a => if filtered a then none else some (l.key, a)
  | _ => none

/-- The region the step hands out. -/
def region (l : Label) : Option Region :=
  match l.act with
  | .advance r => some r
  | _ => none

end Label

/-- The records of a run, in the order their flag bytes were stored. -/
def records (ls : List Label) : List (Nat × Key × PathAccess) := ls.filterMap Label.record

/-- The accesses whose flag byte the thread `t` stored, in order. -/
def flaggedBy (t : Key) (ls : List Label) : List PathAccess :=
  ((records ls).filter (·.2.1 = t)).map (·.2.2)

/-- The accesses the thread `t` was asked to record, in order. -/
def calledBy (t : Key) (ls : List Label) : List PathAccess :=
  ((ls.filterMap Label.called).filter (·.1 = t)).map (·.2)

/-- The records published in the chunk `k`, with their senders, in order. -/
def publishedIn (ls : List Label) (k : Nat) : List (Key × PathAccess) :=
  ((records ls).filter (·.1 = k)).map (·.2)

/-- The regions handed out, in order. -/
def regions (ls : List Label) : List Region := ls.filterMap Label.region

end Fspy.Shm
