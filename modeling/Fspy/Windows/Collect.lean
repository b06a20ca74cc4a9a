import Fspy.Lib.Channel
import Fspy.Windows.Pipe
import Mathlib.Data.Set.List

/-!
# When the tracker reads the pipe

A process below a tracked command keeps what it records, writes it when it ends, and hands
the pipe on to the processes it creates.  A process that is killed writes no more.  The
tracker reads messages until it is told that nobody holds the pipe any more.
`delivered_of_run` says what it has got by then.
-/

namespace Fspy.Windows.Collect

open Lib

/-- How far a process is. -/
inductive Phase where
  | running
  /-- In `Client::finish` or past it, with what it is still to write. -/
  | finishing (rest : List Bytes)
  /-- With what it has not written. -/
  | ended (left : List Bytes)
deriving DecidableEq

structure Proc where
  client : Client
  /-- What `WriteFile` has taken. -/
  written : List Bytes
  phase : Phase

namespace Proc

variable (proc : Proc)

/-- What a process holds that is not in the pipe. -/
def unwritten : List Bytes :=
  match proc.phase with
  | .running => proc.client.messages
  | .finishing rest => rest
  | .ended left => left

def alive : Bool :=
  match proc.phase with
  | .ended _ => false
  | _ => true

/-- A process that was just created. -/
def new : Proc := ⟨.empty, [], .running⟩

/-- A process that ends, in whatever way. -/
def stop : Proc := { proc with phase := .ended proc.unwritten }

end Proc

/-- The processes, numbered in the order they are created, and the pipe; the tracking process
holds it as number 0, the process `p` as number `p + 1`. -/
structure Tree where
  procs : List Proc
  pipe : Channel Bytes
  /-- What the calls of `read` have returned. -/
  reads : List (Except Errno Bytes)

inductive Event where
  /-- `Client::send`. -/
  | record (p : Nat) (access : PathAccess)
  /-- A new process, with a handle of its own. -/
  | create (p : Nat)
  /-- A program closes a handle it does not know. -/
  | close (p : Nat)
  /-- `DLL_PROCESS_DETACH`, and the order in which the messages are iterated over. -/
  | detach (p : Nat) (order : List Bytes)
  | write (p : Nat)
  | exit (p : Nat)
  /-- The process is killed, or panics in a write. -/
  | kill (p : Nat)
  /-- `drop(pipe_sender)`. -/
  | drop
  /-- The future reads what there is of the next message. -/
  | recv (ret : Except Errno Bytes)
  /-- The future reads that there is no writer left. -/
  | finish
deriving DecidableEq

/-- Whether a read of this message may return this. -/
def readOf (msg : Bytes) : Except Errno Bytes → Bool
  | .ok chunk =>
      if msg.length ≤ MESSAGE_MAX_LEN then chunk == msg
      else chunk.isPrefixOf msg && chunk.length ≤ MESSAGE_MAX_LEN
  | .error _ => MESSAGE_MAX_LEN < msg.length

/-- The end of a process closes its handles. -/
def Tree.stop (t : Tree) (p : Nat) (proc : Proc) : Option Tree := do
  let pipe ← t.pipe.step (.close (p + 1))
  return { t with procs := t.procs.set p proc.stop, pipe }

/-- A process is created at once, with the pipe: a child that the hook leaves suspended where
the preparation fails is not among the processes. -/
def step (codec : Codec PathAccess) (t : Tree) : Event → Option Tree
  | .record p access => do
      let proc ← t.procs[p]?
      if proc.phase = .running then
        return { t with
          procs := t.procs.set p { proc with client := proc.client.send codec access } }
      else none
  | .create p => do
      let proc ← t.procs[p]?
      if proc.phase = .running then do
        let pipe ← t.pipe.step (.fork (p + 1))
        return { t with procs := t.procs ++ [.new], pipe }
      else none
  | .close p => do
      let proc ← t.procs[p]?
      if proc.phase = .running then do
        let pipe ← t.pipe.step (.close (p + 1))
        return { t with pipe }
      else none
  -- the other threads have ended by then
  | .detach p order => do
      let proc ← t.procs[p]?
      if proc.phase = .running ∧ order.Perm proc.client.messages then
        return { t with procs := t.procs.set p { proc with phase := .finishing order } }
      else none
  | .write p => do
      let proc ← t.procs[p]?
      match proc.phase with
      | .finishing (msg :: rest) =>
          match write_pipe_message msg msg [some msg.length] with
          | (some (.ok ()), accepted) => do
              let pipe ← runs Channel.step t.pipe (accepted.map (.send (p + 1)))
              return { t with
                procs := t.procs.set p
                  { proc with written := proc.written ++ accepted, phase := .finishing rest }
                pipe }
          | _ => none
      | _ => none
  | .exit p => do
      let proc ← t.procs[p]?
      if proc.phase = .finishing [] then t.stop p proc else none
  | .kill p => do
      let proc ← t.procs[p]?
      if proc.alive then t.stop p proc else none
  | .drop => do
      let pipe ← t.pipe.step (.close 0)
      return { t with pipe }
  | .recv ret => do
      let msg ← t.pipe.sent[t.pipe.taken]?
      if (accesses_future codec t.reads []).isNone ∧ readOf msg ret then do
        let pipe ← t.pipe.step .recv
        return { t with pipe, reads := t.reads ++ [ret] }
      else none
  | .finish =>
      if (accesses_future codec t.reads []).isNone then do
        let pipe ← t.pipe.step .finish
        return { t with pipe, reads := t.reads ++ [.ok []] }
      else none

/-- The first process, and the tracking process. -/
def start : Tree := ⟨[.new], .opened [true, true], []⟩

/-- What a process was asked to record. -/
def recordedBy (p : Nat) (events : List Event) : List PathAccess :=
  events.filterMap fun
    | .record q access => if q = p then some access else none
    | _ => none

/-- What is recorded is no larger than the buffer that it is read into. -/
def Fits (codec : Codec PathAccess) : Event → Prop
  | .record _ access => codec.size access ≤ MESSAGE_MAX_LEN
  | _ => True

instance (codec : Codec PathAccess) : DecidablePred (Fits codec)
  | .record _ access => inferInstanceAs (Decidable (codec.size access ≤ MESSAGE_MAX_LEN))
  | .create _ | .close _ | .detach _ _ | .write _ | .exit _ | .kill _ | .drop | .recv _ | .finish =>
      .isTrue trivial

variable {codec : Codec PathAccess} {t t' : Tree} {event : Event} {events : List Event}
  {procs : List Proc} {proc proc' : Proc} {p : Nat}

/-! ## What a process was asked to record -/

theorem recordedBy_snoc (p : Nat) (events : List Event) (event : Event) :
    recordedBy p (events ++ [event]) = recordedBy p events ++ recordedBy p [event] :=
  List.filterMap_append

/-- The client has what was recorded, and it is written or it is not. -/
structure ProcInv (codec : Codec PathAccess) (recorded : List PathAccess) (proc : Proc) : Prop where
  client : proc.client = Client.recorded codec recorded
  messages : (proc.written ++ proc.unwritten).Perm proc.client.messages
  running : proc.phase = .running → proc.written = []

namespace ProcInv

variable {recorded : List PathAccess}

theorem new : ProcInv codec [] .new := ⟨rfl, .nil, fun _ ↦ rfl⟩

/-- Every message is that of an access. -/
theorem exists_encode (h : ProcInv codec recorded proc) {msg : Bytes}
    (hmsg : msg ∈ proc.written ++ proc.unwritten) :
    ∃ access ∈ recorded, codec.encode access = msg := by
  have hmem := h.messages.subset hmsg
  rw [h.client] at hmem
  obtain ⟨access, haccess, rfl⟩ :=
    List.mem_map.mp ((Client.recorded_perm recorded).subset hmem)
  exact ⟨access, List.mem_dedup.mp haccess, rfl⟩

/-- The distinct accesses of a process are those it has written and those it has not. -/
theorem split (h : ProcInv codec recorded proc) : ∃ own left : List PathAccess,
    proc.written = own.map codec.encode ∧ proc.unwritten = left.map codec.encode ∧
      (own ++ left).Perm recorded.dedup := by
  have hperm := h.messages
  rw [h.client] at hperm
  obtain ⟨accesses, haccesses, heq⟩ :=
    exists_map_of_perm (hperm.trans (Client.recorded_perm recorded))
  obtain ⟨own, left, rfl, hown, hleft⟩ := List.append_eq_map_iff.mp heq
  exact ⟨own, left, hown.symm, hleft.symm, haccesses⟩

theorem record (h : ProcInv codec recorded proc) (hrunning : proc.phase = .running)
    (access : PathAccess) :
    ProcInv codec (recorded ++ [access]) { proc with client := proc.client.send codec access } where
  client := by
    rw [h.client, Client.recorded, Client.recorded, List.foldl_append]
    rfl
  messages := by
    dsimp only [Proc.unwritten]
    rw [hrunning, h.running hrunning]
    exact .refl _
  running := h.running

theorem detach (h : ProcInv codec recorded proc) (hrunning : proc.phase = .running)
    {order : List Bytes} (horder : order.Perm proc.client.messages) :
    ProcInv codec recorded { proc with phase := .finishing order } where
  client := h.client
  messages := by
    dsimp only [Proc.unwritten]
    rw [h.running hrunning]
    exact horder
  running := by rintro ⟨⟩

theorem write (h : ProcInv codec recorded proc) {msg : Bytes} {rest : List Bytes}
    (hphase : proc.phase = .finishing (msg :: rest)) :
    ProcInv codec recorded
      { proc with written := proc.written ++ [msg], phase := .finishing rest } where
  client := h.client
  messages := by
    have hmessages := h.messages
    rw [Proc.unwritten, hphase] at hmessages
    rw [List.append_assoc]
    exact hmessages
  running := by rintro ⟨⟩

theorem stop (h : ProcInv codec recorded proc) : ProcInv codec recorded proc.stop where
  client := h.client
  messages := h.messages
  running := by rintro ⟨⟩

end ProcInv

/-- What holds of all processes. -/
structure Senders (codec : Codec PathAccess) (events : List Event) (procs : List Proc) : Prop where
  proc : ∀ p proc, procs[p]? = some proc → ProcInv codec (recordedBy p events) proc
  /-- What is not there yet records nothing. -/
  fresh : ∀ p, procs.length ≤ p → recordedBy p events = []

namespace Senders

/-- An event that records nothing. -/
theorem same (h : Senders codec events procs) (hevent : ∀ p, recordedBy p [event] = []) :
    Senders codec (events ++ [event]) procs where
  proc p proc hproc := by
    rw [recordedBy_snoc, hevent, List.append_nil]
    exact h.proc p proc hproc
  fresh p hp := by rw [recordedBy_snoc, hevent, List.append_nil, h.fresh p hp]

/-- A process that moves, and records nothing. -/
theorem set (h : Senders codec events procs) (hproc : ProcInv codec (recordedBy p events) proc') :
    Senders codec events (procs.set p proc') where
  proc q other hother := by
    rw [List.getElem?_set] at hother
    split at hother
    · rename_i hpq
      subst hpq
      split at hother
      · cases hother
        exact hproc
      · cases hother
    · exact h.proc q other hother
  fresh q hq := h.fresh q (by rwa [List.length_set] at hq)

theorem append (h : Senders codec events procs) : Senders codec events (procs ++ [.new]) where
  proc p proc hproc := by
    rcases Nat.lt_trichotomy p procs.length with hlt | rfl | hgt
    · rw [List.getElem?_append_left hlt] at hproc
      exact h.proc p proc hproc
    · rw [List.getElem?_concat_length] at hproc
      cases hproc
      rw [h.fresh _ (Nat.le_refl _)]
      exact .new
    · rw [List.getElem?_eq_none (by rw [List.length_append, List.length_singleton]; omega)] at hproc
      cases hproc
  fresh p hp := by
    rw [List.length_append] at hp
    exact h.fresh p (Nat.le_of_add_right_le hp)

theorem record (h : Senders codec events procs) (hproc : procs[p]? = some proc)
    (hrunning : proc.phase = .running) (access : PathAccess) :
    Senders codec (events ++ [.record p access])
      (procs.set p { proc with client := proc.client.send codec access }) where
  proc q other hother := by
    rw [recordedBy_snoc]
    rw [List.getElem?_set] at hother
    split at hother
    · rename_i hpq
      subst hpq
      split at hother
      · cases hother
        have hown : recordedBy p [.record p access] = [access] := by simp [recordedBy]
        rw [hown]
        exact (h.proc p proc hproc).record hrunning access
      · cases hother
    · rename_i hpq
      have hown : recordedBy q [.record p access] = [] := by simp [recordedBy, hpq]
      rw [hown, List.append_nil]
      exact h.proc q other hother
  fresh q hq := by
    rw [List.length_set] at hq
    have hlt := (List.getElem?_eq_some_iff.mp hproc).1
    have hown : recordedBy q [.record p access] = [] := by
      simp [recordedBy, Nat.ne_of_lt (Nat.lt_of_lt_of_le hlt hq)]
    rw [recordedBy_snoc, hown, List.append_nil, h.fresh q hq]

end Senders

/-! ## The invariant of a tree -/

/-- What the reads of a receiver that gets every message whole have returned. -/
def readsOf (pipe : Channel Bytes) : List (Except Errno Bytes) :=
  pipe.received.map .ok ++ if pipe.ended then [.ok []] else []

/-- The pipe has what the processes have written, and only what is alive holds it. -/
structure PipeInv (procs : List Proc) (pipe : Channel Bytes) : Prop where
  sent : pipe.sent.Perm (procs.flatMap Proc.written)
  sound : pipe.Sound
  holds : Channel.HoldsAlive pipe.holders (procs.map Proc.alive)

structure Inv (codec : Codec PathAccess) (events : List Event) (t : Tree) : Prop where
  senders : Senders codec events t.procs
  pipe : PipeInv t.procs t.pipe
  sized : ∀ p, ∀ access ∈ recordedBy p events, codec.size access ≤ MESSAGE_MAX_LEN
  reads : t.reads = readsOf t.pipe

theorem inv_start : Inv codec [] start where
  senders :=
    { proc := fun p proc hproc ↦ by
        cases p with
        | zero =>
            cases hproc
            exact .new
        | succ p => cases hproc
      fresh := fun _ _ ↦ rfl }
  pipe := ⟨.nil, Channel.sound_opened _, rfl, fun p hp ↦ by
    cases p with
    | zero => rfl
    | succ p => cases hp⟩
  sized := fun _ _ hmem ↦ nomatch hmem
  reads := rfl

theorem readsOf_of_others {pipe pipe' : Channel Bytes} {e : Channel.Event Bytes}
    (h : pipe.Sound) (he : ¬Channel.Receives e) (hstep : pipe.step e = some pipe') :
    readsOf pipe' = readsOf pipe := by
  rw [readsOf, readsOf, h.received_of_others he hstep, (Channel.taken_of_others he hstep).2]

/-- A process that moves without writing, and stays alive. -/
theorem PipeInv.set {pipe : Channel Bytes} (h : PipeInv procs pipe) (hproc : procs[p]? = some proc)
    (hwritten : proc'.written = proc.written) (halive : proc'.alive = proc.alive) :
    PipeInv (procs.set p proc') pipe where
  sent := by
    have hperm : ((procs.set p proc').flatMap Proc.written).Perm
        (procs.flatMap Proc.written ++ []) :=
      perm_flatMap_set hproc (by rw [hwritten, List.append_nil])
    rw [List.append_nil] at hperm
    exact h.sent.trans hperm.symm
  sound := h.sound
  holds := by
    rw [map_set_of_eq hproc halive]
    exact h.holds

/-- A handle that is closed. -/
theorem PipeInv.close {pipe : Channel Bytes} (h : PipeInv procs pipe) (q : Nat)
    (hstep : pipe.step (.close q) = some { pipe with holders := pipe.holders.set q false }) :
    PipeInv procs { pipe with holders := pipe.holders.set q false } where
  sent := h.sent
  sound := Channel.sound_step h.sound hstep
  holds := h.holds.close q

theorem PipeInv.create {pipe : Channel Bytes} (h : PipeInv procs pipe) {holds : Bool}
    (hstep : pipe.step (.fork (p + 1)) = some { pipe with holders := pipe.holders ++ [holds] }) :
    PipeInv (procs ++ [.new]) { pipe with holders := pipe.holders ++ [holds] } where
  sent := by
    rw [List.flatMap_append]
    exact (h.sent.trans (.of_eq (List.append_nil _).symm))
  sound := Channel.sound_step h.sound hstep
  holds := by
    rw [List.map_append]
    exact h.holds.append holds

theorem PipeInv.write {pipe : Channel Bytes} (h : PipeInv procs pipe)
    (hproc : procs[p]? = some proc) {msg : Bytes} {rest rest' : List Bytes}
    (hphase : proc.phase = .finishing rest)
    (hstep : pipe.step (.send (p + 1) msg) = some { pipe with sent := pipe.sent ++ [msg] }) :
    PipeInv (procs.set p { proc with written := proc.written ++ [msg], phase := .finishing rest' })
      { pipe with sent := pipe.sent ++ [msg] } where
  sent := (h.sent.append_right [msg]).trans (perm_flatMap_set hproc rfl).symm
  sound := Channel.sound_step h.sound hstep
  holds := by
    have halive : proc.alive = true := by rw [Proc.alive, hphase]
    rw [map_set_of_eq hproc (Eq.symm halive)]
    exact h.holds

theorem PipeInv.stop {pipe : Channel Bytes} (h : PipeInv procs pipe) (hproc : procs[p]? = some proc)
    (hstep : pipe.step (.close (p + 1)) =
      some { pipe with holders := pipe.holders.set (p + 1) false }) :
    PipeInv (procs.set p proc.stop) { pipe with holders := pipe.holders.set (p + 1) false } where
  sent := by
    have hperm : ((procs.set p proc.stop).flatMap Proc.written).Perm
        (procs.flatMap Proc.written ++ []) :=
      perm_flatMap_set hproc (List.append_nil _).symm
    rw [List.append_nil] at hperm
    exact h.sent.trans hperm.symm
  sound := Channel.sound_step h.sound hstep
  holds := by
    rw [List.map_set]
    exact h.holds.exit (Channel.step_close.mp hstep).1

theorem Inv.sized_same (h : Inv codec events t) (hevent : ∀ p, recordedBy p [event] = [])
    (p : Nat) :
    ∀ access ∈ recordedBy p (events ++ [event]), codec.size access ≤ MESSAGE_MAX_LEN := by
  rw [recordedBy_snoc, hevent, List.append_nil]
  exact h.sized p

theorem inv_stop (h : Inv codec events t) (hevent : ∀ p, recordedBy p [event] = [])
    (hproc : t.procs[p]? = some proc) (hstop : t.stop p proc = some t') :
    Inv codec (events ++ [event]) t' := by
  obtain ⟨pipe, hclose, hstop⟩ := Option.bind_eq_some_iff.mp hstop
  cases hstop
  have hreads := readsOf_of_others h.pipe.sound id hclose
  obtain ⟨-, rfl⟩ := Channel.step_close.mp hclose
  exact ⟨(h.senders.set (h.senders.proc p proc hproc).stop).same hevent,
    h.pipe.stop hproc hclose, h.sized_same hevent, h.reads.trans hreads.symm⟩

/-- What a write does: the message that is next is in the pipe. -/
theorem step_write (hstrict : codec.Strict) (h : Inv codec events t)
    (hstep : step codec t (.write p) = some t') : ∃ proc msg rest,
    t.procs[p]? = some proc ∧ proc.phase = .finishing (msg :: rest) ∧
      t.pipe.step (.send (p + 1) msg) = some t'.pipe ∧ t' =
        ⟨t.procs.set p { proc with written := proc.written ++ [msg], phase := .finishing rest },
          { t.pipe with sent := t.pipe.sent ++ [msg] }, t.reads⟩ := by
  obtain ⟨proc, hproc, hstep⟩ := Option.bind_eq_some_iff.mp hstep
  split at hstep
  · rename_i msg rest hphase
    have hmsg : msg ∈ proc.written ++ proc.unwritten := by
      rw [Proc.unwritten, hphase]
      exact List.mem_append_right _ List.mem_cons_self
    obtain ⟨access, -, rfl⟩ := (h.senders.proc p proc hproc).exists_encode hmsg
    have hempty : (codec.encode access).isEmpty = false := by
      simpa using hstrict.encode_ne_nil access
    rw [write_pipe_message_whole, hempty, if_neg Bool.false_ne_true] at hstep
    split at hstep
    · rename_i accepted hwrite
      split at hwrite
      · cases hwrite
      · cases hwrite
        obtain ⟨pipe, hsend, hstep⟩ := Option.bind_eq_some_iff.mp hstep
        cases hstep
        obtain ⟨pipe', hsend, hnil⟩ := runs_cons.mp hsend
        cases hnil
        obtain ⟨hholds, rfl⟩ := Channel.step_send.mp hsend
        exact ⟨proc, _, rest, hproc, hphase, hsend, rfl⟩
    · cases hstep
  · cases hstep

/-- What is in the pipe are accesses that fit. -/
theorem Inv.exists_of_sent (h : Inv codec events t) {msg : Bytes} (hmsg : msg ∈ t.pipe.sent) :
    ∃ access, codec.encode access = msg ∧ codec.size access ≤ MESSAGE_MAX_LEN := by
  obtain ⟨proc, hproc, hmsg⟩ := List.mem_flatMap.mp (h.pipe.sent.subset hmsg)
  obtain ⟨p, hp⟩ := List.mem_iff_getElem?.mp hproc
  obtain ⟨access, haccess, heq⟩ :=
    (h.senders.proc p proc hp).exists_encode (List.mem_append_left _ hmsg)
  exact ⟨access, heq, h.sized p access haccess⟩

theorem eq_of_readOf {msg : Bytes} {ret : Except Errno Bytes} (hlen : msg.length ≤ MESSAGE_MAX_LEN)
    (h : readOf msg ret = true) : ret = .ok msg := by
  cases ret with
  | ok chunk =>
      rw [readOf, if_pos hlen] at h
      rw [eq_of_beq h]
  | error e => exact absurd (of_decide_eq_true h) (Nat.not_lt.mpr hlen)

/-- Every event keeps the invariant, as long as what is recorded fits. -/
theorem inv_step (hstrict : codec.Strict) (h : Inv codec events t) (hfits : Fits codec event)
    (hstep : step codec t event = some t') : Inv codec (events ++ [event]) t' := by
  cases event with
  | record p access =>
      obtain ⟨proc, hproc, hstep⟩ := Option.bind_eq_some_iff.mp hstep
      obtain ⟨hrunning, hstep⟩ := Option.ite_none_right_eq_some.mp hstep
      cases hstep
      refine ⟨h.senders.record hproc hrunning access, h.pipe.set hproc rfl rfl, ?_, h.reads⟩
      intro q other hother
      rw [recordedBy_snoc] at hother
      rcases List.mem_append.mp hother with hother | hother
      · exact h.sized q other hother
      · obtain ⟨event, hevent, heq⟩ := List.mem_filterMap.mp hother
        rw [List.mem_singleton.mp hevent] at heq
        obtain ⟨-, heq⟩ := Option.ite_none_right_eq_some.mp heq
        cases heq
        exact hfits
  | create p =>
      obtain ⟨proc, hproc, hstep⟩ := Option.bind_eq_some_iff.mp hstep
      obtain ⟨hrunning, hstep⟩ := Option.ite_none_right_eq_some.mp hstep
      obtain ⟨pipe, hfork, hstep⟩ := Option.bind_eq_some_iff.mp hstep
      cases hstep
      have hreads := readsOf_of_others h.pipe.sound id hfork
      obtain ⟨holds, -, rfl⟩ := Channel.step_fork.mp hfork
      exact ⟨h.senders.append.same fun _ ↦ rfl, h.pipe.create hfork, h.sized_same fun _ ↦ rfl,
        h.reads.trans hreads.symm⟩
  | close p =>
      obtain ⟨proc, hproc, hstep⟩ := Option.bind_eq_some_iff.mp hstep
      obtain ⟨hrunning, hstep⟩ := Option.ite_none_right_eq_some.mp hstep
      obtain ⟨pipe, hclose, hstep⟩ := Option.bind_eq_some_iff.mp hstep
      cases hstep
      have hreads := readsOf_of_others h.pipe.sound id hclose
      obtain ⟨-, rfl⟩ := Channel.step_close.mp hclose
      exact ⟨h.senders.same fun _ ↦ rfl, h.pipe.close _ hclose, h.sized_same fun _ ↦ rfl,
        h.reads.trans hreads.symm⟩
  | detach p order =>
      obtain ⟨proc, hproc, hstep⟩ := Option.bind_eq_some_iff.mp hstep
      obtain ⟨⟨hrunning, horder⟩, hstep⟩ := Option.ite_none_right_eq_some.mp hstep
      cases hstep
      have halive : proc.alive = true := by rw [Proc.alive, hrunning]
      have hsender := (h.senders.proc p proc hproc).detach hrunning horder
      exact ⟨(h.senders.set hsender).same fun _ ↦ rfl, h.pipe.set hproc rfl halive.symm,
        h.sized_same fun _ ↦ rfl, h.reads⟩
  | write p =>
      obtain ⟨proc, msg, rest, hproc, hphase, hsend, rfl⟩ := step_write hstrict h hstep
      have hreads := readsOf_of_others h.pipe.sound id hsend
      exact ⟨(h.senders.set ((h.senders.proc p proc hproc).write hphase)).same fun _ ↦ rfl,
        h.pipe.write hproc hphase hsend, h.sized_same fun _ ↦ rfl, h.reads.trans hreads.symm⟩
  | exit p =>
      obtain ⟨proc, hproc, hstep⟩ := Option.bind_eq_some_iff.mp hstep
      obtain ⟨-, hstep⟩ := Option.ite_none_right_eq_some.mp hstep
      exact inv_stop h (fun _ ↦ rfl) hproc hstep
  | kill p =>
      obtain ⟨proc, hproc, hstep⟩ := Option.bind_eq_some_iff.mp hstep
      obtain ⟨-, hstep⟩ := Option.ite_none_right_eq_some.mp hstep
      exact inv_stop h (fun _ ↦ rfl) hproc hstep
  | drop =>
      obtain ⟨pipe, hclose, hstep⟩ := Option.bind_eq_some_iff.mp hstep
      cases hstep
      have hreads := readsOf_of_others h.pipe.sound id hclose
      obtain ⟨-, rfl⟩ := Channel.step_close.mp hclose
      exact ⟨h.senders.same fun _ ↦ rfl, h.pipe.close _ hclose, h.sized_same fun _ ↦ rfl,
        h.reads.trans hreads.symm⟩
  | recv ret =>
      obtain ⟨msg, hmsg, hstep⟩ := Option.bind_eq_some_iff.mp hstep
      obtain ⟨⟨-, hret⟩, hstep⟩ := Option.ite_none_right_eq_some.mp hstep
      obtain ⟨pipe, hrecv, hstep⟩ := Option.bind_eq_some_iff.mp hstep
      cases hstep
      obtain ⟨access, rfl, hsize⟩ := h.exists_of_sent (List.mem_of_getElem? hmsg)
      obtain rfl := eq_of_readOf hsize hret
      have hreceived := Channel.received_recv hmsg hrecv
      have hsound := Channel.sound_step h.pipe.sound hrecv
      obtain ⟨⟨hended, -⟩, rfl⟩ := Channel.step_recv.mp hrecv
      refine ⟨h.senders.same fun _ ↦ rfl, ⟨h.pipe.sent, hsound, h.pipe.holds⟩,
        h.sized_same fun _ ↦ rfl, ?_⟩
      rw [readsOf, hreceived, h.reads, readsOf, hended]
      simp
  | finish =>
      obtain ⟨-, hstep⟩ := Option.ite_none_right_eq_some.mp hstep
      obtain ⟨pipe, hfinish, hstep⟩ := Option.bind_eq_some_iff.mp hstep
      cases hstep
      have hsound := Channel.sound_step h.pipe.sound hfinish
      obtain ⟨⟨hended, -⟩, rfl⟩ := Channel.step_finish.mp hfinish
      refine ⟨h.senders.same fun _ ↦ rfl, ⟨h.pipe.sent, hsound, h.pipe.holds⟩,
        h.sized_same fun _ ↦ rfl, ?_⟩
      rw [h.reads, readsOf, readsOf, hended]
      simp [Channel.received]

theorem inv_run (hstrict : codec.Strict) (hrun : runs (step codec) start events = some t)
    (hfits : ∀ event ∈ events, Fits codec event) : Inv codec events t := by
  refine runs_induction (Inv codec) inv_start ?_ hrun (.of_forall fun _ ↦ hfits)
  intro events t event t' h hfits hstep
  exact inv_step hstrict h hfits hstep

/-! ## What the tracker has in the end -/

theorem accesses_future_append (hstrict : codec.Strict) (accesses : List PathAccess)
    (reads : List (Except Errno Bytes)) (arena : List PathAccess) :
    accesses_future codec (accesses.map (fun access ↦ .ok (codec.encode access)) ++ reads) arena =
      accesses_future codec reads (arena ++ accesses) := by
  induction accesses generalizing arena with
  | nil => rw [List.append_nil, List.map_nil, List.nil_append]
  | cons access accesses ih =>
      rw [List.map_cons, List.cons_append, accesses_future_message hstrict, ih, List.append_assoc]
      rfl

/-- The future returns when it is told the end, and has read what was received by then. -/
theorem Inv.future_eq (hstrict : codec.Strict) (h : Inv codec events t) :
    ∃ arena : List PathAccess, t.pipe.received = arena.map codec.encode ∧
      accesses_future codec t.reads [] = if t.pipe.ended then some (.ok arena) else none := by
  have hrange : t.pipe.received ∈ Set.range (List.map codec.encode) := by
    rw [Set.range_list_map]
    intro msg hmsg
    obtain ⟨access, heq, -⟩ := h.exists_of_sent (List.mem_of_mem_take hmsg)
    exact ⟨access, heq⟩
  obtain ⟨arena, hreceived⟩ := hrange
  refine ⟨arena, hreceived.symm, ?_⟩
  rw [h.reads, readsOf, ← hreceived, List.map_map]
  refine (accesses_future_append hstrict arena _ []).trans ?_
  split <;> rfl

/-- What each process has written, and what it has not. -/
theorem Inv.split (h : Inv codec events t) : ∃ own left : Nat → List PathAccess,
    ∀ p proc, t.procs[p]? = some proc → proc.written = (own p).map codec.encode ∧
      proc.unwritten = (left p).map codec.encode ∧
      (own p ++ left p).Perm (recordedBy p events).dedup := by
  have hsplit : ∀ p, ∃ own left : List PathAccess, ∀ proc, t.procs[p]? = some proc →
      proc.written = own.map codec.encode ∧ proc.unwritten = left.map codec.encode ∧
        (own ++ left).Perm (recordedBy p events).dedup := by
    intro p
    cases hproc : t.procs[p]? with
    | none => exact ⟨[], [], fun _ hsome ↦ nomatch hsome⟩
    | some proc =>
        obtain ⟨own, left, hsplit⟩ := (h.senders.proc p proc hproc).split
        refine ⟨own, left, fun other hother ↦ ?_⟩
        cases hother
        exact hsplit
  choose own left hsplit using hsplit
  exact ⟨own, left, hsplit⟩

/-- What all of them have written is what the pipe was given. -/
theorem flatMap_written {own : Nat → List PathAccess}
    (h : ∀ p proc, procs[p]? = some proc → proc.written = (own p).map codec.encode) :
    procs.flatMap Proc.written = ((List.range procs.length).flatMap own).map codec.encode := by
  have hmap : procs.map Proc.written =
      (List.range procs.length).map fun p ↦ (own p).map codec.encode := by
    apply List.ext_getElem?
    intro p
    rw [List.getElem?_map, List.getElem?_map]
    cases hproc : procs[p]? with
    | none =>
        rw [List.getElem?_eq_none (by simpa using hproc)]
        rfl
    | some proc =>
        obtain ⟨hlt, -⟩ := List.getElem?_eq_some_iff.mp hproc
        rw [List.getElem?_range hlt, Option.map_some, Option.map_some, h p proc hproc]
  rw [List.flatMap_def, hmap, List.map_flatMap, List.flatMap_def]

/-! ## No process is left -/

theorem aliveHolds_set {holders : List Bool}
    (h : Channel.AliveHolds holders (procs.map Proc.alive)) (hproc : procs[p]? = some proc)
    (halive : proc'.alive = proc.alive) :
    Channel.AliveHolds holders ((procs.set p proc').map Proc.alive) := by
  rw [map_set_of_eq hproc halive]
  exact h

/-- Every process holds the pipe until it ends, unless a program closes it. -/
theorem aliveHolds_step (hstrict : codec.Strict) (hinv : Inv codec events t)
    (h : Channel.AliveHolds t.pipe.holders (t.procs.map Proc.alive))
    (hevent : ∀ p, event ≠ .close p) (hstep : step codec t event = some t') :
    Channel.AliveHolds t'.pipe.holders (t'.procs.map Proc.alive) := by
  have hstop : ∀ p proc, t.stop p proc = some t' →
      Channel.AliveHolds t'.pipe.holders (t'.procs.map Proc.alive) := by
    intro p proc hstop
    obtain ⟨pipe, hclose, hstop⟩ := Option.bind_eq_some_iff.mp hstop
    cases hstop
    obtain ⟨-, rfl⟩ := Channel.step_close.mp hclose
    dsimp only
    rw [List.map_set]
    exact h.exit p
  cases event with
  | record p access =>
      obtain ⟨proc, hproc, hstep⟩ := Option.bind_eq_some_iff.mp hstep
      obtain ⟨-, hstep⟩ := Option.ite_none_right_eq_some.mp hstep
      cases hstep
      exact aliveHolds_set h hproc rfl
  | create p =>
      obtain ⟨proc, hproc, hstep⟩ := Option.bind_eq_some_iff.mp hstep
      obtain ⟨hrunning, hstep⟩ := Option.ite_none_right_eq_some.mp hstep
      obtain ⟨pipe, hfork, hstep⟩ := Option.bind_eq_some_iff.mp hstep
      cases hstep
      obtain ⟨holds, hholds, rfl⟩ := Channel.step_fork.mp hfork
      have halive : (t.procs.map Proc.alive)[p]? = some true := by
        rw [List.getElem?_map, hproc, Option.map_some, Proc.alive, hrunning]
      obtain rfl := Option.some.inj (hholds.symm.trans (h.holds p halive))
      dsimp only
      rw [List.map_append]
      exact h.append
  | close p => exact absurd rfl (hevent p)
  | detach p order =>
      obtain ⟨proc, hproc, hstep⟩ := Option.bind_eq_some_iff.mp hstep
      obtain ⟨⟨hrunning, -⟩, hstep⟩ := Option.ite_none_right_eq_some.mp hstep
      cases hstep
      have halive : proc.alive = true := by rw [Proc.alive, hrunning]
      exact aliveHolds_set h hproc halive.symm
  | write p =>
      obtain ⟨proc, msg, rest, hproc, hphase, -, rfl⟩ := step_write hstrict hinv hstep
      have halive : proc.alive = true := by rw [Proc.alive, hphase]
      exact aliveHolds_set h hproc halive.symm
  | exit p =>
      obtain ⟨proc, -, hstep⟩ := Option.bind_eq_some_iff.mp hstep
      exact hstop p proc (Option.ite_none_right_eq_some.mp hstep).2
  | kill p =>
      obtain ⟨proc, -, hstep⟩ := Option.bind_eq_some_iff.mp hstep
      exact hstop p proc (Option.ite_none_right_eq_some.mp hstep).2
  | drop =>
      obtain ⟨pipe, hclose, hstep⟩ := Option.bind_eq_some_iff.mp hstep
      cases hstep
      obtain ⟨-, rfl⟩ := Channel.step_close.mp hclose
      exact h.drop
  | recv ret =>
      obtain ⟨msg, -, hstep⟩ := Option.bind_eq_some_iff.mp hstep
      obtain ⟨-, hstep⟩ := Option.ite_none_right_eq_some.mp hstep
      obtain ⟨pipe, hrecv, hstep⟩ := Option.bind_eq_some_iff.mp hstep
      cases hstep
      obtain ⟨-, rfl⟩ := Channel.step_recv.mp hrecv
      exact h
  | finish =>
      obtain ⟨-, hstep⟩ := Option.ite_none_right_eq_some.mp hstep
      obtain ⟨pipe, hfinish, hstep⟩ := Option.bind_eq_some_iff.mp hstep
      cases hstep
      obtain ⟨-, rfl⟩ := Channel.step_finish.mp hfinish
      exact h

theorem aliveHolds_run (hstrict : codec.Strict) (hrun : runs (step codec) start events = some t)
    (hfits : ∀ event ∈ events, Fits codec event) (hnot : ∀ p, .close p ∉ events) :
    Channel.AliveHolds t.pipe.holders (t.procs.map Proc.alive) := by
  have hmeet : StepsMeet (step codec)
      (fun _ event ↦ Fits codec event ∧ ∀ p, event ≠ .close p) start events :=
    .of_forall fun _ event hevent ↦ ⟨hfits event hevent, fun p heq ↦ hnot p (heq ▸ hevent)⟩
  have hinit : Channel.AliveHolds start.pipe.holders (start.procs.map Proc.alive) :=
    ⟨rfl, fun p hp ↦ by
      cases p with
      | zero => rfl
      | succ p => cases hp⟩
  refine (runs_induction (fun events t ↦ Inv codec events t ∧
    Channel.AliveHolds t.pipe.holders (t.procs.map Proc.alive)) ⟨inv_start, hinit⟩ ?_ hrun hmeet).2
  rintro events t event t' ⟨hinv, h⟩ ⟨hfits, hevent⟩ hstep
  exact ⟨inv_step hstrict hinv hfits hstep, aliveHolds_step hstrict hinv h hevent hstep⟩

/-- What the future has when it returns. -/
theorem Inv.delivered (hstrict : codec.Strict) (h : Inv codec events t)
    {result : Except Stop (List PathAccess)}
    (hreturned : accesses_future codec t.reads [] = some result) :
    t.pipe.ended = true ∧ ∃ (arena : List PathAccess) (own left : Nat → List PathAccess),
      result = .ok arena ∧ arena.Perm ((List.range t.procs.length).flatMap own) ∧
      ∀ p proc, t.procs[p]? = some proc → proc.unwritten = (left p).map codec.encode ∧
        (own p ++ left p).Perm (recordedBy p events).dedup := by
  obtain ⟨arena, hreceived, hfuture⟩ := h.future_eq hstrict
  rw [hreturned] at hfuture
  obtain ⟨hended, heq⟩ := Option.ite_none_right_eq_some.mp hfuture.symm
  obtain ⟨own, left, hsplit⟩ := h.split
  refine ⟨hended, arena, own, left, (Option.some.inj heq).symm, ?_,
    fun p proc hproc ↦ (hsplit p proc hproc).2⟩
  rw [← List.map_perm_map_iff fun _ _ ↦ codec.encode_injective, ← hreceived,
    h.pipe.sound.received_eq hended,
    ← flatMap_written fun p proc hproc ↦ (hsplit p proc hproc).1]
  exact h.pipe.sent

/-- **Delivery on windows.**  As long as what is recorded fits the buffer: when the future
returns, after any run, it has for every process the distinct accesses that the process has
recorded, but for those that it was killed before it had written.  No process is left then,
unless a program has closed the pipe. -/
theorem delivered_of_run (hstrict : codec.Strict)
    (hrun : runs (step codec) start events = some t)
    (hfits : ∀ event ∈ events, Fits codec event) {result : Except Stop (List PathAccess)}
    (hreturned : accesses_future codec t.reads [] = some result) :
    (∃ (arena : List PathAccess) (own left : Nat → List PathAccess), result = .ok arena ∧
      arena.Perm ((List.range t.procs.length).flatMap own) ∧
      ∀ p proc, t.procs[p]? = some proc → proc.unwritten = (left p).map codec.encode ∧
        (own p ++ left p).Perm (recordedBy p events).dedup) ∧
    ((∀ p, .close p ∉ events) → ∀ proc ∈ t.procs, proc.alive = false) := by
  have hinv := inv_run hstrict hrun hfits
  obtain ⟨hended, hdelivered⟩ := hinv.delivered hstrict hreturned
  refine ⟨hdelivered, fun hnot proc hproc ↦ ?_⟩
  have hdead := (aliveHolds_run hstrict hrun hfits hnot).dead (hinv.pipe.sound.nobody hended)
  exact Bool.eq_false_iff.mpr fun halive ↦ hdead (halive ▸ List.mem_map_of_mem hproc)

/-- The first process creates another one, which is killed after its first write. -/
def sampleEvents : List Event :=
  [.record 0 sampleRead, .create 0, .record 1 sampleWide, .record 1 sampleRead, .drop,
    .detach 1 [bincode.encode sampleWide, bincode.encode sampleRead], .write 1, .recv
      (.ok (bincode.encode sampleWide)), .kill 1, .record 0 sampleRead,
    .detach 0 [bincode.encode sampleRead], .write 0, .exit 0,
    .recv (.ok (bincode.encode sampleRead)), .finish]

theorem delivered_of_run_sample : ∃ t, runs (step bincode) start sampleEvents = some t ∧
    t.procs.length = 2 ∧ ∃ (arena : List PathAccess) (own left : Nat → List PathAccess),
      accesses_future bincode t.reads [] = some (.ok arena) ∧
      arena.Perm ((List.range t.procs.length).flatMap own) ∧
      (∀ p proc, t.procs[p]? = some proc → proc.unwritten = (left p).map bincode.encode ∧
        (own p ++ left p).Perm (recordedBy p sampleEvents).dedup) ∧
      ∀ proc ∈ t.procs, proc.alive = false := by
  have hfits : ∀ event ∈ sampleEvents, Fits bincode event := by decide
  obtain ⟨t, result, hrun, hlength, hreturned⟩ : ∃ t result,
      runs (step bincode) start sampleEvents = some t ∧ t.procs.length = 2 ∧
        accesses_future bincode t.reads [] = some result :=
    ⟨_, _, rfl, rfl, rfl⟩
  obtain ⟨⟨arena, own, left, rfl, harena, hsplit⟩, hended⟩ :=
    delivered_of_run strict_bincode hrun hfits hreturned
  refine ⟨t, hrun, hlength, arena, own, left, hreturned, harena, hsplit, hended fun p ↦ ?_⟩
  simp [sampleEvents]

/-! ## The tracker gets there -/

/-- What `accesses_future` does. -/
def Receives : Event → Prop
  | .recv _ | .finish => True
  | _ => False

theorem fits_of_receives (h : Receives event) : Fits codec event := by
  cases event with
  | record p access => exact h.elim
  | create p | close p | detach p order | write p | exit p | kill p | drop => exact h.elim
  | recv ret | finish => trivial

/-- The tracker's own events only move the pipe. -/
theorem pipe_of_step (t : Tree) (pipe : Channel Bytes) (event : Event) (t' : Tree)
    (h : t.pipe = pipe) (hevent : Receives event) (hstep : step codec t event = some t') :
    ∃ e pipe', Channel.Receives e ∧ pipe.step e = some pipe' ∧ t'.pipe = pipe' := by
  obtain rfl := h
  cases event with
  | record p access | create p | close p | detach p order | write p | exit p | kill p | drop =>
      exact hevent.elim
  | recv ret =>
      obtain ⟨msg, -, hstep⟩ := Option.bind_eq_some_iff.mp hstep
      obtain ⟨-, hstep⟩ := Option.ite_none_right_eq_some.mp hstep
      obtain ⟨pipe, hrecv, hstep⟩ := Option.bind_eq_some_iff.mp hstep
      cases hstep
      exact ⟨.recv, pipe, trivial, hrecv, rfl⟩
  | finish =>
      obtain ⟨-, hstep⟩ := Option.ite_none_right_eq_some.mp hstep
      obtain ⟨pipe, hfinish, hstep⟩ := Option.bind_eq_some_iff.mp hstep
      cases hstep
      exact ⟨.finish, pipe, trivial, hfinish, rfl⟩

/-- The tree, after some events, has this pipe. -/
def PipeOf (codec : Codec PathAccess) (pipe : Channel Bytes) (t : Tree) : Prop :=
  t.pipe = pipe ∧ ∃ events, Inv codec events t

/-- The future goes on until the end. -/
theorem Inv.waits (hstrict : codec.Strict) (h : Inv codec events t)
    (hended : t.pipe.ended = false) :
    (accesses_future codec t.reads []).isNone := by
  obtain ⟨arena, -, hfuture⟩ := h.future_eq hstrict
  rw [hfuture, hended]
  rfl

/-- Where the pipe has something for the future, the future reads it. -/
theorem step_of_pipe (hstrict : codec.Strict) (pipe : Channel Bytes) (t : Tree)
    (e : Channel.Event Bytes) (pipe' : Channel Bytes) (h : PipeOf codec pipe t)
    (he : Channel.Receives e) (hstep : pipe.step e = some pipe') :
    ∃ event t', Receives event ∧ step codec t event = some t' ∧ PipeOf codec pipe' t' := by
  obtain ⟨rfl, events, hinv⟩ := h
  cases e with
  | send p a | fork p | close p => exact he.elim
  | recv =>
      obtain ⟨⟨hended, hmore⟩, -⟩ := Channel.step_recv.mp hstep
      have hmsg := List.getElem?_eq_getElem hmore
      obtain ⟨access, heq, hsize⟩ := hinv.exists_of_sent (List.mem_of_getElem? hmsg)
      have hret : readOf t.pipe.sent[t.pipe.taken] (.ok t.pipe.sent[t.pipe.taken]) = true := by
        have hlen : t.pipe.sent[t.pipe.taken].length ≤ MESSAGE_MAX_LEN := heq ▸ hsize
        rw [readOf, if_pos hlen]
        exact beq_self_eq_true _
      have hnext : step codec t (.recv (.ok t.pipe.sent[t.pipe.taken])) = some
          { t with pipe := pipe', reads := t.reads ++ [.ok t.pipe.sent[t.pipe.taken]] } := by
        rw [step, hmsg, Option.bind_eq_bind, Option.bind_some,
          if_pos ⟨hinv.waits hstrict hended, hret⟩, hstep]
        rfl
      refine ⟨.recv _, _, trivial, hnext, rfl, _, inv_step hstrict hinv ?_ hnext⟩
      trivial
  | finish =>
      obtain ⟨⟨hended, -⟩, -⟩ := Channel.step_finish.mp hstep
      have hnext : step codec t .finish = some
          { t with pipe := pipe', reads := t.reads ++ [.ok []] } := by
        rw [step, if_pos (hinv.waits hstrict hended), hstep]
        rfl
      refine ⟨.finish, _, trivial, hnext, rfl, _, inv_step hstrict hinv ?_ hnext⟩
      trivial

/-- **The future returns**, on its own, if and only if nobody holds the pipe; when all
processes have ended, it is up to `drop(pipe_sender)`. -/
theorem future_returns_iff (hstrict : codec.Strict)
    (hrun : runs (step codec) start events = some t)
    (hfits : ∀ event ∈ events, Fits codec event)
    (hwaits : accesses_future codec t.reads [] = none) :
    ((∃ events' t' result, (∀ event ∈ events', Receives event) ∧
        runs (step codec) t events' = some t' ∧
        accesses_future codec t'.reads [] = some result) ↔ true ∉ t.pipe.holders) ∧
    ((∀ proc ∈ t.procs, proc.alive = false) →
      (true ∉ t.pipe.holders ↔ t.pipe.holders[0]? = some false)) := by
  have hinv := inv_run hstrict hrun hfits
  have hended : t.pipe.ended = false := by
    obtain ⟨arena, -, hfuture⟩ := hinv.future_eq hstrict
    rw [hwaits] at hfuture
    exact Bool.eq_false_iff.mpr fun hended ↦ by simp [hended] at hfuture
  refine ⟨Iff.trans ⟨?_, ?_⟩ (Channel.ends_iff hinv.pipe.sound hended), fun hdead ↦ ?_⟩
  · rintro ⟨events', t', result, hevents, hrun', hreturned⟩
    have hfits' : ∀ event ∈ events ++ events', Fits codec event := by
      intro event hevent
      rcases List.mem_append.mp hevent with hevent | hevent
      · exact hfits event hevent
      · exact fits_of_receives (hevents event hevent)
    have hinv' := inv_run hstrict (runs_append.mpr ⟨t, hrun, hrun'⟩) hfits'
    obtain ⟨arena, -, hfuture⟩ := hinv'.future_eq hstrict
    rw [hreturned] at hfuture
    obtain ⟨es, pipe, hes, hruns, rfl⟩ :=
      runs_simulation pipe_of_step (rfl : t.pipe = t.pipe) hevents hrun'
    exact ⟨es, t'.pipe, hes, hruns, (Option.ite_none_right_eq_some.mp hfuture.symm).1⟩
  · rintro ⟨es, pipe, hes, hruns, hended'⟩
    obtain ⟨events', t', hevents, hrun', rfl, events'', hinv'⟩ :=
      runs_simulation (step_of_pipe hstrict) ⟨rfl, events, hinv⟩ hes hruns
    obtain ⟨arena, -, hfuture⟩ := hinv'.future_eq hstrict
    rw [hended', if_pos rfl] at hfuture
    exact ⟨events', t', _, hevents, hrun', hfuture⟩
  · refine hinv.pipe.holds.nobody_iff fun hmem ↦ ?_
    obtain ⟨proc, hproc, halive⟩ := List.mem_map.mp hmem
    cases (hdead proc hproc).symm.trans halive

/-- The command has recorded nothing, and exits. -/
theorem future_returns_after_exit : ∃ t,
    runs (step bincode) start [.drop, .detach 0 [], .exit 0] = some t ∧
      ∃ events' t' result, (∀ event ∈ events', Receives event) ∧
        runs (step bincode) t events' = some t' ∧
        accesses_future bincode t'.reads [] = some result := by
  have hrun : runs (step bincode) start [.drop, .detach 0 [], .exit 0] = some _ := rfl
  exact ⟨_, hrun, (future_returns_iff strict_bincode hrun (by decide) rfl).1.mpr (by decide)⟩

end Fspy.Windows.Collect
