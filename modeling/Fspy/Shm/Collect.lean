import Fspy.Lib.Channel
import Fspy.Shm.Delivery

/-!
# When the tracker reads the log

Every image below a tracked command holds the socket that chunks are sent through, until
it closes it or ends; an exec hands it on to the next image, which starts without cursors.
The tracker receives chunks until it is told that nobody holds the socket any more, and
reads the log then.  `collected_of_run` says that by then nothing is missing.
-/

namespace Fspy.Shm

open Lib

/-- The images below a tracked command, numbered in the order they come to exist, and the
socket; the tracking process holds it as number 0, the image `p` as number `p + 1`. -/
structure Tree where
  log : State
  alive : List Bool
  socket : Channel Nat

/-- The first thread of a new image. -/
def started : Proc := fun i ↦ ⟨none, if i < 1 then .live .idle else .free⟩

namespace Tree

inductive Event where
  /-- A thread of an image takes a step. -/
  | thread (l : Label)
  /-- An image is replaced by another one. -/
  | exec (p : Nat)
  /-- An image exits or is killed. -/
  | exit (p : Nat)
  /-- A program closes a descriptor it does not know. -/
  | close (p : Nat)
  /-- `drop(tokio_command)` in the tracking process. -/
  | drop
  /-- `recv_fd` returns a descriptor. -/
  | recv
  /-- `recv_fd` returns `UnexpectedEof`. -/
  | finish

/-- The chunk that a step sends. -/
def sendsFd (s : State) (l : Label) : Option Nat :=
  match l.act, (s.row l.key).map Slot.owner with
  | .sendFd, some (.live (.newShm _ _ (.sendFd k))) => some k
  | _, _ => none

/-- What a step of a thread is to the socket. -/
def socketStep (s : State) (l : Label) (socket : Channel Nat) : Option (Channel Nat) :=
  match sendsFd s l with
  | some k => socket.step (.send (l.pid + 1) k)
  | none => if l.act = .fork then socket.step (.fork (l.pid + 1)) else some socket

/-- One event. -/
def step (c : Codec PathAccess) (t : Tree) : Event → Option Tree
  | .thread l =>
      if t.alive[l.pid]? = some true then do
        let log ← Shm.step c t.log l
        let socket ← socketStep t.log l t.socket
        return ⟨log, if l.act = .fork then t.alive ++ [true] else t.alive, socket⟩
      else none
  | .exec p =>
      if t.alive[p]? = some true then do
        let socket ← t.socket.step (.fork (p + 1))
        let socket ← socket.step (.close (p + 1))
        return ⟨⟨t.log.mem, t.log.procs ++ [started]⟩, t.alive.set p false ++ [true], socket⟩
      else none
  | .exit p =>
      if t.alive[p]? = some true then do
        let socket ← t.socket.step (.close (p + 1))
        return { t with alive := t.alive.set p false, socket }
      else none
  | .close p =>
      if t.alive[p]? = some true then do
        let socket ← t.socket.step (.close (p + 1))
        return { t with socket }
      else none
  | .drop => do
      let socket ← t.socket.step (.close 0)
      return { t with socket }
  | .recv => do
      let socket ← t.socket.step .recv
      return { t with socket }
  | .finish => do
      let socket ← t.socket.step .finish
      return { t with socket }

/-- The first image, with `n` threads, and the tracking process. -/
def start (n : Nat) : Tree := ⟨init n, [true], .opened [true, true]⟩

/-- The steps of threads. -/
def labels (events : List Event) : List Label :=
  events.filterMap fun
    | .thread l => some l
    | _ => none

/-- What the tracker maps of what it has received. -/
def collected (t : Tree) : PathAccessIterable :=
  ⟨[], t.socket.received.filterMap fun k ↦ (t.log.mem.chunks[k]?).map Chunk.bytes⟩

/-- No new thread is handed a cursor with room in a chunk of another process. -/
def StartsAtEnd (t : Tree) : Event → Prop
  | .thread l => Shm.StartsAtEnd t.log l
  | _ => True

end Tree

variable {c : Codec PathAccess} {ls : List Label} {s s' : State} {l : Label} {t t' : Tree}
  {event : Tree.Event} {events : List Tree.Event}

/-! ## A new image -/

theorem started_owner (i : Nat) :
    (started i).owner = .live .idle ∨ (started i).owner = .free := by
  rw [started]
  dsimp only
  split
  · exact .inl rfl
  · exact .inr rfl

/-- A new image owns nothing, and nothing is wrong with its rows. -/
theorem started_slotInv {w : World} {p i : Nat} :
    SlotInv c w (p, i) (started i) ∧ ∀ k, ¬Owns w (p, i) (started i) k := by
  have hcur : (started i).cursor = none := rfl
  have hnot : ∀ pc, (started i).owner = .live pc → pc = .idle := by
    intro pc ho
    rcases started_owner i with h | h <;> rw [ho] at h <;> cases h
    rfl
  refine ⟨⟨⟨by simp [hcur], by simp [hcur], by simp [hcur]⟩, ?_, ?_, by simp [hcur]⟩, ?_⟩
  · intro a start n ho
    cases hnot _ ho
  · intro a again stage k ho
    cases hnot _ ho
  · rintro k (⟨cur, hcur', -⟩ | ⟨a, again, stage, ho, -⟩)
    · cases hcur.symm.trans hcur'
    · cases hnot _ ho

theorem Inv.started (h : Inv c ls s) : Inv c ls ⟨s.mem, s.procs ++ [started]⟩ := by
  have hrow (t : Key) : State.row ⟨s.mem, s.procs ++ [Shm.started]⟩ t =
      if t.1 = s.procs.length then some (Shm.started t.2) else s.row t := row_append t
  have hold : ∀ t slot k, State.row ⟨s.mem, s.procs ++ [Shm.started]⟩ t = some slot →
      Owns (world ls s) t slot k → s.row t = some slot := by
    rintro ⟨p, i⟩ slot k ht hown
    rw [hrow] at ht
    split at ht
    · cases ht
      exact absurd hown (started_slotInv (c := c).2 k)
    · exact ht
  refine ⟨?_, ?_, ?_, h.log⟩
  · rintro ⟨p, i⟩ slot ht
    rw [hrow] at ht
    split at ht
    · cases ht
      exact started_slotInv.1
    · exact h.slots _ slot ht
  · intro t t' slot slot' k ht ht' hown hown'
    exact h.excl t t' slot slot' k (hold t slot k ht hown) (hold t' slot' k ht' hown') hown hown'
  · intro k p hp
    rw [List.length_append]
    exact Nat.lt_add_right _ (h.creators k p hp)

theorem Accounted.started (h : Accounted ls s) : Accounted ls ⟨s.mem, s.procs ++ [started]⟩ := by
  intro t
  rw [h t, State.sending, State.sending, row_append]
  split
  · rename_i ht
    have hnone : s.row t = none := by simp [State.row, ht]
    have hidle : (Shm.started t.2).owner.sending = [] := by
      rcases started_owner t.2 with ho | ho <;> rw [ho] <;> rfl
    simp [hnone, hidle]
  · rfl

/-! ## Events -/

/-- No other step sends a descriptor. -/
theorem Slot.received_eq {m m' : Mem} {p : Nat} {slot slot' : Slot} {act : Act}
    (h : slot.step c m p act = some (m', slot')) (hact : act ≠ .sendFd) :
    m'.received = m.received := by
  cases act with
  | sendFd => exact absurd rfl hact
  | fork => cases h
  | call a =>
      simp only [Slot.step] at h
      split at h
      · split at h
        · cases h
          rfl
        · split at h <;> cases h <;> rfl
      · cases h
  | map | write =>
      simp only [Slot.step] at h
      split at h
      · obtain ⟨_, -, heq⟩ := Option.map_eq_some_iff.mp h
        cases heq
        rfl
      · cases h
  | advance r =>
      simp only [Slot.step] at h
      split at h
      · split at h
        · split at h <;> cases h
          rfl
        · cases h
      · cases h
  | full =>
      simp only [Slot.step] at h
      split at h
      · split at h
        · cases h
        · split at h <;> cases h <;> rfl
      · cases h
  | storeFlag k a =>
      simp only [Slot.step] at h
      split at h
      · split at h <;> cases h
        rfl
      · cases h
  | start | exit | shmOpen | ftruncate =>
      simp only [Slot.step] at h
      split at h <;> cases h
      rfl

theorem Slot.received_sendFd {m m' : Mem} {p : Nat} {slot slot' : Slot}
    (h : slot.step c m p .sendFd = some (m', slot')) :
    ∃ a again k, slot.owner = .live (.newShm a again (.sendFd k)) ∧
      m'.received = m.received ++ [k] := by
  simp only [Slot.step] at h
  split at h
  · rename_i a again k ho
    cases h
    exact ⟨a, again, k, ho, rfl⟩
  · cases h

/-- The socket is sent what the log says was received. -/
theorem received_step (hstep : step c s l = some s') :
    s'.mem.received = s.mem.received ++ (Tree.sendsFd s l).toList := by
  rcases step_cases hstep with ⟨slot, slot', hs⟩ | ⟨proc, hf⟩
  · rw [Tree.sendsFd, hs.row_eq, Option.map_some]
    by_cases hact : l.act = .sendFd
    · have hslot := hs.step_eq
      rw [hact] at hslot
      obtain ⟨a, again, k, ho, hreceived⟩ := Slot.received_sendFd hslot
      rw [hact, ho, hreceived]
      rfl
    · rw [Slot.received_eq hs.step_eq hact]
      split
      · rename_i hsend _
        exact absurd hsend hact
      · exact (List.append_nil _).symm
  · rw [Tree.sendsFd, hf.act_eq, hf.mem_eq]
    exact (List.append_nil _).symm

theorem sendsFd_of_fork (h : l.act = .fork) : Tree.sendsFd s l = none := by
  rw [Tree.sendsFd, h]

/-- What a step of a thread does to the socket. -/
structure SocketMoved (s : State) (l : Label) (socket socket' : Channel Nat) : Prop where
  sent : socket'.sent = socket.sent ++ (Tree.sendsFd s l).toList
  sound : socket.Sound → socket'.Sound
  holders : l.act ≠ .fork → socket'.holders = socket.holders
  forked : l.act = .fork → ∃ holds, socket'.holders = socket.holders ++ [holds]

theorem socketMoved {socket socket' : Channel Nat}
    (h : Tree.socketStep s l socket = some socket') : SocketMoved s l socket socket' := by
  rw [Tree.socketStep] at h
  split at h
  · rename_i k hsends
    have hact : l.act ≠ .fork := fun hfork ↦ by
      rw [sendsFd_of_fork hfork] at hsends
      cases hsends
    obtain ⟨-, rfl⟩ := Channel.step_send.mp h
    exact ⟨by rw [hsends]; rfl, fun hsound ↦ Channel.sound_step hsound h, fun _ ↦ rfl,
      fun hfork ↦ absurd hfork hact⟩
  · rename_i hsends
    split at h
    · rename_i hfork
      obtain ⟨holds, -, rfl⟩ := Channel.step_fork.mp h
      exact ⟨by rw [hsends]; exact (List.append_nil _).symm,
        fun hsound ↦ Channel.sound_step hsound h, fun hact ↦ absurd hfork hact,
        fun _ ↦ ⟨holds, rfl⟩⟩
    · rename_i hact
      cases h
      exact ⟨by rw [hsends]; exact (List.append_nil _).symm, id, fun _ ↦ rfl,
        fun hfork ↦ absurd hfork hact⟩

/-! ## The invariant of a tree -/

/-- What holds of the socket of a tree. -/
structure SocketInv (t : Tree) : Prop where
  sent : t.socket.sent = t.log.mem.received
  sound : t.socket.Sound
  holds : Channel.HoldsAlive t.socket.holders t.alive

theorem socketInv_start (n : Nat) : SocketInv (.start n) where
  sent := rfl
  sound := Channel.sound_opened _
  holds := ⟨rfl, fun p hp ↦ by
    cases p with
    | zero => rfl
    | succ p => cases hp⟩

/-- Every event keeps the socket in step with the log. -/
theorem socketInv_step (h : SocketInv t) (hstep : t.step c event = some t') : SocketInv t' := by
  cases event with
  | thread l =>
      simp only [Tree.step] at hstep
      split at hstep
      · obtain ⟨log, hlog, hstep⟩ := Option.bind_eq_some_iff.mp hstep
        obtain ⟨socket, hsocket, hstep⟩ := Option.bind_eq_some_iff.mp hstep
        cases hstep
        have hmoved := socketMoved hsocket
        refine ⟨by rw [hmoved.sent, h.sent, received_step hlog], hmoved.sound h.sound, ?_⟩
        dsimp only
        split
        · rename_i hfork
          obtain ⟨holds, hholders⟩ := hmoved.forked hfork
          rw [hholders]
          exact h.holds.append holds
        · rename_i hact
          rw [hmoved.holders hact]
          exact h.holds
      · cases hstep
  | exec p =>
      simp only [Tree.step] at hstep
      split at hstep
      · obtain ⟨socket₁, hfork, hstep⟩ := Option.bind_eq_some_iff.mp hstep
        obtain ⟨socket₂, hclose, hstep⟩ := Option.bind_eq_some_iff.mp hstep
        cases hstep
        have hsound := Channel.sound_step (Channel.sound_step h.sound hfork) hclose
        obtain ⟨holds, hp, rfl⟩ := Channel.step_fork.mp hfork
        obtain ⟨-, rfl⟩ := Channel.step_close.mp hclose
        have hlt : p + 1 < t.socket.holders.length := (List.getElem?_eq_some_iff.mp hp).1
        refine ⟨h.sent, hsound, ?_⟩
        dsimp only
        rw [List.set_append_left _ _ hlt]
        exact (h.holds.exit hlt).append holds
      · cases hstep
  | exit p =>
      simp only [Tree.step] at hstep
      split at hstep
      · obtain ⟨socket, hclose, hstep⟩ := Option.bind_eq_some_iff.mp hstep
        cases hstep
        have hsound := Channel.sound_step h.sound hclose
        obtain ⟨hlt, rfl⟩ := Channel.step_close.mp hclose
        exact ⟨h.sent, hsound, h.holds.exit hlt⟩
      · cases hstep
  | close p =>
      simp only [Tree.step] at hstep
      split at hstep
      · obtain ⟨socket, hclose, hstep⟩ := Option.bind_eq_some_iff.mp hstep
        cases hstep
        have hsound := Channel.sound_step h.sound hclose
        obtain ⟨-, rfl⟩ := Channel.step_close.mp hclose
        exact ⟨h.sent, hsound, h.holds.close (p + 1)⟩
      · cases hstep
  | drop =>
      obtain ⟨socket, hclose, hstep⟩ := Option.bind_eq_some_iff.mp hstep
      cases hstep
      have hsound := Channel.sound_step h.sound hclose
      obtain ⟨-, rfl⟩ := Channel.step_close.mp hclose
      exact ⟨h.sent, hsound, h.holds.close 0⟩
  | recv =>
      obtain ⟨socket, hrecv, hstep⟩ := Option.bind_eq_some_iff.mp hstep
      cases hstep
      have hsound := Channel.sound_step h.sound hrecv
      obtain ⟨-, rfl⟩ := Channel.step_recv.mp hrecv
      exact ⟨h.sent, hsound, h.holds⟩
  | finish =>
      obtain ⟨socket, hfinish, hstep⟩ := Option.bind_eq_some_iff.mp hstep
      cases hstep
      have hsound := Channel.sound_step h.sound hfinish
      obtain ⟨-, rfl⟩ := Channel.step_finish.mp hfinish
      exact ⟨h.sent, hsound, h.holds⟩

theorem socketInv_run {n : Nat} (hrun : runs (Tree.step c) (Tree.start n) events = some t) :
    SocketInv t :=
  runs_invariant SocketInv (socketInv_start n) (fun _ _ _ ↦ socketInv_step) hrun

/-! ## The log of a tree -/

/-- What an event is to the log: a step of a thread, a new image, or nothing. -/
theorem log_cases (hstep : t.step c event = some t') :
    (∃ l, event = .thread l ∧ Shm.step c t.log l = some t'.log) ∨
      Tree.labels [event] = [] ∧
        (t'.log = t.log ∨ t'.log = ⟨t.log.mem, t.log.procs ++ [started]⟩) := by
  cases event with
  | thread l =>
      simp only [Tree.step] at hstep
      split at hstep
      · obtain ⟨log, hlog, hstep⟩ := Option.bind_eq_some_iff.mp hstep
        obtain ⟨socket, -, hstep⟩ := Option.bind_eq_some_iff.mp hstep
        cases hstep
        exact .inl ⟨l, rfl, hlog⟩
      · cases hstep
  | exec p =>
      simp only [Tree.step] at hstep
      split at hstep
      · obtain ⟨socket₁, -, hstep⟩ := Option.bind_eq_some_iff.mp hstep
        obtain ⟨socket₂, -, hstep⟩ := Option.bind_eq_some_iff.mp hstep
        cases hstep
        exact .inr ⟨rfl, .inr rfl⟩
      · cases hstep
  | exit p | close p =>
      simp only [Tree.step] at hstep
      split at hstep
      · obtain ⟨socket, -, hstep⟩ := Option.bind_eq_some_iff.mp hstep
        cases hstep
        exact .inr ⟨rfl, .inl rfl⟩
      · cases hstep
  | drop | recv | finish =>
      obtain ⟨socket, -, hstep⟩ := Option.bind_eq_some_iff.mp hstep
      cases hstep
      exact .inr ⟨rfl, .inl rfl⟩

/-- What holds of the log after some events. -/
structure LogInv (c : Codec PathAccess) (ls : List Label) (s : State) : Prop where
  inv : Inv c ls s
  accounted : Accounted ls s

/-- Every event keeps the invariant of the log, unless it hands a new thread a cursor with
room in a chunk of another process. -/
theorem logInv_step (h : LogInv c ls t.log) (hstart : t.StartsAtEnd event)
    (hstep : t.step c event = some t') : LogInv c (ls ++ Tree.labels [event]) t'.log := by
  rcases log_cases hstep with ⟨l, rfl, hlog⟩ | ⟨hlabels, hlog⟩
  · exact ⟨inv_step h.inv hstart hlog, accounted_step h.accounted hlog⟩
  · rw [hlabels, List.append_nil]
    rcases hlog with hlog | hlog <;> rw [hlog]
    · exact h
    · exact ⟨h.inv.started, h.accounted.started⟩

theorem labels_snoc (events : List Tree.Event) (event : Tree.Event) :
    Tree.labels (events ++ [event]) = Tree.labels events ++ Tree.labels [event] :=
  List.filterMap_append

theorem logInv_run {n : Nat} (hrun : runs (Tree.step c) (Tree.start n) events = some t)
    (hmeet : StepsMeet (Tree.step c) Tree.StartsAtEnd (Tree.start n) events) :
    LogInv c (Tree.labels events) t.log := by
  have hinit : LogInv c (Tree.labels []) (Tree.start n).log :=
    ⟨inv_init c n, accounted_run (c := c) (n := n) rfl⟩
  refine runs_induction (fun events t ↦ LogInv c (Tree.labels events) t.log) hinit ?_ hrun hmeet
  intro events t event t' h hstart hstep
  rw [labels_snoc]
  exact logInv_step h hstart hstep

/-! ## What the tracker reads in the end -/

/-- Once the end was told, what was received is what was sent. -/
theorem SocketInv.collected_eq (h : SocketInv t) (hended : t.socket.ended = true) :
    t.collected = Shm.collected t.log := by
  rw [Tree.collected, h.sound.received_eq hended, h.sent]
  rfl

/-- No thread takes a step when no image is left. -/
theorem log_of_dead (hdead : true ∉ t.alive) (hstep : t.step c event = some t') :
    t'.log = t.log ∧ t'.alive = t.alive ∧
      (t.socket.ended = true → t'.socket.ended = true) := by
  have hnot : ∀ p : Nat, t.alive[p]? ≠ some true := fun p hp ↦ hdead (List.mem_of_getElem? hp)
  cases event with
  | thread l | exec p | exit p | close p =>
      simp only [Tree.step] at hstep
      rw [if_neg (hnot _)] at hstep
      cases hstep
  | drop =>
      obtain ⟨socket, hclose, hstep⟩ := Option.bind_eq_some_iff.mp hstep
      cases hstep
      obtain ⟨-, rfl⟩ := Channel.step_close.mp hclose
      exact ⟨rfl, rfl, id⟩
  | recv =>
      obtain ⟨socket, hrecv, hstep⟩ := Option.bind_eq_some_iff.mp hstep
      cases hstep
      obtain ⟨-, rfl⟩ := Channel.step_recv.mp hrecv
      exact ⟨rfl, rfl, id⟩
  | finish =>
      obtain ⟨socket, hfinish, hstep⟩ := Option.bind_eq_some_iff.mp hstep
      cases hstep
      obtain ⟨-, rfl⟩ := Channel.step_finish.mp hfinish
      exact ⟨rfl, rfl, fun _ ↦ rfl⟩

/-- What is read of a log that no image is left to write to does not change any more. -/
theorem collected_of_dead (h : SocketInv t) (hended : t.socket.ended = true)
    (hdead : true ∉ t.alive) (hrun : runs (Tree.step c) t events = some t') :
    t'.collected = t.collected := by
  have hsame : SocketInv t' ∧ t'.socket.ended = true ∧ t'.log = t.log ∧ t'.alive = t.alive := by
    refine runs_invariant (fun t' ↦ SocketInv t' ∧ t'.socket.ended = true ∧ t'.log = t.log ∧
      t'.alive = t.alive) ⟨h, hended, rfl, rfl⟩ ?_ hrun
    rintro t₁ event t₂ ⟨hsocket, hended, hlog, halive⟩ hstep
    obtain ⟨hlog', halive', hended'⟩ := log_of_dead (halive ▸ hdead) hstep
    exact ⟨socketInv_step hsocket hstep, hended' hended, hlog'.trans hlog, halive'.trans halive⟩
  rw [hsame.1.collected_eq hsame.2.1, h.collected_eq hended, hsame.2.2.1]

/-- What the tracker reads once it was told the end. -/
theorem iter_of_run {n : Nat} (hrun : runs (Tree.step c) (Tree.start n) events = some t)
    (hmeet : StepsMeet (Tree.step c) Tree.StartsAtEnd (Tree.start n) events)
    (hended : t.socket.ended = true) :
    ∃ zs, t.collected.iter c = .ok (zs.map Prod.snd) ∧ Merges (Tree.labels events) zs := by
  rw [(socketInv_run hrun).collected_eq hended]
  exact (logInv_run hrun hmeet).inv.iter

/-- **Nothing is missing when the socket has ended.**  As long as no new thread is handed a
cursor with room in a chunk of another process: once the tracker was told the end, it reads
every access that a thread was asked to record, once and in the order of its thread, but for
those that a thread is still sending or was killed in.  Where no image is left, it goes on
reading the same. -/
theorem collected_of_run {n : Nat} (hrun : runs (Tree.step c) (Tree.start n) events = some t)
    (hmeet : StepsMeet (Tree.step c) Tree.StartsAtEnd (Tree.start n) events)
    (hended : t.socket.ended = true) :
    (∃ zs, t.collected.iter c = .ok (zs.map Prod.snd) ∧ Merges (Tree.labels events) zs) ∧
      (∀ key, calledBy key (Tree.labels events) =
        flaggedBy key (Tree.labels events) ++ t.log.sending key) ∧
      (true ∉ t.alive → ∀ events' t', runs (Tree.step c) t events' = some t' →
        t'.collected = t.collected) := by
  have hlog := logInv_run hrun hmeet
  have hsocket := socketInv_run hrun
  exact ⟨iter_of_run hrun hmeet hended, hlog.accounted,
    fun hdead _ _ ↦ collected_of_dead hsocket hended hdead⟩

/-- The steps of an image that holds the socket and does not fork. -/
theorem runs_threads {p : Nat} {socket : Channel Nat} {alive : List Bool}
    (hp : alive[p]? = some true) (hholds : socket.holders[p + 1]? = some true)
    (hls : ∀ l ∈ ls, l.pid = p ∧ l.act ≠ .fork) (hrun : runs (Shm.step c) s ls = some s') :
    ∃ sent, runs (Tree.step c) ⟨s, alive, socket⟩ (ls.map .thread) =
      some ⟨s', alive, { socket with sent := socket.sent ++ sent }⟩ := by
  induction ls generalizing s socket with
  | nil =>
      cases hrun
      exact ⟨[], by simp⟩
  | cons l ls ih =>
      obtain ⟨s₁, hstep, hrun⟩ := runs_cons.mp hrun
      obtain ⟨⟨rfl, hact⟩, hls⟩ := List.forall_mem_cons.mp hls
      have hsocket : Tree.socketStep s l socket =
          some { socket with sent := socket.sent ++ (Tree.sendsFd s l).toList } := by
        rw [Tree.socketStep]
        cases Tree.sendsFd s l with
        | none => simp [hact]
        | some k => exact if_pos hholds
      have hthread : Tree.step c ⟨s, alive, socket⟩ (.thread l) =
          some ⟨s₁, alive, { socket with sent := socket.sent ++ (Tree.sendsFd s l).toList }⟩ := by
        simp [Tree.step, hp, hstep, hsocket, hact]
      obtain ⟨sent, hrest⟩ : ∃ sent, runs (Tree.step c) ⟨s₁, alive, { socket with
          sent := socket.sent ++ (Tree.sendsFd s l).toList }⟩ (ls.map .thread) = some ⟨s', alive,
            { socket with sent := socket.sent ++ (Tree.sendsFd s l).toList ++ sent }⟩ :=
        ih hholds hls hrun
      refine ⟨(Tree.sendsFd s l).toList ++ sent, ?_⟩
      rw [List.map_cons, runs, hthread, Option.bind_some, hrest, List.append_assoc]

/-- A command that sends one access and exits. -/
def sendAndExit : List Tree.Event :=
  (openChunk ++ fillChunk).map .thread ++ [.exit 0, .drop, .recv, .finish]

theorem runs_sendAndExit : ∃ t,
    runs (Tree.step PathAccess.shortCodec) (.start 2) sendAndExit = some t ∧
      t.socket.ended = true ∧ t.alive = [false] := by
  obtain ⟨proc, hrun, -⟩ := runs_firstSend
  have hthreads : ∃ sent, runs (Tree.step PathAccess.shortCodec) (.start 2)
      ((openChunk ++ fillChunk).map .thread) =
        some ⟨_, [true], { Channel.opened [true, true] with sent := [] ++ sent }⟩ :=
    runs_threads (p := 0) rfl rfl (by decide) hrun
  obtain ⟨sent, hthreads⟩ := hthreads
  have hsent := (socketInv_run (n := 2) hthreads).sent
  obtain rfl : sent = [0] := hsent
  exact ⟨_, runs_append.mpr ⟨_, hthreads, rfl⟩, rfl, rfl⟩

theorem startsAtEnd_sendAndExit (t : Tree) (event : Tree.Event) (h : event ∈ sendAndExit) :
    t.StartsAtEnd event := by
  have hacts : ∀ l ∈ openChunk ++ fillChunk, l.act ≠ .start := by decide
  rcases List.mem_append.mp h with h | h
  · obtain ⟨l, hl, rfl⟩ := List.mem_map.mp h
    exact fun hstart ↦ absurd hstart (hacts l hl)
  · simp only [List.mem_cons, List.not_mem_nil, or_false] at h
    rcases h with rfl | rfl | rfl | rfl <;> trivial

theorem collected_sendAndExit : ∃ t,
    runs (Tree.step PathAccess.shortCodec) (.start 2) sendAndExit = some t ∧
      t.collected.iter PathAccess.shortCodec = .ok [sampleA] := by
  obtain ⟨t, hrun, hended, -⟩ := runs_sendAndExit
  obtain ⟨⟨zs, hiter, hperm, -⟩, -⟩ :=
    collected_of_run hrun (.of_forall startsAtEnd_sendAndExit) hended
  obtain rfl : zs = [((0, 1), sampleA)] := List.perm_singleton.mp hperm
  exact ⟨t, hrun, hiter⟩

/-! ## The tracker gets there -/

namespace Tree

/-- What `recv_fd` does. -/
def Receives : Event → Prop
  | .recv | .finish => True
  | _ => False

end Tree

/-- The socket of the tree. -/
def SocketOf (t : Tree) (socket : Channel Nat) : Prop := t.socket = socket

/-- The tracker's own events only move the socket. -/
theorem socketOf_of_step (t : Tree) (socket : Channel Nat) (event : Tree.Event) (t' : Tree)
    (h : SocketOf t socket) (hevent : Tree.Receives event) (hstep : t.step c event = some t') :
    ∃ e socket', Channel.Receives e ∧ socket.step e = some socket' ∧ SocketOf t' socket' := by
  obtain rfl := h
  cases event with
  | thread l | exec p | exit p | close p | drop => exact hevent.elim
  | recv =>
      obtain ⟨socket, hrecv, hstep⟩ := Option.bind_eq_some_iff.mp hstep
      cases hstep
      exact ⟨.recv, socket, trivial, hrecv, rfl⟩
  | finish =>
      obtain ⟨socket, hfinish, hstep⟩ := Option.bind_eq_some_iff.mp hstep
      cases hstep
      exact ⟨.finish, socket, trivial, hfinish, rfl⟩

theorem step_of_socketOf (socket : Channel Nat) (t : Tree) (e : Channel.Event Nat)
    (socket' : Channel Nat) (h : SocketOf t socket) (he : Channel.Receives e)
    (hstep : socket.step e = some socket') :
    ∃ event t', Tree.Receives event ∧ t.step c event = some t' ∧ SocketOf t' socket' := by
  obtain rfl := h
  cases e with
  | send p a | fork p | close p => exact he.elim
  | recv => exact ⟨.recv, { t with socket := socket' }, trivial, by rw [Tree.step, hstep]; rfl, rfl⟩
  | finish =>
      exact ⟨.finish, { t with socket := socket' }, trivial, by rw [Tree.step, hstep]; rfl, rfl⟩

/-- **The tracker is told the end**, on its own, if and only if nobody holds the socket; it
never is before the tracking process has dropped its own end. -/
theorem collects_iff {n : Nat} (hrun : runs (Tree.step c) (Tree.start n) events = some t)
    (hended : t.socket.ended = false) :
    ((∃ events' t', (∀ event ∈ events', Tree.Receives event) ∧
        runs (Tree.step c) t events' = some t' ∧ t'.socket.ended = true) ↔
      true ∉ t.socket.holders) ∧
    (true ∉ t.alive → (true ∉ t.socket.holders ↔ t.socket.holders[0]? = some false)) := by
  have hsocket := socketInv_run hrun
  refine ⟨Iff.trans ⟨?_, ?_⟩ (Channel.ends_iff hsocket.sound hended), hsocket.holds.nobody_iff⟩
  · rintro ⟨events', t', hevents, hrun', hended'⟩
    obtain ⟨es, socket, hes, hruns, heq⟩ :=
      runs_simulation socketOf_of_step (rfl : SocketOf t t.socket) hevents hrun'
    exact ⟨es, socket, hes, hruns, heq ▸ hended'⟩
  · rintro ⟨es, socket, hes, hruns, hended'⟩
    obtain ⟨events', t', hevents, hrun', heq⟩ := runs_simulation
      (R := fun socket t ↦ SocketOf t socket) step_of_socketOf (rfl : SocketOf t t.socket) hes hruns
    exact ⟨events', t', hevents, hrun', heq ▸ hended'⟩

/-- The command has not started to send, and the tracking process waits for it. -/
theorem collects_after_exit : ∃ t,
    runs (Tree.step PathAccess.shortCodec) (.start 1) [.drop, .exit 0] = some t ∧
      ∃ events' t', (∀ event ∈ events', Tree.Receives event) ∧
        runs (Tree.step PathAccess.shortCodec) t events' = some t' ∧ t'.socket.ended = true := by
  have hrun : runs (Tree.step PathAccess.shortCodec) (.start 1) [.drop, .exit 0] = some _ := rfl
  exact ⟨_, hrun, (collects_iff hrun rfl).1.mpr (by decide)⟩

end Fspy.Shm
