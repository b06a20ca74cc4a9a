import Fspy.Seccomp.Listeners

/-!
# When the handling loop comes back

The loop joins all its tasks, and a task ends when its listener is closed: once no process
runs under its filter.  A process that has closed its descriptors still does, so the loop
may wait for it when nobody can send a listener any more.  `System` adds to the loop which
filters the processes run under, and `returns_iff` says when the loop can come back by itself.
-/

namespace Fspy.Seccomp.HandlingLoop

open Lib NotifyListener

variable {H : Type} {hd : Handler H} {ioctl : Nat → NotifResp → Except Errno Unit}
  {s s' : State H} {event : Event} {task task' : Task H} {poll : Poll}

/-! ## Progress -/

/-- What the loop and its tasks do while the processes do nothing. -/
def Event.Own : Event → Prop
  | .accept | .eof | .join _ | .joined => True
  | .turn _ poll => poll = .closed
  | _ => False

/-- The loop has not come back, and nobody can send a listener any more. -/
structure Waits (hd : Handler H) (ioctl : Nat → NotifResp → Except Errno Unit) (s : State H) :
    Prop where
  inv : ∃ events, Inv hd ioctl events s
  nobody : true ∉ s.socket.holders
  not_returned : ∀ r, s.phase ≠ .returned r

/-- How many tasks have not ended. -/
def unfinished (members : List (Task H)) : Nat := members.countP fun task ↦ task.result.isNone

/-- A listener is to be accepted, and its task to be closed and joined. -/
def variant (s : State H) : Nat :=
  (match s.phase with
    | .accepting => 1
    | _ => 0) + 3 * (s.socket.sent.length - s.socket.taken) +
  unfinished s.join_set.members + (s.join_set.members.length - s.join_set.joined.length)

theorem Waits.accepting (h : Waits hd ioctl s) (hphase : s.phase = .accepting) :
    ∃ event s', (event = .accept ∨ event = .eof) ∧ step hd ioctl s event = some s' ∧
      Waits hd ioctl s' ∧ variant s' < variant s := by
  obtain ⟨events, hinv⟩ := h.inv
  obtain ⟨hlength, hended, hjoined⟩ : Knows events s.socket s.join_set .accepting :=
    hphase ▸ hinv.knows
  rcases Nat.lt_or_eq_of_le hinv.sound.taken_le with hmore | hall
  · -- a listener is waiting
    have hrecv : s.socket.step .recv = some { s.socket with taken := s.socket.taken + 1 } :=
      if_pos ⟨hended, hmore⟩
    have hstep : step hd ioctl s .accept = some
        { s with
          socket := { s.socket with taken := s.socket.taken + 1 }
          join_set := { s.join_set with
            members := s.join_set.members ++ [.running hd.default] } } := by
      simp only [step, hphase, hrecv]
      rfl
    refine ⟨.accept, _, .inl rfl, hstep,
      ⟨⟨_, inv_step hinv hstep⟩, h.nobody, fun r ↦ by simp [hphase]⟩, ?_⟩
    have hcount : unfinished (s.join_set.members ++ [.running hd.default]) =
        unfinished s.join_set.members + 1 := by
      rw [unfinished, List.countP_append]
      rfl
    simp only [variant, hphase, hcount, hjoined, List.length_append, List.length_singleton,
      List.length_nil]
    omega
  · have hfinish : s.socket.step .finish = some { s.socket with ended := true } :=
      if_pos ⟨hended, hall, h.nobody⟩
    have hstep : step hd ioctl s .eof = some
        { s with phase := .joining [], socket := { s.socket with ended := true } } := by
      simp only [step, hphase, hfinish]
      rfl
    refine ⟨.eof, _, .inr rfl, hstep, ⟨⟨_, inv_step hinv hstep⟩, h.nobody, by simp⟩, ?_⟩
    simp only [variant, hphase]
    omega

/-- Joining a task that has failed ends the loop. -/
theorem Waits.join_failed {handlers : List H} {i : Nat} {e : IoError} (h : Waits hd ioctl s)
    (hphase : s.phase = .joining handlers)
    (hi : s.join_set.members[i]? = some (.ended (.error e))) :
    ∃ s', step hd ioctl s (.join i) = some s' ∧ s'.phase = .returned (.error e) := by
  obtain ⟨events, hinv⟩ := h.inv
  have hknows := hinv.knows
  rw [hphase] at hknows
  have hresult : (s.join_set.members[i]?).bind Task.result = some (.error e) := by rw [hi]; rfl
  have hnot : i ∉ s.join_set.joined := by
    intro hjoined
    have hmem : Except.error e ∈ s.join_set.results Task.result :=
      List.mem_filterMap.mpr ⟨i, hjoined, hresult⟩
    rw [hknows.2.2] at hmem
    obtain ⟨handler, -, heq⟩ := List.mem_map.mp hmem
    cases heq
  have hjoin : stepTasks hd ioctl s.join_set (.join i) =
      some { s.join_set with joined := s.join_set.joined ++ [i] } :=
    if_pos ⟨hnot, by rw [hresult]; rfl⟩
  refine ⟨{ s with
    join_set := { s.join_set with joined := s.join_set.joined ++ [i] }
    phase := .returned (.error e) }, ?_, rfl⟩
  simp only [step, hphase, hresult, hjoin]
  rfl

theorem Waits.joining {handlers : List H} (h : Waits hd ioctl s)
    (hphase : s.phase = .joining handlers) :
    ∃ event s', event.Own ∧ step hd ioctl s event = some s' ∧
      ((∃ r, s'.phase = .returned r) ∨ Waits hd ioctl s' ∧ variant s' < variant s) := by
  obtain ⟨events, hinv⟩ := h.inv
  by_cases hrunning : ∃ (i : Nat) (handler : H), s.join_set.members[i]? = some (.running handler)
  · obtain ⟨i, handler, hi⟩ := hrunning
    obtain ⟨hlt, hget⟩ := List.getElem?_eq_some_iff.mp hi
    have hstep : step hd ioctl s (.turn i .closed) = some
        { s with join_set := { s.join_set with
          members := s.join_set.members.set i (.ended (.ok handler)) } } := by
      simp only [step, hphase, stepTasks, JoinSet.step, hi]
      rfl
    refine ⟨.turn i .closed, _, rfl, hstep, .inr
      ⟨⟨⟨_, inv_step hinv hstep⟩, h.nobody, fun r ↦ by simp [hphase]⟩, ?_⟩⟩
    have hpos : 0 < unfinished s.join_set.members :=
      List.countP_pos_iff.mpr ⟨_, List.mem_of_getElem? hi, rfl⟩
    have hcount : unfinished (s.join_set.members.set i (.ended (.ok handler))) =
        unfinished s.join_set.members - 1 := by
      rw [unfinished, List.countP_set hlt, hget]
      rfl
    simp only [variant, hphase, hcount, List.length_set]
    omega
  by_cases hempty : s.join_set.Emptied
  · have hstep : step hd ioctl s .joined = some { s with phase := .returned (.ok handlers) } := by
      simp only [step, hphase]
      exact if_pos hempty
    exact ⟨.joined, _, trivial, hstep, .inl ⟨_, rfl⟩⟩
  · obtain ⟨i, hlt, hnot⟩ := hinv.tracked.exists_notMem_joined hempty
    cases hget : s.join_set.members[i] with
    | running handler =>
        exact absurd ⟨i, handler, List.getElem?_eq_some_iff.mpr ⟨hlt, hget⟩⟩ hrunning
    | ended r =>
        have hi : (s.join_set.members[i]?).bind Task.result = some r := by
          rw [List.getElem?_eq_getElem hlt, hget]
          rfl
        have hjoin : stepTasks hd ioctl s.join_set (.join i) =
            some { s.join_set with joined := s.join_set.joined ++ [i] } :=
          if_pos ⟨hnot, by rw [hi]; rfl⟩
        cases r with
        | ok handler =>
            have hstep : step hd ioctl s (.join i) = some { s with
                join_set := { s.join_set with joined := s.join_set.joined ++ [i] }
                phase := .joining (handlers ++ [handler]) } := by
              simp only [step, hphase, hi, hjoin]
              rfl
            refine ⟨.join i, _, trivial, hstep, .inr
              ⟨⟨⟨_, inv_step hinv hstep⟩, h.nobody, by simp⟩, ?_⟩⟩
            have hle := (inv_step hinv hstep).tracked.joined_le
            simp only [variant, hphase, List.length_append, List.length_singleton] at hle ⊢
            omega
        | error e =>
            have hi' : s.join_set.members[i]? = some (.ended (.error e)) := by
              rw [List.getElem?_eq_getElem hlt, hget]
            obtain ⟨s', hstep, hreturned⟩ := h.join_failed hphase hi'
            exact ⟨.join i, s', trivial, hstep, .inl ⟨_, hreturned⟩⟩

/-- What the supervisor does by itself does not change who holds the socket, and it goes on
accepting as long as someone does. -/
theorem own_step (hown : event.Own) (hstep : step hd ioctl s event = some s')
    (h : s.phase = .accepting ∨ true ∉ s.socket.holders) :
    s'.socket.holders = s.socket.holders ∧
      (s'.phase = .accepting ∨ true ∉ s.socket.holders) := by
  cases event with
  | send p | fork p | close p | acceptFailed received e => exact hown.elim
  | accept =>
      obtain ⟨hphase, socket, hrecv, join_set, -, rfl⟩ := step_cases hstep
      exact ⟨Channel.holders_of_receives hrecv trivial, .inl hphase⟩
  | eof =>
      obtain ⟨-, socket, hfinish, rfl⟩ := step_cases hstep
      exact ⟨Channel.holders_of_receives hfinish trivial,
        .inr (Channel.step_finish.mp hfinish).1.2.2⟩
  | turn i poll =>
      obtain ⟨-, join_set, -, rfl⟩ := step_cases hstep
      exact ⟨rfl, h⟩
  | join i =>
      obtain ⟨handlers, r, hphase, -, join_set, -, rfl⟩ := step_cases hstep
      exact ⟨rfl, .inr (h.resolve_left (by simp [hphase]))⟩
  | joined =>
      obtain ⟨handlers, hphase, -, rfl⟩ := step_cases hstep
      exact ⟨rfl, .inr (h.resolve_left (by simp [hphase]))⟩

/-! ## The processes under the filters -/

/-- The loop, and which filters the processes run under. -/
structure System (H : Type) where
  loop : State H
  /-- For each process, the listeners of its filters, by their number. -/
  filters : List (List Nat)

namespace System

inductive Event where
  | loop (event : HandlingLoop.Event)
  /-- A process ends. -/
  | exit (p : Nat)

def Event.Own : Event → Prop
  | .loop event => event.Own
  | .exit _ => False

/-- A process runs under the filter of the listener `i`. -/
def Lives (s : System H) (i : Nat) : Prop := ∃ filters ∈ s.filters, i ∈ filters

instance (s : System H) (i : Nat) : Decidable (s.Lives i) :=
  inferInstanceAs (Decidable (∃ filters ∈ s.filters, i ∈ filters))

def start (holders : List Bool) : System H :=
  ⟨HandlingLoop.start holders, holders.map fun _ ↦ []⟩

/-- A process that sends a listener has installed its filter, which new processes inherit. -/
def filtersAfter (s : System H) : HandlingLoop.Event → List (List Nat)
  | .send p => s.filters.modify p (s.loop.socket.sent.length :: ·)
  | .fork p => s.filters ++ [s.filters.getD p []]
  | _ => s.filters

/-- A listener is closed once no process runs under its filter. -/
def Allows (s : System H) : HandlingLoop.Event → Prop
  | .turn i .closed => ¬s.Lives i
  | _ => True

instance (s : System H) (event : HandlingLoop.Event) : Decidable (s.Allows event) :=
  match event with
  | .turn i .closed => inferInstanceAs (Decidable (¬s.Lives i))
  | .turn _ (.failed _) | .turn _ .notReadable | .turn _ (.recv _) => .isTrue trivial
  | .send _ | .fork _ | .close _ | .accept | .acceptFailed _ _ | .eof | .join _ | .joined =>
      .isTrue trivial

def step (hd : Handler H) (ioctl : Nat → NotifResp → Except Errno Unit) (s : System H) :
    Event → Option (System H)
  | .loop event =>
      if s.Allows event then
        (HandlingLoop.step hd ioctl s.loop event).map fun loop ↦ ⟨loop, s.filtersAfter event⟩
      else none
  | .exit p => (HandlingLoop.step hd ioctl s.loop (.close p)).map
      fun loop ↦ ⟨loop, s.filters.set p []⟩

end System

section System

variable {s s' : System H} {event : System.Event} {e : HandlingLoop.Event} {i : Nat}

theorem step_loop : System.step hd ioctl s (.loop e) = some s' ↔ s.Allows e ∧
    ∃ loop, step hd ioctl s.loop e = some loop ∧ s' = ⟨loop, s.filtersAfter e⟩ := by
  rw [System.step, Option.ite_none_right_eq_some, Option.map_eq_some_iff]
  simp only [eq_comm (b := s')]

/-! ## What a step does to the tasks -/

theorem turn_closed {ioctl : NotifResp → Except Errno Unit}
    (h : Task.turn hd ioctl task .closed = some task') :
    ∃ handler, task' = .ended (.ok handler) := by
  cases task with
  | running handler => exact ⟨handler, (Option.some.inj h).symm⟩
  | ended r => cases h

theorem closed_of_turn {ioctl : NotifResp → Except Errno Unit} {handler : H}
    (h : Task.turn hd ioctl task poll = some (.ended (.ok handler))) : poll = .closed := by
  cases task with
  | ended r => cases h
  | running handler' =>
      have h := Option.some.inj h
      rcases hnext : (next [poll]).1 with _ | e | _ | notify <;> rw [hnext] at h
      · cases h
      · cases h
      · cases poll with
        | closed => rfl
        | failed e | notReadable => cases hnext
        | recv r =>
            cases r with
            | ok notify => cases hnext
            | error e => cases e <;> cases hnext
      · dsimp only at h
        cases hsend : send_continue ioctl notify.id with
        | error e =>
            rw [hsend] at h
            cases h
        | ok u =>
            rw [hsend] at h
            cases hresult : (hd.handle_notify handler' notify).2 <;> simp [hresult] at h

/-- What a step does to the tasks. -/
theorem members_step {s s' : State H} (h : step hd ioctl s e = some s') :
    (e = .accept ∧ s.phase = .accepting ∧ s.socket.taken < s.socket.sent.length ∧
      s'.join_set.members = s.join_set.members ++ [.running hd.default]) ∨
    (∃ i poll task task', e = .turn i poll ∧ s.join_set.members[i]? = some task ∧
      Task.turn hd (ioctl i) task poll = some task' ∧
      s'.join_set.members = s.join_set.members.set i task') ∨
    s'.join_set.members = s.join_set.members := by
  cases e with
  | send p | fork p | close p =>
      obtain ⟨socket, -, rfl⟩ := step_cases h
      exact .inr (.inr rfl)
  | accept =>
      obtain ⟨hphase, socket, hrecv, join_set, hspawn, rfl⟩ := step_cases h
      cases hspawn
      exact .inl ⟨rfl, hphase, (Channel.step_recv.mp hrecv).1.2, rfl⟩
  | acceptFailed received err | eof =>
      obtain ⟨-, socket, -, rfl⟩ := step_cases h
      exact .inr (.inr rfl)
  | turn i poll =>
      obtain ⟨-, join_set, hset, rfl⟩ := step_cases h
      obtain ⟨task, task', htask, hturn, rfl⟩ := JoinSet.step_turn.mp hset
      exact .inr (.inl ⟨i, poll, task, task', rfl, htask, hturn, rfl⟩)
  | join i =>
      obtain ⟨handlers, r, -, -, join_set, hjoin, rfl⟩ := step_cases h
      obtain ⟨-, rfl⟩ := JoinSet.step_join.mp hjoin
      exact .inr (.inr rfl)
  | joined =>
      obtain ⟨handlers, -, -, rfl⟩ := step_cases h
      exact .inr (.inr rfl)

/-- A task that has ended had ended before, or has just taken its last turn. -/
theorem ended_of_step {s s' : State H} {r : Except IoError H} (h : step hd ioctl s e = some s')
    (hi : s'.join_set.members[i]? = some (.ended r)) :
    s.join_set.members[i]? = some (.ended r) ∨
      ∃ poll task, e = .turn i poll ∧ Task.turn hd (ioctl i) task poll = some (.ended r) := by
  rcases members_step h with ⟨-, -, -, heq⟩ | ⟨j, poll, task, task', rfl, -, hturn, heq⟩ | heq
  · rw [heq, List.getElem?_append] at hi
    split at hi
    · exact .inl hi
    · cases List.mem_singleton.mp (List.mem_of_getElem? hi)
  · rw [heq, List.getElem?_set] at hi
    split at hi
    · rename_i hij
      split at hi
      · obtain rfl := Option.some.inj hi
        exact .inr ⟨poll, task, hij ▸ rfl, hij ▸ hturn⟩
      · cases hi
    · exact .inl hi
  · exact .inl (heq ▸ hi)

/-- A task that has ended stays as it is. -/
theorem ended_step {s s' : State H} {r : Except IoError H} (h : step hd ioctl s e = some s')
    (hi : s.join_set.members[i]? = some (.ended r)) :
    s'.join_set.members[i]? = some (.ended r) := by
  have hlt := (List.getElem?_eq_some_iff.mp hi).1
  rcases members_step h with ⟨-, -, -, heq⟩ | ⟨j, poll, task, task', rfl, htask, hturn, heq⟩ | heq
  · rw [heq, List.getElem?_append_left hlt, hi]
  · have hij : j ≠ i := by
      rintro rfl
      obtain rfl := Option.some.inj (hi.symm.trans htask)
      cases hturn
    rw [heq, List.getElem?_set_ne hij, hi]
  · rw [heq, hi]

/-- The listeners that were sent. -/
theorem sent_step {s s' : State H} (h : step hd ioctl s e = some s') :
    (∃ p, e = .send p ∧ s'.socket.sent = s.socket.sent ++ [()]) ∨
      (∀ p, e ≠ .send p) ∧ s'.socket.sent = s.socket.sent := by
  cases e with
  | send p =>
      obtain ⟨socket, hsend, rfl⟩ := step_cases h
      obtain ⟨-, rfl⟩ := Channel.step_send.mp hsend
      exact .inl ⟨p, rfl, rfl⟩
  | fork p =>
      obtain ⟨socket, hfork, rfl⟩ := step_cases h
      obtain ⟨holds, -, rfl⟩ := Channel.step_fork.mp hfork
      exact .inr ⟨nofun, rfl⟩
  | close p =>
      obtain ⟨socket, hclose, rfl⟩ := step_cases h
      obtain ⟨-, rfl⟩ := Channel.step_close.mp hclose
      exact .inr ⟨nofun, rfl⟩
  | accept =>
      obtain ⟨-, socket, hrecv, join_set, -, rfl⟩ := step_cases h
      obtain ⟨-, rfl⟩ := Channel.step_recv.mp hrecv
      exact .inr ⟨nofun, rfl⟩
  | acceptFailed received err =>
      obtain ⟨-, socket, hsocket, rfl⟩ := step_cases h
      refine .inr ⟨nofun, ?_⟩
      split at hsocket
      · obtain ⟨-, rfl⟩ := Channel.step_recv.mp hsocket
        rfl
      · cases hsocket
        rfl
  | eof =>
      obtain ⟨-, socket, hfinish, rfl⟩ := step_cases h
      obtain ⟨-, rfl⟩ := Channel.step_finish.mp hfinish
      exact .inr ⟨nofun, rfl⟩
  | turn i poll =>
      obtain ⟨-, join_set, -, rfl⟩ := step_cases h
      exact .inr ⟨nofun, rfl⟩
  | join i =>
      obtain ⟨handlers, r, -, -, join_set, -, rfl⟩ := step_cases h
      exact .inr ⟨nofun, rfl⟩
  | joined =>
      obtain ⟨handlers, -, -, rfl⟩ := step_cases h
      exact .inr ⟨nofun, rfl⟩

/-! ## What the processes know -/

/-- What holds of the loop and of the filters. -/
structure System.Inv (hd : Handler H) (ioctl : Nat → NotifResp → Except Errno Unit)
    (s : System H) : Prop where
  loop : ∃ events, HandlingLoop.Inv hd ioctl events s.loop
  members : s.loop.join_set.members.length ≤ s.loop.socket.sent.length
  sent : ∀ i, s.Lives i → i < s.loop.socket.sent.length
  /-- A task ends well only when no process is left under its filter. -/
  ended : ∀ i handler, s.loop.join_set.members[i]? = some (.ended (.ok handler)) → ¬s.Lives i

theorem System.inv_start (holders : List Bool) : System.Inv hd ioctl (System.start holders) where
  loop := ⟨[], HandlingLoop.inv_start holders⟩
  members := Nat.le_refl 0
  sent := by
    rintro i ⟨filters, hmem, hi⟩
    obtain ⟨-, -, rfl⟩ := List.mem_map.mp hmem
    cases hi
  ended _ _ h := nomatch h

/-- A process that is new under a filter has just sent its listener. -/
theorem lives_of_filtersAfter (e : HandlingLoop.Event) {loop : State H}
    (h : System.Lives ⟨loop, s.filtersAfter e⟩ i) :
    s.Lives i ∨ (∃ p, e = .send p) ∧ i = s.loop.socket.sent.length := by
  obtain ⟨filters, hmem, hi⟩ := h
  cases e with
  | send p =>
      obtain ⟨q, hq, rfl⟩ := List.mem_iff_getElem.mp hmem
      simp only [System.filtersAfter, List.length_modify] at hq
      simp only [System.filtersAfter, List.getElem_modify] at hi
      have hold : ∀ {j}, j ∈ s.filters[q] → s.Lives j := fun hj ↦ ⟨_, List.getElem_mem hq, hj⟩
      split at hi
      · rcases List.mem_cons.mp hi with rfl | hi
        · exact .inr ⟨⟨p, rfl⟩, rfl⟩
        · exact .inl (hold hi)
      · exact .inl (hold hi)
  | fork p =>
      rcases List.mem_append.mp hmem with hmem | hmem
      · exact .inl ⟨filters, hmem, hi⟩
      · rw [List.mem_singleton.mp hmem, List.getD_eq_getElem?_getD] at hi
        cases hp : s.filters[p]? with
        | none =>
            rw [hp] at hi
            cases hi
        | some filters' =>
            rw [hp] at hi
            exact .inl ⟨filters', List.mem_of_getElem? hp, hi⟩
  | _ => exact .inl ⟨filters, hmem, hi⟩

theorem members_length_le {s s' : State H} {events : List HandlingLoop.Event}
    (hinv : HandlingLoop.Inv hd ioctl events s)
    (hle : s.join_set.members.length ≤ s.socket.sent.length)
    (h : step hd ioctl s e = some s') :
    s'.join_set.members.length ≤ s'.socket.sent.length := by
  have hsent : s.socket.sent.length ≤ s'.socket.sent.length := by
    rcases sent_step h with ⟨p, -, heq⟩ | ⟨-, heq⟩
    · rw [heq, List.length_append]
      exact Nat.le_add_right _ _
    · rw [heq]
  rcases members_step h with ⟨-, hphase, hmore, heq⟩ | ⟨j, poll, task, task', -, -, -, heq⟩ | heq
  · have hknows := hinv.knows
    rw [hphase] at hknows
    rw [heq, List.length_append, hknows.1]
    exact Nat.le_trans hmore hsent
  · rw [heq, List.length_set]
    exact Nat.le_trans hle hsent
  · rw [heq]
    exact Nat.le_trans hle hsent

theorem System.inv_step (h : System.Inv hd ioctl s)
    (hstep : System.step hd ioctl s event = some s') :
    System.Inv hd ioctl s' := by
  obtain ⟨events, hinv⟩ := h.loop
  cases event with
  | loop e =>
      obtain ⟨hallows, loop, hloop, rfl⟩ := step_loop.mp hstep
      refine ⟨⟨_, HandlingLoop.inv_step hinv hloop⟩, members_length_le hinv h.members hloop,
        fun i hi ↦ ?_, fun i handler hended hi ↦ ?_⟩
      · rcases sent_step hloop with ⟨p, -, heq⟩ | ⟨hnot, heq⟩
        · rw [heq, List.length_append, List.length_singleton]
          rcases lives_of_filtersAfter e hi with hi | ⟨-, rfl⟩
          · exact Nat.lt_succ_of_lt (h.sent i hi)
          · exact Nat.lt_succ_self _
        · rw [heq]
          rcases lives_of_filtersAfter e hi with hi | ⟨⟨p, rfl⟩, -⟩
          · exact h.sent i hi
          · exact absurd rfl (hnot p)
      · rcases lives_of_filtersAfter e hi with hi | ⟨⟨p, rfl⟩, rfl⟩
        · rcases ended_of_step hloop hended with hold | ⟨poll, task, rfl, hturn⟩
          · exact h.ended i handler hold hi
          · obtain rfl := closed_of_turn hturn
            exact hallows hi
        · -- the listener that was sent has no task yet
          rcases ended_of_step hloop hended with hold | ⟨poll, task, heq, -⟩
          · exact absurd (List.getElem?_eq_some_iff.mp hold).1 (Nat.not_lt.mpr h.members)
          · cases heq
  | exit p =>
      obtain ⟨loop, hloop, rfl⟩ := Option.map_eq_some_iff.mp hstep
      have hless : ∀ i, System.Lives ⟨loop, s.filters.set p []⟩ i → s.Lives i := by
        rintro i ⟨filters, hmem, hi⟩
        rcases List.mem_or_eq_of_mem_set hmem with hmem | rfl
        · exact ⟨filters, hmem, hi⟩
        · cases hi
      obtain ⟨socket, hclose, heq⟩ := Option.bind_eq_some_iff.mp hloop
      cases heq
      obtain ⟨-, rfl⟩ := Channel.step_close.mp hclose
      exact ⟨⟨_, HandlingLoop.inv_step hinv hloop⟩, h.members, fun i hi ↦ h.sent i (hless i hi),
        fun i handler hended hi ↦ h.ended i handler hended (hless i hi)⟩

theorem System.inv_run {holders : List Bool} {events : List System.Event}
    (hrun : runs (System.step hd ioctl) (System.start holders) events = some s) :
    System.Inv hd ioctl s :=
  runs_invariant (System.Inv hd ioctl) (System.inv_start holders)
    (fun _ _ _ h hstep ↦ System.inv_step h hstep) hrun

theorem filters_own (hown : e.Own) : s.filtersAfter e = s.filters := by
  cases e with
  | send p | fork p => exact hown.elim
  | _ => rfl

/-! ## When the loop comes back -/

/-- The loop has not come back, a process runs under the filter of a listener, and no task has
failed. -/
structure Stuck (hd : Handler H) (ioctl : Nat → NotifResp → Except Errno Unit) (i : Nat)
    (s : System H) : Prop where
  inv : System.Inv hd ioctl s
  lives : s.Lives i
  not_failed : ∀ (j : Nat) (err : IoError),
    s.loop.join_set.members[j]? ≠ some (.ended (.error err))
  not_returned : ∀ r, s.loop.phase ≠ .returned r

/-- That does not change by itself. -/
theorem stuck_step (h : Stuck hd ioctl i s) (hown : event.Own)
    (hstep : System.step hd ioctl s event = some s') : Stuck hd ioctl i s' := by
  have hinv' := System.inv_step h.inv hstep
  obtain ⟨events, hinv⟩ := h.inv.loop
  cases event with
  | exit p => exact hown.elim
  | loop e =>
      obtain ⟨-, loop, hloop, rfl⟩ := step_loop.mp hstep
      refine ⟨hinv', ?_, fun j err hj ↦ ?_, fun r hreturned ↦ ?_⟩
      · rw [filters_own hown]
        exact h.lives
      · rcases ended_of_step hloop hj with hj | ⟨poll, task, rfl, hturn⟩
        · exact h.not_failed j err hj
        · obtain rfl : poll = .closed := hown
          obtain ⟨handler, heq⟩ := turn_closed hturn
          cases heq
      · cases e with
        | send p | fork p | close p | acceptFailed received err => exact hown.elim
        | accept =>
            obtain ⟨hphase, socket, -, join_set, -, rfl⟩ := step_cases hloop
            exact h.not_returned r hreturned
        | eof =>
            obtain ⟨-, socket, -, rfl⟩ := step_cases hloop
            cases hreturned
        | turn j poll =>
            obtain ⟨hnot, join_set, -, rfl⟩ := step_cases hloop
            exact hnot r hreturned
        | join j =>
            obtain ⟨handlers, r', -, hresult, join_set, -, rfl⟩ := step_cases hloop
            cases r' with
            | ok handler => cases hreturned
            | error err =>
                obtain ⟨task, htask, hended⟩ := Option.bind_eq_some_iff.mp hresult
                cases task with
                | running handler => cases hended
                | ended r' =>
                    obtain rfl := Option.some.inj hended
                    exact h.not_failed j err htask
        | joined =>
            -- the task of the listener would have ended
            obtain ⟨handlers, hphase, hempty, rfl⟩ := step_cases hloop
            have hknows := hinv.knows
            rw [hphase] at hknows
            have hlt : i < s.loop.join_set.members.length := hknows.1 ▸ h.inv.sent i h.lives
            have hget := List.getElem?_eq_getElem hlt
            cases hmember : s.loop.join_set.members[i] with
            | running handler =>
                have hended := hinv.tracked.all_ended hempty _ (List.getElem_mem hlt)
                rw [hmember] at hended
                cases hended
            | ended r' =>
                rw [hmember] at hget
                cases r' with
                | ok handler => exact h.inv.ended i handler hget h.lives
                | error err => exact h.not_failed i err hget

/-- The loop has not come back, and nothing is in its way. -/
structure Frees (hd : Handler H) (ioctl : Nat → NotifResp → Except Errno Unit)
    (s : System H) : Prop where
  waits : Waits hd ioctl s.loop
  free : (∃ (i : Nat) (err : IoError), s.loop.join_set.members[i]? = some (.ended (.error err))) ∨
    ∀ i, ¬s.Lives i

theorem allows_of_free (e : HandlingLoop.Event) (h : ∀ i, ¬s.Lives i) : s.Allows e := by
  unfold System.Allows
  split
  · exact h _
  · trivial

/-- What the loop does next, as long as nothing is in its way. -/
theorem Frees.next (h : Frees hd ioctl s) : ∃ event s', System.Event.Own event ∧
    System.step hd ioctl s event = some s' ∧ ((∃ r, s'.loop.phase = .returned r) ∨
      Frees hd ioctl s' ∧ variant s'.loop < variant s.loop) := by
  have hown : ∀ {e loop}, e.Own → s.Allows e → step hd ioctl s.loop e = some loop →
      System.step hd ioctl s (.loop e) = some ⟨loop, s.filters⟩ := by
    intro e loop hown hallows hloop
    exact step_loop.mpr ⟨hallows, loop, hloop, by rw [filters_own hown]⟩
  have hfree : ∀ {e loop}, step hd ioctl s.loop e = some loop → Waits hd ioctl loop →
      Frees hd ioctl ⟨loop, s.filters⟩ := by
    intro e loop hloop hwaits
    exact ⟨hwaits, h.free.imp (fun ⟨i, err, hi⟩ ↦ ⟨i, err, ended_step hloop hi⟩) id⟩
  cases hphase : s.loop.phase with
  | accepting =>
      obtain ⟨e, loop, he, hloop, hwaits, hless⟩ := h.waits.accepting hphase
      have hallows : s.Allows e ∧ e.Own := by
        rcases he with rfl | rfl
        · exact ⟨trivial, trivial⟩
        · exact ⟨trivial, trivial⟩
      exact ⟨.loop e, _, hallows.2, hown hallows.2 hallows.1 hloop,
        .inr ⟨hfree hloop hwaits, hless⟩⟩
  | joining handlers =>
      rcases h.free with ⟨i, err, hi⟩ | hnobody
      · obtain ⟨loop, hloop, hreturned⟩ := h.waits.join_failed hphase hi
        exact ⟨.loop (.join i), _, trivial, hown trivial trivial hloop, .inl ⟨_, hreturned⟩⟩
      · obtain ⟨e, loop, he, hloop, hnext⟩ := h.waits.joining hphase
        refine ⟨.loop e, _, he, hown he (allows_of_free e hnobody) hloop, ?_⟩
        exact hnext.imp id fun ⟨hwaits, hless⟩ ↦ ⟨hfree hloop hwaits, hless⟩
  | returned r => exact absurd hphase (h.waits.not_returned r)

/-- **The handling loop comes back** by itself if and only if nobody holds the socket any more
and nobody runs under a filter, unless a task has failed. -/
theorem returns_iff {holders : List Bool} {events : List System.Event}
    (hrun : runs (System.step hd ioctl) (System.start holders) events = some s)
    (hnot : ∀ r, s.loop.phase ≠ .returned r) :
    (∃ events' s' r, (∀ event ∈ events', System.Event.Own event) ∧
      runs (System.step hd ioctl) s events' = some s' ∧ s'.loop.phase = .returned r) ↔
        true ∉ s.loop.socket.holders ∧
          ((∃ (i : Nat) (err : IoError),
            s.loop.join_set.members[i]? = some (.ended (.error err))) ∨ ∀ i, ¬s.Lives i) := by
  have hinv := System.inv_run hrun
  obtain ⟨events₀, hloop⟩ := hinv.loop
  constructor
  · rintro ⟨events', s', r, hown, hrun', hreturned⟩
    have hstart : s.loop.phase = .accepting ∨ true ∉ s.loop.socket.holders := by
      have hknows := hloop.knows
      cases hphase : s.loop.phase with
      | accepting => exact .inl rfl
      | joining handlers =>
          rw [hphase] at hknows
          exact .inr (hloop.sound.nobody hknows.2.1)
      | returned r => exact absurd hphase (hnot r)
    have hsame : s'.loop.socket.holders = s.loop.socket.holders ∧
        (s'.loop.phase = .accepting ∨ true ∉ s.loop.socket.holders) := by
      refine runs_induction (C := fun _ event ↦ System.Event.Own event)
        (fun _ s' ↦ s'.loop.socket.holders = s.loop.socket.holders ∧
          (s'.loop.phase = .accepting ∨ true ∉ s.loop.socket.holders)) ⟨rfl, hstart⟩ ?_ hrun'
        (.of_forall fun _ ↦ hown)
      rintro _ s₁ (e | p) s₂ ⟨hholders, h⟩ hown hstep
      · obtain ⟨-, loop, hnext, rfl⟩ := step_loop.mp hstep
        rw [← hholders] at h ⊢
        exact own_step hown hnext h
      · exact hown.elim
    refine ⟨hsame.2.resolve_left (by simp [hreturned]), ?_⟩
    by_contra hneither
    obtain ⟨hfailed, hlives⟩ := not_or.mp hneither
    obtain ⟨i, hi⟩ := not_forall_not.mp hlives
    have hstuck : Stuck hd ioctl i s :=
      ⟨hinv, hi, fun j err hj ↦ hfailed ⟨j, err, hj⟩, hnot⟩
    have hstuck' : Stuck hd ioctl i s' :=
      runs_induction (C := fun _ event ↦ System.Event.Own event) (fun _ s' ↦ Stuck hd ioctl i s')
        hstuck (fun _ _ _ _ h hown hstep ↦ stuck_step h hown hstep) hrun'
        (.of_forall fun _ ↦ hown)
    exact hstuck'.not_returned r hreturned
  · rintro ⟨hnobody, hfree⟩
    have hfrees : Frees hd ioctl s := ⟨⟨⟨events₀, hloop⟩, hnobody, hnot⟩, hfree⟩
    obtain ⟨events', s', hown, hrun', r, hreturned⟩ :=
      runs_of_variant (fun s ↦ variant s.loop) (fun _ h ↦ h.next) hfrees
    exact ⟨events', s', r, hown, hrun', hreturned⟩

end System

/-- A process has installed its filter and sent the listener, which waits, and has ended. -/
theorem returns_one : ∃ s : System Nat,
    runs (System.step sampleHandler fun _ _ ↦ .ok ()) (System.start [true])
      [.loop (.send 0), .exit 0] = some s ∧
      ∃ events s' r, (∀ event ∈ events, System.Event.Own event) ∧
        runs (System.step sampleHandler fun _ _ ↦ .ok ()) s events = some s' ∧
          s'.loop.phase = .returned r := by
  have hrun : runs (System.step sampleHandler fun _ _ ↦ .ok ()) (System.start [true])
      [.loop (.send 0), .exit 0] = some ⟨⟨.accepting, ⟨[false], [()], 0, false⟩, .empty⟩, [[]]⟩ :=
    rfl
  refine ⟨_, hrun, (returns_iff hrun fun _ h ↦ nomatch h).mpr ⟨by decide, .inr fun i ↦ ?_⟩⟩
  rintro ⟨filters, hmem, hi⟩
  rw [List.mem_singleton.mp hmem] at hi
  cases hi

/-- A process that has closed its descriptors and runs on keeps the loop from coming back. -/
example : ∃ s : System Nat,
    runs (System.step sampleHandler fun _ _ ↦ .ok ()) (System.start [true])
      [.loop (.send 0), .loop (.close 0)] = some s ∧ true ∉ s.loop.socket.holders ∧ s.Lives 0 :=
  ⟨_, rfl, by decide, by decide⟩

end Fspy.Seccomp.HandlingLoop
