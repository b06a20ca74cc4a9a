import Mathlib.Data.Set.List
import Fspy.Lib.Channel
import Fspy.Lib.JoinSet
import Fspy.Seccomp.Supervisor

/-!
# The handling loop of the supervisor

Every process below a tracked command holds the socket that listeners are sent through
and may send one.  `handling_loop` spawns a task for each that it receives until nobody
holds the socket any more, and then waits for all the tasks; an error of the loop drops
the set, and with it the tasks that are left.  Tasks, senders and the loop move in any
order.  `handling_loop_returned` says that the loop comes back with what each listener
would have led to on its own.
-/

namespace Fspy.Seccomp.HandlingLoop

open Lib NotifyListener

variable {H : Type}

/-! ## Tasks -/

/-- The task of a listener, between two turns of the loop in `next`. -/
inductive Task (H : Type) where
  | running (handler : H)
  | ended (r : Except IoError H)

namespace Task

def result : Task H → Option (Except IoError H)
  | .running _ => none
  | .ended r => some r

/-- One turn, with the handler and the response if a notification was received. -/
def turn (hd : Handler H) (ioctl : NotifResp → Except Errno Unit) :
    Task H → Poll → Option (Task H)
  | .ended _, _ => none
  | .running handler, poll => some <| match (next [poll]).1 with
      | none => .running handler
      | some (.error e) => .ended (.error e)
      | some (.ok none) => .ended (.ok handler)
      | some (.ok (some notify)) =>
          let (handler', handle_result) := hd.handle_notify handler notify
          match send_continue ioctl notify.id with
          | .error e => .ended (.error e)
          | .ok () => match handle_result with
            | .error e => .ended (.error e)
            | .ok () => .running handler'

end Task

/-! ## The loop -/

/-- Where the loop is. -/
inductive Phase (H : Type) where
  | accepting
  | joining (handlers : List H)
  | returned (r : Except IoError (List H))

structure State (H : Type) where
  phase : Phase H
  socket : Channel Unit
  join_set : JoinSet (Task H)

inductive Event where
  /-- A process sends its listener. -/
  | send (p : Nat)
  /-- A process creates another one. -/
  | fork (p : Nat)
  /-- A process ends, or closes the socket. -/
  | close (p : Nat)
  /-- `recv_fd` returns a descriptor, and a task is spawned for it. -/
  | accept
  /-- `recv_fd` fails, or `NotifyListener::try_from` does with what it has returned. -/
  | acceptFailed (received : Bool) (e : IoError)
  /-- `recv_fd` returns `UnexpectedEof`. -/
  | eof
  /-- A turn of the task `i`, whatever it finds; `System` says when a listener is closed. -/
  | turn (i : Nat) (poll : Poll)
  /-- `join_next` returns the result of the task `i`. -/
  | join (i : Nat)
  /-- `join_next` returns `None`. -/
  | joined

/-- The loop, and all that run next to it. -/
def start (holders : List Bool) : State H := ⟨.accepting, .opened holders, .empty⟩

variable (hd : Handler H) (ioctl : Nat → NotifResp → Except Errno Unit)

/-- What happens to the set of tasks. -/
def stepTasks : JoinSet (Task H) → JoinSet.Event (Task H) Poll → Option (JoinSet (Task H)) :=
  JoinSet.step (fun i ↦ Task.turn hd (ioctl i)) Task.result

def step (s : State H) : Event → Option (State H)
  | .send p => do
      let socket ← s.socket.step (.send p ())
      return { s with socket }
  | .fork p => do
      let socket ← s.socket.step (.fork p)
      return { s with socket }
  | .close p => do
      let socket ← s.socket.step (.close p)
      return { s with socket }
  | .accept => match s.phase with
      | .accepting => do
          let socket ← s.socket.step .recv
          let join_set ← stepTasks hd ioctl s.join_set (.spawn (.running hd.default))
          return { s with socket, join_set }
      | _ => none
  | .acceptFailed received e => match s.phase with
      | .accepting => (if received then s.socket.step .recv else some s.socket).map
          fun socket ↦ { s with socket, phase := .returned (.error e) }
      | _ => none
  | .eof => match s.phase with
      | .accepting => do
          let socket ← s.socket.step .finish
          return { s with socket, phase := .joining [] }
      | _ => none
  | .turn i poll => match s.phase with
      -- the set is dropped when the loop returns
      | .returned _ => none
      | _ => do
          let join_set ← stepTasks hd ioctl s.join_set (.turn i poll)
          return { s with join_set }
  | .join i => match s.phase, (s.join_set.members[i]?).bind Task.result with
      | .joining handlers, some (.ok handler) => do
          let join_set ← stepTasks hd ioctl s.join_set (.join i)
          return { s with join_set, phase := .joining (handlers ++ [handler]) }
      | .joining _, some (.error e) => do
          let join_set ← stepTasks hd ioctl s.join_set (.join i)
          return { s with join_set, phase := .returned (.error e) }
      | _, _ => none
  | .joined => match s.phase with
      | .joining handlers =>
          if s.join_set.joined.length = s.join_set.members.length then
            some { s with phase := .returned (.ok handlers) }
          else none
      | _ => none

/-- What events are to the set of tasks. -/
def taskEvents (events : List Event) : List (JoinSet.Event (Task H) Poll) :=
  events.filterMap fun
    | .accept => some (.spawn (.running hd.default))
    | .turn i poll => some (.turn i poll)
    | .join i => some (.join i)
    | _ => none

/-- What the listener `i` found. -/
def pollsOf (i : Nat) (events : List Event) : List Poll :=
  events.filterMap fun
    | .turn j poll => if j = i then some poll else none
    | _ => none

/-- The errors of `recv_fd` and `NotifyListener::try_from`. -/
def acceptErrors (events : List Event) : List IoError :=
  events.filterMap fun
    | .acceptFailed _ e => some e
    | _ => none

variable {hd : Handler H} {ioctl : Nat → NotifResp → Except Errno Unit} {s s' : State H}
  {event : Event} {events : List Event} {task task' : Task H} {poll : Poll}

/-- What a step is. -/
theorem step_cases (h : step hd ioctl s event = some s') :
    match event with
    | .send p => ∃ socket, s.socket.step (.send p ()) = some socket ∧ s' = { s with socket }
    | .fork p => ∃ socket, s.socket.step (.fork p) = some socket ∧ s' = { s with socket }
    | .close p => ∃ socket, s.socket.step (.close p) = some socket ∧ s' = { s with socket }
    | .accept => s.phase = .accepting ∧ ∃ socket, s.socket.step .recv = some socket ∧
        ∃ join_set, stepTasks hd ioctl s.join_set (.spawn (.running hd.default)) = some join_set ∧
          s' = { s with socket, join_set }
    | .acceptFailed received e => s.phase = .accepting ∧
        ∃ socket, (if received then s.socket.step .recv else some s.socket) = some socket ∧
          s' = { s with socket, phase := .returned (.error e) }
    | .eof => s.phase = .accepting ∧ ∃ socket, s.socket.step .finish = some socket ∧
        s' = { s with socket, phase := .joining [] }
    | .turn i poll => (∀ r, s.phase ≠ .returned r) ∧
        ∃ join_set, stepTasks hd ioctl s.join_set (.turn i poll) = some join_set ∧
          s' = { s with join_set }
    | .join i => ∃ handlers r, s.phase = .joining handlers ∧
        (s.join_set.members[i]?).bind Task.result = some r ∧
        ∃ join_set, stepTasks hd ioctl s.join_set (.join i) = some join_set ∧
          s' = { s with
            join_set
            phase := match r with
              | .ok handler => .joining (handlers ++ [handler])
              | .error e => .returned (.error e) }
    | .joined => ∃ handlers, s.phase = .joining handlers ∧ s.join_set.Emptied ∧
        s' = { s with phase := .returned (.ok handlers) } := by
  cases event with
  | send p | fork p | close p =>
      obtain ⟨socket, hsocket, h⟩ := Option.bind_eq_some_iff.mp h
      cases h
      exact ⟨socket, hsocket, rfl⟩
  | accept =>
      simp only [step] at h
      split at h
      · rename_i hphase
        obtain ⟨socket, hrecv, h⟩ := Option.bind_eq_some_iff.mp h
        obtain ⟨join_set, hspawn, h⟩ := Option.bind_eq_some_iff.mp h
        cases h
        exact ⟨hphase, socket, hrecv, join_set, hspawn, rfl⟩
      · cases h
  | acceptFailed received e =>
      simp only [step] at h
      split at h
      · rename_i hphase
        obtain ⟨socket, hsocket, rfl⟩ := Option.map_eq_some_iff.mp h
        exact ⟨hphase, socket, hsocket, rfl⟩
      · cases h
  | eof =>
      simp only [step] at h
      split at h
      · rename_i hphase
        obtain ⟨socket, hfinish, h⟩ := Option.bind_eq_some_iff.mp h
        cases h
        exact ⟨hphase, socket, hfinish, rfl⟩
      · cases h
  | turn i poll =>
      simp only [step] at h
      split at h
      · cases h
      · rename_i hnot
        obtain ⟨join_set, hturn, h⟩ := Option.bind_eq_some_iff.mp h
        cases h
        exact ⟨hnot, join_set, hturn, rfl⟩
  | join i =>
      simp only [step] at h
      split at h
      · rename_i handlers handler hphase hresult
        obtain ⟨join_set, hjoin, h⟩ := Option.bind_eq_some_iff.mp h
        cases h
        exact ⟨handlers, .ok handler, hphase, hresult, join_set, hjoin, rfl⟩
      · rename_i handlers e hphase hresult
        obtain ⟨join_set, hjoin, h⟩ := Option.bind_eq_some_iff.mp h
        cases h
        exact ⟨handlers, .error e, hphase, hresult, join_set, hjoin, rfl⟩
      · cases h
  | joined =>
      simp only [step] at h
      split at h
      · rename_i handlers hphase
        obtain ⟨hempty, h⟩ := Option.ite_none_right_eq_some.mp h
        cases h
        exact ⟨handlers, hphase, hempty, rfl⟩
      · cases h

/-! ## A task on its own -/

theorem stops : JoinSet.Stops (fun i ↦ Task.turn hd (ioctl i)) Task.result := by
  intro i t l hended
  cases t with
  | running handler => cases hended
  | ended r => rfl

section

variable {ioctl : NotifResp → Except Errno Unit} {handler : H} {polls rest : List Poll}

theorem next_cons (poll : Poll) (polls : List Poll) :
    next (poll :: polls) = match (next [poll]).1 with
      | none => next polls
      | some r => (some r, polls) := by
  cases poll with
  | failed e | closed | notReadable => rfl
  | recv r =>
      cases r with
      | ok notify => rfl
      | error e => cases e <;> rfl

theorem result_of_waiting (h : next polls = (none, rest)) :
    (handlingTask hd ioctl handler polls).result = none := by
  rw [handlingTask]
  split <;> simp_all

theorem result_of_failed {e : IoError} (h : next polls = (some (.error e), rest)) :
    (handlingTask hd ioctl handler polls).result = some (.error e) := by
  rw [handlingTask]
  split <;> simp_all

theorem result_of_closed (h : next polls = (some (.ok none), rest)) :
    (handlingTask hd ioctl handler polls).result = some (.ok handler) := by
  rw [handlingTask]
  split <;> simp_all

/-- The response is sent first, and the result of the handler is looked at after that. -/
theorem result_of_received {notify : Notif} (h : next polls = (some (.ok (some notify)), rest)) :
    (handlingTask hd ioctl handler polls).result = match send_continue ioctl notify.id with
      | .error e => some (.error e)
      | .ok () => match (hd.handle_notify handler notify).2 with
        | .error e => some (.error e)
        | .ok () => (handlingTask hd ioctl (hd.handle_notify handler notify).1 rest).result := by
  rw [handlingTask]
  split <;> simp_all
  cases send_continue ioctl notify.id with
  | error e => rfl
  | ok u => cases (hd.handle_notify handler notify).2 <;> rfl

theorem result_congr {polls' : List Poll} (h : next polls = next polls') :
    (handlingTask hd ioctl handler polls).result =
      (handlingTask hd ioctl handler polls').result := by
  rcases hnext : next polls with ⟨r, rest⟩
  rw [hnext] at h
  rcases r with _ | e | _ | notify
  · rw [result_of_waiting hnext, result_of_waiting h.symm]
  · rw [result_of_failed hnext, result_of_failed h.symm]
  · rw [result_of_closed hnext, result_of_closed h.symm]
  · rw [result_of_received hnext, result_of_received h.symm]

/-- Where the rest of the schedule leads a task. -/
def Task.leadsTo (hd : Handler H) (ioctl : NotifResp → Except Errno Unit) (polls : List Poll) :
    Task H → Option (Except IoError H)
  | .running handler => (handlingTask hd ioctl handler polls).result
  | .ended r => some r

/-- A turn is what the task of a listener does first. -/
theorem handlingTask_cons (h : Task.turn hd ioctl (.running handler) poll = some task) :
    (handlingTask hd ioctl handler (poll :: polls)).result = task.leadsTo hd ioctl polls := by
  have hcons := next_cons poll polls
  obtain rfl := Option.some.inj h
  clear h
  rcases hnext : (next [poll]).1 with _ | e | _ | notify <;> rw [hnext] at hcons
  · exact result_congr hcons
  · exact result_of_failed hcons
  · exact result_of_closed hcons
  · rw [result_of_received hcons]
    dsimp only
    cases send_continue ioctl notify.id with
    | error e => rfl
    | ok u => cases (hd.handle_notify handler notify).2 <;> rfl

/-- Turn by turn, a task gets where the task of the listener does. -/
theorem handlingTask_of_runs (h : runs (Task.turn hd ioctl) (.running handler) polls = some task) :
    (handlingTask hd ioctl handler polls).result = task.result := by
  induction polls generalizing handler with
  | nil =>
      cases h
      exact result_of_waiting rfl
  | cons poll polls ih =>
      obtain ⟨task₁, hturn, h⟩ := runs_cons.mp h
      rw [handlingTask_cons hturn]
      cases task₁ with
      | running handler' => exact ih h
      | ended r =>
          cases polls with
          | nil =>
              cases h
              rfl
          | cons poll polls => cases h

end

/-! ## What the loop knows -/

/-- What the tasks and the socket say about where the loop is. -/
def Knows (events : List Event) (socket : Channel Unit) (join_set : JoinSet (Task H)) :
    Phase H → Prop
  | .accepting => join_set.members.length = socket.taken ∧ socket.ended = false ∧
      join_set.joined = []
  | .joining handlers => join_set.members.length = socket.sent.length ∧ socket.ended = true ∧
      join_set.results Task.result = handlers.map .ok
  | .returned (.ok handlers) => join_set.members.length = socket.sent.length ∧
      socket.ended = true ∧ join_set.results Task.result = handlers.map .ok ∧ join_set.Emptied
  | .returned (.error e) => e ∈ acceptErrors events ∨
      ∃ i : Nat, (join_set.members[i]?).bind Task.result = some (.error e)

/-- What holds of the loop after some events. -/
structure Inv (hd : Handler H) (ioctl : Nat → NotifResp → Except Errno Unit)
    (events : List Event) (s : State H) : Prop where
  sound : s.socket.Sound
  tracked : s.join_set.Tracked (fun i ↦ Task.turn hd (ioctl i)) Task.result (taskEvents hd events)
  spawned : ∀ t ∈ JoinSet.spawned (taskEvents hd events), t = .running hd.default
  knows : Knows events s.socket s.join_set s.phase

theorem inv_start (holders : List Bool) : Inv hd ioctl [] (start holders) where
  sound := Channel.sound_opened holders
  tracked := JoinSet.tracked_empty
  spawned _ h := nomatch h
  knows := ⟨rfl, rfl, rfl⟩

theorem taskEvents_snoc (events : List Event) (event : Event) :
    taskEvents hd (events ++ [event]) = taskEvents hd events ++ taskEvents hd [event] :=
  List.filterMap_append

theorem acceptErrors_snoc (events : List Event) (event : Event) :
    acceptErrors (events ++ [event]) = acceptErrors events ++ acceptErrors [event] :=
  List.filterMap_append

/-- Everybody else may do with the socket what they like. -/
theorem Inv.others {e : Channel.Event Unit} {socket : Channel Unit} (h : Inv hd ioctl events s)
    (he : ¬Channel.Receives e) (hstep : s.socket.step e = some socket)
    (htasks : taskEvents hd [event] = []) (herrors : acceptErrors [event] = []) :
    Inv hd ioctl (events ++ [event]) { s with socket } := by
  obtain ⟨htaken, hended⟩ := Channel.taken_of_others he hstep
  refine ⟨Channel.sound_step h.sound hstep, ?_, ?_, ?_⟩
  · rw [taskEvents_snoc, htasks, List.append_nil]
    exact h.tracked
  · rw [taskEvents_snoc, htasks, List.append_nil]
    exact h.spawned
  · have hknows := h.knows
    dsimp only
    cases hphase : s.phase with
    | accepting =>
        rw [hphase] at hknows
        exact ⟨hknows.1.trans htaken.symm, hended.trans hknows.2.1, hknows.2.2⟩
    | joining handlers =>
        rw [hphase] at hknows
        obtain ⟨hlength, hended', hresults⟩ := hknows
        rw [← h.sound.sent_eq hended' hstep] at hlength
        exact ⟨hlength, hended.trans hended', hresults⟩
    | returned r =>
        rw [hphase] at hknows
        cases r with
        | error e => rwa [Knows, acceptErrors_snoc, herrors, List.append_nil]
        | ok handlers =>
            obtain ⟨hlength, hended', hresults⟩ := hknows
            rw [← h.sound.sent_eq hended' hstep] at hlength
            exact ⟨hlength, hended.trans hended', hresults⟩

/-- An event of the set of tasks. -/
theorem Inv.tracked_snoc {e : JoinSet.Event (Task H) Poll} {join_set : JoinSet (Task H)}
    (h : Inv hd ioctl events s) (hstep : stepTasks hd ioctl s.join_set e = some join_set)
    (htasks : taskEvents hd [event] = [e]) :
    join_set.Tracked (fun i ↦ Task.turn hd (ioctl i)) Task.result
      (taskEvents hd (events ++ [event])) := by
  rw [taskEvents_snoc, htasks]
  exact JoinSet.tracked_step stops h.tracked hstep

theorem Inv.tracked_same (h : Inv hd ioctl events s) (htasks : taskEvents hd [event] = []) :
    s.join_set.Tracked (fun i ↦ Task.turn hd (ioctl i)) Task.result
      (taskEvents hd (events ++ [event])) := by
  rw [taskEvents_snoc, htasks, List.append_nil]
  exact h.tracked

/-- Every task starts with the default handler. -/
theorem Inv.spawned_snoc (h : Inv hd ioctl events s) (event : Event) :
    ∀ t ∈ JoinSet.spawned (taskEvents hd (events ++ [event])), t = .running hd.default := by
  intro t ht
  rw [taskEvents_snoc, JoinSet.spawned, List.filterMap_append] at ht
  rcases List.mem_append.mp ht with ht | ht
  · exact h.spawned t ht
  · cases event with
    | accept => exact List.mem_singleton.mp ht
    | _ => cases ht

theorem Inv.accept (h : Inv hd ioctl events s) (hstep : step hd ioctl s .accept = some s') :
    Inv hd ioctl (events ++ [.accept]) s' := by
  obtain ⟨hphase, socket, hrecv, join_set, hspawn, rfl⟩ := step_cases hstep
  have hknows := h.knows
  rw [hphase] at hknows
  refine ⟨Channel.sound_step h.sound hrecv, h.tracked_snoc hspawn rfl, h.spawned_snoc _, ?_⟩
  obtain ⟨⟨hended, -⟩, rfl⟩ := Channel.step_recv.mp hrecv
  cases hspawn
  dsimp only
  rw [hphase]
  exact ⟨by rw [List.length_append, hknows.1]; rfl, hended, hknows.2.2⟩

theorem Inv.acceptFailed {received : Bool} {e : IoError} (h : Inv hd ioctl events s)
    (hstep : step hd ioctl s (.acceptFailed received e) = some s') :
    Inv hd ioctl (events ++ [.acceptFailed received e]) s' := by
  obtain ⟨-, socket, hsocket, rfl⟩ := step_cases hstep
  refine ⟨?_, h.tracked_same rfl, h.spawned_snoc _, .inl ?_⟩
  · split at hsocket
    · exact Channel.sound_step h.sound hsocket
    · cases hsocket
      exact h.sound
  · rw [acceptErrors_snoc]
    exact List.mem_append_right _ List.mem_cons_self

theorem Inv.eof (h : Inv hd ioctl events s) (hstep : step hd ioctl s .eof = some s') :
    Inv hd ioctl (events ++ [.eof]) s' := by
  obtain ⟨hphase, socket, hfinish, rfl⟩ := step_cases hstep
  have hknows := h.knows
  rw [hphase] at hknows
  refine ⟨Channel.sound_step h.sound hfinish, h.tracked_same rfl, h.spawned_snoc _, ?_⟩
  obtain ⟨⟨-, htaken, -⟩, rfl⟩ := Channel.step_finish.mp hfinish
  refine ⟨hknows.1.trans htaken, rfl, ?_⟩
  rw [JoinSet.results, hknows.2.2]
  rfl

theorem Inv.turn {i : Nat} (h : Inv hd ioctl events s)
    (hstep : step hd ioctl s (.turn i poll) = some s') :
    Inv hd ioctl (events ++ [.turn i poll]) s' := by
  obtain ⟨hnot, join_set, hturn, rfl⟩ := step_cases hstep
  refine ⟨h.sound, h.tracked_snoc hturn rfl, h.spawned_snoc _, ?_⟩
  have hresults := h.tracked.results_turn stops hturn
  obtain ⟨t, t', ht, -, rfl⟩ := JoinSet.step_turn.mp hturn
  have hknows := h.knows
  dsimp only
  cases hphase : s.phase with
  | accepting =>
      rw [hphase] at hknows
      exact ⟨by rw [List.length_set, hknows.1], hknows.2⟩
  | joining handlers =>
      rw [hphase] at hknows
      exact ⟨by rw [List.length_set, hknows.1], hknows.2.1, hresults.trans hknows.2.2⟩
  | returned r => exact absurd hphase (hnot r)

theorem Inv.join {i : Nat} (h : Inv hd ioctl events s)
    (hstep : step hd ioctl s (.join i) = some s') : Inv hd ioctl (events ++ [.join i]) s' := by
  obtain ⟨handlers, r, hphase, hresult, join_set, hjoin, rfl⟩ := step_cases hstep
  obtain ⟨hresults, hmembers⟩ := JoinSet.results_join hresult hjoin
  have hknows := h.knows
  rw [hphase] at hknows
  refine ⟨h.sound, h.tracked_snoc hjoin rfl, h.spawned_snoc _, ?_⟩
  cases r with
  | ok handler =>
      refine ⟨by rw [hmembers, hknows.1], hknows.2.1, ?_⟩
      rw [hresults, hknows.2.2, List.map_append]
      rfl
  | error e => exact .inr ⟨i, by rw [hmembers, hresult]⟩

theorem Inv.joined (h : Inv hd ioctl events s) (hstep : step hd ioctl s .joined = some s') :
    Inv hd ioctl (events ++ [.joined]) s' := by
  obtain ⟨handlers, hphase, hempty, rfl⟩ := step_cases hstep
  have hknows := h.knows
  rw [hphase] at hknows
  exact ⟨h.sound, h.tracked_same rfl, h.spawned_snoc _, hknows.1, hknows.2.1, hknows.2.2, hempty⟩

/-- Every event keeps what the loop knows. -/
theorem inv_step (h : Inv hd ioctl events s) (hstep : step hd ioctl s event = some s') :
    Inv hd ioctl (events ++ [event]) s' := by
  cases event with
  | send p =>
      obtain ⟨socket, hsocket, rfl⟩ := step_cases hstep
      exact h.others (e := .send p ()) id hsocket rfl rfl
  | fork p =>
      obtain ⟨socket, hsocket, rfl⟩ := step_cases hstep
      exact h.others (e := .fork p) id hsocket rfl rfl
  | close p =>
      obtain ⟨socket, hsocket, rfl⟩ := step_cases hstep
      exact h.others (e := .close p) id hsocket rfl rfl
  | accept => exact h.accept hstep
  | acceptFailed received e => exact h.acceptFailed hstep
  | eof => exact h.eof hstep
  | turn i poll => exact h.turn hstep
  | join i => exact h.join hstep
  | joined => exact h.joined hstep

theorem inv_run {holders : List Bool}
    (hrun : runs (step hd ioctl) (start holders) events = some s) : Inv hd ioctl events s :=
  runs_induction (C := fun _ _ ↦ True) (Inv hd ioctl) (inv_start holders)
    (fun _ _ _ _ h _ ↦ inv_step h) hrun (.of_forall fun _ _ _ ↦ trivial)

/-! ## What the loop returns -/

theorem turnsOf_taskEvents (i : Nat) (events : List Event) :
    JoinSet.turnsOf i (taskEvents hd events) = pollsOf i events := by
  rw [JoinSet.turnsOf, taskEvents, List.filterMap_filterMap]
  refine List.filterMap_congr fun event _ ↦ ?_
  cases event <;> rfl

/-- A member of the set is where its listener would have led it on its own. -/
theorem Inv.task_result {i : Nat} (h : Inv hd ioctl events s)
    (ht : s.join_set.members[i]? = some task) :
    (handlingTask hd (ioctl i) hd.default (pollsOf i events)).result = task.result := by
  have hlt : i < (JoinSet.spawned (taskEvents hd events)).length := by
    rw [h.tracked.length_eq]
    exact (List.getElem?_eq_some_iff.mp ht).1
  have hmember := h.tracked.member i _ task (List.getElem?_eq_getElem hlt) ht
  rw [h.spawned _ (List.getElem_mem hlt), turnsOf_taskEvents] at hmember
  exact handlingTask_of_runs hmember

theorem Inv.no_task {i : Nat} (h : Inv hd ioctl events s)
    (hi : s.join_set.members.length ≤ i) : pollsOf i events = [] := by
  have hturns : JoinSet.turnsOf i (taskEvents hd events) = pollsOf i events :=
    turnsOf_taskEvents i events
  rw [← hturns]
  exact h.tracked.turned i hi

/-- The tasks of a loop that has come back without an error. -/
theorem Inv.members_of_ok {handlers : List H} (h : Inv hd ioctl events s)
    (hphase : s.phase = .returned (.ok handlers)) :
    ∃ ended, handlers.Perm ended ∧
      s.join_set.members = ended.map fun handler ↦ .ended (.ok handler) := by
  have hknows := h.knows
  rw [hphase] at hknows
  obtain ⟨-, -, hresults, hempty⟩ := hknows
  have hperm := h.tracked.joined_perm hempty
  rw [hresults] at hperm
  have hall : ∀ t ∈ s.join_set.members, t ∈ Set.range fun handler ↦ Task.ended (.ok handler) := by
    intro t ht
    obtain ⟨r, hr⟩ := Option.isSome_iff_exists.mp (h.tracked.all_ended hempty t ht)
    have hmem := hperm.mem_iff.mpr (List.mem_filterMap.mpr ⟨t, ht, hr⟩)
    obtain ⟨handler, -, rfl⟩ := List.mem_map.mp hmem
    cases t with
    | running handler' => cases hr
    | ended r' =>
        cases hr
        exact ⟨handler, rfl⟩
  obtain ⟨ended, hended⟩ := (Set.range_list_map _).ge hall
  refine ⟨ended, ?_, hended.symm⟩
  rw [← hended, List.filterMap_map] at hperm
  have hinj : Function.Injective (Except.ok : H → Except IoError H) := fun _ _ ↦ Except.ok.inj
  refine (List.map_perm_map_iff hinj).mp (hperm.trans ?_)
  rw [← List.filterMap_eq_map]
  rfl

/-- What the loop has come back with. -/
theorem Inv.handlers_of_ok {handlers : List H} (h : Inv hd ioctl events s)
    (hphase : s.phase = .returned (.ok handlers)) : true ∉ s.socket.holders ∧
      ∃ ended, handlers.Perm ended ∧ ended.length = s.socket.sent.length ∧
        ∀ (i : Nat) handler, ended[i]? = some handler →
          (handlingTask hd (ioctl i) hd.default (pollsOf i events)).result =
            some (.ok handler) := by
  obtain ⟨ended, hperm, hmembers⟩ := h.members_of_ok hphase
  have hknows := h.knows
  rw [hphase] at hknows
  refine ⟨h.sound.nobody hknows.2.1, ended, hperm, ?_, ?_⟩
  · rw [← hknows.1, hmembers, List.length_map]
  · intro i handler hi
    have ht : s.join_set.members[i]? = some (.ended (.ok handler)) := by
      rw [hmembers, List.getElem?_map, hi]
      rfl
    exact h.task_result ht

/-- **What the handling loop returns.**  When it comes back with handlers, nobody can send
a listener any more, and there is one for each listener that was ever sent: what the task
of that listener ends with on its own.  An error is one of receiving a listener, or what a
task ends with; where receiving does not fail, the loop fails if and only if a task does. -/
theorem handling_loop_returned {holders : List Bool}
    (hrun : runs (step hd ioctl) (start holders) events = some s) :
    (∀ handlers, s.phase = .returned (.ok handlers) → true ∉ s.socket.holders ∧
      ∃ ended, handlers.Perm ended ∧ ended.length = s.socket.sent.length ∧
        ∀ (i : Nat) handler, ended[i]? = some handler →
          (handlingTask hd (ioctl i) hd.default (pollsOf i events)).result =
            some (.ok handler)) ∧
    (∀ e, s.phase = .returned (.error e) → e ∈ acceptErrors events ∨
      ∃ i, (handlingTask hd (ioctl i) hd.default (pollsOf i events)).result = some (.error e)) ∧
    (acceptErrors events = [] → ∀ r, s.phase = .returned r →
      ((∃ handlers, r = .ok handlers) ↔
        ∀ i e, (handlingTask hd (ioctl i) hd.default (pollsOf i events)).result ≠
          some (.error e))) := by
  have h := inv_run hrun
  have hfailed : ∀ e, s.phase = .returned (.error e) → e ∈ acceptErrors events ∨
      ∃ i, (handlingTask hd (ioctl i) hd.default (pollsOf i events)).result = some (.error e) := by
    intro e hphase
    have hknows := h.knows
    rw [hphase] at hknows
    refine hknows.imp id ?_
    rintro ⟨i, hi⟩
    obtain ⟨task, ht, hresult⟩ := Option.bind_eq_some_iff.mp hi
    exact ⟨i, (h.task_result ht).trans hresult⟩
  refine ⟨fun handlers ↦ h.handlers_of_ok, hfailed, ?_⟩
  intro hnone r hphase
  constructor
  · rintro ⟨handlers, rfl⟩ i e herror
    obtain ⟨ended, -, hmembers⟩ := h.members_of_ok hphase
    rcases Nat.lt_or_ge i s.join_set.members.length with hi | hi
    · rw [h.task_result (List.getElem?_eq_getElem hi)] at herror
      have hmem : s.join_set.members[i] ∈ ended.map fun handler ↦ Task.ended (.ok handler) :=
        hmembers ▸ List.getElem_mem hi
      obtain ⟨handler, -, heq⟩ := List.mem_map.mp hmem
      rw [← heq] at herror
      cases herror
    · rw [h.no_task hi, result_of_waiting rfl] at herror
      cases herror
  · intro hnot
    cases r with
    | ok handlers => exact ⟨handlers, rfl⟩
    | error e =>
        rcases hfailed e hphase with hmem | ⟨i, hi⟩
        · rw [hnone] at hmem
          cases hmem
        · exact absurd hi (hnot i e)

/-- A process sends its listener and is replaced by another program, which sends one too; the
second task ends first. -/
def twoListeners : List Event :=
  [.send 1, .accept, .close 0, .turn 0 (.recv (.ok (sampleNotify 1 8))), .send 1, .accept,
    .turn 0 .notReadable, .close 1, .turn 1 .closed, .eof, .join 1, .turn 0 .closed, .join 0,
    .joined]

theorem handling_loop_returned_two : ∃ s : State Nat,
    runs (step sampleHandler fun _ _ ↦ .ok ()) (start [true, true]) twoListeners = some s ∧
      true ∉ s.socket.holders ∧
      ∃ ended, [0, 1].Perm ended ∧ ended.length = 2 ∧ ∀ (i : Nat) handler,
        ended[i]? = some handler →
          (handlingTask sampleHandler (fun _ ↦ .ok ()) sampleHandler.default
            (pollsOf i twoListeners)).result = some (.ok handler) := by
  have hrun : runs (step sampleHandler fun _ _ ↦ .ok ()) (start [true, true]) twoListeners =
      some _ := rfl
  exact ⟨_, hrun, (handling_loop_returned hrun).1 [0, 1] rfl⟩

end Fspy.Seccomp.HandlingLoop
