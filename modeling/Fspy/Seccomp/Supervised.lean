import Mathlib.Data.List.Sort
import Fspy.Lib.Transition
import Fspy.Seccomp.Listeners

/-!
# Threads under a filter

A thread under the filter is stopped in each system call that the filter notifies of, until
the task of the listener responds.  It may be interrupted or killed meanwhile; where the task
ends with an error, the listener is closed, and the kernel refuses the calls that are stopped
and those that come.  That `next` does not miss what waits is left to `Wakeup`: here it returns
the first notification of the queue.  `turns_of_run` says that the task is one of those that the
handling loop waits for, `served_of_run` that a call goes on only after it was handled, and
`settled_of_run` that none is stopped for ever.
-/

namespace Fspy.Seccomp.Supervised

open Lib NotifyListener

variable {H : Type}

/-- How a call comes back, or does not. -/
inductive Outcome where
  | continued
  /-- By a signal. -/
  | interrupted
  | killed
  /-- With `ENOSYS`. -/
  | refused
deriving DecidableEq, Repr

/-- A call that is notified of. -/
structure Call where
  thread : Nat
  notify : Notif
  received : Bool
  outcome : Option Outcome
deriving DecidableEq, Repr

namespace Call

/-- The thread is stopped in it. -/
def isOpen (call : Call) : Bool := call.outcome.isNone

def receive (call : Call) : Call := { call with received := true }

def settle (outcome : Outcome) (call : Call) : Call :=
  if call.isOpen then { call with outcome := some outcome } else call

end Call

/-- Settle the calls that are selected. -/
def settle (select : Nat → Call → Bool) (outcome : Outcome) (calls : List Call) : List Call :=
  calls.mapIdx fun k call ↦ if select k call then call.settle outcome else call

/-- Where the task of the listener is. -/
inductive Pc (H : Type) where
  /-- In `next`. -/
  | waiting (handler : H)
  | received (handler : H) (k : Nat) (notify : Notif)
  | handled (handler : H) (k : Nat) (notify : Notif) (handle_result : Except IoError Unit)
  | ended (r : Except IoError H)

/-- The threads, which are alive or not, and their calls, in the order in which they are made. -/
structure State (H : Type) where
  threads : List Bool
  calls : List Call
  pc : Pc H
  /-- What `handle_notify` was called with. -/
  handled : List (Nat × Notif)

inductive Event where
  | syscall (p : Nat) (notify : Notif)
  | clone (p : Nat)
  | interrupt (p : Nat)
  | kill (p : Nat)
  /-- `notif_recv` returns a notification. -/
  | recv
  /-- `next` fails. -/
  | fail (e : IoError)
  /-- `next` returns that no thread is left. -/
  | closed
  | handle_notify
  /-- The kernel takes the response, or has another error for it. -/
  | send_continue (failed : Option Errno)

namespace State

/-- The thread runs, and is not stopped. -/
def runs (s : State H) (p : Nat) : Bool :=
  s.threads[p]? == some true && s.calls.all fun call ↦ call.thread != p || !call.isOpen

/-- How a call comes back at once. -/
def comes (s : State H) : Option Outcome :=
  match s.pc with
  | .ended _ => some .refused
  | _ => none

/-- The task ends with an error, and the listener is closed. -/
def fail (s : State H) (e : IoError) : State H :=
  { s with pc := .ended (.error e), calls := settle (fun _ _ ↦ true) .refused s.calls }

end State

def start (hd : Handler H) : State H := ⟨[true], [], .waiting hd.default, []⟩

/-- The task runs to its end: that another task fails, and the `JoinSet` is dropped with this
one and its listener in it, is left out. -/
def step (hd : Handler H) (s : State H) : Event → Option (State H)
  | .syscall p notify =>
      if s.runs p then some { s with calls := s.calls ++ [⟨p, notify, false, s.comes⟩] } else none
  | .clone p => if s.runs p then some { s with threads := s.threads ++ [true] } else none
  | .interrupt p =>
      some { s with calls := settle (fun _ call ↦ call.thread == p) .interrupted s.calls }
  | .kill p => some { s with
      threads := s.threads.set p false
      calls := settle (fun _ call ↦ call.thread == p) .killed s.calls }
  | .recv => match s.pc, s.calls.findIdx? fun call ↦ call.isOpen && !call.received with
      | .waiting handler, some k => do
          let call ← s.calls[k]?
          return { s with
            calls := s.calls.set k call.receive
            pc := .received handler k call.notify }
      | _, _ => none
  | .fail e => match s.pc with
      | .waiting _ => some (s.fail e)
      | _ => none
  | .closed => match s.pc with
      | .waiting handler =>
          if true ∈ s.threads then none else some { s with pc := .ended (.ok handler) }
      | _ => none
  | .handle_notify => match s.pc with
      | .received handler k notify =>
          let (handler', handle_result) := hd.handle_notify handler notify
          some { s with
            pc := .handled handler' k notify handle_result
            handled := s.handled ++ [(k, notify)] }
      | _ => none
  | .send_continue failed => match s.pc with
      | .handled handler k notify handle_result =>
          let answer : Except Errno Unit := match failed with
            | some e => .error e
            | none => if (s.calls[k]?).any Call.isOpen then .ok () else .error .ENOENT
          let s := match failed with
            | some _ => s
            | none => { s with calls := settle (fun j _ ↦ j == k) .continued s.calls }
          -- what is open is not said to be gone
          if failed = some .ENOENT then none
          else match NotifyListener.send_continue (fun _ ↦ answer) notify.id with
            | .error e => some (s.fail e)
            | .ok () => match handle_result with
              | .error e => some (s.fail e)
              | .ok () => some { s with pc := .waiting handler }
      | _ => none

/-- What the handler has become. -/
def foldNotify (hd : Handler H) (handled : List (Nat × Notif)) : H :=
  handled.foldl (fun handler (_, notify) ↦ (hd.handle_notify handler notify).1) hd.default

/-- The call that the task holds. -/
def Pc.current : Pc H → Option Nat
  | .received _ k _ | .handled _ k _ _ => some k
  | _ => none

def Pc.handler : Pc H → Option H
  | .waiting handler | .received handler _ _ | .handled handler _ _ _ => some handler
  | .ended r => r.toOption

/-- What was received, in order. -/
def State.taken (s : State H) : List (Nat × Notif) :=
  s.handled ++ match s.pc with
    | .received _ k notify => [(k, notify)]
    | _ => []

/-- The notifications are received in the order in which the calls are made. -/
structure InOrder (calls : List Call) (taken : List (Nat × Notif)) : Prop where
  made : ∀ t ∈ taken, ∃ call, calls[t.1]? = some call ∧ call.notify = t.2 ∧ call.received = true
  sorted : (taken.map Prod.fst).Pairwise (· < ·)
  /-- What is stopped and waits comes after what was received. -/
  later : ∀ j call, calls[j]? = some call → call.isOpen = true → call.received = false →
    ∀ t ∈ taken, t.1 < j

structure Inv (hd : Handler H) (s : State H) : Prop where
  inOrder : InOrder s.calls s.taken
  current : ∀ k call, s.calls[k]? = some call → call.isOpen = true → call.received = true →
    s.pc.current = some k
  continued : ∀ k call, s.calls[k]? = some call → call.outcome = some .continued →
    (k, call.notify) ∈ s.handled
  responds : ∀ handler k notify r, s.pc = .handled handler k notify r →
    ∃ before, s.handled = before ++ [(k, notify)] ∧
      hd.handle_notify (foldNotify hd before) notify = (handler, r)
  handler : ∀ handler, s.pc.handler = some handler → handler = foldNotify hd s.handled
  /-- A closed listener leaves no call open. -/
  ended : ∀ r, s.pc = .ended r → ∀ call ∈ s.calls, call.isOpen = false
  gone : ∀ handler, s.pc = .ended (.ok handler) → true ∉ s.threads
  refused : ∀ call ∈ s.calls, call.outcome = some .refused → ∃ e, s.pc = .ended (.error e)
  owner : ∀ call ∈ s.calls, call.isOpen = true → s.threads[call.thread]? = some true

variable {hd : Handler H} {s s' : State H} {event : Event} {events : List Event}
  {calls : List Call} {taken : List (Nat × Notif)} {call call' : Call} {k : Nat}
  {select : Nat → Call → Bool} {outcome : Outcome}

/-! ## Settling calls -/

theorem getElem?_settle (select : Nat → Call → Bool) (outcome : Outcome) (calls : List Call)
    (k : Nat) : (settle select outcome calls)[k]? =
      calls[k]?.map fun call ↦ if select k call then call.settle outcome else call :=
  List.getElem?_mapIdx

/-- What settling some calls does to one of them. -/
structure Settled (selected : Bool) (outcome : Outcome) (call call' : Call) : Prop where
  thread : call'.thread = call.thread
  notify : call'.notify = call.notify
  received : call'.received = call.received
  outcome : call'.outcome =
    if selected = true ∧ call.isOpen = true then some outcome else call.outcome

theorem settled (selected : Bool) (outcome : Outcome) (call : Call) :
    Settled selected outcome call (if selected then call.settle outcome else call) := by
  cases selected with
  | false => exact ⟨rfl, rfl, rfl, by simp⟩
  | true =>
      rw [if_pos rfl, Call.settle]
      split
      · exact ⟨rfl, rfl, rfl, by simp [*]⟩
      · exact ⟨rfl, rfl, rfl, by simp [*]⟩

theorem of_settle (h : (settle select outcome calls)[k]? = some call') :
    ∃ call, calls[k]? = some call ∧ Settled (select k call) outcome call call' := by
  rw [getElem?_settle] at h
  obtain ⟨call, hcall, rfl⟩ := Option.map_eq_some_iff.mp h
  exact ⟨call, hcall, settled _ _ _⟩

theorem of_mem_settle (h : call' ∈ settle select outcome calls) :
    ∃ k, ∃ call ∈ calls, Settled (select k call) outcome call call' := by
  obtain ⟨k, hk⟩ := List.mem_iff_getElem?.mp h
  obtain ⟨call, hcall, hsettled⟩ := of_settle hk
  exact ⟨k, call, List.mem_of_getElem? hcall, hsettled⟩

theorem settle_of (h : calls[k]? = some call) (select : Nat → Call → Bool) (outcome : Outcome) :
    ∃ call', (settle select outcome calls)[k]? = some call' ∧
      Settled (select k call) outcome call call' := by
  rw [getElem?_settle, h]
  exact ⟨_, rfl, settled _ _ _⟩

theorem Settled.isOpen {selected : Bool} (h : Settled selected outcome call call') :
    call'.isOpen = (call.isOpen && !selected) := by
  rw [Call.isOpen, h.outcome]
  cases selected <;> cases hopen : call.isOpen <;> simp_all [Call.isOpen]

/-- An outcome is of before, unless it is the one that is given. -/
theorem Settled.outcome_of {selected : Bool} {outcome' : Outcome}
    (h : Settled selected outcome call call') (houtcome : call'.outcome = some outcome')
    (hne : outcome' ≠ outcome) : call.outcome = some outcome' := by
  rw [h.outcome] at houtcome
  split at houtcome
  · exact (hne (Option.some.inj houtcome).symm).elim
  · exact houtcome

/-! ## The order of the notifications -/

theorem InOrder.settle (h : InOrder calls taken) (select : Nat → Call → Bool)
    (outcome : Outcome) : InOrder (settle select outcome calls) taken where
  made t ht := by
    obtain ⟨call, hcall, hnotify, hreceived⟩ := h.made t ht
    obtain ⟨call', hcall', hsettled⟩ := settle_of hcall select outcome
    exact ⟨call', hcall', hsettled.notify.trans hnotify, hsettled.received.trans hreceived⟩
  sorted := h.sorted
  later j call' hcall' hopen hreceived := by
    obtain ⟨call, hcall, hsettled⟩ := of_settle hcall'
    rw [hsettled.isOpen, Bool.and_eq_true] at hopen
    exact h.later j call hcall hopen.1 (hsettled.received.symm.trans hreceived)

theorem InOrder.concat (h : InOrder calls taken) (call : Call) :
    InOrder (calls ++ [call]) taken where
  made t ht := by
    obtain ⟨call', hcall', hmade⟩ := h.made t ht
    obtain ⟨hlt, -⟩ := List.getElem?_eq_some_iff.mp hcall'
    exact ⟨call', (List.getElem?_append_left hlt).trans hcall', hmade⟩
  sorted := h.sorted
  later j call' hcall' hopen hreceived t ht := by
    obtain ⟨made, hmade, -⟩ := h.made t ht
    obtain ⟨hlt, -⟩ := List.getElem?_eq_some_iff.mp hmade
    rcases Nat.lt_or_ge j calls.length with hj | hj
    · rw [List.getElem?_append_left hj] at hcall'
      exact h.later j call' hcall' hopen hreceived t ht
    · exact Nat.lt_of_lt_of_le hlt hj

/-- The kernel gives out the first call that waits. -/
theorem InOrder.recv (h : InOrder calls taken) (hcall : calls[k]? = some call)
    (hopen : call.isOpen = true) (hreceived : call.received = false)
    (hfirst : ∀ j < k, ∀ call', calls[j]? = some call' → call'.isOpen = true →
      call'.received = true) :
    InOrder (calls.set k call.receive) (taken ++ [(k, call.notify)]) where
  made t ht := by
    rw [List.getElem?_set]
    rcases List.mem_append.mp ht with ht | ht
    · obtain ⟨call', hcall', hmade⟩ := h.made t ht
      rw [if_neg (Nat.ne_of_gt (h.later k call hcall hopen hreceived t ht))]
      exact ⟨call', hcall', hmade⟩
    · obtain rfl := List.mem_singleton.mp ht
      rw [if_pos rfl, if_pos (List.getElem?_eq_some_iff.mp hcall).1]
      exact ⟨_, rfl, rfl, rfl⟩
  sorted := by
    rw [List.map_append, List.pairwise_append]
    refine ⟨h.sorted, List.pairwise_singleton _ _, ?_⟩
    intro j hj k' hk'
    obtain ⟨t, ht, rfl⟩ := List.mem_map.mp hj
    rw [List.mem_singleton.mp hk']
    exact h.later k call hcall hopen hreceived t ht
  later j call' hcall' hopen' hreceived' t ht := by
    rw [List.getElem?_set] at hcall'
    split at hcall'
    · obtain ⟨-, rfl⟩ := by simpa using hcall'
      cases hreceived'
    · rcases List.mem_append.mp ht with ht | ht
      · exact h.later j call' hcall' hopen' hreceived' t ht
      · obtain rfl := List.mem_singleton.mp ht
        rcases Nat.lt_trichotomy j k with hj | rfl | hj
        · rw [hfirst j hj call' hcall' hopen'] at hreceived'
          cases hreceived'
        · contradiction
        · exact hj

/-! ## One step -/

theorem inv_start : Inv hd (start hd) where
  inOrder := ⟨nofun, .nil, nofun⟩
  current _ _ h := nomatch h
  continued _ _ h := nomatch h
  responds _ _ _ _ h := nomatch h
  handler _ h := (Option.some.inj h).symm
  ended _ h := nomatch h
  gone _ h := nomatch h
  refused _ h := nomatch h
  owner _ h := nomatch h

/-- A call is not refused before the task has failed. -/
theorem Inv.not_refused (h : Inv hd s) (hpc : ∀ e, s.pc ≠ .ended (.error e))
    (hcall : call ∈ s.calls) : call.outcome ≠ some .refused := by
  intro hrefused
  obtain ⟨e, he⟩ := h.refused call hcall hrefused
  exact hpc e he

theorem taken_of_waiting {handler : H} (hpc : s.pc = .waiting handler) :
    s.taken = s.handled := by
  rw [State.taken, hpc]
  exact List.append_nil _

theorem taken_of_handled {handler : H} {notify : Notif} {r : Except IoError Unit}
    (hpc : s.pc = .handled handler k notify r) : s.taken = s.handled := by
  rw [State.taken, hpc]
  exact List.append_nil _

/-- A signal, or the end of a thread. -/
theorem Inv.left (h : Inv hd s) {p : Nat} {threads : List Bool}
    (houtcome : outcome = .interrupted ∨ outcome = .killed)
    (hthreads : ∀ q, q ≠ p → threads[q]? = s.threads[q]?)
    (hdead : true ∉ s.threads → true ∉ threads) :
    Inv hd { s with
      threads, calls := settle (fun _ call ↦ call.thread == p) outcome s.calls } where
  inOrder := h.inOrder.settle _ _
  current k call' hcall' hopen hreceived := by
    obtain ⟨call, hcall, hsettled⟩ := of_settle hcall'
    rw [hsettled.isOpen, Bool.and_eq_true] at hopen
    exact h.current k call hcall hopen.1 (hsettled.received.symm.trans hreceived)
  continued k call' hcall' hcontinued := by
    obtain ⟨call, hcall, hsettled⟩ := of_settle hcall'
    rw [hsettled.notify]
    refine h.continued k call hcall (hsettled.outcome_of hcontinued ?_)
    rcases houtcome with rfl | rfl <;> decide
  responds := h.responds
  handler := h.handler
  ended r hr call' hcall' := by
    obtain ⟨k, call, hcall, hsettled⟩ := of_mem_settle hcall'
    rw [hsettled.isOpen, h.ended r hr call hcall, Bool.false_and]
  gone handler hhandler := hdead (h.gone handler hhandler)
  refused call' hcall' hrefused := by
    obtain ⟨k, call, hcall, hsettled⟩ := of_mem_settle hcall'
    refine h.refused call hcall (hsettled.outcome_of hrefused ?_)
    rcases houtcome with rfl | rfl <;> decide
  owner call' hcall' hopen := by
    obtain ⟨k, call, hcall, hsettled⟩ := of_mem_settle hcall'
    rw [hsettled.isOpen, Bool.and_eq_true, Bool.not_eq_true', beq_eq_false_iff_ne] at hopen
    rw [hsettled.thread, hthreads _ hopen.2]
    exact h.owner call hcall hopen.1

/-- An error of the task leaves no call open. -/
theorem Inv.fail (h : Inv hd s) (e : IoError) (htaken : s.taken = s.handled) :
    Inv hd (s.fail e) where
  inOrder := by
    have := h.inOrder.settle (fun _ _ ↦ true) .refused
    rw [htaken] at this
    simpa [State.taken, State.fail] using this
  current k call' hcall' hopen _ := by
    obtain ⟨call, hcall, hsettled⟩ := of_settle hcall'
    rw [hsettled.isOpen, Bool.and_eq_true] at hopen
    cases hopen.2
  continued k call' hcall' hcontinued := by
    obtain ⟨call, hcall, hsettled⟩ := of_settle hcall'
    rw [hsettled.notify]
    exact h.continued k call hcall (hsettled.outcome_of hcontinued (by decide))
  responds _ _ _ _ hpc := nomatch hpc
  handler _ hpc := nomatch hpc
  ended r hr call' hcall' := by
    obtain ⟨k, call, hcall, hsettled⟩ := of_mem_settle hcall'
    rw [hsettled.isOpen, Bool.not_true, Bool.and_false]
  gone _ hpc := nomatch hpc
  refused _ _ _ := ⟨e, rfl⟩
  owner call' hcall' hopen := by
    obtain ⟨k, call, hcall, hsettled⟩ := of_mem_settle hcall'
    rw [hsettled.isOpen, Bool.and_eq_true] at hopen
    cases hopen.2

theorem foldNotify_concat (before : List (Nat × Notif)) (k : Nat) (notify : Notif) :
    foldNotify hd (before ++ [(k, notify)]) = (hd.handle_notify (foldNotify hd before) notify).1 :=
  List.foldl_concat _ _ _ _

theorem of_concat (h : (calls ++ [call])[k]? = some call') :
    calls[k]? = some call' ∨ call' = call := by
  rw [List.getElem?_append] at h
  split at h
  · exact .inl h
  · exact .inr (List.mem_singleton.mp (List.mem_of_getElem? h))

theorem Inv.syscall (h : Inv hd s) {p : Nat} (notify : Notif) (hruns : s.runs p = true) :
    Inv hd { s with calls := s.calls ++ [⟨p, notify, false, s.comes⟩] } := by
  rw [State.runs, Bool.and_eq_true, beq_iff_eq] at hruns
  refine ⟨h.inOrder.concat _, ?_, ?_, h.responds, h.handler, ?_, h.gone, ?_, ?_⟩
  · intro k call hcall hopen hreceived
    obtain hcall | rfl := of_concat hcall
    · exact h.current k call hcall hopen hreceived
    · cases hreceived
  · intro k call hcall hcontinued
    obtain hcall | rfl := of_concat hcall
    · exact h.continued k call hcall hcontinued
    · rw [State.comes] at hcontinued
      split at hcontinued <;> cases hcontinued
  · intro r hr call hcall
    rcases List.mem_append.mp hcall with hcall | hcall
    · exact h.ended r hr call hcall
    · obtain rfl := List.mem_singleton.mp hcall
      have hpc : s.pc = .ended r := hr
      rw [Call.isOpen, State.comes, hpc]
      rfl
  · intro call hcall hrefused
    rcases List.mem_append.mp hcall with hcall | hcall
    · exact h.refused call hcall hrefused
    · obtain rfl := List.mem_singleton.mp hcall
      simp only [State.comes] at hrefused
      split at hrefused
      · rename_i r hpc
        cases r with
        | error e => exact ⟨e, hpc⟩
        | ok handler => exact (h.gone handler hpc (List.mem_of_getElem? hruns.1)).elim
      · cases hrefused
  · intro call hcall hopen
    rcases List.mem_append.mp hcall with hcall | hcall
    · exact h.owner call hcall hopen
    · obtain rfl := List.mem_singleton.mp hcall
      exact hruns.1

theorem Inv.clone (h : Inv hd s) {p : Nat} (hruns : s.runs p = true) :
    Inv hd { s with threads := s.threads ++ [true] } := by
  rw [State.runs, Bool.and_eq_true, beq_iff_eq] at hruns
  refine ⟨h.inOrder, h.current, h.continued, h.responds, h.handler, h.ended, ?_, h.refused, ?_⟩
  · intro handler hpc
    exact (h.gone handler hpc (List.mem_of_getElem? hruns.1)).elim
  · intro call hcall hopen
    have howner := h.owner call hcall hopen
    exact (List.getElem?_append_left (List.getElem?_eq_some_iff.mp howner).1).trans howner

theorem of_set {j : Nat} (h : (calls.set k call)[j]? = some call') :
    calls[j]? = some call' ∨ j = k ∧ call' = call := by
  rw [List.getElem?_set] at h
  split at h
  · rename_i hjk
    split at h
    · exact .inr ⟨hjk.symm, (Option.some.inj h).symm⟩
    · cases h
  · exact .inl h

theorem Inv.recv (h : Inv hd s) {handler : H} (hpc : s.pc = .waiting handler)
    (hfind : s.calls.findIdx? (fun call ↦ call.isOpen && !call.received) = some k)
    (hcall : s.calls[k]? = some call) :
    Inv hd { s with
      calls := s.calls.set k call.receive
      pc := .received handler k call.notify } := by
  obtain ⟨hlt, hfound, hbefore⟩ := List.findIdx?_eq_some_iff_getElem.mp hfind
  rw [(List.getElem?_eq_some_iff.mp hcall).2, Bool.and_eq_true, Bool.not_eq_true'] at hfound
  have hin := taken_of_waiting hpc ▸ h.inOrder
  refine ⟨hin.recv hcall hfound.1 hfound.2 ?_, ?_, ?_, nofun, ?_, nofun, nofun, ?_, ?_⟩
  · intro j hj call' hcall' hopen
    obtain ⟨hlt', rfl⟩ := List.getElem?_eq_some_iff.mp hcall'
    simpa [hopen] using hbefore j hj
  · intro j call' hcall' hopen hreceived
    obtain hcall' | ⟨rfl, rfl⟩ := of_set hcall'
    · have := h.current j call' hcall' hopen hreceived
      rw [hpc] at this
      cases this
    · rfl
  · intro j call' hcall' hcontinued
    obtain hcall' | ⟨rfl, rfl⟩ := of_set hcall'
    · exact h.continued j call' hcall' hcontinued
    · exact h.continued j call hcall hcontinued
  · rintro _ ⟨⟩
    exact h.handler handler (by rw [hpc]; rfl)
  · intro call' hcall' hrefused
    obtain hcall' | rfl := List.mem_or_eq_of_mem_set hcall'
    · exact (h.not_refused (by simp [hpc]) hcall' hrefused).elim
    · exact (h.not_refused (by simp [hpc]) (List.mem_of_getElem? hcall) hrefused).elim
  · intro call' hcall' hopen
    obtain hcall' | rfl := List.mem_or_eq_of_mem_set hcall'
    · exact h.owner call' hcall' hopen
    · exact h.owner call (List.mem_of_getElem? hcall) hopen

theorem Inv.handle_notify (h : Inv hd s) {handler : H} {notify : Notif}
    (hpc : s.pc = .received handler k notify) :
    Inv hd { s with
      pc := .handled (hd.handle_notify handler notify).1 k notify
        (hd.handle_notify handler notify).2
      handled := s.handled ++ [(k, notify)] } := by
  obtain rfl := h.handler handler (by rw [hpc]; rfl)
  refine ⟨?_, ?_, ?_, ?_, ?_, nofun, nofun, ?_, h.owner⟩
  · have := h.inOrder
    rw [State.taken, hpc] at this
    rw [State.taken, List.append_nil]
    exact this
  · intro j call hcall hopen hreceived
    have := h.current j call hcall hopen hreceived
    rw [hpc] at this
    exact this
  · intro j call hcall hcontinued
    exact List.mem_append_left _ (h.continued j call hcall hcontinued)
  · rintro _ _ _ _ ⟨⟩
    exact ⟨s.handled, rfl, rfl⟩
  · rintro _ ⟨⟩
    exact (foldNotify_concat _ _ _).symm
  · intro call hcall hrefused
    exact (h.not_refused (by simp [hpc]) hcall hrefused).elim

/-- The call goes on, unless it does not wait any more. -/
def State.respond (s : State H) (handler : H) (k : Nat) : State H :=
  { s with calls := settle (fun j _ ↦ j == k) .continued s.calls, pc := .waiting handler }

theorem Inv.respond (h : Inv hd s) {handler : H} {notify : Notif} {r : Except IoError Unit}
    (hpc : s.pc = .handled handler k notify r) : Inv hd (s.respond handler k) := by
  obtain ⟨before, hhandled, hr⟩ := h.responds _ _ _ _ hpc
  refine ⟨?_, ?_, ?_, nofun, ?_, nofun, nofun, ?_, ?_⟩
  · have := h.inOrder.settle (fun j _ ↦ j == k) .continued
    rw [State.taken, hpc] at this
    exact this
  · intro j call' hcall' hopen hreceived
    obtain ⟨call, hcall, hsettled⟩ := of_settle hcall'
    rw [hsettled.isOpen, Bool.and_eq_true, Bool.not_eq_true', beq_eq_false_iff_ne] at hopen
    have := h.current j call hcall hopen.1 (hsettled.received.symm.trans hreceived)
    rw [hpc] at this
    exact (hopen.2 (Option.some.inj this).symm).elim
  · intro j call' hcall' hcontinued
    obtain ⟨call, hcall, hsettled⟩ := of_settle hcall'
    rw [hsettled.notify]
    rcases eq_or_ne j k with rfl | hj
    · have hmem : (j, notify) ∈ s.handled := hhandled ▸ List.mem_concat_self
      obtain ⟨made, hmade, rfl, -⟩ := h.inOrder.made _ (List.mem_append_left _ hmem)
      obtain rfl : made = call := Option.some.inj (hmade.symm.trans hcall)
      exact hmem
    · rw [hsettled.outcome, if_neg (by simp [hj])] at hcontinued
      exact h.continued j call hcall hcontinued
  · rintro _ ⟨⟩
    exact h.handler handler (by rw [hpc]; rfl)
  · intro call' hcall' hrefused
    obtain ⟨j, call, hcall, hsettled⟩ := of_mem_settle hcall'
    have hwas := hsettled.outcome_of hrefused (by decide)
    exact (h.not_refused (by simp [hpc]) hcall hwas).elim
  · intro call' hcall' hopen
    obtain ⟨j, call, hcall, hsettled⟩ := of_mem_settle hcall'
    rw [hsettled.isOpen, Bool.and_eq_true] at hopen
    rw [hsettled.thread]
    exact h.owner call hcall hopen.1

theorem Inv.closed (h : Inv hd s) {handler : H} (hpc : s.pc = .waiting handler)
    (hdead : true ∉ s.threads) : Inv hd { s with pc := .ended (.ok handler) } := by
  have hended : ∀ call ∈ s.calls, call.isOpen = false := by
    intro call hcall
    by_contra hopen
    exact hdead (List.mem_of_getElem? (h.owner call hcall (by simpa using hopen)))
  refine ⟨?_, ?_, h.continued, nofun, ?_, fun _ _ ↦ hended, fun _ _ ↦ hdead, ?_, h.owner⟩
  · have := h.inOrder
    rw [State.taken, hpc] at this
    exact this
  · intro k call hcall hopen
    rw [hended call (List.mem_of_getElem? hcall)] at hopen
    cases hopen
  · rintro _ ⟨⟩
    exact h.handler handler (by rw [hpc]; rfl)
  · intro call hcall hrefused
    exact (h.not_refused (by simp [hpc]) hcall hrefused).elim

theorem step_send_continue {handler : H} {notify : Notif} {r : Except IoError Unit}
    (hpc : s.pc = .handled handler k notify r) :
    step hd s (.send_continue none) = some (match r with
      | .error e => (s.respond handler k).fail e
      | .ok () => s.respond handler k) := by
  simp only [step, hpc, reduceCtorEq, if_false]
  -- the code ignores that the call does not wait any more
  cases (s.calls[k]?).any Call.isOpen <;> cases r <;> rfl

theorem of_send_failed {handler : H} {notify : Notif} {r : Except IoError Unit} {e : Errno}
    (hpc : s.pc = .handled handler k notify r)
    (hstep : step hd s (.send_continue (some e)) = some s') :
    s' = s.fail (.os e) ∧ NotifyListener.send_continue (fun _ ↦ .error e) notify.id =
      .error (.os e) := by
  simp only [step, hpc, Option.some.injEq] at hstep
  cases e with
  | ENOENT => cases hstep
  | _ => exact ⟨(Option.some.inj hstep).symm, rfl⟩

theorem inv_step (h : Inv hd s) (hstep : step hd s event = some s') : Inv hd s' := by
  cases event with
  | syscall p notify =>
      rw [step, Option.ite_none_right_eq_some, Option.some_inj] at hstep
      obtain ⟨hruns, rfl⟩ := hstep
      exact h.syscall notify hruns
  | clone p =>
      rw [step, Option.ite_none_right_eq_some, Option.some_inj] at hstep
      obtain ⟨hruns, rfl⟩ := hstep
      exact h.clone hruns
  | interrupt p =>
      obtain rfl := Option.some.inj hstep
      exact h.left (.inl rfl) (fun _ _ ↦ rfl) id
  | kill p =>
      obtain rfl := Option.some.inj hstep
      refine h.left (.inr rfl) (fun q hq ↦ List.getElem?_set_ne hq.symm) ?_
      intro hdead hmem
      rcases List.mem_or_eq_of_mem_set hmem with hmem | hmem
      · exact hdead hmem
      · cases hmem
  | recv =>
      rw [step] at hstep
      split at hstep
      · rename_i handler k hpc hfind
        obtain ⟨call, hcall, hstep⟩ := Option.bind_eq_some_iff.mp hstep
        obtain rfl := Option.some.inj hstep
        exact h.recv hpc hfind hcall
      · cases hstep
  | fail e =>
      rw [step] at hstep
      split at hstep
      · rename_i handler hpc
        obtain rfl := Option.some.inj hstep
        exact h.fail e (taken_of_waiting hpc)
      · cases hstep
  | closed =>
      rw [step] at hstep
      split at hstep
      · rename_i handler hpc
        rw [Option.ite_none_left_eq_some, Option.some_inj] at hstep
        obtain ⟨hdead, rfl⟩ := hstep
        exact h.closed hpc hdead
      · cases hstep
  | handle_notify =>
      rw [step] at hstep
      split at hstep
      · rename_i handler k notify hpc
        obtain rfl := Option.some.inj hstep
        exact h.handle_notify hpc
      · cases hstep
  | send_continue failed =>
      cases hpc : s.pc with
      | handled handler k notify r =>
          cases failed with
          | some e =>
              rw [(of_send_failed hpc hstep).1]
              exact h.fail _ (taken_of_handled hpc)
          | none =>
              rw [step_send_continue hpc, Option.some_inj] at hstep
              subst hstep
              cases r with
              | ok u => exact h.respond hpc
              | error e => exact (h.respond hpc).fail e (taken_of_waiting rfl)
      | _ =>
          rw [step, hpc] at hstep
          cases hstep

theorem inv_run (hrun : runs (step hd) (start hd) events = some s) : Inv hd s :=
  runs_invariant (Inv hd) inv_start (fun _ _ _ h hstep ↦ inv_step h hstep) hrun

/-! ## The task on its own -/

/-- The task, as the handling loop sees it. -/
def Pc.Is (hd : Handler H) (task : HandlingLoop.Task H) : Pc H → Prop
  | .waiting handler | .received handler _ _ => task = .running handler
  | .handled handler _ notify r =>
      ∃ before, task = .running before ∧ hd.handle_notify before notify = (handler, r)
  | .ended r => task = .ended r

/-- A turn of the task, and what the kernel says to a response in it. -/
def turn (hd : Handler H) (task : HandlingLoop.Task H)
    (l : (NotifResp → Except Errno Unit) × Poll) : Option (HandlingLoop.Task H) :=
  task.turn hd l.1 l.2

theorem turn_recv {before handler : H} {notify : Notif} {r : Except IoError Unit}
    (ioctl : NotifResp → Except Errno Unit) :
    hd.handle_notify before notify = (handler, r) →
    runs (turn hd) (.running before) [(ioctl, .recv (.ok notify))] =
      some (match NotifyListener.send_continue ioctl notify.id with
        | .error e => .ended (.error e)
        | .ok () => match r with
          | .error e => .ended (.error e)
          | .ok () => .running handler) := by
  intro hr
  cases hsend : NotifyListener.send_continue ioctl notify.id with
  | error e => simp [runs, turn, HandlingLoop.Task.turn, next, hsend]
  | ok u => cases r <;> simp [runs, turn, HandlingLoop.Task.turn, next, hr, hsend]

theorem turns_of_step {task : HandlingLoop.Task H} (h : s.pc.Is hd task)
    (hstep : step hd s event = some s') :
    ∃ turns task', runs (turn hd) task turns = some task' ∧ s'.pc.Is hd task' := by
  cases event with
  | syscall p notify | clone p =>
      rw [step, Option.ite_none_right_eq_some, Option.some_inj] at hstep
      obtain ⟨-, rfl⟩ := hstep
      exact ⟨[], task, rfl, h⟩
  | interrupt p | kill p =>
      obtain rfl := Option.some.inj hstep
      exact ⟨[], task, rfl, h⟩
  | recv =>
      rw [step] at hstep
      split at hstep
      · rename_i handler k hpc hfind
        obtain ⟨call, -, hstep⟩ := Option.bind_eq_some_iff.mp hstep
        obtain rfl := Option.some.inj hstep
        rw [hpc] at h
        exact ⟨[], task, rfl, h⟩
      · cases hstep
  | fail e =>
      rw [step] at hstep
      split at hstep
      · rename_i handler hpc
        obtain rfl := Option.some.inj hstep
        rw [hpc] at h
        obtain rfl := h
        exact ⟨[(fun _ ↦ .ok (), .failed e)], .ended (.error e), rfl, rfl⟩
      · cases hstep
  | closed =>
      rw [step] at hstep
      split at hstep
      · rename_i handler hpc
        rw [Option.ite_none_left_eq_some, Option.some_inj] at hstep
        obtain ⟨-, rfl⟩ := hstep
        rw [hpc] at h
        obtain rfl := h
        exact ⟨[(fun _ ↦ .ok (), .closed)], .ended (.ok handler), rfl, rfl⟩
      · cases hstep
  | handle_notify =>
      rw [step] at hstep
      split at hstep
      · rename_i handler k notify hpc
        obtain rfl := Option.some.inj hstep
        rw [hpc] at h
        exact ⟨[], task, rfl, handler, h, rfl⟩
      · cases hstep
  | send_continue failed =>
      cases hpc : s.pc with
      | handled handler k notify r =>
          rw [hpc] at h
          obtain ⟨before, rfl, hr⟩ := h
          cases failed with
          | some e =>
              obtain ⟨rfl, hfailed⟩ := of_send_failed hpc hstep
              have hturn := turn_recv (fun _ ↦ .error e) hr
              rw [hfailed] at hturn
              exact ⟨_, _, hturn, rfl⟩
          | none =>
              rw [step_send_continue hpc, Option.some_inj] at hstep
              subst hstep
              have hturn := turn_recv (fun _ ↦ .ok ()) hr
              cases r with
              | ok u => exact ⟨_, _, hturn, rfl⟩
              | error e => exact ⟨_, _, hturn, rfl⟩
      | _ =>
          rw [step, hpc] at hstep
          cases hstep

/-- The task is one of those that the handling loop waits for. -/
theorem turns_of_run (hrun : runs (step hd) (start hd) events = some s) :
    ∃ turns task, runs (turn hd) (.running hd.default) turns = some task ∧ s.pc.Is hd task := by
  refine runs_invariant (fun s : State H ↦ ∃ turns task,
    runs (turn hd) (.running hd.default) turns = some task ∧ s.pc.Is hd task) ?_ ?_ hrun
  · exact ⟨[], _, rfl, rfl⟩
  · rintro s event s' ⟨turns, task, hturns, h⟩ hstep
    obtain ⟨turns', task', hturns', h'⟩ := turns_of_step h hstep
    exact ⟨turns ++ turns', task', runs_append.mpr ⟨task, hturns, hturns'⟩, h'⟩

/-! ## What is served -/

/-- What has become of the calls. -/
structure Served (hd : Handler H) (s : State H) : Prop where
  /-- A call is handled once. -/
  once : (s.handled.map Prod.fst).Pairwise (· < ·)
  made : ∀ t ∈ s.handled, (s.calls[t.1]?).map Call.notify = some t.2
  /-- No call is overtaken. -/
  inTurn : ∀ t ∈ s.handled, ∀ j < t.1, ∀ call, s.calls[j]? = some call → call.isOpen = false
  /-- A call goes on after it is handled. -/
  continued : ∀ k call, s.calls[k]? = some call → call.outcome = some .continued →
    (k, call.notify) ∈ s.handled
  refused : ∀ call ∈ s.calls, call.outcome = some .refused → ∃ e, s.pc = .ended (.error e)
  returned : ∀ handler, s.pc = .ended (.ok handler) →
    handler = foldNotify hd s.handled ∧ true ∉ s.threads ∧
      ∀ call ∈ s.calls, call.isOpen = false ∧ call.outcome ≠ some .refused

theorem Inv.inTurn (h : Inv hd s) {t : Nat × Notif} (ht : t ∈ s.handled) {j : Nat} (hj : j < t.1)
    (hcall : s.calls[j]? = some call) : call.isOpen = false := by
  by_contra hopen
  rw [Bool.not_eq_false] at hopen
  cases hreceived : call.received with
  | false =>
      have := h.inOrder.later j call hcall hopen hreceived t (List.mem_append_left _ ht)
      exact Nat.lt_asymm this hj
  | true =>
      have hcurrent := h.current j call hcall hopen hreceived
      have hsorted := h.inOrder.sorted
      rw [State.taken] at hsorted
      cases hpc : s.pc with
      | waiting handler | ended r =>
          rw [hpc] at hcurrent
          cases hcurrent
      | received handler k notify =>
          rw [hpc] at hcurrent hsorted
          cases hcurrent
          rw [List.map_append, List.pairwise_append] at hsorted
          have := hsorted.2.2 t.1 (List.mem_map_of_mem ht) j List.mem_cons_self
          exact Nat.lt_asymm this hj
      | handled handler k notify r =>
          rw [hpc] at hcurrent hsorted
          cases hcurrent
          obtain ⟨before, hhandled, -⟩ := h.responds _ _ _ _ hpc
          rw [List.append_nil, hhandled, List.map_append, List.pairwise_append] at hsorted
          rw [hhandled] at ht
          rcases List.mem_append.mp ht with ht | ht
          · have := hsorted.2.2 t.1 (List.mem_map_of_mem ht) j List.mem_cons_self
            exact Nat.lt_asymm this hj
          · obtain rfl := List.mem_singleton.mp ht
            exact Nat.lt_irrefl _ hj

theorem Inv.served (h : Inv hd s) : Served hd s where
  once := by
    have := h.inOrder.sorted
    rw [State.taken, List.map_append, List.pairwise_append] at this
    exact this.1
  made t ht := by
    obtain ⟨call, hcall, hnotify, -⟩ := h.inOrder.made t (List.mem_append_left _ ht)
    rw [hcall, Option.map_some, hnotify]
  inTurn t ht j hj call hcall := h.inTurn ht hj hcall
  continued := h.continued
  refused := h.refused
  returned handler hpc := by
    refine ⟨h.handler handler (by rw [hpc]; rfl), h.gone handler hpc, ?_⟩
    intro call hcall
    exact ⟨h.ended _ hpc call hcall, h.not_refused (by simp [hpc]) hcall⟩

/-- What is handled is some of what was made. -/
theorem Served.sublist (h : Served hd s) :
    s.handled.Sublist (s.calls.mapIdx fun k call ↦ (k, call.notify)) := by
  have hanti : Std.Antisymm fun t t' : Nat × Notif ↦ t.1 < t'.1 :=
    ⟨fun _ _ hlt hlt' ↦ (Nat.lt_asymm hlt hlt').elim⟩
  have hsorted : s.handled.Pairwise fun t t' ↦ t.1 < t'.1 := List.pairwise_map.mp h.once
  have hcalls : (s.calls.mapIdx fun k call ↦ (k, call.notify)).Pairwise
      fun t t' ↦ t.1 < t'.1 := by
    rw [List.pairwise_iff_getElem]
    intro i j hi hj hij
    rw [List.getElem_mapIdx, List.getElem_mapIdx]
    exact hij
  refine List.sublist_of_subperm_of_pairwise (List.subperm_of_subset ?_ ?_) hsorted hcalls
  · exact hsorted.imp fun hlt heq ↦ Nat.ne_of_lt hlt (congrArg Prod.fst heq)
  · intro t ht
    obtain ⟨call, hcall, hnotify⟩ := Option.map_eq_some_iff.mp (h.made t ht)
    apply List.mem_of_getElem? (i := t.1)
    rw [List.getElem?_mapIdx, hcall, Option.map_some, hnotify]

/-- What is not handled, where the task has ended well, was not left to go on. -/
theorem Served.left_out (h : Served hd s) {handler : H} (hpc : s.pc = .ended (.ok handler))
    (hcall : s.calls[k]? = some call) (hout : (k, call.notify) ∉ s.handled) :
    call.outcome = some .interrupted ∨ call.outcome = some .killed := by
  obtain ⟨hopen, hrefused⟩ := (h.returned handler hpc).2.2 call (List.mem_of_getElem? hcall)
  cases houtcome : call.outcome with
  | none =>
      rw [Call.isOpen, houtcome] at hopen
      cases hopen
  | some outcome =>
      cases outcome with
      | continued => exact (hout (h.continued k call hcall houtcome)).elim
      | interrupted => exact .inl rfl
      | killed => exact .inr rfl
      | refused => exact (hrefused houtcome).elim

/-- **What is served under a filter.**  Whatever the threads do, and whenever they are
interrupted or killed, the handler is called with the notifications of the calls that were
made, once and in their order, and no call goes on before that; a call is refused only where
the task has failed, and the handler that the task returns has seen all that were handled. -/
theorem served_of_run (hrun : runs (step hd) (start hd) events = some s) : Served hd s :=
  (inv_run hrun).served

/-- The first of two calls is interrupted while it is handled. -/
theorem served_of_run_sample : Served sampleHandler ⟨[true, true],
    [⟨0, sampleNotify 1 8, true, some .interrupted⟩, ⟨1, sampleNotify 2 8, false, none⟩],
    .waiting 1, [(0, sampleNotify 1 8)]⟩ := by
  have hrun : runs (step sampleHandler) (start sampleHandler)
      [.clone 0, .syscall 0 (sampleNotify 1 8), .syscall 1 (sampleNotify 2 8), .recv,
        .interrupt 0, .handle_notify, .send_continue none] = some _ := rfl
  exact served_of_run hrun

/-! ## No call is stopped for ever -/

/-- What the task does, while nothing else fails. -/
def Own : Event → Prop
  | .recv | .handle_notify | .send_continue none => True
  | _ => False

/-- The task has ended because the handler failed on a call before `k`. -/
def FailedBefore (hd : Handler H) (k : Nat) (s : State H) : Prop :=
  ∃ before j notify e, s.handled = before ++ [(j, notify)] ∧ j < k ∧
    (hd.handle_notify (foldNotify hd before) notify).2 = .error e ∧ s.pc = .ended (.error e)

/-- The call `k` has come back. -/
def ComesBack (hd : Handler H) (k : Nat) (s : State H) : Prop :=
  ∃ call, s.calls[k]? = some call ∧ (call.outcome = some .continued ∨
    call.outcome = some .refused ∧ FailedBefore hd k s)

/-- The call `k` is stopped. -/
def Stopped (hd : Handler H) (k : Nat) (s : State H) : Prop :=
  Inv hd s ∧ ∃ call, s.calls[k]? = some call ∧ call.isOpen = true

/-- The calls that are not received, and what is left to do with one that is. -/
def variant (s : State H) : Nat :=
  3 * (s.calls.map Call.received).count false + match s.pc with
    | .received .. => 2
    | .handled .. => 1
    | _ => 0

theorem map_received_settle (select : Nat → Call → Bool) (outcome : Outcome)
    (calls : List Call) : (settle select outcome calls).map Call.received =
      calls.map Call.received := by
  apply List.ext_getElem?
  intro k
  rw [List.getElem?_map, List.getElem?_map, getElem?_settle]
  cases calls[k]? with
  | none => rfl
  | some call => exact congrArg some (settled _ _ _).received

theorem count_receive (hcall : calls[k]? = some call) (hreceived : call.received = false) :
    ((calls.set k call.receive).map Call.received).count false + 1 =
      (calls.map Call.received).count false := by
  obtain ⟨hlt, rfl⟩ := List.getElem?_eq_some_iff.mp hcall
  have hmem : false ∈ calls.map Call.received :=
    List.mem_map.mpr ⟨calls[k], List.getElem_mem hlt, hreceived⟩
  have hpos := List.count_pos_iff.mpr hmem
  rw [List.map_set, List.count_set (by simpa using hlt), List.getElem_map, hreceived]
  simp only [Call.receive, beq_self_eq_true, if_true, Bool.true_eq_false, beq_iff_eq, if_false]
  omega

/-- A call that is stopped while another one is handled comes after it. -/
theorem Inv.lt_of_handled (h : Inv hd s) {j : Nat} {handler : H} {notify : Notif}
    {r : Except IoError Unit} (hpc : s.pc = .handled handler j notify r)
    (hcall : s.calls[k]? = some call) (hopen : call.isOpen = true) (hjk : j ≠ k) : j < k := by
  cases hreceived : call.received with
  | true =>
      have := h.current k call hcall hopen hreceived
      rw [hpc] at this
      exact (hjk (Option.some.inj this)).elim
  | false =>
      obtain ⟨before, hhandled, -⟩ := h.responds _ _ _ _ hpc
      refine h.inOrder.later k call hcall hopen hreceived (j, notify) ?_
      rw [State.taken, hhandled]
      exact List.mem_append_left _ List.mem_concat_self

/-- The response is sent before the result of the handler is looked at. -/
theorem comesBack {handler : H} {notify : Notif} {r : Except IoError Unit}
    (hpc : s.pc = .handled handler k notify r) (hcall : s.calls[k]? = some call)
    (hopen : call.isOpen = true) :
    ∃ s', step hd s (.send_continue none) = some s' ∧ ComesBack hd k s' := by
  obtain ⟨call₁, hcall₁, hsettled⟩ := settle_of hcall (fun j _ ↦ j == k) .continued
  have houtcome : call₁.outcome = some .continued := by
    rw [hsettled.outcome, hopen]
    simp
  refine ⟨_, step_send_continue hpc, ?_⟩
  cases r with
  | ok u => exact ⟨call₁, hcall₁, .inl houtcome⟩
  | error e =>
      obtain ⟨call₂, hcall₂, hsettled₂⟩ := settle_of hcall₁ (fun _ _ ↦ true) .refused
      refine ⟨call₂, hcall₂, .inl ?_⟩
      rw [hsettled₂.outcome, Call.isOpen, houtcome]
      rfl

/-- What the task does next brings a call that is stopped back, or nearer to that. -/
theorem progress (h : Stopped hd k s) :
    ∃ event s', Own event ∧ step hd s event = some s' ∧
      (ComesBack hd k s' ∨ Stopped hd k s' ∧ variant s' < variant s) := by
  obtain ⟨h, call, hcall, hopen⟩ := h
  cases hpc : s.pc with
  | waiting handler =>
      have hreceived : call.received = false := by
        by_contra hreceived
        have := h.current k call hcall hopen (by simpa using hreceived)
        rw [hpc] at this
        cases this
      obtain ⟨j, hfind⟩ : ∃ j, s.calls.findIdx?
          (fun call ↦ call.isOpen && !call.received) = some j := by
        rw [← Option.isSome_iff_exists, List.findIdx?_isSome, List.any_eq_true]
        exact ⟨call, List.mem_of_getElem? hcall, by rw [hopen, hreceived]; rfl⟩
      obtain ⟨hlt, hfound, -⟩ := List.findIdx?_eq_some_iff_getElem.mp hfind
      rw [Bool.and_eq_true, Bool.not_eq_true'] at hfound
      have hmade : s.calls[j]? = some s.calls[j] := List.getElem?_eq_getElem hlt
      refine ⟨.recv, _, trivial, by simp only [step, hpc, hfind, hmade]; rfl,
        .inr ⟨⟨h.recv hpc hfind hmade, ?_⟩, ?_⟩⟩
      · rw [List.getElem?_set]
        split
        · exact ⟨_, rfl, hfound.1⟩
        · exact ⟨call, hcall, hopen⟩
      · have := count_receive hmade hfound.2
        simp only [variant, hpc]
        omega
  | received handler j notify =>
      refine ⟨.handle_notify, _, trivial, by simp only [step, hpc],
        .inr ⟨⟨h.handle_notify hpc, call, hcall, hopen⟩, ?_⟩⟩
      simp only [variant, hpc]
      omega
  | handled handler j notify r =>
      rcases eq_or_ne j k with rfl | hjk
      · obtain ⟨s', hs', hback⟩ := comesBack hpc hcall hopen
        exact ⟨.send_continue none, s', trivial, hs', .inl hback⟩
      · have hlt := h.lt_of_handled hpc hcall hopen hjk
        refine ⟨.send_continue none, _, trivial, step_send_continue hpc, ?_⟩
        obtain ⟨call₁, hcall₁, hsettled⟩ := settle_of hcall (fun i _ ↦ i == j) .continued
        have hopen₁ : call₁.isOpen = true := by
          rw [hsettled.isOpen, hopen]
          simpa using hjk.symm
        cases r with
        | ok u =>
            refine .inr ⟨⟨h.respond hpc, call₁, hcall₁, hopen₁⟩, ?_⟩
            simp only [variant, hpc, State.respond, map_received_settle]
            omega
        | error e =>
            obtain ⟨before, hhandled, hr⟩ := h.responds _ _ _ _ hpc
            obtain ⟨call₂, hcall₂, hsettled₂⟩ := settle_of hcall₁ (fun _ _ ↦ true) .refused
            refine .inl ⟨call₂, hcall₂, .inr ⟨?_, before, j, notify, e, hhandled, hlt, ?_, rfl⟩⟩
            · rw [hsettled₂.outcome, hopen₁]
              rfl
            · rw [hr]
  | ended r =>
      rw [h.ended r hpc call (List.mem_of_getElem? hcall)] at hopen
      cases hopen

/-- **No call is stopped for ever.**  In every state that is reached, what the task does leads
on to where a call that is stopped has come back: it goes on, or it is refused since the handler
has failed on an earlier one. -/
theorem settled_of_run (hrun : runs (step hd) (start hd) events = some s)
    (hcall : s.calls[k]? = some call) (hopen : call.isOpen = true) :
    ∃ own s', (∀ event ∈ own, Own event) ∧ runs (step hd) s own = some s' ∧
      ComesBack hd k s' :=
  have hstopped : Stopped hd k s := ⟨inv_run hrun, call, hcall, hopen⟩
  runs_of_variant variant (fun _ ↦ progress) hstopped

/-- The second of two calls waits while the handler fails on the first. -/
theorem settled_of_run_sample : ∃ own s', (∀ event ∈ own, Own event) ∧
    runs (step sampleHandler) ⟨[true, true],
      [⟨0, sampleNotify 1 0, true, none⟩, ⟨1, sampleNotify 2 8, false, none⟩],
      .received 0 0 (sampleNotify 1 0), []⟩ own = some s' ∧ ComesBack sampleHandler 1 s' := by
  have hrun : runs (step sampleHandler) (start sampleHandler)
      [.clone 0, .syscall 0 (sampleNotify 1 0), .syscall 1 (sampleNotify 2 8), .recv] =
        some _ := rfl
  have hopen : Call.isOpen ⟨1, sampleNotify 2 8, false, none⟩ = true := rfl
  exact settled_of_run hrun rfl hopen

end Fspy.Seccomp.Supervised
