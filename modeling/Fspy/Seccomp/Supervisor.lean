import Fspy.Basic

/-!
# The notification loop of the supervisor

A seccomp filter has one listener, shared by the target and all its descendants.
`supervise` spawns one task per listener, which takes notifications off it one by
one, runs the handler, and lets the system call go on with a CONTINUE response.
The kernel side is a schedule: what each turn of the loop in `NotifyListener::next`
finds, and what the `SECCOMP_IOCTL_NOTIF_SEND` ioctl returns.

The result of the handler is looked at *after* the response is sent, so a failing
handler does not block the call it failed on; it does end the task, and with it the
listener.  `serves_iff` says on which runs this makes no difference.
-/

namespace Fspy.Seccomp

/-- `seccomp_notif`, as far as handlers look at it. -/
structure Notif where
  id : UInt64
  pid : UInt32
  nr : Int
  args : List UInt64
deriving DecidableEq, Repr

/-- `seccomp_notif_resp`. -/
structure NotifResp where
  id : UInt64
  val : Int
  error : Int
  flags : UInt32
deriving DecidableEq, Repr

/-- An `io::Error`: an error number, or the kind `CStrPtr::read` makes up. -/
inductive IoError where
  | os (e : Errno)
  | invalidFilename
deriving DecidableEq, Repr

/-- `SeccompNotifyHandler + Default`. -/
structure Handler (H : Type) where
  default : H
  handle_notify : H → Notif → H × Except IoError Unit

/-! ## The listener -/

/-- One turn of the loop in `next`: waiting for readiness fails; the descriptor is
closed for reading or writing; it is not readable; or it is, and `notif_recv`
returns this. -/
inductive Poll where
  | failed (e : IoError)
  | closed
  | notReadable
  | recv (r : Except Errno Notif)

namespace NotifyListener

/-- `NotifyListener::next`, with the turns that are left for the next call.  `none`
is a call that is still waiting when the schedule ends. -/
def next : List Poll → Option (Except IoError (Option Notif)) × List Poll
  | [] => (none, [])
  | .failed e :: rest => (some (.error e), rest)
  | .closed :: rest => (some (.ok none), rest)
  | .notReadable :: rest => next rest
  | .recv (.ok notify) :: rest => (some (.ok (some notify)), rest)
  | .recv (.error .EINTR) :: rest => next rest
  | .recv (.error .EWOULDBLOCK) :: rest => next rest
  | .recv (.error .ENOENT) :: rest => next rest
  | .recv (.error other_error) :: rest => (some (.error (.os other_error)), rest)

/-- `SECCOMP_USER_NOTIF_FLAG_CONTINUE`. -/
def SECCOMP_USER_NOTIF_FLAG_CONTINUE : UInt32 := 1

/-- The response `send_continue` puts together. -/
def continueResp (req_id : UInt64) : NotifResp :=
  { id := req_id, val := 0, error := 0, flags := SECCOMP_USER_NOTIF_FLAG_CONTINUE }

/-- `NotifyListener::send_continue`; `ioctl` is what the kernel says to a response. -/
def send_continue (ioctl : NotifResp → Except Errno Unit) (req_id : UInt64) :
    Except IoError Unit :=
  match ioctl (continueResp req_id) with
  | .ok () => .ok ()
  -- the system call of the target was interrupted
  | .error .ENOENT => .ok ()
  | .error e => .error (.os e)

theorem length_next {polls rest : List Poll} {r : Option (Except IoError (Option Notif))}
    (h : next polls = (r, rest)) (hr : r.isSome) : rest.length < polls.length := by
  induction polls using next.induct generalizing rest with
  | case1 =>
      cases h
      cases hr
  | case4 polls ih | case6 polls ih | case7 polls ih | case8 polls ih =>
      exact Nat.lt_succ_of_lt (ih h)
  | case9 e polls h₁ h₂ h₃ =>
      simp only [next, Prod.mk.injEq] at h
      obtain ⟨-, rfl⟩ := h
      exact Nat.lt_succ_self _
  | _ =>
      cases h
      exact Nat.lt_succ_self _

end NotifyListener

/-! ## The task of one listener -/

/-- What a task does to the outside. -/
inductive Event where
  | handled (notify : Notif)
  | sent (resp : NotifResp)
deriving DecidableEq, Repr

/-- What a task has done, and its result unless it is still waiting. -/
structure Run (H : Type) where
  trace : List Event
  result : Option (Except IoError H)

open NotifyListener

variable {H : Type}

/-- The body of the task spawned for a listener, from a handler state on. -/
def handlingTask (hd : Handler H) (ioctl : NotifResp → Except Errno Unit) (handler : H)
    (polls : List Poll) : Run H :=
  match _hnext : next polls with
  | (none, _) => ⟨[], none⟩
  | (some (.error e), _) => ⟨[], some (.error e)⟩
  | (some (.ok none), _) => ⟨[], some (.ok handler)⟩
  | (some (.ok (some notify)), rest) =>
      let (handler', handle_result) := hd.handle_notify handler notify
      let done : List Event := [.handled notify, .sent (continueResp notify.id)]
      match send_continue ioctl notify.id with
      | .error e => ⟨done, some (.error e)⟩
      | .ok () => match handle_result with
        | .error e => ⟨done, some (.error e)⟩
        | .ok () =>
            let run := handlingTask hd ioctl handler' rest
            ⟨done ++ run.trace, run.result⟩
termination_by polls.length
decreasing_by exact length_next _hnext rfl

/-! ## When every notification is served -/

/-- The notifications a schedule delivers: those received while the listener lives. -/
def delivered : List Poll → List Notif
  | [] => []
  | .failed _ :: _ => []
  | .closed :: _ => []
  | .notReadable :: rest => delivered rest
  | .recv (.ok notify) :: rest => notify :: delivered rest
  | .recv (.error _) :: rest => delivered rest

/-- The turn reports no error other than the ones `next` ignores. -/
def Poll.Quiet : Poll → Prop
  | .failed _ => False
  | .recv (.error e) => e = .EINTR ∨ e = .EWOULDBLOCK ∨ e = .ENOENT
  | _ => True

/-- The send ioctl reports no error other than the one `send_continue` ignores. -/
def SendQuiet (ioctl : NotifResp → Except Errno Unit) : Prop :=
  ∀ resp, ioctl resp = .ok () ∨ ioctl resp = .error .ENOENT

/-- Serving a notification: the handler runs, then the call goes on. -/
def serve (notify : Notif) : List Event :=
  [.handled notify, .sent (continueResp notify.id)]

/-- What the handler returns for each of the notifications. -/
def outcomes (hd : Handler H) : H → List Notif → List (Except IoError Unit)
  | _, [] => []
  | handler, notify :: rest =>
      (hd.handle_notify handler notify).2 :: outcomes hd (hd.handle_notify handler notify).1 rest

/-- Every notification delivered is served, in order and once, and an error is the
result only if the handler returned it. -/
def Serves (hd : Handler H) (ioctl : NotifResp → Except Errno Unit) (polls : List Poll) : Prop :=
  (handlingTask hd ioctl hd.default polls).trace = (delivered polls).flatMap serve ∧
    ∀ e, (handlingTask hd ioctl hd.default polls).result = some (.error e) →
      .error e ∈ outcomes hd hd.default (delivered polls)

variable {hd : Handler H} {ioctl : NotifResp → Except Errno Unit} {handler : H}
  {polls : List Poll}

theorem send_continue_of_quiet (h : SendQuiet ioctl) (req_id : UInt64) :
    send_continue ioctl req_id = .ok () := by
  rcases h (continueResp req_id) with h | h <;> rw [send_continue, h]

/-- What a result of `next` says about the notifications of a quiet schedule. -/
def NextSpec (polls rest : List Poll) : Option (Except IoError (Option Notif)) → Prop
  | none => delivered polls = []
  | some (.error _) => False
  | some (.ok none) => delivered polls = []
  | some (.ok (some notify)) =>
      delivered polls = notify :: delivered rest ∧ ∀ p ∈ rest, p.Quiet

theorem next_of_quiet {rest : List Poll} {r : Option (Except IoError (Option Notif))}
    (hq : ∀ p ∈ polls, p.Quiet) (h : next polls = (r, rest)) : NextSpec polls rest r := by
  induction polls with
  | nil =>
      cases h
      rfl
  | cons p polls ih =>
      have hrest : ∀ p ∈ polls, p.Quiet := fun p hp ↦ hq p (List.mem_cons_of_mem _ hp)
      have hp := hq p List.mem_cons_self
      cases p with
      | failed e => exact hp.elim
      | closed =>
          cases h
          rfl
      | notReadable => exact ih hrest h
      | recv r =>
          cases r with
          | ok notify =>
              cases h
              exact ⟨rfl, hrest⟩
          | error e => rcases hp with rfl | rfl | rfl <;> exact ih hrest h

/-- A handler error that is followed by another notification ends the trace early. -/
def servedTrace (hd : Handler H) : H → List Notif → List Event
  | _, [] => []
  | handler, notify :: rest =>
      serve notify ++ match (hd.handle_notify handler notify).2 with
        | .error _ => []
        | .ok () => servedTrace hd (hd.handle_notify handler notify).1 rest

theorem trace_handlingTask (hq : ∀ p ∈ polls, p.Quiet) (hs : SendQuiet ioctl) :
    (handlingTask hd ioctl handler polls).trace = servedTrace hd handler (delivered polls) := by
  fun_induction handlingTask hd ioctl handler polls with
  | case1 handler polls rest hnext =>
      rw [show delivered polls = [] from next_of_quiet hq hnext]
      rfl
  | case2 handler polls e rest hnext => exact (next_of_quiet hq hnext).elim
  | case3 handler polls rest hnext =>
      rw [show delivered polls = [] from next_of_quiet hq hnext]
      rfl
  | case4 handler polls notify rest hnext handler' r hh done e hsend =>
      rw [send_continue_of_quiet hs] at hsend
      cases hsend
  | case5 handler polls notify rest hnext handler' done hsend e hh =>
      rw [(next_of_quiet hq hnext).1, servedTrace, hh, List.append_nil]
      rfl
  | case6 handler polls notify rest hnext handler' done hsend run hh ih =>
      obtain ⟨hdel, hrest⟩ := next_of_quiet hq hnext
      rw [hdel, servedTrace, hh, ← ih hrest]
      rfl

/-- Only the handler's errors come out of the task. -/
theorem result_handlingTask (hq : ∀ p ∈ polls, p.Quiet) (hs : SendQuiet ioctl) {e : IoError}
    (h : (handlingTask hd ioctl handler polls).result = some (.error e)) :
    .error e ∈ outcomes hd handler (delivered polls) := by
  fun_induction handlingTask hd ioctl handler polls with
  | case1 handler polls rest hnext => cases h
  | case2 handler polls e' rest hnext => exact (next_of_quiet hq hnext).elim
  | case3 handler polls rest hnext => cases h
  | case4 handler polls notify rest hnext handler' r hh done e' hsend =>
      rw [send_continue_of_quiet hs] at hsend
      cases hsend
  | case5 handler polls notify rest hnext handler' done hsend e' hh =>
      cases h
      rw [(next_of_quiet hq hnext).1, outcomes, hh]
      exact List.mem_cons_self
  | case6 handler polls notify rest hnext handler' done hsend run hh ih =>
      obtain ⟨hdel, hrest⟩ := next_of_quiet hq hnext
      rw [hdel, outcomes, hh]
      exact List.mem_cons_of_mem _ (ih hrest h)

/-- The trace is complete if only the last handler call can fail. -/
theorem servedTrace_eq_iff (ns : List Notif) :
    servedTrace hd handler ns = ns.flatMap serve ↔
      ∀ r ∈ (outcomes hd handler ns).dropLast, r = .ok () := by
  induction ns generalizing handler with
  | nil => simp [servedTrace, outcomes]
  | cons notify ns ih =>
      rw [servedTrace, outcomes, List.flatMap_cons, List.append_right_inj]
      cases ns with
      | nil =>
          cases (hd.handle_notify handler notify).2 <;> simp [servedTrace, outcomes]
      | cons notify' ns =>
          cases hr : (hd.handle_notify handler notify).2 with
          | error e => simp [outcomes, serve]
          | ok u =>
              rw [ih]
              simp [outcomes]

/-- **Serving a listener.**  A listener and a kernel that report nothing but the errors
the code ignores are served in full if and only if the handler fails on no notification
that another one follows. -/
theorem serves_iff (hq : ∀ p ∈ polls, p.Quiet) (hs : SendQuiet ioctl) :
    Serves hd ioctl polls ↔
      ∀ r ∈ (outcomes hd hd.default (delivered polls)).dropLast, r = .ok () := by
  rw [Serves, trace_handlingTask hq hs, servedTrace_eq_iff]
  exact and_iff_left fun e ↦ result_handlingTask hq hs

/-- A handler that cannot read a string at address zero, and counts what it has read. -/
def sampleHandler : Handler Nat where
  default := 0
  handle_notify handler notify :=
    if notify.args[1]? = some 0 then (handler, .error (.os (.other 14))) else (handler + 1, .ok ())

/-- An `openat` with the given id and path pointer. -/
def sampleNotify (id ptr : UInt64) : Notif := ⟨id, 100, 257, [0, ptr]⟩

theorem serves_two : Serves sampleHandler (fun _ ↦ .ok ())
    [.recv (.ok (sampleNotify 1 8)), .notReadable, .recv (.ok (sampleNotify 2 0)), .closed] :=
  (serves_iff (by simp [Poll.Quiet]) (fun _ ↦ .inl rfl)).mpr (by decide)

/-- The first of two calls has a bad pointer: the second one is never answered. -/
theorem not_serves_after_error : ¬Serves sampleHandler (fun _ ↦ .ok ())
    [.recv (.ok (sampleNotify 1 0)), .recv (.ok (sampleNotify 2 8)), .closed] := by
  rintro ⟨htrace, -⟩
  rw [trace_handlingTask (by simp [Poll.Quiet]) (fun _ ↦ .inl rfl)] at htrace
  revert htrace
  decide

end Fspy.Seccomp
