import Fspy.Lib.Transition
import Fspy.Seccomp.Supervisor

/-!
# Waiting for a notification

The descriptor of a filter is registered with the runtime for edges.  An edge is an
event of the descriptor that the runtime has not seen; several may be delivered as one.
`next` waits for a flag that the runtime sets, clears it, and takes one notification,
so a notification that arrives in between must leave an edge behind.  It does: what is
left over after one has been taken is announced by the edge of the taking.
-/

namespace Fspy.Seccomp.Wakeup

open Lib

/-- What the runtime remembers of a descriptor, as far as `next` looks at it. -/
structure Ready where
  readable : Bool
  /-- `is_read_closed() || is_write_closed()`. -/
  closed : Bool
deriving DecidableEq, Repr

/-- Where a call of `next` is. -/
inductive Pc where
  /-- In `readable().await`. -/
  | waiting
  /-- It has the guard, with what was ready then. -/
  | guarded (ready : Ready) (tick : Nat)
  /-- In `notif_recv`. -/
  | receiving
  /-- It has returned. -/
  | returned (result : Except IoError (Option Notif))
  /-- The task has ended with this notification, the last that was returned. -/
  | ended (notify : Notif)

/-- The listener of a filter, with the kernel on one side and the runtime on the other. -/
structure State where
  /-- The notifications that were not taken. -/
  pending : List Notif
  /-- No task is left under the filter. -/
  closed : Bool
  /-- The edges that were not delivered. -/
  edges : Nat
  ready : Ready
  /-- The number of the last delivery. -/
  tick : Nat
  pc : Pc
  /-- What the turns of the loop have found since `next` was called. -/
  turns : List Poll

inductive Label where
  /-- A task makes a system call. -/
  | arrive (notify : Notif)
  /-- The task of a notification is killed. -/
  | withdraw (notify : Notif)
  | close
  /-- The runtime is told of some edges; the descriptor may be writable as well. -/
  | deliver (edges : Nat) (writable : Bool)
  /-- `readable().await` fails. -/
  | fail (e : IoError)
  | guard
  /-- What is done with the guard. -/
  | clear_ready
  | notif_recv (result : Except Errno Unit)
  /-- The notification is served, and `next` called again. -/
  | again
  /-- The handler or the response fails, and the task with it. -/
  | abandon
deriving DecidableEq

/-- The errors that `next` ignores. -/
def ignored (e : Errno) : Bool := e == .EINTR || e == .EWOULDBLOCK || e == .ENOENT

/-- The end of a turn that returns. -/
def State.done (s : State) (turn : Poll) (result : Except IoError (Option Notif)) : State :=
  { s with pc := .returned result, turns := s.turns ++ [turn] }

/-- The end of a turn that does not. -/
def State.loop (s : State) (turn : Poll) : State :=
  { s with pc := .waiting, turns := s.turns ++ [turn] }

def step (s : State) : Label → Option State
  | .arrive notify =>
      if s.closed then none
      else some { s with pending := s.pending ++ [notify], edges := s.edges + 1 }
  | .withdraw notify => some { s with pending := s.pending.erase notify }
  | .close =>
      if s.pending = [] then some { s with closed := true, edges := s.edges + 1 } else none
  | .deliver edges writable =>
      if 0 < edges ∧ edges ≤ s.edges then
        let ready : Ready :=
          ⟨s.ready.readable || !s.pending.isEmpty, s.ready.closed || s.closed⟩
        -- an edge with nothing behind it is not reported
        let tick := if s.pending = [] ∧ !s.closed ∧ !writable then s.tick else s.tick + 1
        some { s with edges := s.edges - edges, ready, tick }
      else none
  | .fail e => match s.pc with
      | .waiting => some (s.done (.failed e) (.error e))
      | _ => none
  | .guard => match s.pc with
      | .waiting =>
          if s.ready.readable || s.ready.closed then
            some { s with pc := .guarded s.ready s.tick }
          else none
      | _ => none
  | .clear_ready => match s.pc with
      | .guarded ready tick =>
          if ready.closed then some (s.done .closed (.ok none))
          else if !ready.readable then some (s.loop .notReadable)
          -- what was delivered after the guard was taken stays
          else if tick = s.tick then
            some { s with ready := ⟨false, s.ready.closed⟩, pc := .receiving }
          else some { s with pc := .receiving }
      | _ => none
  | .notif_recv result => match s.pc with
      | .receiving => match result, s.pending with
          | .ok (), notify :: pending =>
              some ({ s with pending, edges := s.edges + 1 }.done (.recv (.ok notify))
                (.ok (some notify)))
          | .ok (), [] => none
          | .error e, pending =>
              if ignored e then
                -- only when nothing is pending
                if pending = [] then some (s.loop (.recv (.error e))) else none
              else some (s.done (.recv (.error e)) (.error (.os e)))
      | _ => none
  | .again => match s.pc with
      | .returned (.ok (some _)) => some { s with pc := .waiting, turns := [] }
      | _ => none
  | .abandon => match s.pc with
      | .returned (.ok (some notify)) => some { s with pc := .ended notify }
      | _ => none

variable {s s' : State} {l : Label} {ls : List Label}

/-- What a step can do. -/
inductive Moved (s : State) : State → Prop
  | arrive (notify : Notif) : ¬s.closed →
      Moved s { s with pending := s.pending ++ [notify], edges := s.edges + 1 }
  | withdraw (notify : Notif) : Moved s { s with pending := s.pending.erase notify }
  | close : s.pending = [] → Moved s { s with closed := true, edges := s.edges + 1 }
  | deliver (edges tick : Nat) : Moved s { s with
      edges := s.edges - edges
      ready := ⟨s.ready.readable || !s.pending.isEmpty, s.ready.closed || s.closed⟩
      tick }
  | fail (e : IoError) : s.pc = .waiting → Moved s (s.done (.failed e) (.error e))
  | guard : s.pc = .waiting → Moved s { s with pc := .guarded s.ready s.tick }
  | closed {ready : Ready} {tick : Nat} : s.pc = .guarded ready tick → ready.closed →
      Moved s (s.done .closed (.ok none))
  | notReadable {ready : Ready} {tick : Nat} : s.pc = .guarded ready tick →
      Moved s (s.loop .notReadable)
  | clear {ready : Ready} {tick : Nat} (readable : Bool) : s.pc = .guarded ready tick →
      Moved s { s with ready := ⟨readable, s.ready.closed⟩, pc := .receiving }
  | recv {notify : Notif} {pending : List Notif} : s.pc = .receiving →
      s.pending = notify :: pending →
      Moved s ({ s with pending, edges := s.edges + 1 }.done (.recv (.ok notify))
        (.ok (some notify)))
  | retry {e : Errno} : s.pc = .receiving → s.pending = [] → ignored e →
      Moved s (s.loop (.recv (.error e)))
  | recvFails {e : Errno} : s.pc = .receiving → ¬ignored e →
      Moved s (s.done (.recv (.error e)) (.error (.os e)))
  | again {notify : Notif} : s.pc = .returned (.ok (some notify)) →
      Moved s { s with pc := .waiting, turns := [] }
  | abandon {notify : Notif} : s.pc = .returned (.ok (some notify)) →
      Moved s { s with pc := .ended notify }

theorem moved_of_step (hstep : step s l = some s') : Moved s s' := by
  cases l with
  | arrive notify =>
      simp only [step, Option.ite_none_left_eq_some, Option.some.injEq] at hstep
      obtain ⟨hopen, rfl⟩ := hstep
      exact .arrive notify hopen
  | withdraw notify =>
      cases hstep
      exact .withdraw notify
  | close =>
      simp only [step, Option.ite_none_right_eq_some, Option.some.injEq] at hstep
      obtain ⟨hnil, rfl⟩ := hstep
      exact .close hnil
  | deliver edges writable =>
      simp only [step, Option.ite_none_right_eq_some, Option.some.injEq] at hstep
      obtain ⟨-, rfl⟩ := hstep
      exact .deliver edges _
  | fail e =>
      simp only [step] at hstep
      split at hstep
      · rename_i hpc
        cases hstep
        exact .fail e hpc
      · cases hstep
  | guard =>
      simp only [step] at hstep
      split at hstep
      · rename_i hpc
        simp only [Option.ite_none_right_eq_some, Option.some.injEq] at hstep
        obtain ⟨-, rfl⟩ := hstep
        exact .guard hpc
      · cases hstep
  | clear_ready =>
      simp only [step] at hstep
      split at hstep
      · rename_i ready tick hpc
        split at hstep
        · rename_i hclosed
          cases hstep
          exact .closed hpc hclosed
        · split at hstep
          · cases hstep
            exact .notReadable hpc
          · split at hstep
            · cases hstep
              exact .clear false hpc
            · cases hstep
              exact .clear s.ready.readable hpc
      · cases hstep
  | notif_recv result =>
      simp only [step] at hstep
      split at hstep
      · rename_i hpc
        split at hstep
        · rename_i hpending
          cases hstep
          exact .recv hpc hpending
        · cases hstep
        · split at hstep
          · rename_i hignored
            split at hstep
            · rename_i hnil
              cases hstep
              exact .retry hpc hnil hignored
            · cases hstep
          · rename_i hignored
            cases hstep
            exact .recvFails hpc hignored
      · cases hstep
  | again =>
      simp only [step] at hstep
      split at hstep
      · rename_i hpc
        cases hstep
        exact .again hpc
      · cases hstep
  | abandon =>
      simp only [step] at hstep
      split at hstep
      · rename_i hpc
        cases hstep
        exact .abandon hpc
      · cases hstep

/-! ## No wake-up is lost -/

/-- The listener waits, nothing will wake it, and a system call is blocked. -/
def State.Stuck (s : State) : Prop :=
  s.pc = .waiting ∧ s.ready.readable = false ∧ s.edges = 0 ∧ s.pending ≠ []

/-- A step of the listener or of the runtime. -/
def Label.Internal : Label → Prop
  | .deliver _ _ | .guard | .clear_ready | .notif_recv _ | .again => True
  | _ => False

/-- The descriptor was just registered: if it is readable, the runtime is told. -/
structure State.Registered (s : State) : Prop where
  pc : s.pc = .waiting
  ready : s.ready = ⟨false, false⟩
  edges : s.pending ≠ [] → 0 < s.edges
  closed : s.closed → s.pending = []
  turns : s.turns = []

/-- `next` or the task has ended with an error. -/
def Pc.Failed : Pc → Prop
  | .returned (.error _) | .ended _ => True
  | _ => False

/-- `next` is not about to take a notification, and nothing has failed. -/
def Pc.Watching (pc : Pc) : Prop := pc ≠ .receiving ∧ ¬pc.Failed

/-- What holds between two steps. -/
structure Inv (s : State) : Prop where
  /-- A pending notification is announced. -/
  announced : s.pc.Watching → s.pending = [] ∨ s.ready.readable ∨ 0 < s.edges
  closed : s.closed → s.pending = []
  ready : s.ready.closed → s.closed
  guarded : ∀ ready tick, s.pc = .guarded ready tick → ready.closed → s.closed
  returned : s.pc = .returned (.ok none) → s.closed

theorem Pc.watching_waiting : Pc.waiting.Watching := ⟨nofun, id⟩

theorem Pc.watching_guarded (ready : Ready) (tick : Nat) : (Pc.guarded ready tick).Watching :=
  ⟨nofun, id⟩

theorem Pc.watching_returned (notify : Option Notif) : (Pc.returned (.ok notify)).Watching :=
  ⟨nofun, id⟩

theorem State.Registered.inv (h : s.Registered) : Inv s where
  announced := by
    intro _
    by_cases hpending : s.pending = []
    · exact .inl hpending
    · exact .inr (.inr (h.edges hpending))
  closed := h.closed
  ready := by
    rw [h.ready]
    rintro ⟨⟩
  guarded := by
    rw [h.pc]
    rintro _ _ ⟨⟩
  returned := by
    rw [h.pc]
    rintro ⟨⟩

/-- The listener moves on and looks at nothing. -/
theorem Inv.move (h : Inv s) (hpc : s.pc.Watching) {pc : Pc} {turns : List Poll}
    (hguarded : ∀ ready tick, pc = .guarded ready tick → ready.closed → s.closed)
    (hreturned : pc = .returned (.ok none) → s.closed) : Inv { s with pc, turns } where
  announced := fun _ ↦ h.announced hpc
  closed := h.closed
  ready := h.ready
  guarded := hguarded
  returned := hreturned

theorem Inv.of_moved (h : Inv s) (hmoved : Moved s s') : Inv s' := by
  cases hmoved with
  | arrive notify hopen =>
      exact ⟨fun _ ↦ .inr (.inr (Nat.succ_pos _)), fun hclosed ↦ absurd hclosed hopen, h.ready,
        h.guarded, h.returned⟩
  | withdraw notify =>
      refine ⟨?_, ?_, h.ready, h.guarded, h.returned⟩
      · intro hpc
        rcases h.announced hpc with hnil | hrest
        · exact .inl (by rw [hnil]; rfl)
        · exact .inr hrest
      · intro hclosed
        rw [h.closed hclosed]
        rfl
  | close hnil =>
      exact ⟨fun _ ↦ .inl hnil, fun _ ↦ hnil, fun _ ↦ rfl, fun _ _ _ _ ↦ rfl, fun _ ↦ rfl⟩
  | deliver edges tick =>
      refine ⟨?_, h.closed, ?_, h.guarded, h.returned⟩
      · -- the flag is set if something is pending
        intro _
        by_cases hnil : s.pending = []
        · exact .inl hnil
        · exact .inr (.inl (by simp [hnil]))
      · intro hready
        rcases (Bool.or_eq_true _ _).mp hready with hready | hclosed
        · exact h.ready hready
        · exact hclosed
  | fail e hpc => exact h.move (hpc ▸ Pc.watching_waiting) nofun nofun
  | guard hpc =>
      refine h.move (hpc ▸ Pc.watching_waiting) ?_ nofun
      rintro ready tick ⟨⟩
      exact h.ready
  | @closed ready tick hpc hclosed =>
      exact h.move (hpc ▸ Pc.watching_guarded ready tick) nofun
        fun _ ↦ h.guarded ready tick hpc hclosed
  | @notReadable ready tick hpc =>
      exact h.move (hpc ▸ Pc.watching_guarded ready tick) nofun nofun
  | clear readable hpc =>
      -- whatever is cleared, `notif_recv` comes next
      exact ⟨fun hwatching ↦ (hwatching.1 rfl).elim, h.closed, h.ready, nofun, nofun⟩
  | recv hpc hpending =>
      -- the edge of the taking announces the rest
      refine ⟨fun _ ↦ .inr (.inr (Nat.succ_pos _)), ?_, h.ready, nofun, nofun⟩
      intro hclosed
      rw [h.closed hclosed] at hpending
      cases hpending
  | retry hpc hnil => exact ⟨fun _ ↦ .inl hnil, h.closed, h.ready, nofun, nofun⟩
  | recvFails hpc =>
      exact ⟨fun hwatching ↦ (hwatching.2 trivial).elim, h.closed, h.ready, nofun, nofun⟩
  | again hpc => exact h.move (hpc ▸ Pc.watching_returned _) nofun nofun
  | abandon hpc => exact h.move (hpc ▸ Pc.watching_returned _) nofun nofun

/-- A pending notification is on its way to the handler, unless the task has failed. -/
theorem Inv.progress (h : Inv s) (hpending : s.pending ≠ []) :
    s.pc.Failed ∨ ∃ l, l.Internal ∧ ∃ s', step s l = some s' := by
  cases hpc : s.pc with
  | waiting =>
      rcases (h.announced (hpc ▸ Pc.watching_waiting)).resolve_left hpending with hready | hedges
      · exact .inr ⟨.guard, trivial, _, by simp [step, hpc, hready]; rfl⟩
      · exact .inr ⟨.deliver 1 false, trivial, _, if_pos ⟨Nat.one_pos, hedges⟩⟩
  | guarded ready tick =>
      refine .inr ⟨.clear_ready, trivial, ?_⟩
      simp only [step, hpc]
      split
      · exact ⟨_, rfl⟩
      · split
        · exact ⟨_, rfl⟩
        · split <;> exact ⟨_, rfl⟩
  | receiving =>
      obtain ⟨notify, pending, hcons⟩ := List.exists_cons_of_ne_nil hpending
      refine .inr ⟨.notif_recv (.ok ()), trivial, ?_⟩
      simp only [step, hpc, hcons]
      exact ⟨_, rfl⟩
  | returned result =>
      cases result with
      | error e => exact .inl trivial
      | ok notify =>
          cases notify with
          | none => exact absurd (h.closed (h.returned hpc)) hpending
          | some notify =>
              refine .inr ⟨.again, trivial, ?_⟩
              simp only [step, hpc]
              exact ⟨_, rfl⟩
  | ended notify => exact .inl trivial

theorem Inv.of_run (h : Inv s) (hrun : runs step s ls = some s') : Inv s' :=
  runs_invariant Inv h (fun _ _ _ h hstep ↦ h.of_moved (moved_of_step hstep)) hrun

/-- **No wake-up is lost**: the listener never waits with a system call blocked and
nothing under way, and there is a step of the listener or of the runtime as long as a
system call is blocked, unless the task has ended with an error. -/
theorem no_lost_wakeup (hregistered : s.Registered) (hrun : runs step s ls = some s') :
    ¬s'.Stuck ∧ (s'.pending ≠ [] → s'.pc.Failed ∨
      ∃ l, l.Internal ∧ ∃ s'', step s' l = some s'') := by
  have h := hregistered.inv.of_run hrun
  refine ⟨?_, h.progress⟩
  rintro ⟨hpc, hready, hedges, hpending⟩
  rcases (h.announced (hpc ▸ Pc.watching_waiting)).resolve_left hpending with hset | hleft
  · cases hset.symm.trans hready
  · omega

/-! ## The loop is that of the supervisor -/

/-- What a call of `next` has returned. -/
def Pc.result : Pc → Option (Except IoError (Option Notif))
  | .returned result => some result
  | .ended notify => some (.ok (some notify))
  | _ => none

/-- The loop goes on after turns that did not end it. -/
theorem next_append {turns : List Poll} (h : NotifyListener.next turns = (none, []))
    (turn : Poll) : NotifyListener.next (turns ++ [turn]) = NotifyListener.next [turn] := by
  induction turns using NotifyListener.next.induct with
  | case1 => rfl
  | case4 turns ih | case6 turns ih | case7 turns ih | case8 turns ih => exact ih h
  | case9 e turns h₁ h₂ h₃ =>
      simp only [NotifyListener.next, Prod.mk.injEq] at h
      cases h.1
  | _ => cases h

theorem next_recv_error (e : Errno) : NotifyListener.next [.recv (.error e)] =
    if ignored e then (none, []) else (some (.error (.os e)), []) := by
  cases e <;> rfl

/-- The turns are a schedule on which `next` returns what it has returned here. -/
theorem next_of_moved (h : NotifyListener.next s.turns = (s.pc.result, []))
    (hmoved : Moved s s') : NotifyListener.next s'.turns = (s'.pc.result, []) := by
  cases hmoved with
  | arrive | withdraw | close | deliver => exact h
  | fail e hpc | closed hpc hclosed | notReadable hpc | recv hpc hpending =>
      rw [hpc] at h
      exact next_append h _
  | guard hpc | clear readable hpc | abandon hpc =>
      rw [hpc] at h
      exact h
  | @retry e hpc hnil hignored =>
      rw [hpc] at h
      have hturn := (next_append h (.recv (.error e))).trans (next_recv_error e)
      rwa [if_pos hignored] at hturn
  | @recvFails e hpc hignored =>
      rw [hpc] at h
      have hturn := (next_append h (.recv (.error e))).trans (next_recv_error e)
      rwa [if_neg hignored] at hturn
  | again hpc => rfl

/-- In every run, `next` returns what the loop of the supervisor returns on these turns. -/
theorem next_of_run (hregistered : s.Registered) (hrun : runs step s ls = some s') :
    NotifyListener.next s'.turns = (s'.pc.result, []) := by
  refine runs_invariant (fun s ↦ NotifyListener.next s.turns = (s.pc.result, [])) ?_ ?_ hrun
  · rw [hregistered.turns, hregistered.pc]
    rfl
  · intro s l s' h hstep
    exact next_of_moved h (moved_of_step hstep)

/-- A descriptor with this pending. -/
def sampleState (pending : List Notif) : State where
  pending := pending
  closed := false
  edges := 1
  ready := ⟨false, false⟩
  tick := 0
  pc := .waiting
  turns := []

def sampleNotif (id : UInt64) : Notif := ⟨id, 7, 257, []⟩

/-- Two notifications are announced by one edge, and the first is taken. -/
theorem no_lost_wakeup_sample : ∃ s, runs step (sampleState [sampleNotif 1])
    [.arrive (sampleNotif 2), .deliver 2 false, .guard, .clear_ready, .notif_recv (.ok ()),
      .again] = some s ∧ s.pending = [sampleNotif 2] ∧ ¬s.Stuck := by
  have hregistered : (sampleState [sampleNotif 1]).Registered :=
    ⟨rfl, rfl, fun _ ↦ Nat.one_pos, fun h ↦ (Bool.false_ne_true h).elim, rfl⟩
  have hpending : (runs step (sampleState [sampleNotif 1])
      [.arrive (sampleNotif 2), .deliver 2 false, .guard, .clear_ready, .notif_recv (.ok ()),
        .again]).map State.pending = some [sampleNotif 2] := by
    decide +kernel
  obtain ⟨s, hrun, hleft⟩ := Option.map_eq_some_iff.mp hpending
  exact ⟨s, hrun, hleft, (no_lost_wakeup hregistered hrun).1⟩

end Fspy.Seccomp.Wakeup
