import Fspy.Lib.Transition

/-!
# Channels with many senders

The sending end of a channel is held by any number of processes, which hand it on to
processes they create.  The receiver takes the messages in the order they were sent, and
is told the end when there is none left and nobody holds the sending end.
-/

namespace Fspy.Lib

/-- A channel, and how far the receiver is. -/
structure Channel (α : Type*) where
  /-- Which processes hold the sending end, by number. -/
  holders : List Bool
  sent : List α
  /-- How many messages the receiver has taken. -/
  taken : Nat
  /-- The receiver has been told the end. -/
  ended : Bool
deriving DecidableEq

namespace Channel

inductive Event (α : Type*) where
  | send (p : Nat) (a : α)
  /-- A new process, which holds what `p` holds. -/
  | fork (p : Nat)
  | close (p : Nat)
  | recv
  | finish
deriving DecidableEq

variable {α : Type*}

/-- The receiver is about to wait or to take a message. -/
def Receives : Event α → Prop
  | .recv | .finish => True
  | _ => False

def step (ch : Channel α) : Event α → Option (Channel α)
  | .send p a =>
      if ch.holders[p]? = some true then some { ch with sent := ch.sent ++ [a] } else none
  | .fork p => (ch.holders[p]?).map fun holds ↦ { ch with holders := ch.holders ++ [holds] }
  | .close p =>
      if p < ch.holders.length then some { ch with holders := ch.holders.set p false } else none
  | .recv =>
      if ch.ended = false ∧ ch.taken < ch.sent.length then some { ch with taken := ch.taken + 1 }
      else none
  | .finish =>
      if ch.ended = false ∧ ch.taken = ch.sent.length ∧ true ∉ ch.holders then
        some { ch with ended := true }
      else none

/-- What the receiver has taken. -/
def received (ch : Channel α) : List α := ch.sent.take ch.taken

/-- A channel nothing was sent through yet. -/
def opened (holders : List Bool) : Channel α := ⟨holders, [], 0, false⟩

/-! ## The end comes last -/

/-- When the end was told, everything is received and nobody can send. -/
structure Sound (ch : Channel α) : Prop where
  taken_le : ch.taken ≤ ch.sent.length
  nobody : ch.ended = true → true ∉ ch.holders
  complete : ch.ended = true → ch.taken = ch.sent.length

variable {ch ch' : Channel α} {event : Event α} {events : List (Event α)}

theorem sound_opened (holders : List Bool) : (opened holders : Channel α).Sound where
  taken_le := Nat.le_refl 0
  nobody := by rintro ⟨⟩
  complete := by rintro ⟨⟩

theorem step_send {p : Nat} {a : α} : ch.step (.send p a) = some ch' ↔
    ch.holders[p]? = some true ∧ ch' = { ch with sent := ch.sent ++ [a] } := by
  rw [step, Option.ite_none_right_eq_some, Option.some.injEq]
  exact and_congr_right fun _ ↦ eq_comm

theorem step_fork {p : Nat} : ch.step (.fork p) = some ch' ↔
    ∃ holds, ch.holders[p]? = some holds ∧ ch' = { ch with holders := ch.holders ++ [holds] } := by
  rw [step, Option.map_eq_some_iff]
  exact exists_congr fun _ ↦ and_congr_right fun _ ↦ eq_comm

theorem step_close {p : Nat} : ch.step (.close p) = some ch' ↔
    p < ch.holders.length ∧ ch' = { ch with holders := ch.holders.set p false } := by
  rw [step, Option.ite_none_right_eq_some, Option.some.injEq]
  exact and_congr_right fun _ ↦ eq_comm

theorem step_recv : ch.step .recv = some ch' ↔
    (ch.ended = false ∧ ch.taken < ch.sent.length) ∧ ch' = { ch with taken := ch.taken + 1 } := by
  rw [step, Option.ite_none_right_eq_some, Option.some.injEq]
  exact and_congr_right fun _ ↦ eq_comm

theorem step_finish : ch.step .finish = some ch' ↔
    (ch.ended = false ∧ ch.taken = ch.sent.length ∧ true ∉ ch.holders) ∧
      ch' = { ch with ended := true } := by
  rw [step, Option.ite_none_right_eq_some, Option.some.injEq]
  exact and_congr_right fun _ ↦ eq_comm

theorem mem_of_mem_set_false {holders : List Bool} {p : Nat} (h : true ∈ holders.set p false) :
    true ∈ holders := by
  rcases List.mem_or_eq_of_mem_set h with h | h
  · exact h
  · cases h

theorem sound_step (h : ch.Sound) (hstep : ch.step event = some ch') : ch'.Sound := by
  cases event with
  | send p a =>
      obtain ⟨hholds, rfl⟩ := step_send.mp hstep
      have hnot : ch.ended ≠ true := fun hended ↦ h.nobody hended (List.mem_of_getElem? hholds)
      refine ⟨?_, fun hended ↦ absurd hended hnot, fun hended ↦ absurd hended hnot⟩
      rw [List.length_append]
      exact Nat.le_add_right_of_le h.taken_le
  | fork p =>
      obtain ⟨holds, hholds, rfl⟩ := step_fork.mp hstep
      refine ⟨h.taken_le, fun hended hmem ↦ ?_, h.complete⟩
      rcases List.mem_append.mp hmem with hmem | hmem
      · exact h.nobody hended hmem
      · rw [← List.mem_singleton.mp hmem] at hholds
        exact h.nobody hended (List.mem_of_getElem? hholds)
  | close p =>
      obtain ⟨-, rfl⟩ := step_close.mp hstep
      exact ⟨h.taken_le, fun hended hmem ↦ h.nobody hended (mem_of_mem_set_false hmem), h.complete⟩
  | recv =>
      obtain ⟨⟨hended, hmore⟩, rfl⟩ := step_recv.mp hstep
      exact ⟨hmore, h.nobody, fun hended' ↦ Bool.noConfusion (hended.symm.trans hended')⟩
  | finish =>
      obtain ⟨⟨-, htaken, hnobody⟩, rfl⟩ := step_finish.mp hstep
      exact ⟨h.taken_le, fun _ ↦ hnobody, fun _ ↦ htaken⟩

/-- The receiver does not move by what others do. -/
theorem taken_of_others (h : ¬Receives event) (hstep : ch.step event = some ch') :
    ch'.taken = ch.taken ∧ ch'.ended = ch.ended := by
  cases event with
  | send p a =>
      obtain ⟨-, rfl⟩ := step_send.mp hstep
      exact ⟨rfl, rfl⟩
  | fork p =>
      obtain ⟨holds, -, rfl⟩ := step_fork.mp hstep
      exact ⟨rfl, rfl⟩
  | close p =>
      obtain ⟨-, rfl⟩ := step_close.mp hstep
      exact ⟨rfl, rfl⟩
  | recv | finish => exact absurd trivial h

/-- What is received does not change by what others do. -/
theorem Sound.received_of_others (h : ch.Sound) (hevent : ¬Receives event)
    (hstep : ch.step event = some ch') : ch'.received = ch.received := by
  rw [received, received, (taken_of_others hevent hstep).1]
  cases event with
  | send p a =>
      obtain ⟨-, rfl⟩ := step_send.mp hstep
      exact List.take_append_of_le_length h.taken_le
  | fork p =>
      obtain ⟨holds, -, rfl⟩ := step_fork.mp hstep
      rfl
  | close p =>
      obtain ⟨-, rfl⟩ := step_close.mp hstep
      rfl
  | recv | finish => exact absurd trivial hevent

theorem received_recv {a : α} (ha : ch.sent[ch.taken]? = some a)
    (hstep : ch.step .recv = some ch') : ch'.received = ch.received ++ [a] := by
  obtain ⟨-, rfl⟩ := step_recv.mp hstep
  rw [received, received, List.take_add_one, ha]
  rfl

/-- Nothing is sent after the end. -/
theorem Sound.sent_eq (h : ch.Sound) (hended : ch.ended = true)
    (hstep : ch.step event = some ch') : ch'.sent = ch.sent := by
  cases event with
  | send p a =>
      obtain ⟨hholds, -⟩ := step_send.mp hstep
      exact absurd (List.mem_of_getElem? hholds) (h.nobody hended)
  | fork p =>
      obtain ⟨holds, -, rfl⟩ := step_fork.mp hstep
      rfl
  | close p =>
      obtain ⟨-, rfl⟩ := step_close.mp hstep
      rfl
  | recv =>
      obtain ⟨-, rfl⟩ := step_recv.mp hstep
      rfl
  | finish =>
      obtain ⟨-, rfl⟩ := step_finish.mp hstep
      rfl

/-- Nothing is missing of what was received when the end is told. -/
theorem Sound.received_eq (h : ch.Sound) (hended : ch.ended = true) : ch.received = ch.sent := by
  rw [received, h.complete hended, List.take_length]

/-! ## The end comes -/

theorem holders_of_receives (hstep : ch.step event = some ch') (hevent : Receives event) :
    ch'.holders = ch.holders := by
  cases event with
  | send p a | fork p | close p => exact hevent.elim
  | recv =>
      obtain ⟨-, rfl⟩ := step_recv.mp hstep
      rfl
  | finish =>
      obtain ⟨-, rfl⟩ := step_finish.mp hstep
      rfl

/-- The receiver takes what is left. -/
theorem runs_recv (h : ch.Sound) (hended : ch.ended = false) {k : Nat}
    (hk : ch.taken + k ≤ ch.sent.length) :
    runs step ch (List.replicate k .recv) = some { ch with taken := ch.taken + k } := by
  induction k generalizing ch with
  | zero => rfl
  | succ k ih =>
      have hstep : ch.step .recv = some { ch with taken := ch.taken + 1 } :=
        if_pos ⟨hended, by omega⟩
      have hrest := ih (sound_step h hstep) hended (show ch.taken + 1 + k ≤ ch.sent.length by omega)
      rw [List.replicate_succ, runs, hstep, Option.bind_some, hrest, Nat.add_right_comm,
        Nat.add_assoc]

/-- **The receiver gets to the end** on its own if, and only if, nobody holds the sending
end. -/
theorem ends_iff (h : ch.Sound) (hended : ch.ended = false) :
    (∃ events ch', (∀ event ∈ events, Receives event) ∧ runs step ch events = some ch' ∧
      ch'.ended = true) ↔ true ∉ ch.holders := by
  constructor
  · rintro ⟨events, ch', hevents, hrun, hended'⟩
    have hsame : ch'.Sound ∧ ch'.holders = ch.holders := by
      refine runs_induction (C := fun _ event ↦ Receives event)
        (fun _ ch' ↦ ch'.Sound ∧ ch'.holders = ch.holders) ⟨h, rfl⟩ ?_ hrun
        (.of_forall fun _ ↦ hevents)
      rintro _ ch₁ event ch₂ ⟨hsound, hsame⟩ hevent hstep
      exact ⟨sound_step hsound hstep, (holders_of_receives hstep hevent).trans hsame⟩
    rw [← hsame.2]
    exact hsame.1.nobody hended'
  · intro hnobody
    have hleft : ch.taken + (ch.sent.length - ch.taken) = ch.sent.length :=
      Nat.add_sub_cancel' h.taken_le
    have hrun := runs_recv h hended (Nat.le_of_eq hleft)
    have hfinish : runs step { ch with taken := ch.taken + (ch.sent.length - ch.taken) } [.finish] =
        some { ch with taken := ch.taken + (ch.sent.length - ch.taken), ended := true } := by
      rw [runs, step, if_pos ⟨hended, hleft, hnobody⟩]
      rfl
    refine ⟨_, _, ?_, runs_append.mpr ⟨_, hrun, hfinish⟩, rfl⟩
    intro event hevent
    rcases List.mem_append.mp hevent with hevent | hevent
    · rw [List.eq_of_mem_replicate hevent]
      trivial
    · rw [List.mem_singleton.mp hevent]
      trivial

/-! ## Who holds the sending end -/

/-- Holder 0 is the receiving process; of the others, only what is alive holds the sending
end. -/
structure HoldsAlive (holders alive : List Bool) : Prop where
  length_eq : holders.length = alive.length + 1
  alive : ∀ p : Nat, holders[p + 1]? = some true → alive[p]? = some true

namespace HoldsAlive

variable {holders alive : List Bool}

theorem append (h : HoldsAlive holders alive) (holds : Bool) :
    HoldsAlive (holders ++ [holds]) (alive ++ [true]) where
  length_eq := by simp [h.length_eq]
  alive p hp := by
    have hlength := h.length_eq
    rcases Nat.lt_trichotomy p alive.length with hlt | rfl | hgt
    · rw [List.getElem?_append_left (by omega)] at hp ⊢
      exact h.alive p hp
    · simp
    · rw [List.getElem?_eq_none (by rw [List.length_append, List.length_singleton]; omega)] at hp
      cases hp

theorem close (h : HoldsAlive holders alive) (q : Nat) :
    HoldsAlive (holders.set q false) alive where
  length_eq := by rw [List.length_set, h.length_eq]
  alive p hp := by
    apply h.alive
    rw [List.getElem?_set] at hp
    split at hp
    · split at hp <;> cases hp
    · exact hp

/-- The end of a process that has closed it. -/
theorem dead {p : Nat} (h : HoldsAlive holders alive) (hp : holders[p + 1]? = some false) :
    HoldsAlive holders (alive.set p false) where
  length_eq := by rw [List.length_set, h.length_eq]
  alive q hq := by
    have hne : p ≠ q := by
      rintro rfl
      cases hp.symm.trans hq
    rw [List.getElem?_set_ne hne]
    exact h.alive q hq

theorem exit (h : HoldsAlive holders alive) {p : Nat} (hp : p + 1 < holders.length) :
    HoldsAlive (holders.set (p + 1) false) (alive.set p false) :=
  (h.close (p + 1)).dead (List.getElem?_set_self hp)

/-- When nothing is alive, it is up to the receiving process. -/
theorem nobody_iff (h : HoldsAlive holders alive) (hdead : true ∉ alive) :
    true ∉ holders ↔ holders[0]? = some false := by
  constructor
  · intro hnobody
    have hlt : 0 < holders.length := by
      rw [h.length_eq]
      exact Nat.succ_pos _
    rw [List.getElem?_eq_getElem hlt]
    refine congrArg some (Bool.eq_false_iff.mpr fun htrue ↦ hnobody ?_)
    exact htrue ▸ List.getElem_mem hlt
  · intro hzero hmem
    obtain ⟨p, hp⟩ := List.mem_iff_getElem?.mp hmem
    cases p with
    | zero => cases hzero.symm.trans hp
    | succ p => exact hdead (List.mem_of_getElem? (h.alive p hp))

end HoldsAlive

/-- Whatever is alive holds the sending end. -/
structure AliveHolds (holders alive : List Bool) : Prop where
  length_eq : holders.length = alive.length + 1
  holds : ∀ p : Nat, alive[p]? = some true → holders[p + 1]? = some true

namespace AliveHolds

variable {holders alive : List Bool}

theorem append (h : AliveHolds holders alive) :
    AliveHolds (holders ++ [true]) (alive ++ [true]) where
  length_eq := by simp [h.length_eq]
  holds p hp := by
    have hlength := h.length_eq
    rcases Nat.lt_trichotomy p alive.length with hlt | rfl | hgt
    · rw [List.getElem?_append_left (by omega)] at hp ⊢
      exact h.holds p hp
    · rw [← hlength, List.getElem?_concat_length]
    · rw [List.getElem?_eq_none (by rw [List.length_append, List.length_singleton]; omega)] at hp
      cases hp

/-- The receiving process closes its own. -/
theorem drop (h : AliveHolds holders alive) : AliveHolds (holders.set 0 false) alive where
  length_eq := by rw [List.length_set, h.length_eq]
  holds p hp := by
    rw [List.getElem?_set_ne (Nat.succ_ne_zero p).symm]
    exact h.holds p hp

theorem exit (h : AliveHolds holders alive) (p : Nat) :
    AliveHolds (holders.set (p + 1) false) (alive.set p false) where
  length_eq := by rw [List.length_set, List.length_set, h.length_eq]
  holds q hq := by
    have hne : p ≠ q := by
      rintro rfl
      rw [List.getElem?_set] at hq
      split at hq
      · split at hq <;> cases hq
      · contradiction
    rw [List.getElem?_set_ne hne] at hq
    rw [List.getElem?_set_ne (Nat.succ_ne_succ_iff.mpr hne)]
    exact h.holds q hq

/-- When nobody holds it, nothing is alive. -/
theorem dead (h : AliveHolds holders alive) (hnobody : true ∉ holders) : true ∉ alive := by
  intro hmem
  obtain ⟨p, hp⟩ := List.mem_iff_getElem?.mp hmem
  exact hnobody (List.mem_of_getElem? (h.holds p hp))

end AliveHolds

end Channel

end Fspy.Lib
