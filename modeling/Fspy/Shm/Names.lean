import Fspy.Lib.Digits
import Fspy.Lib.Transition

/-!
# The names of the chunks

`new_shm` makes a name from the process and a counter, creates the shared memory with
`O_EXCL`, and unlinks the name at once.  The name exists in between, and it is only the
thread between the two calls that ever removes it: if that thread is ended there, by an
exec or by the end of its process, the name stays, and whoever comes to have the same
process id and the same counter aborts.
-/

namespace Fspy.Shm.Names

open Lib

/-- The name `new_shm` formats. -/
def shm_name (pid : Nat) (shm_id : UInt64) : String := s!"/fspy_shm_{pid}_{shm_id.toNat}"

/-- Where a thread stands in `new_shm`. -/
inductive Pc where
  | idle
  /-- It has taken a value of the counter. -/
  | taken (shm_id : UInt64)
  /-- `shm_open` has returned. -/
  | opened (shm_id : UInt64)
  /-- `shm_open` has failed with `EEXIST`, which ends in an `unwrap`. -/
  | exists
deriving DecidableEq, Repr

/-- A process: the counter of its client, and its threads. -/
structure Process where
  shm_id : UInt64
  threads : List Pc
deriving DecidableEq, Repr

/-- The live processes by their id, and the names that exist. -/
structure State where
  processes : Nat → Option Process
  names : List String

/-- The state with a process created, changed or ended. -/
def State.set (s : State) (pid : Nat) (p : Option Process) : State :=
  { s with processes := fun pid' ↦ if pid' = pid then p else s.processes pid' }

inductive Label where
  | take (pid thread : Nat)
  | shmOpen (pid thread : Nat)
  | shmUnlink (pid thread : Nat)
  /-- A thread is started. -/
  | start (pid : Nat)
  /-- An idle thread forks. -/
  | fork (pid thread child : Nat)
  /-- The process ends, with all its threads. -/
  | kill (pid : Nat)
  /-- An idle thread executes a program. -/
  | exec (pid thread : Nat)
deriving DecidableEq, Repr

/-- The process, if it lives and its thread is idle. -/
def State.idle (s : State) (pid thread : Nat) : Option Process := do
  let p ← s.processes pid
  if p.threads[thread]? = some .idle then some p else none

/-- One step of a thread, or of the world around it. -/
def step (s : State) : Label → Option State
  | .take pid thread => do
      let p ← s.idle pid thread
      -- `fetch_add`
      return s.set pid (some ⟨p.shm_id + 1, p.threads.set thread (.taken p.shm_id)⟩)
  | .shmOpen pid thread => do
      let p ← s.processes pid
      match p.threads[thread]? with
      | some (.taken shm_id) =>
          if shm_name pid shm_id ∈ s.names then
            return s.set pid (some { p with threads := p.threads.set thread .exists })
          else
            return { s.set pid (some { p with threads := p.threads.set thread (.opened shm_id) })
              with names := shm_name pid shm_id :: s.names }
      | _ => none
  | .shmUnlink pid thread => do
      let p ← s.processes pid
      match p.threads[thread]? with
      | some (.opened shm_id) =>
          return { s.set pid (some { p with threads := p.threads.set thread .idle })
            with names := s.names.filter (· ≠ shm_name pid shm_id) }
      | _ => none
  | .start pid => do
      let p ← s.processes pid
      return s.set pid (some { p with threads := p.threads ++ [.idle] })
  | .fork pid thread child => do
      let p ← s.idle pid thread
      if s.processes child = none then return s.set child (some ⟨p.shm_id, [.idle]⟩) else none
  | .kill pid => do
      let _ ← s.processes pid
      return s.set pid none
  | .exec pid thread => do
      let _ ← s.idle pid thread
      return s.set pid (some ⟨0, [.idle]⟩)

/-! ## Names are told apart -/

/-- A name tells the process and the value of the counter. -/
theorem shm_name_injective {pid pid' : Nat} {shm_id shm_id' : UInt64}
    (h : shm_name pid shm_id = shm_name pid' shm_id') : pid = pid' ∧ shm_id = shm_id' := by
  have hlist := congrArg String.toList h
  simp only [shm_name, String.toList_append, List.append_assoc, List.append_cancel_left_eq,
    Nat.toString_eq_repr, Nat.toList_repr] at hlist
  have hsep (n : Nat) : '_' ∉ Nat.toDigits 10 n :=
    underscore_not_mem_toDigits (by decide) (by decide)
  obtain ⟨hpid, hshm_id⟩ := append_cons_inj (hsep pid) (hsep pid') hlist
  have htake := toDigits_injective (by decide) (by decide) hshm_id
  exact ⟨toDigits_injective (by decide) (by decide) hpid, UInt64.toNat.inj htake⟩

/-! ## What keeps the names apart -/

/-- The value of the counter that a thread makes a name from. -/
def Pc.held : Pc → Option UInt64
  | .taken shm_id => some shm_id
  | .opened shm_id => some shm_id
  | _ => none

/-- No thread of the process stands between `shm_open` and `shm_unlink`. -/
def NoneOpened (p : Process) : Prop := ∀ pc ∈ p.threads, ∀ shm_id, pc ≠ .opened shm_id

/-- What a step must not do: end threads that have created a name and not removed it, or
come round to a value of the counter that is still in use. -/
def Orderly (s : State) : Label → Prop
  | .take pid _ => ∀ p, s.processes pid = some p → ∀ pc ∈ p.threads, pc.held ≠ some p.shm_id
  | .kill pid | .exec pid _ => ∀ p, s.processes pid = some p → NoneOpened p
  | _ => True

/-- A thread of the process holds a value of the counter. -/
def Process.Holds (p : Process) (thread : Nat) (shm_id : UInt64) : Prop :=
  ∃ pc, p.threads[thread]? = some pc ∧ pc.held = some shm_id

/-- The threads of a process hold different values, and none of them has failed. -/
structure Process.Good (p : Process) : Prop where
  distinct : ∀ i j shm_id, p.Holds i shm_id → p.Holds j shm_id → i = j
  never : .exists ∉ p.threads

/-- The name is that of a thread that has yet to remove it. -/
def State.Owned (s : State) (name : String) : Prop :=
  ∃ pid p shm_id, s.processes pid = some p ∧ .opened shm_id ∈ p.threads ∧
    name = shm_name pid shm_id

structure Invariant (s : State) : Prop where
  owned : ∀ name ∈ s.names, s.Owned name
  good : ∀ pid p, s.processes pid = some p → p.Good

variable {s s' : State} {pid thread child : Nat} {p p' : Process} {pc pc' : Pc} {shm_id : UInt64}
  {name : String}

@[simp] theorem set_processes_self (p : Option Process) : (s.set pid p).processes pid = p :=
  if_pos rfl

theorem set_processes_of_ne {pid' : Nat} (p : Option Process) (h : pid' ≠ pid) :
    (s.set pid p).processes pid' = s.processes pid' :=
  if_neg h

@[simp] theorem set_names (p : Option Process) : (s.set pid p).names = s.names := rfl

theorem idle_eq_some : s.idle pid thread = some p ↔
    s.processes pid = some p ∧ p.threads[thread]? = some .idle := by
  rw [State.idle, Option.bind_eq_bind, Option.bind_eq_some_iff]
  constructor
  · rintro ⟨p', hp, h⟩
    split at h
    · rename_i hidle
      cases h
      exact ⟨hp, hidle⟩
    · cases h
  · rintro ⟨hp, hidle⟩
    exact ⟨p, hp, if_pos hidle⟩

/-! ## One process -/

theorem holds_set {i : Nat} {shm_id' : UInt64} (h : p.threads[thread]? = some pc) :
    (Process.mk shm_id (p.threads.set thread pc')).Holds i shm_id' ↔
      if i = thread then pc'.held = some shm_id' else p.Holds i shm_id' := by
  obtain ⟨hlt, -⟩ := List.getElem?_eq_some_iff.mp h
  simp only [Process.Holds, List.getElem?_set]
  by_cases hi : i = thread
  · subst hi
    simp [hlt]
  · simp [hi, Ne.symm hi]

/-- A thread moves on, with the value it holds or without one. -/
theorem Process.Good.set (h : p.Good) (hpc : p.threads[thread]? = some pc)
    (hheld : ∀ shm_id, pc'.held = some shm_id → pc.held = some shm_id) (hne : pc' ≠ .exists) :
    (Process.mk shm_id (p.threads.set thread pc')).Good where
  distinct i j shm_id' hi hj := by
    have hold : ∀ n, (Process.mk shm_id (p.threads.set thread pc')).Holds n shm_id' →
        p.Holds n shm_id' := by
      intro n hn
      rw [holds_set hpc] at hn
      by_cases hnt : n = thread
      · rw [if_pos hnt] at hn
        rw [hnt]
        exact ⟨pc, hpc, hheld _ hn⟩
      · rw [if_neg hnt] at hn
        exact hn
    exact h.distinct i j shm_id' (hold i hi) (hold j hj)
  never hmem := by
    rcases List.mem_or_eq_of_mem_set hmem with hmem | heq
    · exact h.never hmem
    · exact hne heq.symm

/-- A thread takes a value that no thread holds. -/
theorem Process.Good.take (h : p.Good) (hpc : p.threads[thread]? = some .idle)
    (hfree : ∀ pc ∈ p.threads, pc.held ≠ some p.shm_id) (shm_id : UInt64) :
    (Process.mk shm_id (p.threads.set thread (.taken p.shm_id))).Good where
  distinct i j shm_id' hi hj := by
    have hnone : ∀ i, ¬p.Holds i p.shm_id := by
      rintro i ⟨pc, hget, hheld⟩
      exact hfree pc (List.mem_of_getElem? hget) hheld
    rw [holds_set hpc] at hi hj
    by_cases hit : i = thread <;> by_cases hjt : j = thread
    · rw [hit, hjt]
    · rw [if_pos hit] at hi
      rw [if_neg hjt] at hj
      cases hi
      exact absurd hj (hnone j)
    · rw [if_neg hit] at hi
      rw [if_pos hjt] at hj
      cases hj
      exact absurd hi (hnone i)
    · rw [if_neg hit] at hi
      rw [if_neg hjt] at hj
      exact h.distinct i j shm_id' hi hj
  never hmem := by
    rcases List.mem_or_eq_of_mem_set hmem with hmem | heq
    · exact h.never hmem
    · cases heq

/-- A process with one thread. -/
theorem Process.good_single (shm_id : UInt64) : (Process.mk shm_id [.idle]).Good where
  distinct i j shm_id' := by
    rintro ⟨pc, hget, hheld⟩
    obtain rfl : pc = .idle := by simpa using List.mem_of_getElem? hget
    cases hheld
  never := by simp

theorem Process.Good.start (h : p.Good) :
    ({ p with threads := p.threads ++ [.idle] } : Process).Good where
  distinct i j shm_id hi hj := by
    have hold : ∀ i, ({ p with threads := p.threads ++ [.idle] } : Process).Holds i shm_id →
        p.Holds i shm_id := by
      rintro i ⟨pc, hget, hheld⟩
      rw [List.getElem?_append] at hget
      split at hget
      · exact ⟨pc, hget, hheld⟩
      · obtain rfl : pc = .idle := by simpa using List.mem_of_getElem? hget
        cases hheld
    exact h.distinct i j shm_id (hold i hi) (hold j hj)
  never := by simpa using h.never

/-! ## All processes -/

theorem mem_set_of_ne {α : Type} {l : List α} {n : Nat} {a b c : α} (ha : a ∈ l)
    (hb : l[n]? = some b) (hne : a ≠ b) : a ∈ l.set n c := by
  obtain ⟨m, hm⟩ := List.mem_iff_getElem?.mp ha
  have hmn : n ≠ m := by
    rintro rfl
    exact hne (Option.some.inj (hm.symm.trans hb))
  apply List.mem_of_getElem? (i := m)
  rw [List.getElem?_set_ne hmn, hm]

theorem good_set (h : ∀ pid p, s.processes pid = some p → p.Good) {p' : Option Process}
    (hp' : ∀ p, p' = some p → p.Good) :
    ∀ pid' p, (s.set pid p').processes pid' = some p → p.Good := by
  intro pid' p hp
  by_cases heq : pid' = pid
  · subst heq
    exact hp' p (by simpa using hp)
  · rw [set_processes_of_ne p' heq] at hp
    exact h pid' p hp

/-- A name keeps its owner if the process that changes keeps the threads that own it. -/
theorem State.Owned.set (h : s.Owned name) {p' : Option Process}
    (hp' : ∀ p shm_id, s.processes pid = some p → .opened shm_id ∈ p.threads →
      name = shm_name pid shm_id → ∃ q, p' = some q ∧ .opened shm_id ∈ q.threads) :
    (s.set pid p').Owned name := by
  obtain ⟨pid', p, shm_id, hp, hopened, rfl⟩ := h
  by_cases heq : pid' = pid
  · subst heq
    obtain ⟨q, rfl, hq⟩ := hp' p shm_id hp hopened rfl
    exact ⟨pid', q, shm_id, set_processes_self _, hq, rfl⟩
  · exact ⟨pid', p, shm_id, (set_processes_of_ne p' heq).trans hp, hopened, rfl⟩

/-- Changing a process keeps its names owned if the threads that own them stay. -/
theorem owned_set_some (h : ∀ name ∈ s.names, s.Owned name) (hp : s.processes pid = some p)
    (hkeep : ∀ shm_id, .opened shm_id ∈ p.threads → .opened shm_id ∈ p'.threads) :
    ∀ name ∈ s.names, (s.set pid (some p')).Owned name := by
  intro name hname
  apply (h name hname).set
  intro q shm_id hq hopened _
  obtain rfl := Option.some.inj (hp.symm.trans hq)
  exact ⟨p', rfl, hkeep shm_id hopened⟩

namespace Invariant

theorem take (h : Invariant s) (hp : s.processes pid = some p)
    (hpc : p.threads[thread]? = some .idle) (hfree : ∀ pc ∈ p.threads, pc.held ≠ some p.shm_id) :
    Invariant (s.set pid (some ⟨p.shm_id + 1, p.threads.set thread (.taken p.shm_id)⟩)) where
  owned := owned_set_some h.owned hp fun _ hopened ↦ mem_set_of_ne hopened hpc (by simp)
  good := by
    apply good_set h.good
    rintro q ⟨⟩
    exact (h.good pid p hp).take hpc hfree _

/-- The name that a thread is about to create does not exist. -/
theorem name_notMem (h : Invariant s) (hp : s.processes pid = some p)
    (hpc : p.threads[thread]? = some (.taken shm_id)) : shm_name pid shm_id ∉ s.names := by
  intro hmem
  obtain ⟨pid', p', shm_id', hp', hopened, heq⟩ := h.owned _ hmem
  obtain ⟨rfl, rfl⟩ := shm_name_injective heq
  obtain rfl := Option.some.inj (hp.symm.trans hp')
  obtain ⟨other, hother⟩ := List.mem_iff_getElem?.mp hopened
  -- the owner would be a second thread with this value
  have hsame : thread = other := (h.good pid p hp).distinct thread other shm_id
    ⟨_, hpc, rfl⟩ ⟨_, hother, rfl⟩
  subst hsame
  cases hpc.symm.trans hother

theorem shmOpen (h : Invariant s) (hp : s.processes pid = some p)
    (hpc : p.threads[thread]? = some (.taken shm_id)) :
    Invariant { s.set pid (some ⟨p.shm_id, p.threads.set thread (.opened shm_id)⟩) with
      names := shm_name pid shm_id :: s.names } where
  owned := by
    intro name hname
    rcases List.mem_cons.mp hname with rfl | hname
    · obtain ⟨hlt, -⟩ := List.getElem?_eq_some_iff.mp hpc
      exact ⟨pid, _, shm_id, set_processes_self _, List.mem_set hlt _, rfl⟩
    · exact owned_set_some h.owned hp
        (fun _ hopened ↦ mem_set_of_ne hopened hpc (by simp)) name hname
  good := by
    apply good_set h.good
    rintro q ⟨⟩
    exact (h.good pid p hp).set hpc (fun _ hheld ↦ hheld) (by simp)

theorem shmUnlink (h : Invariant s) (hp : s.processes pid = some p)
    (hpc : p.threads[thread]? = some (.opened shm_id)) :
    Invariant { s.set pid (some ⟨p.shm_id, p.threads.set thread .idle⟩) with
      names := s.names.filter (· ≠ shm_name pid shm_id) } where
  owned := by
    intro name hname
    obtain ⟨hname, hne⟩ := List.mem_filter.mp hname
    apply (h.owned name hname).set
    rintro q shm_id' hq hopened rfl
    obtain rfl := Option.some.inj (hp.symm.trans hq)
    refine ⟨_, rfl, mem_set_of_ne hopened hpc ?_⟩
    rintro heq
    obtain rfl := Pc.opened.inj heq
    simp at hne
  good := by
    apply good_set h.good
    rintro q ⟨⟩
    exact (h.good pid p hp).set hpc (by rintro _ ⟨⟩) (by simp)

theorem start (h : Invariant s) (hp : s.processes pid = some p) :
    Invariant (s.set pid (some { p with threads := p.threads ++ [.idle] })) where
  owned := owned_set_some h.owned hp fun _ hopened ↦ List.mem_append_left _ hopened
  good := by
    apply good_set h.good
    rintro q ⟨⟩
    exact (h.good pid p hp).start

/-- A process comes to be, with one thread. -/
theorem fork (h : Invariant s) (hchild : s.processes child = none) (shm_id : UInt64) :
    Invariant (s.set child (some ⟨shm_id, [.idle]⟩)) where
  owned := by
    intro name hname
    apply (h.owned name hname).set
    intro q _ hq
    cases hchild.symm.trans hq
  good := by
    apply good_set h.good
    rintro q ⟨⟩
    exact Process.good_single shm_id

/-- A process whose threads own no name ends or starts anew. -/
theorem ends (h : Invariant s) (hp : s.processes pid = some p) (hnone : NoneOpened p)
    {p' : Option Process} (hp' : ∀ q, p' = some q → q.Good) : Invariant (s.set pid p') where
  owned := by
    intro name hname
    apply (h.owned name hname).set
    intro q shm_id hq hopened _
    obtain rfl := Option.some.inj (hp.symm.trans hq)
    exact absurd rfl (hnone _ hopened shm_id)
  good := good_set h.good hp'

/-- Every orderly step keeps the names apart. -/
theorem step {l : Label} (h : Invariant s) (horderly : Orderly s l)
    (hstep : Names.step s l = some s') : Invariant s' := by
  cases l with
  | take pid thread =>
      obtain ⟨p, hidle, hs⟩ := Option.bind_eq_some_iff.mp hstep
      obtain ⟨hp, hpc⟩ := idle_eq_some.mp hidle
      cases hs
      exact h.take hp hpc (horderly p hp)
  | shmOpen pid thread =>
      obtain ⟨p, hp, hs⟩ := Option.bind_eq_some_iff.mp hstep
      split at hs
      · rename_i shm_id hpc
        rw [if_neg (h.name_notMem hp hpc)] at hs
        cases hs
        exact h.shmOpen hp hpc
      · cases hs
  | shmUnlink pid thread =>
      obtain ⟨p, hp, hs⟩ := Option.bind_eq_some_iff.mp hstep
      split at hs
      · rename_i shm_id hpc
        cases hs
        exact h.shmUnlink hp hpc
      · cases hs
  | start pid =>
      obtain ⟨p, hp, hs⟩ := Option.bind_eq_some_iff.mp hstep
      cases hs
      exact h.start hp
  | fork pid thread child =>
      obtain ⟨p, -, hs⟩ := Option.bind_eq_some_iff.mp hstep
      split at hs
      · rename_i hchild
        cases hs
        exact h.fork hchild p.shm_id
      · cases hs
  | kill pid =>
      obtain ⟨p, hp, hs⟩ := Option.bind_eq_some_iff.mp hstep
      cases hs
      apply h.ends hp (horderly p hp)
      rintro q ⟨⟩
  | exec pid thread =>
      obtain ⟨p, hidle, hs⟩ := Option.bind_eq_some_iff.mp hstep
      obtain ⟨hp, -⟩ := idle_eq_some.mp hidle
      cases hs
      apply h.ends hp (horderly p hp)
      rintro q ⟨⟩
      exact Process.good_single 0

end Invariant

/-! ## Runs -/

/-- Before any chunk is created: processes with any counters, and no names. -/
structure Initial (s : State) : Prop where
  names : s.names = []
  idle : ∀ pid p, s.processes pid = some p → ∀ pc ∈ p.threads, pc = .idle

theorem Initial.invariant (h : Initial s) : Invariant s where
  owned name hname := by
    rw [h.names] at hname
    cases hname
  good pid p hp := {
    distinct := by
      rintro i j shm_id ⟨pc, hget, hheld⟩
      obtain rfl := h.idle pid p hp pc (List.mem_of_getElem? hget)
      cases hheld
    never := by
      intro hmem
      cases h.idle pid p hp _ hmem }

/-- No `shm_open` has failed with `EEXIST`. -/
def NeverExists (s : State) : Prop :=
  ∀ pid p, s.processes pid = some p → .exists ∉ p.threads

/-- **Names never collide** in a run that ends no thread between its `shm_open` and its
`shm_unlink`, and comes round to no value of a counter that is still in use. -/
theorem never_exists_of_run {s₀ : State} {ls : List Label} (hinit : Initial s₀)
    (hrun : runs step s₀ ls = some s) (horderly : StepsMeet step Orderly s₀ ls) :
    NeverExists s := by
  have hinv : Invariant s := runs_induction (fun _ ↦ Invariant) hinit.invariant
    (fun _ _ _ _ h ↦ h.step) hrun horderly
  exact fun pid p hp ↦ (hinv.good pid p hp).never

/-- One process with two threads. -/
def twoThreads : State where
  processes pid := if pid = 7 then some ⟨0, [.idle, .idle]⟩ else none
  names := []

/-- The second thread executes a program while the first one is between the two calls. -/
def execInBetween : List Label :=
  [.take 7 0, .shmOpen 7 0, .exec 7 1, .take 7 0, .shmOpen 7 0]

/-- The process is killed there, and another one comes to have its id. -/
def killInBetween : List Label :=
  [.fork 7 0 8, .take 7 0, .shmOpen 7 0, .kill 7, .fork 8 0 7, .take 7 0, .shmOpen 7 0]

theorem initial_twoThreads : Initial twoThreads where
  names := rfl
  idle pid p hp pc hpc := by
    rw [twoThreads] at hp
    dsimp only at hp
    split at hp
    · cases hp
      simpa using hpc
    · cases hp

theorem not_neverExists_of_run {s₀ : State} {ls : List Label} (pid : Nat)
    (h : (runs step s₀ ls).bind (·.processes pid) = some p) (hp : .exists ∈ p.threads) :
    ∃ s, runs step s₀ ls = some s ∧ ¬NeverExists s := by
  obtain ⟨s, hrun, hproc⟩ := Option.bind_eq_some_iff.mp h
  exact ⟨s, hrun, fun hnever ↦ hnever pid p hproc hp⟩

/-- A leaked name meets the next program, and the next process. -/
theorem exists_after_end :
    (∃ s, runs step twoThreads execInBetween = some s ∧ ¬NeverExists s) ∧
      ∃ s, runs step twoThreads killInBetween = some s ∧ ¬NeverExists s :=
  ⟨not_neverExists_of_run 7 (p := ⟨1, [.exists]⟩) (by decide +kernel) (by decide),
    not_neverExists_of_run 7 (p := ⟨1, [.exists]⟩) (by decide +kernel) (by decide)⟩

/-- A chunk is created, and its process forks. -/
theorem never_exists_after_fork : ∃ s,
    runs step twoThreads [.take 7 0, .shmOpen 7 0, .fork 7 1 8, .shmUnlink 7 0] = some s ∧
      NeverExists s := by
  have hrun : (runs step twoThreads
      [.take 7 0, .shmOpen 7 0, .fork 7 1 8, .shmUnlink 7 0]).isSome := by decide +kernel
  obtain ⟨s, hs⟩ := Option.isSome_iff_exists.mp hrun
  refine ⟨s, hs, never_exists_of_run initial_twoThreads hs ⟨?_, fun s' _ ↦ ?_⟩⟩
  · rintro p ⟨⟩ pc hpc
    obtain rfl : pc = .idle := by simpa using hpc
    simp [Pc.held]
  · apply StepsMeet.of_forall
    intro s l hl
    simp only [List.mem_cons, List.not_mem_nil, or_false] at hl
    rcases hl with rfl | rfl | rfl <;> trivial

end Fspy.Shm.Names
