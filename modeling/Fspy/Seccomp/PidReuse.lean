import Fspy.Lib.Transition
import Fspy.Seccomp.Handler
import Mathlib.Logic.Function.Basic

/-!
# Reading from a task by its pid

A notification names the task that raised it by its pid.  The handler reads from
whatever task has the pid when it reads, and the task of a notification may have been
killed by then.  `own_of_run` says what keeps an access from being another task's: the
pid is not given away while it is read from.  `SECCOMP_IOCTL_NOTIF_ID_VALID` would tell,
but is not called.
-/

namespace Fspy.Seccomp.PidReuse

open Lib

/-- What the kernel answers to one read, and the task that had the pid then. -/
structure Answer where
  task : Option Nat
  result : Except Errno Bytes
deriving DecidableEq

/-- An access in the arena, the task that raised its notification, and the tasks that it
was read from. -/
structure Entry where
  access : PathAccess
  raiser : Nat
  sources : List Nat
deriving DecidableEq, Repr

/-- Where the task of the listener is. -/
inductive Pc where
  | idle
  /-- Reads an argument; these were the answers so far. -/
  | reading (raiser : Nat) (notify : Notif) (answers : List Answer)
  /-- The handler is done reading, and about to leave this arena. -/
  | read (raiser : Nat) (notify : Notif) (sources : List Nat) (arena : SyscallHandler)
      (result : Except IoError Unit)
  | handled (notify : Notif) (result : Except IoError Unit)
  | ended

structure State where
  /-- The task that has a pid. -/
  holder : UInt32 → Option Nat
  /-- The number of tasks that were ever started. -/
  tasks : Nat
  /-- The notifications that were not received, with the tasks that raised them. -/
  queue : List (Nat × Notif)
  pc : Pc
  entries : List Entry

inductive Label where
  /-- The task that has the pid makes a system call. -/
  | raise (notify : Notif)
  /-- The task that has the pid is killed. -/
  | die (pid : UInt32)
  /-- A free pid is given to another task: a new one, or the thread of the process that
  execs. -/
  | start (pid : UInt32)
  | recv
  /-- `process_vm_readv` or `readlink` returns. -/
  | answer (result : Except Errno Bytes)
  | add
  | send_continue (response : Except Errno Unit)

/-- The link that was read, in one call. -/
def link (answers : List Answer) : Except Errno Bytes :=
  match answers.getLast? with
  | some answer => answer.result
  | none => .error .ENOENT

/-- The answers as the handler sees them. -/
def remote (answers : List Answer) : Remote where
  readv := answers.map fun answer _ _ _ ↦ answer.result
  cwd _ := link answers
  fd _ _ := link answers

/-- The task that an answer was read from. -/
def Answer.source (answer : Answer) : Option Nat :=
  match answer.result with
  | .ok _ => answer.task
  | .error _ => none

/-- The arena. -/
def State.accesses (s : State) : SyscallHandler := s.entries.map Entry.access

/-- The handler goes on with these answers. -/
def State.proceed (s : State) (raiser : Nat) (notify : Notif) (answers : List Answer) : State :=
  if notify.nr = SyscallHandler.Sysno.getdents64 ∧ answers = [] then
    { s with pc := .reading raiser notify answers }
  else match SyscallHandler.handle_notify (remote answers) s.accesses notify with
    | none => { s with pc := .reading raiser notify answers }
    | some (arena, result) =>
        { s with pc := .read raiser notify (answers.filterMap Answer.source) arena result }

def step (s : State) : Label → Option State
  | .raise notify => do
      let task ← s.holder notify.pid
      return { s with queue := s.queue ++ [(task, notify)] }
  | .die pid => do
      let task ← s.holder pid
      -- its notifications are not received any more
      return { s with
        holder := Function.update s.holder pid none
        queue := s.queue.filter (·.1 ≠ task) }
  | .start pid =>
      if s.holder pid = none then
        some { s with holder := Function.update s.holder pid (some s.tasks), tasks := s.tasks + 1 }
      else none
  | .recv => match s.pc, s.queue with
      | .idle, (raiser, notify) :: queue =>
          some ({ s with queue }.proceed raiser notify [])
      | _, _ => none
  | .answer result => match s.pc with
      | .reading raiser notify answers =>
          -- nothing is read from a pid that no task has
          if s.holder notify.pid = none ∧ result.toOption.isSome then none
          else some (s.proceed raiser notify (answers ++ [⟨s.holder notify.pid, result⟩]))
      | _ => none
  | .add => match s.pc with
      | .read raiser notify sources arena result =>
          some { s with
            pc := .handled notify result
            entries := s.entries ++ (arena.drop s.entries.length).map (⟨·, raiser, sources⟩) }
      | _ => none
  | .send_continue response => match s.pc with
      | .handled notify result =>
          match NotifyListener.send_continue (fun _ ↦ response) notify.id, result with
          | .ok (), .ok () => some { s with pc := .idle }
          | _, _ => some { s with pc := .ended }
      | _ => none

/-! ## Whose accesses these are -/

/-- The access was read, and from no task but the one that raised the notification. -/
def Entry.Own (entry : Entry) : Prop :=
  entry.sources ≠ [] ∧ ∀ task ∈ entry.sources, task = entry.raiser

instance (entry : Entry) : Decidable entry.Own := inferInstanceAs (Decidable (_ ∧ _))

/-- The pid that is read from. -/
def Pc.readsFrom : Pc → Option UInt32
  | .reading _ notify _ => some notify.pid
  | _ => none

/-- A pid is not given to a task while it is read from. -/
def KeepsPid (s : State) : Label → Prop
  | .start pid => s.pc.readsFrom ≠ some pid
  | _ => True

instance (s : State) : ∀ l, Decidable (KeepsPid s l)
  | .start _ => inferInstanceAs (Decidable (_ ≠ _))
  | .raise _ | .die _ | .recv | .answer _ | .add | .send_continue _ => .isTrue trivial

/-- An answer comes from this task, if it brings anything. -/
def Answer.From (raiser : Nat) (answer : Answer) : Prop :=
  ∀ bytes, answer.result = .ok bytes → answer.task = some raiser

/-- What is known of the answers while the handler reads, and after. -/
def Pc.Own (s : State) : Pc → Prop
  | .reading raiser notify answers =>
      (∀ task, s.holder notify.pid = some task → task = raiser) ∧ ∀ a ∈ answers, a.From raiser
  | .read raiser _ sources arena _ =>
      (arena = s.accesses ∨ sources ≠ [] ∧ ∃ access, arena = s.accesses ++ [access]) ∧
        ∀ task ∈ sources, task = raiser
  | _ => True

structure Inv (s : State) : Prop where
  /-- The task of a notification that waits is there. -/
  queue : ∀ task notify, (task, notify) ∈ s.queue → s.holder notify.pid = some task
  pc : s.pc.Own s
  entries : ∀ entry ∈ s.entries, entry.Own

variable {s s' : State} {l : Label} {ls : List Label} {raiser : Nat} {notify : Notif}
  {answers : List Answer}

/-- A string that was read was read from somewhere. -/
theorem answered_of_read {path : CStrPtr} {room : Nat} {buf bytes : Bytes}
    (h : path.read (answers.map fun answer _ _ _ ↦ answer.result) room buf = some (.ok bytes)) :
    ∃ answer ∈ answers, ∃ chunk, answer.result = .ok chunk := by
  induction answers generalizing room buf with
  | nil => cases room <;> cases h
  | cons answer answers ih =>
      cases room with
      | zero => cases h
      | succ room =>
          rw [List.map_cons, CStrPtr.read] at h
          cases hresult : answer.result with
          | ok chunk => exact ⟨answer, List.mem_cons_self, chunk, hresult⟩
          | error e =>
              rw [hresult] at h
              cases h

theorem answered_of_link {bytes : Bytes} (h : link answers = .ok bytes) :
    ∃ answer ∈ answers, ∃ chunk, answer.result = .ok chunk := by
  rw [link] at h
  split at h
  · rename_i answer hlast
    exact ⟨answer, List.mem_of_getLast? hlast, bytes, h⟩
  · cases h

/-- The handler adds an access at most, and only one that it has read. -/
theorem handle_notify_cases {arena arena' : SyscallHandler} {result : Except IoError Unit}
    (h : SyscallHandler.handle_notify (remote answers) arena notify = some (arena', result)) :
    arena' = arena ∨ ∃ access, arena' = arena ++ [access] ∧
      ∃ answer ∈ answers, ∃ chunk, answer.result = .ok chunk := by
  rw [SyscallHandler.handle_notify] at h
  split at h
  · rw [SyscallHandler.openat] at h
    split at h
    · cases h
    · cases h
      exact .inl rfl
    · rename_i path hread
      cases h
      exact .inr ⟨_, rfl, answered_of_read hread⟩
  · split at h
    · rw [SyscallHandler.getdents64, Fd.get_path] at h
      simp only [remote, ite_self] at h
      split at h
      · cases h
        exact .inl rfl
      · rename_i path hlink
        cases h
        exact .inr ⟨_, rfl, answered_of_link hlink⟩
    · cases h
      exact .inl rfl

theorem mem_sources {task : Nat} (h : ∀ a ∈ answers, a.From raiser)
    (hmem : task ∈ answers.filterMap Answer.source) : task = raiser := by
  obtain ⟨answer, ha, hsource⟩ := List.mem_filterMap.mp hmem
  rw [Answer.source] at hsource
  split at hsource
  · rename_i chunk hresult
    exact Option.some.inj (hsource.symm.trans (h answer ha chunk hresult))
  · cases hsource

theorem sources_ne_nil (h : ∀ a ∈ answers, a.From raiser)
    (hanswered : ∃ answer ∈ answers, ∃ chunk, answer.result = .ok chunk) :
    answers.filterMap Answer.source ≠ [] := by
  obtain ⟨answer, ha, chunk, hresult⟩ := hanswered
  apply List.ne_nil_of_mem (a := raiser)
  refine List.mem_filterMap.mpr ⟨answer, ha, ?_⟩
  rw [Answer.source, hresult]
  exact h answer ha chunk hresult

/-- The handler goes on with answers that come from the task. -/
theorem Inv.proceed (h : Inv s) (hholder : ∀ task, s.holder notify.pid = some task → task = raiser)
    (hanswers : ∀ a ∈ answers, a.From raiser) : Inv (s.proceed raiser notify answers) := by
  rw [State.proceed]
  split
  · exact ⟨h.queue, ⟨hholder, hanswers⟩, h.entries⟩
  · split
    · exact ⟨h.queue, ⟨hholder, hanswers⟩, h.entries⟩
    · rename_i arena result hhandle
      refine ⟨h.queue, ⟨?_, fun task hmem ↦ mem_sources hanswers hmem⟩, h.entries⟩
      rcases handle_notify_cases hhandle with rfl | ⟨access, rfl, hanswered⟩
      · exact .inl rfl
      · exact .inr ⟨sources_ne_nil hanswers hanswered, access, rfl⟩

/-- The tasks change, and those that are read from or have notifications do not. -/
theorem Inv.of_holder (h : Inv s) {holder : UInt32 → Option Nat} {tasks : Nat}
    {queue : List (Nat × Notif)}
    (hqueue : ∀ task notify, (task, notify) ∈ queue → holder notify.pid = some task)
    (hpc : ∀ raiser notify answers, s.pc = .reading raiser notify answers →
      ∀ task, holder notify.pid = some task → s.holder notify.pid = some task) :
    Inv { s with holder, tasks, queue } where
  queue := hqueue
  pc := by
    have hown := h.pc
    cases hs : s.pc with
    | reading raiser notify answers =>
        rw [hs] at hown
        exact ⟨fun task htask ↦ hown.1 task (hpc raiser notify answers hs task htask), hown.2⟩
    | read raiser notify sources arena result =>
        rw [hs] at hown
        exact hown
    | idle | handled notify result | ended => trivial
  entries := h.entries

/-- A notification comes from the task that has the pid. -/
theorem Inv.raise (h : Inv s) {task : Nat} (htask : s.holder notify.pid = some task) :
    Inv { s with queue := s.queue ++ [(task, notify)] } := by
  refine h.of_holder ?_ fun _ _ _ _ _ ↦ id
  intro task' notify' hmem
  rcases List.mem_append.mp hmem with hmem | hmem
  · exact h.queue task' notify' hmem
  · cases List.mem_singleton.mp hmem
    exact htask

/-- A task that is killed takes its notifications with it. -/
theorem Inv.die (h : Inv s) {pid : UInt32} {task : Nat} (htask : s.holder pid = some task) :
    Inv { s with
      holder := Function.update s.holder pid none
      queue := s.queue.filter (·.1 ≠ task) } := by
  refine h.of_holder ?_ ?_
  · intro task' notify hmem
    obtain ⟨hmem, hne⟩ := List.mem_filter.mp hmem
    have hholder := h.queue task' notify hmem
    rw [Function.update_of_ne, hholder]
    rintro rfl
    rw [htask] at hholder
    exact of_decide_eq_true hne (Option.some.inj hholder).symm
  · intro raiser notify answers _ task' htask'
    by_cases hpid : notify.pid = pid
    · rw [hpid, Function.update_self] at htask'
      cases htask'
    · rwa [Function.update_of_ne hpid] at htask'

/-- A pid is given to a task, and it is not the one that is read from. -/
theorem Inv.start (h : Inv s) {pid : UInt32} {task tasks : Nat} (hfree : s.holder pid = none)
    (hkeeps : s.pc.readsFrom ≠ some pid) :
    Inv { s with holder := Function.update s.holder pid (some task), tasks } := by
  refine h.of_holder ?_ ?_
  · intro task notify hmem
    have hholder := h.queue task notify hmem
    rw [Function.update_of_ne, hholder]
    rintro rfl
    cases hfree.symm.trans hholder
  · intro raiser notify answers hpc task htask
    rw [Function.update_of_ne] at htask
    · exact htask
    · rintro rfl
      apply hkeeps
      rw [hpc]
      rfl

/-- A notification is taken while its task is there. -/
theorem Inv.recv (h : Inv s) {queue : List (Nat × Notif)}
    (hqueue : s.queue = (raiser, notify) :: queue) :
    Inv ({ s with queue }.proceed raiser notify []) := by
  have hinv : Inv { s with queue } := by
    refine h.of_holder ?_ fun _ _ _ _ _ ↦ id
    intro task' notify' hmem
    exact h.queue task' notify' (hqueue ▸ List.mem_cons_of_mem _ hmem)
  have hholder := h.queue raiser notify (hqueue ▸ List.mem_cons_self)
  refine hinv.proceed ?_ (by simp)
  intro task htask
  exact Option.some.inj (htask.symm.trans hholder)

/-- An answer that brings anything comes from the task that has the pid, which is the one
that had it. -/
theorem Inv.answer (h : Inv s) {result : Except Errno Bytes}
    (hpc : s.pc = .reading raiser notify answers)
    (hsome : ¬(s.holder notify.pid = none ∧ result.toOption.isSome)) :
    Inv (s.proceed raiser notify (answers ++ [⟨s.holder notify.pid, result⟩])) := by
  have hown := h.pc
  rw [hpc] at hown
  refine h.proceed hown.1 ?_
  intro a ha
  rcases List.mem_append.mp ha with ha | ha
  · exact hown.2 a ha
  · obtain rfl := List.mem_singleton.mp ha
    rintro bytes rfl
    obtain ⟨task, htask⟩ := Option.ne_none_iff_exists'.mp fun hnone ↦ hsome ⟨hnone, rfl⟩
    rw [← hown.1 task htask]
    exact htask

theorem Inv.add (h : Inv s) {sources : List Nat} {arena : SyscallHandler}
    {result : Except IoError Unit} (hpc : s.pc = .read raiser notify sources arena result) :
    Inv { s with
      pc := .handled notify result
      entries := s.entries ++ (arena.drop s.entries.length).map (⟨·, raiser, sources⟩) } := by
  have hown := h.pc
  rw [hpc] at hown
  refine ⟨h.queue, trivial, ?_⟩
  intro entry hmem
  rcases List.mem_append.mp hmem with hmem | hmem
  · exact h.entries entry hmem
  · obtain ⟨access, haccess, rfl⟩ := List.mem_map.mp hmem
    refine ⟨?_, hown.2⟩
    rcases hown.1 with rfl | ⟨hne, -⟩
    · rw [State.accesses, ← List.length_map (f := Entry.access), List.drop_length] at haccess
      cases haccess
    · exact hne

theorem Inv.of_step (h : Inv s) (hkeeps : KeepsPid s l) (hstep : step s l = some s') :
    Inv s' := by
  cases l with
  | raise notify =>
      simp only [step, Option.bind_eq_bind, Option.bind_eq_some_iff, Option.pure_def,
        Option.some.injEq] at hstep
      obtain ⟨task, htask, rfl⟩ := hstep
      exact h.raise htask
  | die pid =>
      simp only [step, Option.bind_eq_bind, Option.bind_eq_some_iff, Option.pure_def,
        Option.some.injEq] at hstep
      obtain ⟨task, htask, rfl⟩ := hstep
      exact h.die htask
  | start pid =>
      simp only [step, Option.ite_none_right_eq_some, Option.some.injEq] at hstep
      obtain ⟨hfree, rfl⟩ := hstep
      exact h.start hfree hkeeps
  | recv =>
      simp only [step] at hstep
      split at hstep
      · rename_i hqueue
        cases hstep
        exact h.recv hqueue
      · cases hstep
  | answer result =>
      simp only [step] at hstep
      split at hstep
      · rename_i hpc
        simp only [Option.ite_none_left_eq_some, Option.some.injEq] at hstep
        obtain ⟨hsome, rfl⟩ := hstep
        exact h.answer hpc hsome
      · cases hstep
  | add =>
      simp only [step] at hstep
      split at hstep
      · rename_i hpc
        cases hstep
        exact h.add hpc
      · cases hstep
  | send_continue response =>
      simp only [step] at hstep
      split at hstep
      · split at hstep <;> cases hstep <;> exact ⟨h.queue, trivial, h.entries⟩
      · cases hstep

/-- What is added to the entries are the accesses that the handler has added. -/
theorem accesses_of_add {sources : List Nat} {arena : SyscallHandler}
    {result : Except IoError Unit} (h : Inv s)
    (hpc : s.pc = .read raiser notify sources arena result) (hstep : step s .add = some s') :
    s'.accesses = arena := by
  have hown := h.pc
  rw [hpc] at hown
  simp only [step, hpc] at hstep
  cases hstep
  have hlen : s.entries.length = s.accesses.length := (List.length_map ..).symm
  have hdrop : ∀ added : SyscallHandler,
      (added.map fun access ↦ (⟨access, raiser, sources⟩ : Entry)).map Entry.access = added := by
    intro added
    rw [List.map_map]
    exact List.map_id added
  rw [State.accesses, List.map_append, hdrop, hlen]
  rcases hown.1 with rfl | ⟨-, access, rfl⟩
  · rw [List.drop_length, List.append_nil]
    rfl
  · rw [List.drop_left]
    rfl

/-- **Every access was read from the task that asked**, in every run that gives no pid to
a task while it is read from. -/
theorem own_of_run {holder : UInt32 → Option Nat} {tasks : Nat}
    (hrun : runs step ⟨holder, tasks, [], .idle, []⟩ ls = some s)
    (hmeet : StepsMeet step KeepsPid ⟨holder, tasks, [], .idle, []⟩ ls) :
    ∀ entry ∈ s.entries, entry.Own := by
  have hinit : Inv ⟨holder, tasks, [], .idle, []⟩ := ⟨by simp, trivial, by simp⟩
  have hinv : Inv s := by
    refine runs_induction (fun _ s ↦ Inv s) hinit ?_ hrun hmeet
    intro _ s l s' h hkeeps hstep
    exact h.of_step hkeeps hstep
  exact hinv.entries

/-- One task, and its call of `openat`. -/
def sampleState : State where
  holder := Function.update (fun _ ↦ none) 7 (some 0)
  tasks := 1
  queue := []
  pc := .idle
  entries := []

def sampleOpenat : Notif := ⟨1, 7, SyscallHandler.Sysno.openat, [0, 4096]⟩

/-- The task is killed, and its pid given away, before the string is read and added. -/
def reuseBefore : List Label :=
  [.raise sampleOpenat, .recv, .die 7, .start 7, .answer (.ok (Lib.toCStr (ascii "/x"))), .add,
    .send_continue (.error .ENOENT)]

/-- The same after the string was read. -/
def reuseAfter : List Label :=
  [.raise sampleOpenat, .recv, .answer (.ok (Lib.toCStr (ascii "/x"))), .die 7, .start 7, .add,
    .send_continue (.error .ENOENT)]

theorem own_sample : ∃ s, runs step sampleState reuseAfter = some s ∧ s.entries.length = 1 ∧
    ∀ entry ∈ s.entries, entry.Own := by
  have hlen : (runs step sampleState reuseAfter).map (·.entries.length) = some 1 := by
    decide +kernel
  obtain ⟨s, hrun, hone⟩ := Option.map_eq_some_iff.mp hlen
  exact ⟨s, hrun, hone, own_of_run hrun (by decide +kernel)⟩

/-- An access that was read from another task is added, and the loop goes on. -/
theorem foreign_access : ∃ s, runs step sampleState reuseBefore = some s ∧
    ∃ entry ∈ s.entries, ¬entry.Own := by
  have hentries : (runs step sampleState reuseBefore).map State.entries =
      some [⟨.read (ascii "/x"), 0, [1]⟩] := by
    decide +kernel
  obtain ⟨s, hrun, heq⟩ := Option.map_eq_some_iff.mp hentries
  exact ⟨s, hrun, _, heq ▸ List.mem_singleton_self _, by decide⟩

end Fspy.Seccomp.PidReuse
