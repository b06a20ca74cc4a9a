import Fspy.Shm.Steps

/-!
# The invariant of the log

`Inv` collects what holds of every row, that no chunk is owned through two rows,
and what holds of the log.  `step_cases` is the one case split on the step
function: either one row moves, or a process is forked.  A forked child owns
nothing, because its number is new and a chunk is owned by the process that made
it; what can still go wrong there is a cursor that came with the fork, and
`StartsAtEnd` is the condition under which it does not.
-/

namespace Fspy.Shm

variable {c : Lib.Codec PathAccess} {ls : List Label} {s s' : State} {l : Label}

/-- The step does not hand a new thread an id under which a cursor is stored that
maps a chunk of another process and has room left in it. -/
def StartsAtEnd (s : State) (l : Label) : Prop :=
  l.act = .start → ∀ slot cur, s.row l.key = some slot → slot.cursor = some cur →
    (s.mem.chunks[cur.chunk]?).map Chunk.creator ≠ some l.pid → cur.position = cur.len

/-! ## The two kinds of steps -/

/-- What a step other than `fork` does. -/
structure RowStep (c : Lib.Codec PathAccess) (s s' : State) (l : Label) (slot slot' : Slot) :
    Prop where
  row_eq : s.row l.key = some slot
  step_eq : slot.step c s.mem l.pid l.act = some (s'.mem, slot')
  length_eq : s'.procs.length = s.procs.length
  rows : ∀ t, s'.row t = if t = l.key then some slot' else s.row t

/-- What `fork` does. -/
structure ForkStep (s s' : State) (l : Label) (proc : Proc) : Prop where
  act_eq : l.act = .fork
  proc_eq : s.procs[l.pid]? = some proc
  idle : (proc l.id).owner = .live .idle
  mem_eq : s'.mem = s.mem
  length_eq : s'.procs.length = s.procs.length + 1
  rows : ∀ t, s'.row t =
    if t.1 = s.procs.length then some (afterFork proc l.id t.2) else s.row t

theorem row_set {s : State} {m : Mem} {p i : Nat} {proc : Proc} {slot : Slot}
    (hp : s.procs[p]? = some proc) (t : Key) :
    State.row ⟨m, s.procs.set p (Function.update proc i slot)⟩ t =
      if t = (p, i) then some slot else s.row t := by
  obtain ⟨q, j⟩ := t
  obtain ⟨hlt, rfl⟩ := List.getElem?_eq_some_iff.mp hp
  simp only [State.row, List.getElem?_set, Prod.mk.injEq]
  by_cases hq : p = q
  · subst hq
    by_cases hj : j = i
    · simp [hj, hlt]
    · simp [hj, hlt]
  · simp [hq, Ne.symm hq]

theorem row_append {s : State} {m : Mem} {proc : Proc} (t : Key) :
    State.row ⟨m, s.procs ++ [proc]⟩ t =
      if t.1 = s.procs.length then some (proc t.2) else s.row t := by
  simp only [State.row]
  rcases Nat.lt_trichotomy t.1 s.procs.length with h | h | h
  · simp [List.getElem?_append_left h, Nat.ne_of_lt h]
  · simp [h]
  · simp [List.getElem?_append_right (Nat.le_of_lt h), Nat.ne_of_gt h, Nat.le_of_lt h,
      Nat.sub_ne_zero_of_lt h]

/-- **A step moves one row, or forks.** -/
theorem step_cases (h : step c s l = some s') :
    (∃ slot slot', RowStep c s s' l slot slot') ∨ ∃ proc, ForkStep s s' l proc := by
  simp only [step] at h
  split at h
  · cases h
  · rename_i proc hproc
    split at h
    · rename_i hfork
      split at h
      · rename_i hidle
        cases h
        exact .inr ⟨proc, hfork, hproc, hidle, rfl, by simp, row_append⟩
      · cases h
    · obtain ⟨⟨m, slot'⟩, hstep, rfl⟩ := Option.map_eq_some_iff.mp h
      exact .inl ⟨proc l.id, slot', by simp [State.row, Label.key, hproc], hstep, by simp,
        row_set hproc⟩

/-! ## The invariant -/

structure Inv (c : Lib.Codec PathAccess) (ls : List Label) (s : State) : Prop where
  slots : ∀ t slot, s.row t = some slot → SlotInv c (world ls s) t slot
  excl : ∀ t t' slot slot' k, s.row t = some slot → s.row t' = some slot' →
    Owns (world ls s) t slot k → Owns (world ls s) t' slot' k → t = t'
  creators : ∀ k p, (world ls s).creator k = some p → p < s.procs.length
  log : Log c (records ls) (world ls s)

theorem row_init {n : Nat} {t : Key} {slot : Slot} (h : (init n).row t = some slot) :
    slot.cursor = none ∧ (slot.owner = .live .idle ∨ slot.owner = .free) := by
  obtain ⟨p, i⟩ := t
  cases p with
  | zero =>
      simp only [State.row, init, List.getElem?_cons_zero, Option.map_some,
        Option.some.injEq] at h
      rw [← h]
      refine ⟨rfl, ?_⟩
      dsimp only
      split
      · exact .inl rfl
      · exact .inr rfl
  | succ p => simp [State.row, init] at h

theorem inv_init (c : Lib.Codec PathAccess) (n : Nat) : Inv c [] (init n) where
  slots t slot hrow := by
    obtain ⟨hcur, ho⟩ := row_init hrow
    have hstill : slot.owner.Still := by rcases ho with ho | ho <;> rw [ho] <;> trivial
    refine ⟨⟨by simp [hcur], by simp [hcur], by simp [hcur]⟩, ?_, ?_, by simp [hcur]⟩
    · intro a start k hw
      rw [hw] at hstill
      exact hstill.elim
    · intro a again stage k hw hk
      rw [hw] at hstill
      rw [show stage.chunk = none from hstill] at hk
      cases hk
  excl t t' slot slot' k hrow _ hown _ := by
    obtain ⟨hcur, ho⟩ := row_init hrow
    rcases hown with ⟨cur, hcur', -⟩ | ⟨a, again, stage, hw, -⟩
    · rw [hcur] at hcur'
      cases hcur'
    · rcases ho with ho | ho <;> rw [ho] at hw <;> cases hw
  creators k p hp := by simp [World.creator, world, init] at hp
  log := by
    refine ⟨by simp [world, init], by simp [world, publishedIn, records],
      by simp [world, regions], by simp [world, regions], by simp [world, init],
      by simp [world, init], by simp [world, init, records]⟩

theorem row_lt {t : Key} {slot : Slot} (h : s.row t = some slot) : t.1 < s.procs.length := by
  obtain ⟨proc, hproc, -⟩ := Option.map_eq_some_iff.mp h
  exact (List.getElem?_eq_some_iff.mp hproc).1

/-- The row that moves gains only chunks nobody has owned before. -/
theorem Inv.owned_once {slot slot' sl : Slot} {t : Key} {k : Nat} {rs} {w' : World}
    (h : Inv c ls s) (hrow : s.row l.key = some slot) (ht : s.row t = some sl) (hne : t ≠ l.key)
    (hm : Moved c rs l.key (world ls s) w' slot slot' k) {k' : Nat} (hown : Owns w' l.key slot' k')
    (hown' : Owns w' t sl k') : False := by
  have hold := Owns.frame (h.slots t sl ht) hm.frame hown'
  rcases hm.owns k' hown with ho | hge
  · exact hne (h.excl t l.key sl slot k' ht hrow hold ho)
  · exact absurd (Owns.lt (h.slots t sl ht) hold) (Nat.not_lt.mpr hge)

/-- The invariant after a step of one row. -/
theorem Inv.rowStep {slot slot' : Slot} (h : Inv c ls s) (hs : RowStep c s s' l slot slot')
    (hstart : StartsAtEnd s l) : Inv c (ls ++ [l]) s' := by
  obtain ⟨k, hmoved⟩ := moved_of_step (t := l.key) (h.slots l.key slot hs.row_eq) h.log
    (fun ha cur hcur hcr ↦ hstart ha slot cur hs.row_eq hcur hcr) hs.step_eq
  have hm : Moved c (records (ls ++ [l])) l.key (world ls s) (world (ls ++ [l]) s')
      slot slot' k := by
    rw [records_snoc, world_snoc]
    exact hmoved
  refine ⟨?_, ?_, ?_, hm.log⟩
  · intro t sl hrow
    rw [hs.rows] at hrow
    split at hrow
    · rename_i ht
      cases hrow
      exact ht ▸ hm.slotInv
    · rename_i ht
      apply (h.slots t sl hrow).frame hm.frame ht
      intro hown
      rcases hm.touched with ho | hge
      · exact ht (h.excl t l.key sl slot k hrow hs.row_eq hown ho)
      · exact absurd (Owns.lt (h.slots t sl hrow) hown) (Nat.not_lt.mpr hge)
  · intro t t' sl sl' k' hrow hrow' hown hown'
    rw [hs.rows] at hrow hrow'
    split at hrow <;> split at hrow'
    · rename_i ht ht'
      exact ht.trans ht'.symm
    · rename_i ht ht'
      cases hrow
      subst ht
      exact (h.owned_once hs.row_eq hrow' ht' hm hown hown').elim
    · rename_i ht ht'
      cases hrow'
      subst ht'
      exact (h.owned_once hs.row_eq hrow ht hm hown' hown).elim
    · exact h.excl t t' sl sl' k' hrow hrow' (Owns.frame (h.slots t sl hrow) hm.frame hown)
        (Owns.frame (h.slots t' sl' hrow') hm.frame hown')
  · intro k' p hp
    rw [hs.length_eq]
    rcases hm.frame.creator_new k' p hp with hp | rfl
    · exact h.creators k' p hp
    · exact row_lt hs.row_eq

/-! ## Fork -/

/-- In a forked child nobody is in the middle of a `send`. -/
theorem afterFork_still (proc : Proc) (i j : Nat) : (afterFork proc i j).owner.Still := by
  simp only [afterFork]
  split
  · trivial
  · simp only [Slot.inherited]
    split
    · rename_i ho
      rw [ho]
      trivial
    · trivial

/-- A forked child inherits the chunks, and its only thread has a cursor at the end. -/
theorem afterFork_cursor {proc : Proc} {i j : Nat} {cur : ShmCursor}
    (h : (afterFork proc i j).cursor = some cur) :
    (∃ cur', (proc j).cursor = some cur' ∧ cur.chunk = cur'.chunk) ∧
      ∀ pc, (afterFork proc i j).owner = .live pc → cur.position = cur.len := by
  simp only [afterFork] at h ⊢
  split at h
  · rename_i hj
    obtain ⟨cur', hcur', rfl⟩ := Option.map_eq_some_iff.mp h
    exact ⟨⟨cur', hj ▸ hcur', rfl⟩, fun _ _ ↦ rfl⟩
  · rename_i hj
    simp only [hj, if_false]
    simp only [Slot.inherited] at h ⊢
    split at h
    · rename_i ho
      exact ⟨⟨cur, h, rfl⟩, fun pc hpc ↦ by simp [ho] at hpc⟩
    · exact ⟨⟨cur, h, rfl⟩, by rintro pc ⟨⟩⟩

/-- The rows of a forked child. -/
theorem afterFork_slotInv {w : World} {proc : Proc} {i j p q : Nat}
    (hslot : SlotInv c w (q, j) (proc j)) (hp : ∀ k, w.creator k ≠ some p) :
    SlotInv c w (p, j) (afterFork proc i j) ∧ ∀ k, ¬Owns w (p, j) (afterFork proc i j) k := by
  have hstill := afterFork_still proc i j
  have hno : ∀ a again stage k, (afterFork proc i j).owner = .live (.newShm a again stage) →
      stage.chunk ≠ some k := by
    intro a again stage k ho
    rw [ho] at hstill
    rw [show stage.chunk = none from hstill]
    simp
  refine ⟨⟨⟨?_, ?_, ?_⟩, ?_, ?_, ?_⟩, ?_⟩
  · intro cur hcur
    obtain ⟨⟨cur', hcur', he⟩, -⟩ := afterFork_cursor hcur
    exact he ▸ hslot.cursor.exist cur' hcur'
  · intro cur ch _ hch hcr
    exact absurd (World.creator_eq_some.mpr ⟨ch, hch, hcr⟩) (hp _)
  · intro cur pc hcur _ hpc
    exact (afterFork_cursor hcur).2 pc hpc
  · intro a start n ho
    rw [ho] at hstill
    exact hstill.elim
  · intro a again stage k ho hk
    exact absurd hk (hno a again stage k ho)
  · intro a again stage k cur ho hk
    exact absurd hk (hno a again stage k ho)
  · rintro k (⟨cur, -, -, hcr⟩ | ⟨a, again, stage, ho, hk⟩)
    · exact hp k hcr
    · exact hno a again stage k ho hk

/-- The invariant after a fork. -/
theorem Inv.forkStep {proc : Proc} (h : Inv c ls s) (hf : ForkStep s s' l proc) :
    Inv c (ls ++ [l]) s' := by
  have hrec : l.record = none := by simp [Label.record, hf.act_eq]
  have hreg : l.region = none := by simp [Label.region, hf.act_eq]
  have hworld : world (ls ++ [l]) s' = world ls s := by
    rw [world_snoc ls l s s']
    simp [World.next, hrec, hreg, hf.mem_eq, world]
  have hnew : ∀ k, (world ls s).creator k ≠ some s.procs.length := fun k hk ↦
    absurd (h.creators k _ hk) (Nat.lt_irrefl _)
  have hchild : ∀ j, SlotInv c (world ls s) (s.procs.length, j) (afterFork proc l.id j) ∧
      ∀ k, ¬Owns (world ls s) (s.procs.length, j) (afterFork proc l.id j) k := fun j ↦
    afterFork_slotInv (h.slots (l.pid, j) (proc j) (by simp [State.row, hf.proc_eq])) hnew
  refine ⟨?_, ?_, ?_, ?_⟩
  · intro t sl hrow
    rw [hf.rows] at hrow
    rw [hworld]
    split at hrow
    · rename_i ht
      obtain ⟨p, j⟩ := t
      obtain rfl : p = s.procs.length := ht
      cases hrow
      exact (hchild j).1
    · exact h.slots t sl hrow
  · intro t t' sl sl' k hrow hrow' hown hown'
    rw [hworld] at hown hown'
    have hold : ∀ t sl, s'.row t = some sl → Owns (world ls s) t sl k → s.row t = some sl := by
      rintro ⟨p, j⟩ sl hrow hown
      rw [hf.rows] at hrow
      split at hrow
      · rename_i ht
        obtain rfl : p = s.procs.length := ht
        cases hrow
        exact absurd hown ((hchild j).2 k)
      · exact hrow
    exact h.excl t t' sl sl' k (hold t sl hrow hown) (hold t' sl' hrow' hown') hown hown'
  · intro k p hp
    rw [hworld] at hp
    rw [hf.length_eq]
    exact Nat.lt_succ_of_lt (h.creators k p hp)
  · rw [hworld, records_snoc, hrec]
    simpa using h.log

/-- **The invariant of the log** is kept by every step that hands no new thread a
cursor with room in a chunk of another process. -/
theorem inv_step (h : Inv c ls s) (hstart : StartsAtEnd s l) (hstep : step c s l = some s') :
    Inv c (ls ++ [l]) s' := by
  rcases step_cases hstep with ⟨slot, slot', hs⟩ | ⟨proc, hf⟩
  · exact h.rowStep hs hstart
  · exact h.forkStep hf

/-- And so it holds after every run of such steps. -/
theorem inv_run {n : Nat} (hrun : Lib.runs (step c) (init n) ls = some s)
    (hmeet : Lib.StepsMeet (step c) StartsAtEnd (init n) ls) : Inv c ls s :=
  Lib.runs_induction (Inv c) (inv_init c n) (fun _ _ _ _ ↦ inv_step) hrun hmeet

end Fspy.Shm
