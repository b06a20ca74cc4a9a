import Mathlib.Data.List.Basic

/-!
# Labelled transition systems given by a partial step function

A system is a function `step : σ → ℓ → Option σ`: in the state `s` the label `l`
is either impossible (`none`) or leads to exactly one state.  All the
nondeterminism of a concurrent program sits in the choice of labels, so a run is
a *list of labels*, and the list doubles as the trace that properties of the run
speak about.

`runs_induction` is the one induction this file is for: a predicate on (trace so
far, state) that holds at the start and survives each admitted step holds at the
end of every run all of whose steps are admitted.
-/

namespace Fspy.Lib

variable {σ ℓ : Type*}

/-- The state reached by firing the labels one after the other, if all of them fire. -/
def runs (step : σ → ℓ → Option σ) : σ → List ℓ → Option σ
  | s, [] => some s
  | s, l :: ls => (step s l).bind fun s' ↦ runs step s' ls

/-- Every step of the run is admitted by `C`, which sees the state before the step. -/
def StepsMeet (step : σ → ℓ → Option σ) (C : σ → ℓ → Prop) : σ → List ℓ → Prop
  | _, [] => True
  | s, l :: ls => C s l ∧ ∀ s', step s l = some s' → StepsMeet step C s' ls

variable {step : σ → ℓ → Option σ} {C : σ → ℓ → Prop} {s s' s'' : σ} {l : ℓ} {ls ls' : List ℓ}

@[simp] theorem runs_nil : runs step s [] = some s := rfl

theorem runs_cons : runs step s (l :: ls) = some s'' ↔
    ∃ s', step s l = some s' ∧ runs step s' ls = some s'' := by
  simp [runs, Option.bind_eq_some_iff]

theorem runs_append : runs step s (ls ++ ls') = some s'' ↔
    ∃ s', runs step s ls = some s' ∧ runs step s' ls' = some s'' := by
  induction ls generalizing s with
  | nil => simp
  | cons l ls ih =>
      simp only [List.cons_append, runs_cons, ih]
      constructor
      · rintro ⟨s₁, h₁, s₂, h₂, h₃⟩
        exact ⟨s₂, ⟨s₁, h₁, h₂⟩, h₃⟩
      · rintro ⟨s₂, ⟨s₁, h₁, h₂⟩, h₃⟩
        exact ⟨s₁, h₁, s₂, h₂, h₃⟩

/-- A condition that holds of every state and label is met by every run. -/
theorem StepsMeet.of_forall (h : ∀ s, ∀ l ∈ ls, C s l) : StepsMeet step C s ls := by
  induction ls generalizing s with
  | nil => trivial
  | cons l ls ih =>
      exact ⟨h s l List.mem_cons_self,
        fun s' _ ↦ ih fun s l hl ↦ h s l (List.mem_cons_of_mem _ hl)⟩

theorem stepsMeet_cons : StepsMeet step C s (l :: ls) ↔
    C s l ∧ ∀ s' ∈ step s l, StepsMeet step C s' ls := Iff.rfl

instance StepsMeet.decidable [∀ s l, Decidable (C s l)] :
    ∀ s ls, Decidable (StepsMeet step C s ls)
  | _, [] => .isTrue trivial
  | s, l :: ls =>
      have := fun s' ↦ StepsMeet.decidable s' ls
      decidable_of_iff (C s l ∧ ∀ s' ∈ step s l, StepsMeet step C s' ls) stepsMeet_cons.symm

/-- **Induction over a run**, with the trace in view. -/
theorem runs_induction {s₀ : σ} (P : List ℓ → σ → Prop) (hinit : P [] s₀)
    (hstep : ∀ ls s l s', P ls s → C s l → step s l = some s' → P (ls ++ [l]) s')
    (hrun : runs step s₀ ls = some s) (hmeet : StepsMeet step C s₀ ls) : P ls s := by
  suffices h : ∀ (past : List ℓ) (t : σ), P past t → StepsMeet step C t ls →
      runs step t ls = some s → P (past ++ ls) s from h [] s₀ hinit hmeet hrun
  clear hrun hmeet hinit
  induction ls with
  | nil =>
      intro past t hP _ h
      obtain rfl : t = s := Option.some.inj h
      simpa using hP
  | cons l ls ih =>
      intro past t hP hm h
      obtain ⟨t', ht, h'⟩ := runs_cons.mp h
      have hnext := ih (past ++ [l]) t' (hstep past t l t' hP hm.1 ht) (hm.2 t' ht) h'
      simpa using hnext

/-- What every step preserves, whatever the run so far. -/
theorem runs_invariant {s₀ : σ} (P : σ → Prop) (hinit : P s₀)
    (hstep : ∀ s l s', P s → step s l = some s' → P s')
    (hrun : runs step s₀ ls = some s) : P s := by
  have hmeet : StepsMeet step (fun _ _ ↦ True) s₀ ls := .of_forall fun _ _ _ ↦ trivial
  refine runs_induction (fun _ ↦ P) hinit ?_ hrun hmeet
  intro _ s l s' h _ hnext
  exact hstep s l s' h hnext

/-- **Progress by a variant**: if from every good state an admitted label leads to a goal, or to
a good state where the variant is smaller, then admitted labels lead to a goal. -/
theorem runs_of_variant {Good Goal : σ → Prop} {Own : ℓ → Prop} (variant : σ → Nat)
    (hstep : ∀ s, Good s → ∃ l s', Own l ∧ step s l = some s' ∧
      (Goal s' ∨ Good s' ∧ variant s' < variant s))
    (h : Good s) : ∃ ls s', (∀ l ∈ ls, Own l) ∧ runs step s ls = some s' ∧ Goal s' := by
  induction hn : variant s using Nat.strongRecOn generalizing s with
  | ind n ih =>
      obtain ⟨l, s₁, hl, hs₁, hgoal | ⟨hgood, hless⟩⟩ := hstep s h
      · exact ⟨[l], s₁, List.forall_mem_singleton.mpr hl, runs_cons.mpr ⟨s₁, hs₁, rfl⟩, hgoal⟩
      · obtain ⟨ls, s₂, hls, hruns, hgoal⟩ := ih _ (hn ▸ hless) hgood rfl
        exact ⟨l :: ls, s₂, List.forall_mem_cons.mpr ⟨hl, hls⟩,
          runs_cons.mpr ⟨s₁, hs₁, hruns⟩, hgoal⟩

/-- **Simulation**: where every admitted step from related states is answered by an admitted
step of another system, so is every run. -/
theorem runs_simulation {τ κ : Type*} {step' : τ → κ → Option τ} {R : σ → τ → Prop}
    {Own : ℓ → Prop} {Own' : κ → Prop}
    (hstep : ∀ s t l s', R s t → Own l → step s l = some s' →
      ∃ m t', Own' m ∧ step' t m = some t' ∧ R s' t')
    {t : τ} (h : R s t) (hls : ∀ l ∈ ls, Own l) (hrun : runs step s ls = some s') :
    ∃ ms t', (∀ m ∈ ms, Own' m) ∧ runs step' t ms = some t' ∧ R s' t' := by
  induction ls generalizing s t with
  | nil =>
      cases hrun
      exact ⟨[], t, List.forall_mem_nil _, rfl, h⟩
  | cons l ls ih =>
      obtain ⟨s₁, hs₁, hrun⟩ := runs_cons.mp hrun
      obtain ⟨hl, hls⟩ := List.forall_mem_cons.mp hls
      obtain ⟨m, t₁, hm, ht₁, h₁⟩ := hstep s t l s₁ h hl hs₁
      obtain ⟨ms, t', hms, hruns, h'⟩ := ih h₁ hls hrun
      exact ⟨m :: ms, t', List.forall_mem_cons.mpr ⟨hm, hms⟩, runs_cons.mpr ⟨t₁, ht₁, hruns⟩, h'⟩

section Processes

variable {P : σ → Prop} {procs : List σ} {proc proc' : σ}

/-- What every process satisfies, once one of them has moved. -/
theorem forall_mem_set {n : Nat} (h : ∀ p ∈ procs, P p) (hproc : P proc) :
    ∀ p ∈ procs.set n proc, P p := by
  intro p hp
  rcases List.mem_or_eq_of_mem_set hp with hp | rfl
  · exact h p hp
  · exact hproc

/-- What every process satisfies, once there is a new one. -/
theorem forall_mem_concat (h : ∀ p ∈ procs, P p) (hproc : P proc) :
    ∀ p ∈ procs ++ [proc], P p := by
  intro p hp
  rcases List.mem_append.mp hp with hp | hp
  · exact h p hp
  · rw [List.mem_singleton.mp hp]
    exact hproc

/-- What is the same of a process that has moved. -/
theorem map_set_of_eq {β : Type*} {f : σ → β} {n : Nat} (hn : procs[n]? = some proc)
    (hf : f proc' = f proc) : (procs.set n proc').map f = procs.map f := by
  apply List.ext_getElem?
  intro k
  rw [List.getElem?_map, List.getElem?_map, List.getElem?_set]
  split
  · rename_i hk
    subst hk
    obtain ⟨hlt, -⟩ := List.getElem?_eq_some_iff.mp hn
    rw [if_pos hlt, hn, Option.map_some, Option.map_some, hf]
  · rfl

/-- What the processes have put together, once one of them has added to it. -/
theorem perm_flatMap_set {β : Type*} {f : σ → List β} {added : List β} {n : Nat}
    (hn : procs[n]? = some proc) (hf : f proc' = f proc ++ added) :
    ((procs.set n proc').flatMap f).Perm (procs.flatMap f ++ added) := by
  induction procs generalizing n with
  | nil => cases hn
  | cons other procs ih =>
      cases n with
      | zero =>
          cases hn
          rw [List.set_cons_zero, List.flatMap_cons, List.flatMap_cons, hf, List.append_assoc,
            List.append_assoc]
          exact List.perm_append_comm.append_left _
      | succ n =>
          rw [List.set_cons_succ, List.flatMap_cons, List.flatMap_cons, List.append_assoc]
          exact (ih hn).append_left _

end Processes

end Fspy.Lib
