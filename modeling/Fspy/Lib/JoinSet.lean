import Mathlib.Data.List.Range
import Mathlib.Data.List.Perm.Subperm
import Fspy.Lib.Transition

/-!
# Sets of tasks

Tasks are spawned into a set and take turns there, in any order; `turn i` is what a turn
does to the task that was spawned as number `i`.  A task that has ended is taken out by
`join`.  Members do not meet: each is where its own turns have brought it
(`Tracked.member`), and once the set is empty, what was taken out is what the tasks ended
with, in some order (`Tracked.joined_perm`).
-/

namespace Fspy.Lib

/-- The tasks that were ever spawned, and those taken out. -/
structure JoinSet (τ : Type*) where
  members : List τ
  joined : List Nat
deriving DecidableEq

namespace JoinSet

inductive Event (τ ℓ : Type*) where
  | spawn (t : τ)
  | turn (i : Nat) (l : ℓ)
  | join (i : Nat)

section

variable {τ ℓ ρ : Type*} (turn : Nat → τ → ℓ → Option τ) (result : τ → Option ρ)

def step (js : JoinSet τ) : Event τ ℓ → Option (JoinSet τ)
  | .spawn t => some { js with members := js.members ++ [t] }
  | .turn i l => do
      let t ← js.members[i]?
      let t' ← turn i t l
      return { js with members := js.members.set i t' }
  | .join i =>
      if i ∉ js.joined ∧ ((js.members[i]?).bind result).isSome then
        some { js with joined := js.joined ++ [i] }
      else none

/-- What the tasks taken out ended with, in the order they were taken out. -/
def results (js : JoinSet τ) : List ρ := js.joined.filterMap fun i ↦ (js.members[i]?).bind result

/-- A task takes no turn after its end. -/
def Stops : Prop := ∀ i t l, (result t).isSome → turn i t l = none

end

def empty {τ : Type*} : JoinSet τ := ⟨[], []⟩

/-- Every task was taken out. -/
def Emptied {τ : Type*} (js : JoinSet τ) : Prop := js.joined.length = js.members.length

variable {τ ℓ ρ : Type*} {turn : Nat → τ → ℓ → Option τ} {result : τ → Option ρ}
  {js js' : JoinSet τ} {event : Event τ ℓ} {events : List (Event τ ℓ)}

/-- The tasks as they were spawned. -/
def spawned (events : List (Event τ ℓ)) : List τ :=
  events.filterMap fun
    | .spawn t => some t
    | _ => none

/-- The turns of one task. -/
def turnsOf (i : Nat) (events : List (Event τ ℓ)) : List ℓ :=
  events.filterMap fun
    | .turn j l => if j = i then some l else none
    | _ => none

theorem step_turn {i : Nat} {l : ℓ} : js.step turn result (.turn i l) = some js' ↔
    ∃ t t', js.members[i]? = some t ∧ turn i t l = some t' ∧
      js' = { js with members := js.members.set i t' } := by
  simp only [step, bind, pure, Option.bind_eq_some_iff, Option.some.injEq]
  constructor
  · rintro ⟨t, ht, t', ht', rfl⟩
    exact ⟨t, t', ht, ht', rfl⟩
  · rintro ⟨t, t', ht, ht', rfl⟩
    exact ⟨t, ht, t', ht', rfl⟩

theorem step_join {i : Nat} : js.step turn result (.join i) = some js' ↔
    (i ∉ js.joined ∧ ((js.members[i]?).bind result).isSome) ∧
      js' = { js with joined := js.joined ++ [i] } := by
  rw [step, Option.ite_none_right_eq_some, Option.some.injEq]
  exact and_congr_right fun _ ↦ eq_comm

theorem turnsOf_snoc (i : Nat) (events : List (Event τ ℓ)) (event : Event τ ℓ) :
    turnsOf i (events ++ [event]) = turnsOf i events ++ turnsOf i [event] :=
  List.filterMap_append

theorem spawned_snoc (events : List (Event τ ℓ)) (event : Event τ ℓ) :
    spawned (events ++ [event]) = spawned events ++ spawned [event] :=
  List.filterMap_append

/-- What holds of a set after some events. -/
structure Tracked (turn : Nat → τ → ℓ → Option τ) (result : τ → Option ρ)
    (events : List (Event τ ℓ)) (js : JoinSet τ) : Prop where
  length_eq : (spawned events).length = js.members.length
  /-- A member is where its own turns have brought it. -/
  member : ∀ (i : Nat) (t₀ t : τ), (spawned events)[i]? = some t₀ → js.members[i]? = some t →
    runs (turn i) t₀ (turnsOf i events) = some t
  turned : ∀ i, js.members.length ≤ i → turnsOf i events = []
  nodup : js.joined.Nodup
  ended : ∀ i ∈ js.joined, ((js.members[i]?).bind result).isSome

theorem tracked_empty : (empty : JoinSet τ).Tracked turn result [] where
  length_eq := rfl
  member _ _ _ h _ := nomatch h
  turned _ _ := rfl
  nodup := List.nodup_nil
  ended _ h := nomatch h

theorem Tracked.lt_of_mem_joined (h : js.Tracked turn result events) {i : Nat}
    (hi : i ∈ js.joined) : i < js.members.length := by
  by_contra hge
  have hended := h.ended i hi
  rw [List.getElem?_eq_none (Nat.le_of_not_lt hge)] at hended
  cases hended

theorem tracked_spawn {t : τ} (h : js.Tracked turn result events) :
    ({ js with members := js.members ++ [t] } : JoinSet τ).Tracked turn result
      (events ++ [.spawn t]) := by
  have hturns : ∀ i, turnsOf i (events ++ [.spawn t]) = turnsOf i events := fun i ↦ by
    rw [turnsOf_snoc]
    exact List.append_nil _
  have hspawned : spawned (events ++ [.spawn t]) = spawned events ++ [t] := spawned_snoc ..
  refine ⟨?_, ?_, ?_, h.nodup, ?_⟩
  · rw [hspawned, List.length_append, List.length_append, h.length_eq]
  · intro i t₀ t' ht₀ ht'
    rw [hturns]
    rw [hspawned] at ht₀
    rcases Nat.lt_trichotomy i js.members.length with hlt | heq | hgt
    · rw [List.getElem?_append_left (h.length_eq ▸ hlt)] at ht₀
      rw [List.getElem?_append_left hlt] at ht'
      exact h.member i t₀ t' ht₀ ht'
    · rw [heq, ← h.length_eq, List.getElem?_concat_length] at ht₀
      rw [heq, List.getElem?_concat_length] at ht'
      rw [h.turned i heq.ge, ← Option.some.inj ht₀, ← Option.some.inj ht']
      rfl
    · rw [List.getElem?_eq_none (by rw [List.length_append]; exact hgt)] at ht'
      cases ht'
  · intro i hi
    rw [List.length_append] at hi
    rw [hturns, h.turned i (Nat.le_of_add_right_le hi)]
  · intro i hi
    rw [List.getElem?_append_left (h.lt_of_mem_joined hi)]
    exact h.ended i hi

theorem tracked_turn {i : Nat} {l : ℓ} {t t' : τ} (hstops : Stops turn result)
    (h : js.Tracked turn result events) (ht : js.members[i]? = some t)
    (hturn : turn i t l = some t') :
    ({ js with members := js.members.set i t' } : JoinSet τ).Tracked turn result
      (events ++ [.turn i l]) := by
  have hlt : i < js.members.length := (List.getElem?_eq_some_iff.mp ht).1
  have hspawned : spawned (events ++ [.turn i l]) = spawned events := by
    rw [spawned_snoc]
    exact List.append_nil _
  have hself : turnsOf i (events ++ [.turn i l]) = turnsOf i events ++ [l] := by
    simp [turnsOf]
  have hother : ∀ j, i ≠ j → turnsOf j (events ++ [.turn i l]) = turnsOf j events := fun j hj ↦ by
    simp [turnsOf, hj]
  refine ⟨?_, ?_, ?_, h.nodup, ?_⟩
  · rw [hspawned, List.length_set, h.length_eq]
  · intro j t₀ t'' ht₀ ht''
    rw [hspawned] at ht₀
    by_cases hij : i = j
    · subst hij
      rw [List.getElem?_set_self hlt] at ht''
      obtain rfl := Option.some.inj ht''
      rw [hself]
      exact runs_append.mpr ⟨t, h.member i t₀ t ht₀ ht, by simp [runs, hturn]⟩
    · rw [List.getElem?_set_ne hij] at ht''
      rw [hother j hij]
      exact h.member j t₀ t'' ht₀ ht''
  · intro j hj
    rw [List.length_set] at hj
    rw [hother j (Nat.ne_of_lt (Nat.lt_of_lt_of_le hlt hj)), h.turned j hj]
  · intro j hj
    have hij : i ≠ j := by
      rintro rfl
      have hended := h.ended i hj
      rw [ht, Option.bind_some] at hended
      cases (hstops i t l hended).symm.trans hturn
    dsimp only
    rw [List.getElem?_set_ne hij]
    exact h.ended j hj

theorem tracked_join {i : Nat} (h : js.Tracked turn result events) (hi : i ∉ js.joined)
    (hended : ((js.members[i]?).bind result).isSome) :
    ({ js with joined := js.joined ++ [i] } : JoinSet τ).Tracked turn result
      (events ++ [.join i]) := by
  have hturns : ∀ j, turnsOf j (events ++ [.join i]) = turnsOf j events := fun j ↦ by
    rw [turnsOf_snoc]
    exact List.append_nil _
  have hspawned : spawned (events ++ [.join i]) = spawned events := by
    rw [spawned_snoc]
    exact List.append_nil _
  refine ⟨by rw [hspawned, h.length_eq], ?_, fun j hj ↦ by rw [hturns, h.turned j hj], ?_, ?_⟩
  · intro j t₀ t ht₀ ht
    rw [hturns]
    rw [hspawned] at ht₀
    exact h.member j t₀ t ht₀ ht
  · exact (List.perm_append_singleton i js.joined).nodup_iff.mpr (List.nodup_cons.mpr ⟨hi, h.nodup⟩)
  · intro j hj
    rcases List.mem_append.mp hj with hj | hj
    · exact h.ended j hj
    · rw [List.mem_singleton.mp hj]
      exact hended

/-- Every event keeps the members apart. -/
theorem tracked_step (hstops : Stops turn result) (h : js.Tracked turn result events)
    (hstep : js.step turn result event = some js') :
    js'.Tracked turn result (events ++ [event]) := by
  cases event with
  | spawn t =>
      cases hstep
      exact tracked_spawn h
  | turn i l =>
      obtain ⟨t, t', ht, hturn, rfl⟩ := step_turn.mp hstep
      exact tracked_turn hstops h ht hturn
  | join i =>
      obtain ⟨⟨hi, hended⟩, rfl⟩ := step_join.mp hstep
      exact tracked_join h hi hended

/-! ## Taking everything out -/

/-- The tasks taken out keep what they ended with. -/
theorem Tracked.results_turn {i : Nat} {l : ℓ} (hstops : Stops turn result)
    (h : js.Tracked turn result events) (hstep : js.step turn result (.turn i l) = some js') :
    js'.results result = js.results result := by
  obtain ⟨t, t', ht, hturn, rfl⟩ := step_turn.mp hstep
  refine List.filterMap_congr fun j hj ↦ ?_
  have hij : i ≠ j := by
    rintro rfl
    have hended := h.ended i hj
    rw [ht, Option.bind_some] at hended
    cases (hstops i t l hended).symm.trans hturn
  rw [List.getElem?_set_ne hij]

theorem results_join {i : Nat} {r : ρ} (hr : (js.members[i]?).bind result = some r)
    (hstep : js.step turn result (.join i) = some js') :
    js'.results result = js.results result ++ [r] ∧ js'.members = js.members := by
  obtain ⟨-, rfl⟩ := step_join.mp hstep
  have hlast : [i].filterMap (fun j ↦ (js.members[j]?).bind result) = [r] :=
    List.filterMap_cons_some hr
  exact ⟨List.filterMap_append.trans (congrArg _ hlast), rfl⟩

theorem filterMap_range (f : τ → Option ρ) (ts : List τ) :
    (List.range ts.length).filterMap (fun i ↦ (ts[i]?).bind f) = ts.filterMap f := by
  induction ts using List.reverseRecOn with
  | nil => rfl
  | append_singleton ts t ih =>
      have hbefore : (List.range ts.length).filterMap (fun i ↦ ((ts ++ [t])[i]?).bind f) =
          ts.filterMap f := by
        rw [← ih]
        refine List.filterMap_congr fun i hi ↦ ?_
        rw [List.getElem?_append_left (List.mem_range.mp hi)]
      have hlast : [ts.length].filterMap (fun i ↦ ((ts ++ [t])[i]?).bind f) = [t].filterMap f := by
        rw [List.filterMap_cons, List.filterMap_cons, List.getElem?_concat_length]
        rfl
      rw [List.length_append, List.length_singleton, List.range_succ, List.filterMap_append,
        List.filterMap_append, hbefore, hlast]

theorem Tracked.joined_perm_range (h : js.Tracked turn result events) (hempty : js.Emptied) :
    js.joined.Perm (List.range js.members.length) := by
  have hsub : js.joined.Subperm (List.range js.members.length) :=
    List.subperm_of_subset h.nodup fun i hi ↦ List.mem_range.mpr (h.lt_of_mem_joined hi)
  refine hsub.perm_of_length_le ?_
  rw [List.length_range]
  exact hempty.ge

theorem Tracked.joined_le (h : js.Tracked turn result events) :
    js.joined.length ≤ js.members.length := by
  have hsub : js.joined.Subperm (List.range js.members.length) :=
    List.subperm_of_subset h.nodup fun i hi ↦ List.mem_range.mpr (h.lt_of_mem_joined hi)
  exact hsub.length_le.trans_eq List.length_range

/-- Some task is left in a set that is not emptied. -/
theorem Tracked.exists_notMem_joined (h : js.Tracked turn result events) (hnot : ¬js.Emptied) :
    ∃ i < js.members.length, i ∉ js.joined := by
  by_contra hall
  push Not at hall
  have hsub : (List.range js.members.length).Subperm js.joined :=
    List.subperm_of_subset List.nodup_range fun i hi ↦ hall i (List.mem_range.mp hi)
  exact hnot (Nat.le_antisymm h.joined_le (List.length_range.symm.trans_le hsub.length_le))

/-- **What was taken out of an emptied set** is what its members ended with, in some
order. -/
theorem Tracked.joined_perm (h : js.Tracked turn result events) (hempty : js.Emptied) :
    (js.results result).Perm (js.members.filterMap result) := by
  rw [← filterMap_range]
  exact (h.joined_perm_range hempty).filterMap _

theorem Tracked.all_ended (h : js.Tracked turn result events) (hempty : js.Emptied) :
    ∀ t ∈ js.members, (result t).isSome := by
  intro t ht
  obtain ⟨i, hi, rfl⟩ := List.getElem_of_mem ht
  have hmem : i ∈ js.joined := (h.joined_perm_range hempty).mem_iff.mpr (List.mem_range.mpr hi)
  have hended := h.ended i hmem
  rwa [List.getElem?_eq_getElem hi, Option.bind_some] at hended

end JoinSet

end Fspy.Lib
