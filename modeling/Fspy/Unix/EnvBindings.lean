import Fspy.Unix.Resolve

/-!
# Environments with repeated names

An environment is a list, and a name may be bound in it more than once, or without a
value.  Programs do not agree on which binding counts: one reads the first, another
the last, and one may skip an entry without `=` where another stops at it.  The module
says for which environments `ensure_env` settles the name for all of them.
-/

namespace Fspy.Unix

/-- `ensure_env` on the list it is handed: what it returns and what it leaves. -/
def ensure_env_mut (envs : Envs) (name value : Bytes) : Except Errno Unit × Envs :=
  match existingValue envs name with
  | some existing_value =>
      (if existing_value = value then .ok () else .error .EINVAL, envs)
  | none => (.ok (), envs ++ [(name, some value)])

/-- The list that is left is the one the model hands on. -/
theorem ensure_env_eq_mut (envs : Envs) (name value : Bytes) :
    ensure_env envs name value =
      (ensure_env_mut envs name value).1.map fun _ ↦ (ensure_env_mut envs name value).2 := by
  rw [ensure_env, ensure_env_mut]
  cases existingValue envs name with
  | none => rfl
  | some v => by_cases h : v = value <;> simp [h, Except.map]

/-- What the entries of a name hold, in order. -/
def boundTo (envs : Envs) (name : Bytes) : List (Option Bytes) :=
  (envs.filter fun entry ↦ entry.1 == name).map Prod.snd

/-- The values of a name, in order. -/
def boundValues (envs : Envs) (name : Bytes) : List Bytes := (boundTo envs name).filterMap id

variable {envs : Envs} {name value : Bytes} {counts : Option Bytes → Bool}

theorem mem_boundValues {v : Bytes} : v ∈ boundValues envs name ↔ some v ∈ boundTo envs name := by
  simp [boundValues]

theorem existingValue_eq_head (envs : Envs) (name : Bytes) :
    existingValue envs name = (boundValues envs name).head? := by
  rw [boundValues, boundTo, List.head?_filterMap]
  induction envs with
  | nil => rfl
  | cons entry envs ih =>
      obtain ⟨n, v⟩ := entry
      rw [existingValue, List.findSome?_cons, List.filter_cons]
      by_cases h : n = name
      · subst h
        simp only [if_true, beq_self_eq_true, List.map_cons, List.findSome?_cons, id_eq]
        cases v with
        | some v => rfl
        | none => exact ih
      · simp only [h, if_false, beq_iff_eq]
        exact ih

theorem boundTo_append_self :
    boundTo (envs ++ [(name, some value)]) name = boundTo envs name ++ [some value] := by
  simp [boundTo]

/-- What `ensure_env` does, by the first value of the name. -/
theorem ensure_env_mut_cases (envs : Envs) (name value : Bytes) :
    (boundValues envs name = [] ∧
        ensure_env_mut envs name value = (.ok (), envs ++ [(name, some value)])) ∨
      ((boundValues envs name).head? = some value ∧
        ensure_env_mut envs name value = (.ok (), envs)) ∨
      ∃ v, (boundValues envs name).head? = some v ∧ v ≠ value ∧
        ensure_env_mut envs name value = (.error .EINVAL, envs) := by
  rw [ensure_env_mut, existingValue_eq_head]
  cases h : (boundValues envs name).head? with
  | none => exact .inl ⟨List.head?_eq_none_iff.mp h, rfl⟩
  | some v =>
      by_cases hv : v = value
      · exact .inr (.inl ⟨congrArg some hv, by simp [hv]⟩)
      · exact .inr (.inr ⟨v, rfl, hv, by simp [hv]⟩)

/-! ## Settling a name for every reader -/

/-- The bindings of a name that a reader counts. -/
def seenBy (counts : Option Bytes → Bool) (envs : Envs) (name : Bytes) : List (Option Bytes) :=
  (boundTo envs name).filter counts

/-- `ensure_env` settles the name for the readers that count these entries, whether they
take the first or the last, and refuses exactly where a different value is bound. -/
structure Decisive (counts : Option Bytes → Bool) (envs : Envs) (name value : Bytes) :
    Prop where
  first : ∀ envs', ensure_env_mut envs name value = (.ok (), envs') →
    (seenBy counts envs' name).head? = some (some value)
  last : ∀ envs', ensure_env_mut envs name value = (.ok (), envs') →
    (seenBy counts envs' name).getLast? = some (some value)
  /-- The entries of other names. -/
  others : ∀ envs', ensure_env_mut envs name value = (.ok (), envs') →
    envs'.filter (fun entry ↦ entry.1 != name) = envs.filter fun entry ↦ entry.1 != name
  unchanged : ∀ e envs', ensure_env_mut envs name value = (.error e, envs') → envs' = envs
  refuses : (∃ e envs', ensure_env_mut envs name value = (.error e, envs')) ↔
    ∃ v, some v ∈ boundTo envs name ∧ v ≠ value

/-- The first value decides for the others. -/
def FirstDecides (envs : Envs) (name value : Bytes) : Prop :=
  (boundValues envs name).head? = some value → ∀ v ∈ boundValues envs name, v = value

/-- Unless another value is bound, no entry without a value comes first or last. -/
def ValuedEnds (envs : Envs) (name value : Bytes) : Prop :=
  (∀ v ∈ boundValues envs name, v = value) →
    (boundTo envs name).head? ≠ some none ∧ (boundTo envs name).getLast? ≠ some none

theorem refuses_iff : ((∃ e envs', ensure_env_mut envs name value = (.error e, envs')) ↔
    ∃ v, some v ∈ boundTo envs name ∧ v ≠ value) ↔ FirstDecides envs name value := by
  simp only [← mem_boundValues, FirstDecides]
  rcases ensure_env_mut_cases envs name value with
    ⟨hnil, hrun⟩ | ⟨hhead, hrun⟩ | ⟨v, hhead, hv, hrun⟩
  · simp [hrun, hnil]
  · simp only [hrun, hhead, true_implies, Prod.mk.injEq, reduceCtorEq, false_and, exists_false,
      false_iff, not_exists, not_and, not_not]
  · have hmem : v ∈ boundValues envs name := List.mem_of_head? hhead
    simp only [hrun, hhead, Option.some.injEq, hv, false_implies, iff_true]
    exact ⟨fun _ ↦ ⟨v, hmem, hv⟩, fun _ ↦ ⟨_, _, rfl⟩⟩

/-- What does not depend on the reader. -/
theorem others_unchanged (envs' : Envs) (r : Except Errno Unit)
    (h : ensure_env_mut envs name value = (r, envs')) :
    envs'.filter (fun entry ↦ entry.1 != name) = envs.filter (fun entry ↦ entry.1 != name) ∧
      (r ≠ .ok () → envs' = envs) := by
  rcases ensure_env_mut_cases envs name value with
    ⟨-, hrun⟩ | ⟨-, hrun⟩ | ⟨v, -, -, hrun⟩
  · rw [hrun] at h
    cases h
    exact ⟨by simp, fun h ↦ absurd rfl h⟩
  · rw [hrun] at h
    cases h
    exact ⟨rfl, fun _ ↦ rfl⟩
  · rw [hrun] at h
    cases h
    exact ⟨rfl, fun _ ↦ rfl⟩

/-- `ensure_env` is decisive where the first value decides and the counted entries of what
it leaves start and end with the value. -/
theorem decisive_iff_ends : Decisive counts envs name value ↔
    FirstDecides envs name value ∧ ∀ envs', ensure_env_mut envs name value = (.ok (), envs') →
      (seenBy counts envs' name).head? = some (some value) ∧
        (seenBy counts envs' name).getLast? = some (some value) := by
  constructor
  · intro h
    exact ⟨refuses_iff.mp h.refuses, fun envs' hrun ↦ ⟨h.first envs' hrun, h.last envs' hrun⟩⟩
  · rintro ⟨hfirst, hends⟩
    exact ⟨fun envs' hrun ↦ (hends envs' hrun).1, fun envs' hrun ↦ (hends envs' hrun).2,
      fun envs' hrun ↦ (others_unchanged envs' _ hrun).1,
      fun e envs' hrun ↦ (others_unchanged envs' _ hrun).2 (by simp), refuses_iff.mpr hfirst⟩

theorem seenBy_isSome (envs : Envs) (name : Bytes) :
    seenBy Option.isSome envs name = (boundValues envs name).map some := by
  rw [seenBy, boundValues]
  induction boundTo envs name with
  | nil => rfl
  | cons v others ih => cases v <;> simpa using ih

theorem seenBy_true (envs : Envs) (name : Bytes) :
    seenBy (fun _ ↦ true) envs name = boundTo envs name := by
  simp [seenBy]

/-- A list with one element over and over starts and ends with it. -/
theorem ends_of_forall {α : Type} {l : List α} {a : α} (hne : l ≠ []) (h : ∀ b ∈ l, b = a) :
    l.head? = some a ∧ l.getLast? = some a := by
  rw [List.head?_eq_some_head hne, List.getLast?_eq_some_getLast hne,
    h _ (List.head_mem hne), h _ (List.getLast_mem hne)]
  exact ⟨rfl, rfl⟩

/-- The values of the name that `ensure_env` leaves. -/
theorem boundValues_of_ok {envs' : Envs} (hfirst : FirstDecides envs name value)
    (hrun : ensure_env_mut envs name value = (.ok (), envs')) :
    boundValues envs' name ≠ [] ∧ ∀ v ∈ boundValues envs' name, v = value := by
  rcases ensure_env_mut_cases envs name value with
    ⟨hnil, hrun'⟩ | ⟨hhead, hrun'⟩ | ⟨v, -, -, hrun'⟩
  · rw [hrun'] at hrun
    cases hrun
    have hvalues : boundValues (envs ++ [(name, some value)]) name = [value] := by
      rw [boundValues, boundTo_append_self, List.filterMap_append, ← boundValues, hnil]
      rfl
    rw [hvalues]
    exact ⟨List.cons_ne_nil _ _, fun v hv ↦ List.mem_singleton.mp hv⟩
  · rw [hrun'] at hrun
    cases hrun
    refine ⟨?_, hfirst hhead⟩
    intro hnil
    rw [hnil] at hhead
    cases hhead
  · rw [hrun'] at hrun
    cases hrun

/-- Where one value is bound, an entry that comes first and holds a value holds it. -/
theorem eq_some_of_ne_none {o : Option (Option Bytes)}
    (hall : ∀ v ∈ boundValues envs name, v = value)
    (hmem : ∀ b ∈ o, b ∈ boundTo envs name) (hsome : o ≠ none) :
    o = some (some value) ↔ o ≠ some none := by
  cases o with
  | none => exact absurd rfl hsome
  | some b =>
      cases b with
      | none => simp
      | some v =>
          have := hall v (mem_boundValues.mpr (hmem _ rfl))
          simp [this]

/-- For readers that count every entry, what `ensure_env` leaves starts and ends with the
value exactly if no entry without a value is in the way. -/
theorem boundTo_ends_iff (hfirst : FirstDecides envs name value) :
    (∀ envs', ensure_env_mut envs name value = (.ok (), envs') →
      (boundTo envs' name).head? = some (some value) ∧
        (boundTo envs' name).getLast? = some (some value)) ↔ ValuedEnds envs name value := by
  rcases ensure_env_mut_cases envs name value with
    ⟨hnil, hrun⟩ | ⟨hhead, hrun⟩ | ⟨v, hhead, hv, hrun⟩
  · -- the entries of the name that are there hold no value
    have hnone : ∀ o ∈ boundTo envs name, o = none := by
      intro o ho
      cases o with
      | none => rfl
      | some v =>
          have := mem_boundValues.mpr ho
          rw [hnil] at this
          cases this
    rw [hrun, ValuedEnds, hnil]
    simp only [Prod.mk.injEq, true_and, forall_eq', boundTo_append_self, List.not_mem_nil,
      false_implies, implies_true, true_implies]
    cases h : boundTo envs name with
    | nil => simp
    | cons o others =>
        obtain rfl := hnone o (h ▸ List.mem_cons_self)
        simp
  · have hall := hfirst hhead
    have hne : boundTo envs name ≠ [] := by
      intro hnil
      rw [boundValues, hnil] at hhead
      cases hhead
    rw [hrun, ValuedEnds]
    simp only [Prod.mk.injEq, true_and, forall_eq']
    rw [imp_iff_right hall]
    exact and_congr
      (eq_some_of_ne_none hall (fun b hb ↦ List.mem_of_mem_head? hb)
        (by rw [ne_eq, List.head?_eq_none_iff]; exact hne))
      (eq_some_of_ne_none hall (fun b hb ↦ List.mem_of_getLast? hb)
        (by rw [ne_eq, List.getLast?_eq_none_iff]; exact hne))
  · rw [hrun, ValuedEnds]
    simp only [Prod.mk.injEq, reduceCtorEq, false_and, false_implies, implies_true, true_iff]
    exact fun hall ↦ absurd (hall v (List.mem_of_head? hhead)) hv

/-- **When `ensure_env` settles a name.**  For readers that skip entries without a value,
exactly if the first value decides for the others; for readers that count them too, if
moreover none of them comes first or last. -/
theorem ensure_env_decisive_iff (envs : Envs) (name value : Bytes) :
    (Decisive Option.isSome envs name value ↔ FirstDecides envs name value) ∧
      (Decisive (fun _ ↦ true) envs name value ↔
        FirstDecides envs name value ∧ ValuedEnds envs name value) := by
  refine ⟨?_, ?_⟩
  · rw [decisive_iff_ends, and_iff_left_iff_imp]
    intro hfirst envs' hrun
    obtain ⟨hne, hall⟩ := boundValues_of_ok hfirst hrun
    rw [seenBy_isSome]
    refine ends_of_forall (by simpa using hne) fun o ho ↦ ?_
    obtain ⟨v, hv, rfl⟩ := List.mem_map.mp ho
    rw [hall v hv]
  · rw [decisive_iff_ends]
    simp only [seenBy_true]
    exact and_congr_right boundTo_ends_iff

/-- `LD_PRELOAD` is bound to the wanted value and again to another one: the name is not
settled, for a reader of last bindings takes the other. -/
theorem ensure_env_repeated :
    ensure_env_mut [(ascii "LD_PRELOAD", some (ascii "a")), (ascii "LD_PRELOAD", some (ascii "b"))]
        (ascii "LD_PRELOAD") (ascii "a") =
      (.ok (), [(ascii "LD_PRELOAD", some (ascii "a")),
        (ascii "LD_PRELOAD", some (ascii "b"))]) ∧
    ∀ counts : Option Bytes → Bool, ¬Decisive counts
      [(ascii "LD_PRELOAD", some (ascii "a")), (ascii "LD_PRELOAD", some (ascii "b"))]
      (ascii "LD_PRELOAD") (ascii "a") := by
  refine ⟨by decide, fun counts h ↦ ?_⟩
  obtain ⟨e, envs', hrun⟩ := h.refuses.mpr ⟨ascii "b", by decide, by decide⟩
  have hok : (ensure_env_mut [(ascii "LD_PRELOAD", some (ascii "a")),
      (ascii "LD_PRELOAD", some (ascii "b"))] (ascii "LD_PRELOAD") (ascii "a")).1 = .ok () := by
    decide
  rw [hrun] at hok
  cases hok

end Fspy.Unix
