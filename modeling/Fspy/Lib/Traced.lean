import Mathlib.Data.List.Basic

/-!
# Computations that may fail and leave a trace

`Traced ω ε α` is a result or an error, together with the events emitted before the
computation ended: unlike the result, the trace of a failed computation is not
lost.  The two projections are compatible with `bind` in the expected way, so a
property of the result alone is proved in `Except`, as if there were no trace.
-/

namespace Fspy.Lib

/-- A computation with its result and the events it emitted. -/
@[ext]
structure Traced (ω ε α : Type) where
  /-- What the computation returns. -/
  result : Except ε α
  /-- What it emitted before it returned, in order. -/
  trace : List ω

namespace Traced

variable {ω ε α β : Type}

/-- A failure ends the computation; what was emitted before it stays. -/
instance instMonad : Monad (Traced ω ε) where
  pure a := ⟨.ok a, []⟩
  bind x k := match x.result with
    | .ok a => ⟨(k a).result, x.trace ++ (k a).trace⟩
    | .error e => ⟨.error e, x.trace⟩

/-- Emit one event. -/
def emit (w : ω) : Traced ω ε Unit := ⟨.ok (), [w]⟩

/-- End with an error. -/
def fail (e : ε) : Traced ω ε α := ⟨.error e, []⟩

/-- A computation that emits nothing. -/
def ofExcept (x : Except ε α) : Traced ω ε α := ⟨x, []⟩

@[simp] theorem result_pure (a : α) : (pure a : Traced ω ε α).result = .ok a := rfl

@[simp] theorem trace_pure (a : α) : (pure a : Traced ω ε α).trace = [] := rfl

@[simp] theorem result_emit (w : ω) : (emit w : Traced ω ε Unit).result = .ok () := rfl

@[simp] theorem trace_emit (w : ω) : (emit w : Traced ω ε Unit).trace = [w] := rfl

@[simp] theorem result_fail (e : ε) : (fail e : Traced ω ε α).result = .error e := rfl

@[simp] theorem trace_fail (e : ε) : (fail e : Traced ω ε α).trace = [] := rfl

@[simp] theorem result_ofExcept (x : Except ε α) :
    (ofExcept x : Traced ω ε α).result = x := rfl

@[simp] theorem trace_ofExcept (x : Except ε α) : (ofExcept x : Traced ω ε α).trace = [] := rfl

variable {x : Traced ω ε α} {k : α → Traced ω ε β} {a : α} {b : β} {e : ε}

/-- A computation that returns is followed by its continuation. -/
theorem bind_of_ok (h : x.result = .ok a) :
    x >>= k = ⟨(k a).result, x.trace ++ (k a).trace⟩ := by
  simp only [Bind.bind, h]

/-- A computation that fails is all there is. -/
theorem bind_of_error (h : x.result = .error e) : x >>= k = ⟨.error e, x.trace⟩ := by
  simp only [Bind.bind, h]

/-- The result of a bind is the bind of the results. -/
@[simp] theorem result_bind (x : Traced ω ε α) (k : α → Traced ω ε β) :
    (x >>= k).result = x.result >>= fun a ↦ (k a).result := by
  cases h : x.result with
  | ok a => rw [bind_of_ok h]; rfl
  | error e => rw [bind_of_error h]; rfl

/-- Where the continuation emits nothing, only the computation before it is seen. -/
theorem trace_bind_of_quiet (h : ∀ a, (k a).trace = []) : (x >>= k).trace = x.trace := by
  cases hx : x.result with
  | ok a => rw [bind_of_ok hx, h, List.append_nil]
  | error e => rw [bind_of_error hx]

theorem bind_eq_ok :
    (x >>= k).result = .ok b ↔ ∃ a, x.result = .ok a ∧ (k a).result = .ok b := by
  cases h : x.result with
  | ok a => simp [bind_of_ok h]
  | error e => simp [bind_of_error h]

theorem bind_eq_error : (x >>= k).result = .error e ↔
    x.result = .error e ∨ ∃ a, x.result = .ok a ∧ (k a).result = .error e := by
  cases h : x.result with
  | ok a => simp [bind_of_ok h]
  | error e => simp [bind_of_error h]

theorem bind_pure_self (x : Traced ω ε α) : x >>= pure = x := by
  cases h : x.result with
  | ok a => rw [bind_of_ok h, trace_pure, List.append_nil, result_pure, ← h]
  | error e => rw [bind_of_error h, ← h]

theorem bind_bind {γ : Type} (x : Traced ω ε α) (k : α → Traced ω ε β)
    (k' : β → Traced ω ε γ) : x >>= k >>= k' = x >>= fun a ↦ k a >>= k' := by
  cases h : x.result with
  | error e => rw [bind_of_error h, bind_of_error rfl, bind_of_error h]
  | ok a =>
      rw [bind_of_ok h, bind_of_ok h]
      cases hk : (k a).result with
      | error e => rw [bind_of_error rfl, bind_of_error hk]
      | ok b => rw [bind_of_ok rfl, bind_of_ok hk, List.append_assoc]

instance instLawfulMonad : LawfulMonad (Traced ω ε) :=
  LawfulMonad.mk' _ bind_pure_self (fun _ _ ↦ rfl) bind_bind

/-! ## Keeping part of the trace -/

/-- The same computation, emitting what `f` makes of its events. -/
def erase {ω' : Type} (f : ω → Option ω') (x : Traced ω ε α) : Traced ω' ε α :=
  ⟨x.result, x.trace.filterMap f⟩

section Erase

variable {ω' : Type} {f : ω → Option ω'}

@[simp] theorem result_erase (x : Traced ω ε α) : (x.erase f).result = x.result := rfl

@[simp] theorem erase_pure (a : α) : (pure a : Traced ω ε α).erase f = pure a := rfl

@[simp] theorem erase_fail (e : ε) : (fail e : Traced ω ε α).erase f = fail e := rfl

@[simp] theorem erase_ofExcept (x : Except ε α) :
    (ofExcept x : Traced ω ε α).erase f = ofExcept x := rfl

theorem erase_emit_of_some {w : ω} {w' : ω'} (h : f w = some w') :
    (emit w : Traced ω ε Unit).erase f = emit w' := by
  rw [erase, trace_emit, List.filterMap_cons_some h]
  rfl

theorem erase_emit_of_none {w : ω} (h : f w = none) :
    (emit w : Traced ω ε Unit).erase f = pure () := by
  rw [erase, trace_emit, List.filterMap_cons_none h]
  rfl

@[simp] theorem erase_bind (x : Traced ω ε α) (k : α → Traced ω ε β) :
    (x >>= k).erase f = x.erase f >>= fun a ↦ (k a).erase f := by
  cases h : x.result with
  | error e =>
      rw [bind_of_error h, bind_of_error ((result_erase x).trans h)]
      rfl
  | ok a =>
      rw [bind_of_ok h, bind_of_ok ((result_erase x).trans h), erase, List.filterMap_append]
      rfl

end Erase

/-! ## What a computation emits -/

/-- Every event the computation emits satisfies `P`. -/
def Emits (P : ω → Prop) (x : Traced ω ε α) : Prop := ∀ w ∈ x.trace, P w

variable {P : ω → Prop}

theorem Emits.pure (a : α) : (Pure.pure a : Traced ω ε α).Emits P := fun _ h ↦ nomatch h

theorem Emits.fail (e : ε) : (fail e : Traced ω ε α).Emits P := fun _ h ↦ nomatch h

theorem Emits.ofExcept (x : Except ε α) : (ofExcept x : Traced ω ε α).Emits P :=
  fun _ h ↦ nomatch h

theorem Emits.emit {w : ω} (h : P w) : (emit w : Traced ω ε Unit).Emits P := by
  intro w' hw'
  obtain rfl := List.mem_singleton.mp hw'
  exact h

/-- A bind emits what its two computations emit. -/
theorem Emits.bind (hx : x.Emits P) (hk : ∀ a, (k a).Emits P) : (x >>= k).Emits P := by
  intro w hw
  cases h : x.result with
  | error e =>
      rw [bind_of_error h] at hw
      exact hx w hw
  | ok a =>
      rw [bind_of_ok h] at hw
      rcases List.mem_append.mp hw with hw | hw
      · exact hx w hw
      · exact hk a w hw

end Traced

end Fspy.Lib
