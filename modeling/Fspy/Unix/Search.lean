import Fspy.Unix.Resolve
import Mathlib.Algebra.Ring.Nat

/-!
# The `PATH` search, step by step

`which` again, now with the buffer that `concat` fills, the callback that is taken out
of its `Option` and the assertions on the way, in any monad its two closures live in.
The assertions are never violated, whatever the closures do (`which_eq`); what is left
is a plain search over the candidates.  Run with a log, against an oracle that may
answer by all that was asked before, the search is the one of musl's `execvp`
(`which_execvp`).
-/

namespace Fspy.Unix.Search

section Code

variable {m : Type → Type} [Monad m] (panic : ∀ α : Type, m α) {R : Type}

/-- `debug_assert!`, and the bounds checks of slices. -/
def assert (b : Bool) : m Unit := if b then pure () else panic Unit

/-- The loop of `concat`; bytes of the buffer that nothing has been written to are
`none`. -/
def fill : List Bytes → List (Option UInt8) → Nat → m (List (Option UInt8) × Nat)
  | [], buf, pos => pure (buf, pos)
  | s :: rest, buf, pos => do
      let next_pos := pos + s.length
      assert panic (decide (next_pos ≤ buf.length))
      -- `copy_from_slice`
      assert panic (next_pos - pos == s.length)
      fill rest (buf.take pos ++ (s.map some ++ buf.drop next_pos)) next_pos

/-- `concat`. -/
def concat (s : List Bytes) (callback : Bytes → m R) : m R := do
  let size := (s.map List.length).sum
  let buf : List (Option UInt8) := List.replicate size none
  assert panic (buf.length == size)
  let (buf, pos) ← fill panic s buf 0
  assert panic (pos == buf.length)
  -- the buffer is read as bytes, so all of it has to be written
  match buf.mapM id with
  | some bytes => callback bytes
  | none => panic R

/-- The variables that the loop of `which` carries. -/
structure Carried (m : Type → Type) (R : Type) where
  seen_eacces : Bool
  last_err : Errno
  callback : Option (Bytes → m (Except Errno R))

/-- The closure that `which` hands to `concat`: what to return, if anything, and the
variables it leaves. -/
def attempt (access_executable : Bytes → m (Except Errno Unit)) (vars : Carried m R)
    (path : Bytes) : m (Option (Except Errno R) × Carried m R) := do
  match ← access_executable path with
  | .ok () =>
      match vars.callback with
      -- `unwrap` on what `take` returns
      | none => panic _
      | some callback =>
          let result ← callback path
          return (some result, { vars with callback := none })
  | .error err =>
      if goesOn err then
        return (none,
          { vars with seen_eacces := vars.seen_eacces || err == .EACCES, last_err := err })
      else return (some (.error err), vars)

/-- The loop of `which` over the elements of `PATH`. -/
def whichLoop (file : Bytes) (access_executable : Bytes → m (Except Errno Unit)) :
    List Bytes → Carried m R → m (Except Errno R)
  | [], vars => return .error (if vars.seen_eacces then .EACCES else vars.last_err)
  | p :: ps, vars => do
      let (result_to_return, vars) ← concat panic [p, if p.isEmpty then [] else ascii "/", file]
        (attempt panic access_executable vars)
      match result_to_return with
      | some result => return result
      | none => whichLoop file access_executable ps vars

/-- `which`. -/
def which (file path : Bytes) (access_executable : Bytes → m (Except Errno Unit))
    (callback : Bytes → m (Except Errno R)) : m (Except Errno R) :=
  if file.isEmpty then return .error .ENOENT
  else if file.contains Lib.Path.sep then callback file
  else if file.length > NAME_MAX then return .error .ENAMETOOLONG
  else whichLoop panic file access_executable (path.splitOn 58) ⟨false, .ENOENT, some callback⟩

/-- The search itself, over the candidates. -/
def search (access_executable : Bytes → m (Except Errno Unit))
    (callback : Bytes → m (Except Errno R)) : List Bytes → Bool → Errno → m (Except Errno R)
  | [], seen_eacces, last_err => return .error (if seen_eacces then .EACCES else last_err)
  | c :: cs, seen_eacces, _ => do
      match ← access_executable c with
      | .ok () => callback c
      | .error err =>
          if goesOn err then
            search access_executable callback cs (seen_eacces || err == .EACCES) err
          else return .error err

end Code

/-! ## The assertions hold -/

section Assertions

variable {m : Type → Type} [Monad m] [LawfulMonad m] {panic : ∀ α : Type, m α} {R : Type}

/-- The pieces are written one after the other, up to the last byte. -/
theorem fill_eq (s : List Bytes) (written : Bytes) (size : Nat)
    (hsize : size = (s.map List.length).sum) :
    fill panic s (written.map some ++ List.replicate size none) written.length =
      pure ((written ++ s.flatten).map some, (written ++ s.flatten).length) := by
  induction s generalizing written size with
  | nil =>
      subst hsize
      simp [fill]
  | cons piece rest ih =>
      have hfits : size = piece.length + (rest.map List.length).sum := hsize
      have hbuf : (written.map some ++ List.replicate size none).take written.length ++
          (piece.map some ++ (written.map some ++ List.replicate size none).drop
            (written.length + piece.length)) =
          (written ++ piece).map some ++
            List.replicate (rest.map List.length).sum (none : Option UInt8) := by
        rw [List.take_left' (List.length_map _), List.drop_append, List.length_map,
          Nat.add_sub_cancel_left, List.drop_eq_nil_of_le (by simp), List.drop_replicate, hfits,
          Nat.add_sub_cancel_left, List.nil_append, List.map_append, List.append_assoc]
      rw [fill]
      simp only [assert, List.length_append, List.length_map, List.length_replicate]
      rw [if_pos (by simp; omega), if_pos (by simp), pure_bind, pure_bind, hbuf,
        ← List.length_append, ih (written ++ piece) _ rfl, List.flatten_cons, List.append_assoc]
      simp only [List.length_append]

/-- `concat` hands on the pieces, joined. -/
theorem concat_eq (s : List Bytes) (callback : Bytes → m R) :
    concat panic s callback = callback (Unix.concat s) := by
  have hfill : fill panic s (List.replicate (s.map List.length).sum none) 0 =
      pure (s.flatten.map some, s.flatten.length) := fill_eq s [] _ rfl
  rw [concat]
  simp only [assert, List.length_replicate, beq_self_eq_true, if_true, pure_bind, hfill,
    List.length_map]
  have hread : ∀ bytes : Bytes, (bytes.map some).mapM id = some bytes := by
    intro bytes
    induction bytes with
    | nil => rfl
    | cons b bytes ih => simp [List.mapM_cons, ih]
  rw [hread]
  rfl

/-- As long as the search goes on, the callback is in place. -/
theorem whichLoop_eq (file : Bytes) (access_executable : Bytes → m (Except Errno Unit))
    (callback : Bytes → m (Except Errno R)) (ps : List Bytes) (seen_eacces : Bool)
    (last_err : Errno) :
    whichLoop panic file access_executable ps ⟨seen_eacces, last_err, some callback⟩ =
      search access_executable callback (ps.map (candidate file)) seen_eacces last_err := by
  induction ps generalizing seen_eacces last_err with
  | nil => rfl
  | cons p ps ih =>
      rw [whichLoop, concat_eq, List.map_cons, search, attempt, bind_assoc]
      refine bind_congr fun answer ↦ ?_
      cases answer with
      | ok u => simp [candidate]
      | error err =>
          dsimp only
          split
          · rw [pure_bind, ← ih]
          · rw [pure_bind]

/-- **The search never panics**: whatever the two closures do, it is the search over the
candidates, in which nothing can be violated. -/
theorem which_eq (file path : Bytes) (access_executable : Bytes → m (Except Errno Unit))
    (callback : Bytes → m (Except Errno R)) :
    which panic file path access_executable callback =
      if file.isEmpty then pure (.error .ENOENT)
      else if file.contains Lib.Path.sep then callback file
      else if file.length > NAME_MAX then pure (.error .ENAMETOOLONG)
      else search access_executable callback (candidates path file) false .ENOENT := by
  simp only [which, whichLoop_eq, candidates]

end Assertions

/-! ## The search of `execvp` -/

/-- What a search does that others can see. -/
inductive Event where
  | probe (path : Bytes)
  | callback (path : Bytes)
deriving DecidableEq, Repr

/-- A run with the events so far; it may panic. -/
abbrev SearchM := StateT (List Event) Option

section Execvp

variable {R : Type} (answer : List Event → Bytes → Except Errno Unit)
  (outcome : List Event → Bytes → Except Errno R)

/-- An oracle that answers by what has happened before. -/
def ask (path : Bytes) : SearchM (Except Errno Unit) :=
  fun events ↦ some (answer events path, events ++ [.probe path])

def call (path : Bytes) : SearchM (Except Errno R) :=
  fun events ↦ some (outcome events path, events ++ [.callback path])

/-- `which` with these closures, from the start. -/
def runWhich (file path : Bytes) : Option (Except Errno R × List Event) :=
  (which (m := SearchM) (fun _ _ ↦ none) file path (ask answer) (call outcome)).run []

/-- Probing these paths in order, one of them is answered with `r`. -/
def Answered (paths : List Bytes) (r : Except Errno Unit) : Prop :=
  ∃ before c after, paths = before ++ c :: after ∧ answer (before.map .probe) c = r

/-- Every one of these paths is refused with an error that lets the search go on. -/
def Passed (paths : List Bytes) : Prop :=
  ∀ r, Answered answer paths r → r = .error .EACCES ∨ r = .error .ENOENT ∨ r = .error .ENOTDIR

/-- The search of `execvp` over its candidates: its events and its result. -/
inductive Tried (paths : List Bytes) : List Event → Except Errno R → Prop
  /-- The first success ends the search. -/
  | found {before after : List Bytes} {c : Bytes} (hsplit : paths = before ++ c :: after)
      (hbefore : Passed answer before) (hc : answer (before.map .probe) c = .ok ()) :
      Tried paths ((before ++ [c]).map .probe ++ [.callback c])
        (outcome ((before ++ [c]).map .probe) c)
  /-- So does the first error of another kind. -/
  | refused {before after : List Bytes} {c : Bytes} {err : Errno}
      (hsplit : paths = before ++ c :: after) (hbefore : Passed answer before)
      (hc : answer (before.map .probe) c = .error err)
      (herr : err ≠ .EACCES ∧ err ≠ .ENOENT ∧ err ≠ .ENOTDIR) :
      Tried paths ((before ++ [c]).map .probe) (.error err)
  /-- No success, and one of the probes was denied. -/
  | denied (hall : Passed answer paths) (hseen : Answered answer paths (.error .EACCES)) :
      Tried paths (paths.map .probe) (.error .EACCES)
  /-- No success, and the last error. -/
  | missing {before : List Bytes} {c : Bytes} {err : Errno} (hall : Passed answer paths)
      (hseen : ¬Answered answer paths (.error .EACCES)) (hsplit : paths = before ++ [c])
      (hc : answer (before.map .probe) c = .error err) :
      Tried paths (paths.map .probe) (.error err)

/-- The candidate for an element of `PATH`. -/
def element (file p : Bytes) : Bytes := if p = [] then file else p ++ Lib.Path.sep :: file

/-- `execvp` up to the call that executes: its events and its result. -/
inductive Execvp (file path : Bytes) : List Event → Except Errno R → Prop
  | empty (hfile : file = []) : Execvp file path [] (.error .ENOENT)
  | direct (hfile : file ≠ []) (hsep : Lib.Path.sep ∈ file) :
      Execvp file path [.callback file] (outcome [] file)
  | tooLong (hfile : file ≠ []) (hsep : Lib.Path.sep ∉ file) (hlong : NAME_MAX < file.length) :
      Execvp file path [] (.error .ENAMETOOLONG)
  | searched {events : List Event} {result : Except Errno R} (hfile : file ≠ [])
      (hsep : Lib.Path.sep ∉ file) (hshort : file.length ≤ NAME_MAX)
      (htried : Tried answer outcome ((path.splitOn 58).map (element file)) events result) :
      Execvp file path events result

variable {answer outcome}

theorem goesOn_iff {err : Errno} :
    goesOn err = true ↔ err = .EACCES ∨ err = .ENOENT ∨ err = .ENOTDIR := by
  simp [goesOn, or_assoc]

/-- One more probe. -/
theorem answered_append {paths : List Bytes} {c : Bytes} {r : Except Errno Unit} :
    Answered answer (paths ++ [c]) r ↔
      Answered answer paths r ∨ answer (paths.map .probe) c = r := by
  constructor
  · rintro ⟨before, d, after, hsplit, hd⟩
    rcases List.eq_nil_or_concat after with rfl | ⟨after, e, rfl⟩
    · obtain ⟨rfl, hcd⟩ := List.append_inj' hsplit rfl
      obtain rfl := (List.cons.inj hcd).1
      exact .inr hd
    · rw [List.concat_eq_append, ← List.cons_append, ← List.append_assoc] at hsplit
      obtain ⟨rfl, -⟩ := List.append_inj' hsplit rfl
      exact .inl ⟨before, d, after, rfl, hd⟩
  · rintro (⟨before, d, after, rfl, hd⟩ | hc)
    · exact ⟨before, d, after ++ [c], by simp, hd⟩
    · exact ⟨paths, c, [], rfl, hc⟩

theorem not_answered_nil (r : Except Errno Unit) : ¬Answered answer [] r :=
  fun ⟨_, c, after, h, _⟩ ↦ List.append_ne_nil_of_right_ne_nil _ (List.cons_ne_nil c after) h.symm

theorem Passed.append {paths : List Bytes} {c : Bytes} {err : Errno}
    (h : Passed answer paths) (hc : answer (paths.map .probe) c = .error err)
    (herr : goesOn err = true) : Passed answer (paths ++ [c]) := by
  intro r hr
  rcases answered_append.mp hr with hr | rfl
  · exact h r hr
  · rw [hc]
    simpa using goesOn_iff.mp herr

/-- What the loop carries is what the probes so far have answered. -/
structure Carries (answer : List Event → Bytes → Except Errno Unit) (before : List Bytes)
    (seen_eacces : Bool) (last_err : Errno) : Prop where
  passed : Passed answer before
  seen : seen_eacces = true ↔ Answered answer before (.error .EACCES)
  last : ∀ init c, before = init ++ [c] → answer (init.map .probe) c = .error last_err

theorem Carries.start : Carries answer [] false .ENOENT where
  passed r hr := absurd hr (not_answered_nil r)
  seen := ⟨fun h ↦ (nomatch h), fun h ↦ absurd h (not_answered_nil _)⟩
  last _ _ h := absurd h (by simp)

/-- One more probe that does not end the search. -/
theorem Carries.probe {before : List Bytes} {seen_eacces : Bool} {last_err err : Errno}
    {c : Bytes} (h : Carries answer before seen_eacces last_err)
    (hc : answer (before.map .probe) c = .error err) (hgo : goesOn err = true) :
    Carries answer (before ++ [c]) (seen_eacces || err == .EACCES) err where
  passed := h.passed.append hc hgo
  seen := by
    rw [Bool.or_eq_true, h.seen, answered_append, hc]
    simp
  last := by
    intro init d hsplit
    obtain ⟨rfl, hd⟩ := List.append_inj' hsplit rfl
    obtain rfl := (List.cons.inj hd).1
    exact hc

/-- No candidate is left. -/
theorem Carries.tried {paths : List Bytes} {seen_eacces : Bool} {last_err : Errno}
    (h : Carries answer paths seen_eacces last_err) (hne : paths ≠ []) :
    Tried answer outcome paths (paths.map .probe)
      (.error (if seen_eacces then .EACCES else last_err)) := by
  by_cases hseen : seen_eacces = true
  · rw [if_pos hseen]
    exact .denied h.passed (h.seen.mp hseen)
  · obtain ⟨init, c, rfl⟩ := (List.eq_nil_or_concat paths).resolve_left hne
    rw [List.concat_eq_append] at *
    rw [if_neg hseen]
    exact .missing h.passed (fun ha ↦ hseen (h.seen.mpr ha)) rfl (h.last init c rfl)

theorem search_run_cons (c : Bytes) (cs : List Bytes) (seen_eacces : Bool) (last_err : Errno)
    (events : List Event) :
    (search (m := SearchM) (ask answer) (call outcome) (c :: cs) seen_eacces last_err).run events =
      match answer events c with
      | .ok () => some (outcome (events ++ [.probe c]) c, events ++ [.probe c] ++ [.callback c])
      | .error err =>
          if goesOn err then
            (search (m := SearchM) (ask answer) (call outcome) cs (seen_eacces || err == .EACCES)
              err).run (events ++ [.probe c])
          else some (.error err, events ++ [.probe c]) := by
  rw [search, StateT.run_bind, StateT.run, ask]
  cases answer events c with
  | ok u => rfl
  | error err => cases h : goesOn err <;> simp [h]

/-- The search from any point on. -/
theorem search_tried (before cs : List Bytes) (seen_eacces : Bool) (last_err : Errno)
    (hne : before ++ cs ≠ []) (hcarries : Carries answer before seen_eacces last_err) :
    ∃ result events,
      (search (m := SearchM) (ask answer) (call outcome) cs seen_eacces last_err).run
        (before.map .probe) = some (result, events) ∧
      Tried answer outcome (before ++ cs) events result := by
  induction cs generalizing before seen_eacces last_err with
  | nil =>
      rw [List.append_nil] at hne ⊢
      exact ⟨_, _, rfl, hcarries.tried hne⟩
  | cons c cs ih =>
      cases hc : answer (before.map .probe) c with
      | ok u =>
          refine ⟨_, _, ?_, .found rfl hcarries.passed hc⟩
          rw [search_run_cons, hc]
          simp
      | error err =>
          cases hgo : goesOn err with
          | true =>
              obtain ⟨result, events, hrun, htried⟩ :=
                ih (before ++ [c]) _ err (by simp) (hcarries.probe hc hgo)
              refine ⟨result, events, ?_, by simpa using htried⟩
              rw [search_run_cons, hc]
              simpa [hgo] using hrun
          | false =>
              refine ⟨_, _, ?_, .refused rfl hcarries.passed hc ?_⟩
              · rw [search_run_cons, hc]
                simp [hgo]
              · rw [← not_or, ← not_or, ← goesOn_iff, hgo]
                exact Bool.false_ne_true

theorem element_eq_candidate (file p : Bytes) : element file p = candidate file p := by
  cases p with
  | nil => simp [element, candidate, Unix.concat]
  | cons b p => simp [element, candidate, Unix.concat, ascii, Lib.Path.sep]

/-- **`which` is the search of `execvp`**, against every oracle and for every `PATH`, and
it does not panic: the callback is called at most once and the buffer fits. -/
theorem which_execvp (file path : Bytes) : ∃ result events,
    runWhich answer outcome file path = some (result, events) ∧
      Execvp answer outcome file path events result := by
  rw [runWhich, which_eq]
  split
  · rename_i hfile
    exact ⟨_, _, rfl, .empty (List.isEmpty_iff.mp hfile)⟩
  · rename_i hfile
    rw [List.isEmpty_iff] at hfile
    split
    · rename_i hsep
      exact ⟨_, _, rfl, .direct hfile (List.contains_iff_mem.mp hsep)⟩
    · rename_i hsep
      rw [List.contains_iff_mem] at hsep
      split
      · rename_i hlong
        exact ⟨_, _, rfl, .tooLong hfile hsep hlong⟩
      · rename_i hshort
        have hcandidates : candidates path file = (path.splitOn 58).map (element file) :=
          List.map_congr_left fun p _ ↦ (element_eq_candidate file p).symm
        have hne : (path.splitOn 58).map (element file) ≠ [] := by
          rw [ne_eq, List.map_eq_nil_iff]
          exact List.splitOn_ne_nil _ _
        obtain ⟨result, events, hrun, htried⟩ := search_tried [] _ false .ENOENT hne .start
        rw [hcandidates]
        exact ⟨result, events, hrun, .searched hfile hsep (Nat.not_lt.mp hshort) htried⟩

end Execvp

/-! ## The search of the model -/

/-- A closure of type `nix::Result` in `ExecM`. -/
def nixCallback {R : Type} (callback : Bytes → ExecM R) (path : Bytes) :
    ExecM (Except Errno R) := Except.ok <$> callback path

theorem nixCallback_bind {R : Type} (callback : Bytes → ExecM R) (path : Bytes) :
    nixCallback callback path >>= nixResult = callback path := by
  rw [nixCallback, map_eq_pure_bind, bind_assoc]
  exact Lib.Traced.bind_pure_self _

theorem whichLoop_eq_search {R : Type} (file : Bytes)
    (access_executable : Bytes → ExecM (Except Errno Unit)) (callback : Bytes → ExecM R)
    (ps : List Bytes) (seen_eacces : Bool) (last_err : Errno) :
    Unix.whichLoop file access_executable callback ps seen_eacces last_err =
      search access_executable (nixCallback callback) (ps.map (candidate file)) seen_eacces
        last_err >>= nixResult := by
  induction ps generalizing seen_eacces last_err with
  | nil => rfl
  | cons p ps ih =>
      rw [Unix.whichLoop, List.map_cons, search, bind_assoc]
      refine bind_congr fun answer ↦ ?_
      cases answer with
      | ok u => exact (nixCallback_bind callback _).symm
      | error err =>
          dsimp only
          split
          · exact ih _ _
          · rfl

/-- The search of `Exec::resolve` is this one, its assertions left out. -/
theorem which_eq_which {R : Type} (file path : Bytes)
    (access_executable : Bytes → ExecM (Except Errno Unit)) (callback : Bytes → ExecM R) :
    Unix.which file path access_executable callback =
      which (fun _ ↦ .fail .panic) file path access_executable (nixCallback callback) >>=
        nixResult := by
  rw [Unix.which, which_eq]
  split
  · rfl
  · split
    · exact (nixCallback_bind callback file).symm
    · split
      · rfl
      · exact whichLoop_eq_search file access_executable callback _ _ _

end Fspy.Unix.Search
