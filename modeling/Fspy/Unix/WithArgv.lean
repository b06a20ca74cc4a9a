import Fspy.Basic

/-!
# From variadic arguments to an array

`with_argv` is how the hooks of `execl`, `execlp` and `execle` make an `argv` out of
their variadic arguments.  It counts them, chooses a buffer, fills it and hands it on,
with what is left of the variadic list.  Entries of the buffer that nothing has been
written to are `none`; a pointer is `none` when it is null.
-/

namespace Fspy.Unix.WithArgv

variable {P : Type}

/-- How `with_argv` can go wrong. -/
inductive Fault where
  /-- An index is out of bounds, which aborts the program. -/
  | panic
  /-- An argument is read that was not passed. -/
  | noArgument
deriving DecidableEq, Repr

def E2BIG : Errno := .other 7
def ENOMEM : Errno := .other 12

/-- `va.arg`. -/
def arg : List (Option P) → Except Fault (Option P × List (Option P))
  | [] => .error .noArgument
  | p :: va => .ok (p, va)

/-- The position of the first null pointer in a copy of the list. -/
def position : List (Option P) → Except Fault Nat
  | [] => .error .noArgument
  | none :: _ => .ok 0
  | some _ :: va => do return (← position va) + 1

/-- `out[i].write(p)`. -/
def write (out : List (Option (Option P))) (i : Nat) (p : Option P) :
    Except Fault (List (Option (Option P))) :=
  if i < out.length then .ok (out.set i (some p)) else .error .panic

/-- `n` turns of the loop that fills the buffer, from `i` on. -/
def fill : Nat → Nat → List (Option P) → List (Option (Option P)) →
    Except Fault (List (Option P) × List (Option (Option P)))
  | 0, _, va, out => .ok (va, out)
  | n + 1, i, va, out => do
      let (p, va) ← arg va
      let out ← write out i p
      fill n (i + 1) va out

/-- What `with_argv` has done when it returns. -/
structure Outcome (P : Type) where
  result : Int
  /-- The error number it has set. -/
  errno : Option Errno
  /-- The calls of `f`: the slice and the rest of the variadic list. -/
  calls : List (List (Option (Option P)) × List (Option P))
deriving DecidableEq, Repr

/-- `with_argv` from the choice of a buffer with `size` entries on. -/
def run (va : List (Option P)) (arg0 : Option P) (argc size : Nat) :
    Except Fault (Outcome P) := do
  let out := List.replicate size none
  let out ← write out 0 arg0
  let (va, out) ← fill (argc - 1) 1 va out
  let out ← write out argc none
  -- NULL
  let (_, va) ← arg va
  return ⟨-1, none, [(out, va)]⟩

/-- `with_argv`; `malloc` says which sizes it can allocate. -/
def with_argv (malloc : Nat → Bool) (va : List (Option P)) (arg0 : Option P) :
    Except Fault (Outcome P) := do
  let argc := 1 + (← position va)
  if argc < 32 then run va arg0 argc 32
  else if argc < 4096 then
    if malloc (argc * 8) then run va arg0 argc argc
    else return ⟨-1, some ENOMEM, []⟩
  else return ⟨-1, some E2BIG, []⟩

/-! ## The buffer -/

theorem arg_cons (p : Option P) (va : List (Option P)) : arg (p :: va) = .ok (p, va) := rfl

theorem position_eq (args : List P) (rest : List (Option P)) :
    position (args.map some ++ none :: rest) = .ok args.length := by
  induction args with
  | nil => rfl
  | cons p args ih =>
      rw [List.map_cons, List.cons_append, position, ih]
      rfl

/-- Writing the entry after those that have been written. -/
theorem write_next (done : List (Option (Option P))) (n : Nat) (p : Option P) :
    write (done ++ List.replicate (n + 1) none) done.length p =
      .ok ((done ++ [some p]) ++ List.replicate n none) := by
  rw [write, if_pos (by simp), List.replicate_succ, List.set_append_right _ _ (Nat.le_refl _),
    Nat.sub_self, List.set_cons_zero, List.append_assoc]
  rfl

/-- The loop copies as many arguments as the buffer has room for. -/
theorem fill_eq (args : List P) (va : List (Option P)) (done : List (Option (Option P)))
    (n : Nat) :
    fill args.length done.length (args.map some ++ va)
        (done ++ List.replicate (args.length + n) none) =
      .ok (va, (done ++ args.map (some ∘ some)) ++ List.replicate n none) := by
  induction args generalizing done with
  | nil => simp [fill]
  | cons p args ih =>
      have hroom : (p :: args).length + n = args.length + n + 1 := by
        rw [List.length_cons]
        omega
      have hwrite := write_next done (args.length + n) (some p)
      rw [hroom, List.length_cons, fill, List.map_cons, List.cons_append,
        except_bind_of_ok (arg_cons _ _)]
      dsimp only
      rw [except_bind_of_ok hwrite]
      have := ih (done ++ [some (some p)])
      rw [List.length_append] at this
      exact this.trans (by simp)

/-- The entries that `with_argv` writes before the terminator. -/
def entries (arg0 : P) (args : List P) : List (Option (Option P)) :=
  (arg0 :: args).map (some ∘ some)

theorem length_entries (arg0 : P) (args : List P) :
    (entries arg0 args).length = 1 + args.length := by
  rw [entries, List.length_map, List.length_cons, Nat.add_comm]

theorem run_eq (arg0 : P) (args : List P) (rest : List (Option P)) (room : Nat) :
    run (args.map some ++ none :: rest) (some arg0) (1 + args.length)
        (1 + args.length + room) =
      match room with
      | 0 => .error .panic
      | n + 1 => .ok ⟨-1, none,
          [(entries arg0 args ++ some none :: List.replicate n none, rest)]⟩ := by
  have hsize : 1 + args.length + room = args.length + room + 1 := by omega
  have hfirst : write (List.replicate (1 + args.length + room) none) 0 (some arg0) =
      .ok ([some (some arg0)] ++ List.replicate (args.length + room) none) := by
    rw [hsize]
    exact write_next [] (args.length + room) (some arg0)
  have hfill : fill (1 + args.length - 1) 1 (args.map some ++ none :: rest)
      ([some (some arg0)] ++ List.replicate (args.length + room) none) =
      .ok (none :: rest, entries arg0 args ++ List.replicate room none) := by
    rw [Nat.add_sub_cancel_left]
    exact fill_eq args (none :: rest) [some (some arg0)] room
  rw [run, except_bind_of_ok hfirst, except_bind_of_ok hfill]
  dsimp only
  cases room with
  | zero =>
      rw [write, if_neg (by simp [length_entries])]
      rfl
  | succ n =>
      have hlast := write_next (entries arg0 args) n none
      rw [length_entries] at hlast
      rw [except_bind_of_ok hlast, except_bind_of_ok (arg_cons none rest), List.append_assoc]
      rfl

/-! ## Every number of arguments -/

/-- The program name, the arguments and a null pointer are handed on once, with the rest
of the variadic list; too many of them are refused. -/
def Faithful (arg0 : P) (args : List P) (rest : List (Option P))
    (r : Except Fault (Outcome P)) : Prop :=
  if 1 + args.length < 4096 then
    ∃ slice, r = .ok ⟨-1, none, [(slice, rest)]⟩ ∧
      slice.take (1 + args.length) = entries arg0 args ∧
      slice[1 + args.length]? = some (some none)
  else r = .ok ⟨-1, some E2BIG, []⟩

/-- What `with_argv` does, by the number of arguments. -/
theorem with_argv_eq (malloc : Nat → Bool) (hmalloc : ∀ size, malloc size = true) (arg0 : P)
    (args : List P) (rest : List (Option P)) :
    with_argv malloc (args.map some ++ none :: rest) (some arg0) =
      if 1 + args.length < 32 then .ok ⟨-1, none, [(entries arg0 args ++
        some none :: List.replicate (30 - args.length) none, rest)]⟩
      else if 1 + args.length < 4096 then .error .panic
      else .ok ⟨-1, some E2BIG, []⟩ := by
  rw [with_argv, except_bind_of_ok (position_eq args rest)]
  dsimp only
  split
  · rename_i hstack
    have hroom : 1 + args.length + (30 - args.length + 1) = 32 := by omega
    have := run_eq arg0 args rest (30 - args.length + 1)
    rw [hroom] at this
    exact this
  · split
    · -- the buffer on the heap has no entry for the terminator
      rw [if_pos (hmalloc _)]
      exact run_eq arg0 args rest 0
    · rfl

/-- **When `with_argv` hands on its arguments**: where they fit on the stack.  From 32
arguments on the terminator is written behind the buffer, until there are too many. -/
theorem with_argv_faithful_iff (malloc : Nat → Bool) (hmalloc : ∀ size, malloc size = true)
    (arg0 : P) (args : List P) (rest : List (Option P)) :
    Faithful arg0 args rest (with_argv malloc (args.map some ++ none :: rest) (some arg0)) ↔
      1 + args.length < 32 ∨ 4096 ≤ 1 + args.length := by
  rw [with_argv_eq malloc hmalloc, Faithful]
  by_cases hstack : 1 + args.length < 32
  · rw [if_pos hstack, if_pos (by omega)]
    refine iff_of_true ⟨_, rfl, ?_, ?_⟩ (.inl hstack)
    · exact List.take_left' (length_entries arg0 args)
    · rw [← length_entries arg0, List.getElem?_append_right (Nat.le_refl _), Nat.sub_self]
      rfl
  · rw [if_neg hstack]
    by_cases hheap : 1 + args.length < 4096
    · rw [if_pos hheap, if_pos hheap]
      refine iff_of_false ?_ (by omega)
      rintro ⟨slice, hslice, -⟩
      cases hslice
    · rw [if_neg hheap, if_neg hheap]
      exact iff_of_true rfl (.inr (by omega))

theorem with_argv_faithful_sample :
    Faithful 1 [2, 3] [some 4] (with_argv (fun _ ↦ true) [some 2, some 3, none, some 4] (some 1)) ↔
      1 + 2 < 32 ∨ 4096 ≤ 1 + 2 :=
  with_argv_faithful_iff (fun _ ↦ true) (fun _ ↦ rfl) 1 [2, 3] [some 4]

/-- The first number of arguments for which the buffer is on the heap. -/
theorem with_argv_32 :
    with_argv (fun _ ↦ true) ((List.replicate 31 0).map some ++ [none]) (some 0) =
        .error .panic ∧
      ¬Faithful 0 (List.replicate 31 0) []
        (with_argv (fun _ ↦ true) ((List.replicate 31 0).map some ++ [none]) (some 0)) := by
  have hrun : with_argv (fun _ ↦ true) ((List.replicate 31 0).map some ++ [none]) (some 0) =
      .error .panic := by decide
  refine ⟨hrun, ?_⟩
  rw [hrun, Faithful, if_pos (by decide)]
  rintro ⟨slice, hslice, -⟩
  cases hslice

end Fspy.Unix.WithArgv
