import Fspy.Windows.Pipe

/-!
# A pipe that takes a message in pieces

`write_pipe_message` goes on until all of a message is accepted, and each of its calls
offers the message from the beginning.
-/

namespace Fspy.Windows

/-- Calls that accept one byte at least, of those they are given, and as many calls as a
message can take. -/
structure Schedule (msg : Bytes) (counts : List Nat) : Prop where
  accepts : ∀ n ∈ counts, 1 ≤ n ∧ n ≤ msg.length
  enough : msg.length ≤ counts.length

/-- The function returns, and the pipe was given the message. -/
def WritesWhole (msg : Bytes) (counts : List Nat) : Prop :=
  ∃ accepted, write_pipe_message msg msg (counts.map some) = (some (.ok ()), accepted) ∧
    accepted.flatten = msg

/-- The calls that are made accept the message from the place `done` on: their counts end
where it ends, and each piece reads like the beginning of the message. -/
def Repeats (msg : Bytes) (done : Nat) (counts : List Nat) : Prop :=
  ∃ used, used <+: counts ∧ done + used.sum = msg.length ∧
    ∀ before n, before ++ [n] <+: used →
      (msg.drop (done + before.sum)).take n = msg.take n

variable {msg : Bytes} {done n : Nat} {counts : List Nat}

theorem repeats_of_done (h : done = msg.length) : Repeats msg done counts :=
  ⟨[], List.nil_prefix, h, fun before n hused ↦ by simp at hused⟩

/-- The first call that is made. -/
theorem repeats_cons (h : done < msg.length) : Repeats msg done (n :: counts) ↔
    done + n ≤ msg.length ∧ (msg.drop done).take n = msg.take n ∧
      Repeats msg (done + n) counts := by
  constructor
  · rintro ⟨used, hused, hsum, hrepeats⟩
    cases used with
    | nil => exact absurd hsum (Nat.ne_of_lt h)
    | cons n' used =>
        obtain ⟨rfl, hrest⟩ := List.cons_prefix_cons.mp hused
        rw [List.sum_cons, ← Nat.add_assoc] at hsum
        refine ⟨hsum ▸ Nat.le_add_right _ _, hrepeats [] n' (by simp), used, hrest, hsum, ?_⟩
        intro before n hbefore
        have hpiece := hrepeats (n' :: before) n (List.cons_prefix_cons.mpr ⟨rfl, hbefore⟩)
        rwa [List.sum_cons, ← Nat.add_assoc] at hpiece
  · rintro ⟨-, hfirst, used, hused, hsum, hrepeats⟩
    refine ⟨n :: used, List.cons_prefix_cons.mpr ⟨rfl, hused⟩, ?_, ?_⟩
    · rwa [List.sum_cons, ← Nat.add_assoc]
    · intro before n' hbefore
      cases before with
      | nil =>
          obtain rfl : n' = n := (List.cons_prefix_cons.mp hbefore).1
          exact hfirst
      | cons m before =>
          obtain ⟨rfl, hrest⟩ := List.cons_prefix_cons.mp hbefore
          rw [List.sum_cons, ← Nat.add_assoc]
          exact hrepeats before n' hrest

theorem isEmpty_drop (h : done < msg.length) : (msg.drop done).isEmpty = false := by
  rw [List.isEmpty_eq_false_iff, Ne, List.drop_eq_nil_iff]
  exact Nat.not_le.mpr h

/-- A turn of the loop. -/
theorem write_pipe_message_cons (hlength : msg.length < 2 ^ 32) (h : done < msg.length) :
    write_pipe_message msg (msg.drop done) (some n :: counts.map some) =
      if done + n ≤ msg.length then
        ((write_pipe_message msg (msg.drop (done + n)) (counts.map some)).1,
          msg.take n :: (write_pipe_message msg (msg.drop (done + n)) (counts.map some)).2)
      else (some (.error .panic), [msg.take n]) := by
  rw [write_pipe_message, isEmpty_drop h, if_neg (by decide), if_neg (Nat.not_le.mpr hlength)]
  dsimp only
  rw [List.drop_drop, List.length_drop]
  congr 1
  exact propext (by omega)

theorem write_pipe_message_done (h : msg.length ≤ done) :
    write_pipe_message msg (msg.drop done) (counts.map some) = (some (.ok ()), []) := by
  rw [List.drop_of_length_le h]
  cases counts <;> rfl

/-- A message whose length is no `DWORD` is not written. -/
theorem write_pipe_message_long (hlength : 2 ^ 32 ≤ msg.length) (h : done < msg.length) :
    write_pipe_message msg (msg.drop done) ((n :: counts).map some) =
      (some (.error .panic), []) := by
  rw [List.map_cons, write_pipe_message, isEmpty_drop h, if_neg (by decide), if_pos hlength]

/-- The loop ends: every call shortens what remains. -/
theorem write_pipe_message_ends (hcounts : ∀ n ∈ counts, 1 ≤ n)
    (henough : msg.length ≤ done + counts.length) :
    (write_pipe_message msg (msg.drop done) (counts.map some)).1 ≠ none := by
  induction counts generalizing done with
  | nil =>
      have hend : msg.length ≤ done := henough
      rw [write_pipe_message_done hend]
      exact fun h ↦ nomatch h
  | cons n counts ih =>
      rcases Nat.lt_or_ge done msg.length with hlt | hge
      · rcases Nat.lt_or_ge msg.length (2 ^ 32) with hlength | hlength
        · have hn := hcounts n (.head _)
          rw [List.map_cons, write_pipe_message_cons hlength hlt]
          split
          · refine ih (fun n hn ↦ hcounts n (.tail _ hn)) ?_
            rw [List.length_cons] at henough
            omega
          · exact fun h ↦ nomatch h
        · rw [write_pipe_message_long hlength hlt]
          exact fun h ↦ nomatch h
      · rw [write_pipe_message_done hge]
        exact fun h ↦ nomatch h

/-- From a place on, what remains is written if the calls repeat the message. -/
theorem write_pipe_message_drop (hlength : msg.length < 2 ^ 32) (hdone : done ≤ msg.length)
    (hcounts : ∀ n ∈ counts, 1 ≤ n) (henough : msg.length ≤ done + counts.length) :
    (∃ accepted, write_pipe_message msg (msg.drop done) (counts.map some) =
        (some (.ok ()), accepted) ∧ accepted.flatten = msg.drop done) ↔
      Repeats msg done counts := by
  induction counts generalizing done with
  | nil =>
      have hend : done = msg.length := Nat.le_antisymm hdone henough
      refine iff_of_true ⟨[], write_pipe_message_done (Nat.le_of_eq hend.symm), ?_⟩
        (repeats_of_done hend)
      rw [hend, List.drop_length, List.flatten_nil]
  | cons n counts ih =>
      rcases Nat.eq_or_lt_of_le hdone with hend | hlt
      · refine iff_of_true ⟨[], write_pipe_message_done (Nat.le_of_eq hend.symm), ?_⟩
          (repeats_of_done hend)
        rw [hend, List.drop_length, List.flatten_nil]
      · rw [List.map_cons, write_pipe_message_cons hlength hlt, repeats_cons hlt]
        by_cases hfits : done + n ≤ msg.length
        · have hrest := ih hfits (fun n hn ↦ hcounts n (.tail _ hn)) (by
            have hn := hcounts n (.head _)
            rw [List.length_cons] at henough
            omega)
          rw [if_pos hfits, and_iff_right hfits, ← hrest]
          have hsplit : msg.drop done = (msg.drop done).take n ++ msg.drop (done + n) := by
            rw [← List.drop_drop, List.take_append_drop]
          constructor
          · rintro ⟨accepted, hwrite, hflat⟩
            obtain ⟨hok, rfl⟩ := Prod.mk.inj hwrite
            rw [List.flatten_cons, hsplit] at hflat
            obtain ⟨htake, hflat⟩ := List.append_inj hflat (by
              simp only [List.length_take, List.length_drop]
              omega)
            exact ⟨htake.symm, _, Prod.ext hok rfl, hflat⟩
          · rintro ⟨htake, accepted, hwrite, hflat⟩
            refine ⟨msg.take n :: accepted, by rw [hwrite], ?_⟩
            rw [List.flatten_cons, hflat, ← htake, ← hsplit]
        · rw [if_neg hfits]
          refine iff_of_false ?_ fun h ↦ hfits h.1
          rintro ⟨_, h, -⟩
          cases h

/-- **When a message survives short writes**: if its length is a `DWORD`, the counts end
where it does, and each piece reads like the beginning of the message. -/
theorem write_pipe_message_iff (hschedule : Schedule msg counts) :
    (write_pipe_message msg msg (counts.map some)).1 ≠ none ∧
      (WritesWhole msg counts ↔ msg.length < 2 ^ 32 ∧ Repeats msg 0 counts) := by
  have hcounts : ∀ n ∈ counts, 1 ≤ n := fun n hn ↦ (hschedule.accepts n hn).1
  have henough : msg.length ≤ 0 + counts.length := by
    rw [Nat.zero_add]
    exact hschedule.enough
  refine ⟨write_pipe_message_ends hcounts henough, ?_⟩
  rcases Nat.lt_or_ge msg.length (2 ^ 32) with hlength | hlength
  · rw [and_iff_right hlength]
    exact write_pipe_message_drop hlength (Nat.zero_le _) hcounts henough
  · refine iff_of_false ?_ fun h ↦ Nat.not_le.mpr h.1 hlength
    have hpos : 0 < msg.length := Nat.lt_of_lt_of_le (by decide) hlength
    rintro ⟨accepted, hwrite, -⟩
    cases counts with
    | nil => exact absurd hschedule.enough (Nat.not_le.mpr hpos)
    | cons n counts =>
        have hlong := @write_pipe_message_long msg 0 n counts hlength hpos
        rw [List.drop_zero, hwrite] at hlong
        cases hlong

/-- A message of two equal bytes, written by halves. -/
theorem write_pipe_message_sample : WritesWhole [7, 7] [1, 1] := by
  have hsecond : Repeats [7, 7] 1 [1] :=
    (repeats_cons (by decide)).mpr ⟨by decide, rfl, repeats_of_done rfl⟩
  refine ((write_pipe_message_iff ⟨by decide, by decide⟩).2).mpr ⟨by decide, ?_⟩
  exact (repeats_cons (by decide)).mpr ⟨by decide, rfl, hsecond⟩

/-- A message of two bytes, written by halves: its first byte arrives twice.  If the
second call takes what it is given, the loop panics. -/
theorem write_pipe_message_again :
    write_pipe_message [1, 2] [1, 2] [some 1, some 1] = (some (.ok ()), [[1], [1]]) ∧
      write_pipe_message [1, 2] [1, 2] [some 1, some 2] = (some (.error .panic), [[1], [1, 2]]) ∧
      Schedule [1, 2] [1, 1] ∧ ¬WritesWhole [1, 2] [1, 1] := by
  refine ⟨rfl, rfl, ⟨by decide, by decide⟩, ?_⟩
  rintro ⟨accepted, hwrite, hflat⟩
  cases hwrite
  cases hflat

end Fspy.Windows
