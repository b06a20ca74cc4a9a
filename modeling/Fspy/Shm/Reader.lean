import Fspy.Shm.Client

/-!
# The reader of the shared-memory log

`PathAccessIterable::iter` walks every received chunk from its start: a zero flag
byte or the end of the mapping ends the chunk, anything else is followed by a
record.  Two things in it can panic, slicing past the end of the mapping and the
`unwrap` of the decoder.  `iterShm_of_scan` says that neither happens on a region
the framing library can read.
-/

namespace Fspy.Shm

variable (c : Lib.Codec PathAccess)

/-- `PathAccessIterable`: the accesses of the arenas, and the received mappings. -/
structure PathAccessIterable where
  arenas : List (List PathAccess)
  shm_mmaps : List Bytes

/-- The accesses `iter::from_fn` yields from one mapping, from `position` on. -/
def iterShm (buf : Bytes) (position : Nat) : Except Stop (List PathAccess) :=
  if buf.length < position then .error .panic
  else match buf.drop position with
    | [] => .ok []
    | flag :: data =>
        if flag = 0 then .ok []
        else match c.decode data with
          | none => .error .panic
          | some (a, decodedSize) =>
              (iterShm buf (position + (decodedSize + 1))).map (a :: ·)
termination_by buf.length + 1 - position

/-- `PathAccessIterable::iter`, run to the end. -/
def PathAccessIterable.iter (it : PathAccessIterable) : Except Stop (List PathAccess) := do
  let inShm ← it.shm_mmaps.mapM fun buf ↦ iterShm c buf 0
  return inShm.flatten ++ it.arenas.flatten

/-- What the tracker has when it maps the descriptors it received in the state `s`;
a chunk that was never truncated to size maps as an empty slice. -/
def collected (s : State) : PathAccessIterable :=
  ⟨[], s.mem.received.filterMap fun k ↦ (s.mem.chunks[k]?).map Chunk.bytes⟩

variable {c}

theorem iterShm_of_scan {buf : Bytes} {position : Nat} {as : List PathAccess}
    (hpos : position ≤ buf.length) (h : c.scan (buf.drop position) = some as) :
    iterShm c buf position = .ok as := by
  induction as generalizing position with
  | nil =>
      rw [iterShm, if_neg (Nat.not_lt.mpr hpos)]
      cases hd : buf.drop position with
      | nil => rfl
      | cons flag data =>
          rw [hd, Lib.Codec.scan] at h
          dsimp only
          by_cases hf : flag = 0
          · rw [if_pos hf]
          · rw [if_neg hf] at h
            split at h
            · cases h
            · split at h <;> simp at h
  | cons a as ih =>
      rw [iterShm, if_neg (Nat.not_lt.mpr hpos)]
      cases hd : buf.drop position with
      | nil => simp [hd, Lib.Codec.scan] at h
      | cons flag data =>
          rw [hd, Lib.Codec.scan] at h
          by_cases hf : flag = 0
          · simp [hf] at h
          · rw [if_neg hf] at h
            dsimp only
            rw [if_neg hf]
            have hlen : data.length + 1 = buf.length - position := by
              have := congrArg List.length hd
              simpa using this.symm
            cases hdec : c.decode data with
            | none => simp [hdec] at h
            | some r =>
                obtain ⟨a', n⟩ := r
                simp only [hdec] at h
                split at h
                · rename_i hn
                  obtain ⟨as', has, heq⟩ := Option.map_eq_some_iff.mp h
                  obtain ⟨rfl, rfl⟩ := List.cons.inj heq
                  have hdrop : buf.drop (position + (n + 1)) = data.drop n := by
                    rw [← List.drop_drop, hd, List.drop_succ_cons]
                  simp only [ih (by omega) (hdrop ▸ has)]
                  rfl
                · cases h

/-- Chunks that all scan are read without a panic, one after the other. -/
theorem iter_of_scan {bufs : List Bytes} {recs : List (List PathAccess)}
    (h : List.Forall₂ (fun buf as ↦ c.scan buf = some as) bufs recs) :
    PathAccessIterable.iter c ⟨[], bufs⟩ = .ok recs.flatten := by
  have hmap : bufs.mapM (fun buf ↦ iterShm c buf 0) = .ok recs := by
    induction h with
    | nil => rfl
    | cons hscan _ ih =>
        rw [List.mapM_cons, iterShm_of_scan (Nat.zero_le _) (by simpa using hscan), ih]
        rfl
  rw [PathAccessIterable.iter, hmap]
  simp [Bind.bind, Except.bind, pure, Except.pure]

end Fspy.Shm
