import Fspy.Shm.Invariant
import Fspy.Shm.Reader

/-!
# What the tracker reads

The reader yields the published records of the received chunks one after the
other (`Log.iter`), which is a merge of what the threads published (`Merges`).
What a thread published is what it was asked to record, except for the one access
it may be in the middle of sending (`accounted_run`).  Together:
`crash_consistent` for a process that is killed at any moment, and
`delivered_of_startsAtEnd` for a tree of processes whose threads come and go.
-/

namespace Fspy.Shm

variable {c : Lib.Codec PathAccess} {ls : List Label} {s s' : State} {l : Label}

/-! ## Reading the log -/

/-- `zs` holds exactly the published records, each as often as it was published, and
those of one thread in the order the thread published them. -/
def Merges (ls : List Label) (zs : List (Key × PathAccess)) : Prop :=
  zs.Perm ((records ls).map (·.2)) ∧ ∀ t, (zs.filter (·.1 = t)).map (·.2) = flaggedBy t ls

/-- Lists that agree key by key have the same elements. -/
theorem perm_of_filter_eq {κ α : Type*} [DecidableEq κ] [DecidableEq α] {xs ys : List (κ × α)}
    (h : ∀ t, xs.filter (·.1 = t) = ys.filter (·.1 = t)) : xs.Perm ys := by
  apply List.perm_iff_count.mpr
  intro r
  have hcount : ∀ zs : List (κ × α), zs.count r = (zs.filter (·.1 = r.1)).count r := fun zs ↦
    (List.count_filter (by simp)).symm
  rw [hcount xs, hcount ys, h]

theorem merges_of_filter_eq {zs : List (Key × PathAccess)}
    (h : ∀ t : Key, zs.filter (·.1 = t) = ((records ls).map (·.2)).filter (·.1 = t)) :
    Merges ls zs := by
  refine ⟨perm_of_filter_eq h, fun t ↦ ?_⟩
  rw [h, List.filter_map, List.map_map]
  rfl

/-- The mapped chunks read back as what was published in them. -/
theorem Log.forall₂_scan {rs : List (Nat × Key × PathAccess)} {w : World} (h : Log c rs w)
    {ks : List Nat} (hks : ∀ k ∈ ks, k < w.mem.chunks.length) :
    List.Forall₂ (fun buf as ↦ c.scan buf = some as)
      (ks.filterMap fun k ↦ (w.mem.chunks[k]?).map Chunk.bytes) (ks.map w.pubs) := by
  induction ks with
  | nil => exact .nil
  | cons k ks ih =>
      have hch := List.getElem?_eq_getElem (hks k List.mem_cons_self)
      rw [List.filterMap_cons, hch]
      exact .cons (h.scan k _ hch) (ih fun k' hk' ↦ hks k' (List.mem_cons_of_mem _ hk'))

/-- **The reader yields the published records**, chunk by chunk. -/
theorem Log.iter {rs : List (Nat × Key × PathAccess)} {w : World} (h : Log c rs w) :
    PathAccessIterable.iter c
      ⟨[], w.mem.received.filterMap fun k ↦ (w.mem.chunks[k]?).map Chunk.bytes⟩ =
      .ok ((w.mem.received.flatMap w.pub).map Prod.snd) := by
  rw [iter_of_scan (h.forall₂_scan h.received_lt), ← List.flatMap_def, List.map_flatMap]
  rfl

theorem Inv.iter (h : Inv c ls s) :
    ∃ zs, (collected s).iter c = .ok (zs.map Prod.snd) ∧ Merges ls zs :=
  ⟨_, h.log.iter, merges_of_filter_eq h.log.order⟩

/-! ## What was asked for and what was published -/

/-- The access a thread is in the middle of sending. -/
def Owner.sending : Owner → List PathAccess
  | .live (.newShm a _ _) => [a]
  | .live (.advance a _) => [a]
  | .live (.write a _ _) => [a]
  | .live (.panicked a) => [a]
  | _ => []

def State.sending (s : State) (t : Key) : List PathAccess :=
  ((s.row t).map fun slot ↦ slot.owner.sending).getD []

/-- A step publishes what its thread was sending, or takes up what it is asked to. -/
theorem Slot.step_sending {m m' : Mem} {p i : Nat} {slot slot' : Slot} {act : Act}
    (h : slot.step c m p act = some (m', slot')) :
    slot.owner.sending ++ (Label.called ⟨p, i, act⟩).toList.map (·.2) =
      (Label.record ⟨p, i, act⟩).toList.map (·.2.2) ++ slot'.owner.sending := by
  obtain ⟨cursor, owner⟩ := slot
  cases act with
  | fork => cases h
  | call a =>
      simp only [Slot.step] at h
      split at h
      · split at h
        · rename_i hf
          cases h
          simp [Label.called, hf, Label.record]
        · rename_i hf
          split at h <;> cases h <;> simp [Label.called, hf, Label.record, Owner.sending, Slot.goto]
      · cases h
  | map =>
      simp only [Slot.step] at h
      split at h
      · obtain ⟨ch, -, heq⟩ := Option.map_eq_some_iff.mp h
        cases heq
        rfl
      · cases h
  | write =>
      simp only [Slot.step] at h
      split at h
      · obtain ⟨b, -, heq⟩ := Option.map_eq_some_iff.mp h
        cases heq
        rfl
      · cases h
  | advance r =>
      simp only [Slot.step] at h
      split at h
      · split at h
        · split at h <;> cases h
          rfl
        · cases h
      · cases h
  | full =>
      simp only [Slot.step] at h
      split at h
      · split at h
        · cases h
        · split at h <;> cases h <;> rfl
      · cases h
  | storeFlag k a =>
      simp only [Slot.step] at h
      split at h
      · split at h
        · rename_i hcond
          obtain ⟨-, rfl, -⟩ := hcond
          cases h
          rfl
        · cases h
      · cases h
  | _ =>
      simp only [Slot.step] at h
      split at h <;> cases h
      rfl

theorem calledBy_snoc (t : Key) (ls : List Label) (l : Label) :
    calledBy t (ls ++ [l]) =
      calledBy t ls ++ if l.key = t then l.called.toList.map (·.2) else [] := by
  have hkey : ∀ r ∈ l.called, r.1 = l.key := by
    intro r hr
    simp only [Label.called] at hr
    split at hr
    · split at hr <;> cases hr
      rfl
    · cases hr
  cases hc : l.called with
  | none => simp [calledBy, hc]
  | some r =>
      obtain ⟨t', a⟩ := r
      obtain rfl : t' = l.key := hkey (t', a) hc
      by_cases ht : l.key = t <;> simp [calledBy, hc, ht]

theorem flaggedBy_snoc (t : Key) (ls : List Label) (l : Label) :
    flaggedBy t (ls ++ [l]) =
      flaggedBy t ls ++ if l.key = t then l.record.toList.map (·.2.2) else [] := by
  have hkey : ∀ r ∈ l.record, r.2.1 = l.key := by
    intro r hr
    simp only [Label.record] at hr
    split at hr <;> cases hr
    rfl
  cases hc : l.record with
  | none => simp [flaggedBy, records, hc]
  | some r =>
      obtain ⟨k, t', a⟩ := r
      obtain rfl : t' = l.key := hkey (k, t', a) hc
      by_cases ht : l.key = t <;> simp [flaggedBy, records, hc, ht]

/-- Every access a thread was asked to record is published or being sent. -/
def Accounted (ls : List Label) (s : State) : Prop :=
  ∀ t, calledBy t ls = flaggedBy t ls ++ s.sending t

theorem afterFork_sending (proc : Proc) (i j : Nat) :
    (afterFork proc i j).owner.sending = [] := by
  simp only [afterFork]
  split
  · rfl
  · simp only [Slot.inherited]
    split
    · rename_i ho
      rw [ho]
      rfl
    · rfl

theorem accounted_step (h : Accounted ls s) (hstep : step c s l = some s') :
    Accounted (ls ++ [l]) s' := by
  intro t
  rw [calledBy_snoc, flaggedBy_snoc, h t]
  rcases step_cases hstep with ⟨slot, slot', hs⟩ | ⟨proc, hf⟩
  · have hrow := hs.rows t
    by_cases ht : l.key = t
    · subst ht
      have hsend := Slot.step_sending (i := l.id) hs.step_eq
      rw [if_pos rfl] at hrow
      simp only [State.sending, hs.row_eq, hrow, if_true, Option.map_some, Option.getD_some,
        List.append_assoc]
      exact congrArg _ hsend
    · rw [if_neg (Ne.symm ht)] at hrow
      simp [State.sending, hrow, ht]
  · have hcalled : l.called = none := by simp [Label.called, hf.act_eq]
    have hrec : l.record = none := by simp [Label.record, hf.act_eq]
    have hrow := hf.rows t
    suffices hsend : s'.sending t = s.sending t by simp [hcalled, hrec, hsend]
    split at hrow
    · rename_i ht
      have hnone : s.row t = none := by simp [State.row, ht]
      simp [State.sending, hrow, hnone, afterFork_sending]
    · rw [State.sending, State.sending, hrow]

theorem accounted_run {n : Nat} (hrun : Lib.runs (step c) (init n) ls = some s) :
    Accounted ls s := by
  refine Lib.runs_induction (C := fun _ _ ↦ True) Accounted ?_
    (fun _ _ _ _ h _ hstep ↦ accounted_step h hstep) hrun (.of_forall fun _ _ _ ↦ trivial)
  intro t
  cases hrow : (init n).row t with
  | none => simp [State.sending, hrow, calledBy, flaggedBy, records]
  | some slot =>
      rcases (row_init hrow).2 with ho | ho <;>
        simp [State.sending, hrow, ho, Owner.sending, calledBy, flaggedBy, records]

/-! ## Accesses that fit a chunk -/

/-- The thread is not going to panic: what it sends fits a chunk, and in the second
call of `advance` it has a fresh one. -/
structure Slot.Fits (c : Lib.Codec PathAccess) (slot : Slot) : Prop where
  size_le : ∀ a ∈ slot.owner.sending, 1 + c.size a ≤ SHM_CHUNK_SIZE
  fresh : ∀ a, slot.owner = .live (.advance a true) →
    ∃ k, slot.cursor = some ⟨k, SHM_CHUNK_SIZE, 0⟩
  alive : ∀ a, slot.owner ≠ .live (.panicked a)

theorem Slot.Fits.step {m m' : Mem} {p : Nat} {slot slot' : Slot} {act : Act} (h : slot.Fits c)
    (hcall : ∀ a, act = .call a → 1 + c.size a ≤ SHM_CHUNK_SIZE)
    (hmap : ∀ a again k ch, slot.owner = .live (.newShm a again (.map k)) →
      m.chunks[k]? = some ch → ch.bytes.length = SHM_CHUNK_SIZE)
    (hstep : slot.step c m p act = some (m', slot')) : slot'.Fits c := by
  have hsize : ∀ a ∈ slot'.owner.sending, 1 + c.size a ≤ SHM_CHUNK_SIZE := by
    intro a ha
    have hmem := List.mem_append_right ((Label.record ⟨p, 0, act⟩).toList.map (·.2.2)) ha
    rw [← Slot.step_sending hstep] at hmem
    rcases List.mem_append.mp hmem with hmem | hmem
    · exact h.size_le a hmem
    · obtain ⟨r, hr, rfl⟩ := List.mem_map.mp hmem
      apply hcall r.2
      simp only [Label.called, Option.mem_toList] at hr
      split at hr
      · split at hr <;> cases hr
        rfl
      · cases hr
  obtain ⟨cursor, owner⟩ := slot
  cases act with
  | fork => cases hstep
  | call a =>
      simp only [Slot.step] at hstep
      split at hstep
      · split at hstep
        · cases hstep
          exact ⟨hsize, by rintro _ ⟨⟩, by rintro _ ⟨⟩⟩
        · split at hstep <;> cases hstep <;>
            exact ⟨hsize, by rintro _ ⟨⟩, by rintro _ ⟨⟩⟩
      · cases hstep
  | map =>
      simp only [Slot.step] at hstep
      split at hstep
      · rename_i a again k
        obtain ⟨ch, hch, heq⟩ := Option.map_eq_some_iff.mp hstep
        cases heq
        exact ⟨hsize, fun _ _ ↦ ⟨k, by rw [hmap a again k ch rfl hch]⟩, by rintro _ ⟨⟩⟩
      · cases hstep
  | write =>
      simp only [Slot.step] at hstep
      split at hstep
      · obtain ⟨b, -, heq⟩ := Option.map_eq_some_iff.mp hstep
        cases heq
        exact ⟨hsize, by rintro _ ⟨⟩, by rintro _ ⟨⟩⟩
      · cases hstep
  | advance r =>
      simp only [Slot.step] at hstep
      split at hstep
      · split at hstep
        · split at hstep <;> cases hstep
          exact ⟨hsize, by rintro _ ⟨⟩, by rintro _ ⟨⟩⟩
        · cases hstep
      · cases hstep
  | full =>
      simp only [Slot.step] at hstep
      split at hstep
      · rename_i a again cur
        split at hstep
        · cases hstep
        · rename_i hfull
          split at hstep
          · -- the chunk `new_shm` has just mapped has room for `a`
            rename_i hagain
            subst hagain
            obtain ⟨k, hcur⟩ := h.fresh a rfl
            cases hcur
            have hlt := ShmCursor.advance_eq_none.mp hfull
            have hle := h.size_le a List.mem_cons_self
            dsimp only at hlt
            omega
          · cases hstep
            exact ⟨hsize, by rintro _ ⟨⟩, by rintro _ ⟨⟩⟩
      · cases hstep
  | storeFlag k a =>
      simp only [Slot.step] at hstep
      split at hstep
      · split at hstep <;> cases hstep
        exact ⟨hsize, by rintro _ ⟨⟩, by rintro _ ⟨⟩⟩
      · cases hstep
  | _ =>
      simp only [Slot.step] at hstep
      split at hstep <;> cases hstep
      exact ⟨hsize, by rintro _ ⟨⟩, by rintro _ ⟨⟩⟩

/-- No thread panics while every access it is asked to send fits a chunk. -/
def Fit (c : Lib.Codec PathAccess) (s : State) : Prop :=
  ∀ t slot, s.row t = some slot → slot.Fits c

theorem fit_init (c : Lib.Codec PathAccess) (n : Nat) : Fit c (init n) := by
  intro t slot hrow
  rcases (row_init hrow).2 with ho | ho <;>
    exact ⟨by simp [ho, Owner.sending], by simp [ho], by simp [ho]⟩

theorem fit_step (h : Fit c s) (hinv : Inv c ls s)
    (hcall : ∀ a, l.act = .call a → 1 + c.size a ≤ SHM_CHUNK_SIZE)
    (hstep : step c s l = some s') : Fit c s' := by
  intro t sl hrow
  rcases step_cases hstep with ⟨slot, slot', hs⟩ | ⟨proc, hf⟩
  · rw [hs.rows] at hrow
    split at hrow
    · cases hrow
      refine (h l.key slot hs.row_eq).step hcall ?_ hs.step_eq
      intro a again k ch ho hch
      obtain ⟨ch', hch', -, hbytes, -⟩ :=
        ((hinv.slots l.key slot hs.row_eq).building a again _ k ho rfl).ready
      obtain rfl : ch = ch' := Option.some.inj (hch.symm.trans hch')
      rw [hbytes, List.length_replicate]
    · exact h t sl hrow
  · rw [hf.rows] at hrow
    split at hrow
    · cases hrow
      have hsend := afterFork_sending proc l.id t.2
      exact ⟨by simp [hsend], fun a ho ↦ by simp [ho, Owner.sending] at hsend,
        fun a ho ↦ by simp [ho, Owner.sending] at hsend⟩
    · exact h t sl hrow

/-! ## The two guarantees -/

theorem flaggedBy_prefix_calledBy (h : Accounted ls s) (t : Key) :
    flaggedBy t ls <+: calledBy t ls :=
  ⟨s.sending t, (h t).symm⟩

/-- The steps of a process that neither forks nor starts or ends a thread, and that
is asked to send only accesses that are recorded and fit a chunk. -/
def Act.Sends (c : Lib.Codec PathAccess) : Act → Prop
  | .start | .exit | .fork => False
  | .call a => filtered a = false ∧ 1 + c.size a ≤ SHM_CHUNK_SIZE
  | _ => True

instance (c : Lib.Codec PathAccess) : (act : Act) → Decidable (act.Sends c)
  | .start | .exit | .fork => isFalse id
  | .call _ => inferInstanceAs (Decidable (_ ∧ _))
  | .shmOpen | .sendFd | .ftruncate | .map | .advance _ | .full | .write | .storeFlag _ _ =>
      isTrue trivial

/-- **Crash consistency.**  Whenever the process is killed, the reader yields exactly
the accesses whose flag byte was stored, in the order each thread stored them, which
is the order it was asked to send them; and no thread has panicked. -/
theorem crash_consistent {n : Nat} (hrun : Lib.runs (step c) (init n) ls = some s)
    (hsends : ∀ l ∈ ls, l.act.Sends c) :
    (∃ zs, (collected s).iter c = .ok (zs.map Prod.snd) ∧ Merges ls zs) ∧
      (∀ t, flaggedBy t ls <+: calledBy t ls) ∧
      ∀ t slot, s.row t = some slot → ∀ a, slot.owner ≠ .live (.panicked a) := by
  have hboth : Inv c ls s ∧ Fit c s := by
    refine Lib.runs_induction (C := fun _ l ↦ l.act.Sends c) (fun ls s ↦ Inv c ls s ∧ Fit c s)
      ⟨inv_init c n, fit_init c n⟩ ?_ hrun (.of_forall fun _ ↦ hsends)
    rintro ls s l s' ⟨hinv, hfit⟩ hsends hstep
    refine ⟨inv_step hinv (fun hl ↦ ?_) hstep, fit_step hfit hinv (fun a ha ↦ ?_) hstep⟩
    · rw [hl] at hsends
      exact hsends.elim
    · rw [ha] at hsends
      exact hsends.2
  exact ⟨hboth.1.iter, flaggedBy_prefix_calledBy (accounted_run hrun),
    fun t slot hrow ↦ (hboth.2 t slot hrow).alive⟩

/-! ### One send, step by step -/

def sampleA : PathAccess := .read (ascii "a")

def sampleB : PathAccess := .read (ascii "b")

def sampleD : PathAccess := .read (ascii "d")

/-- A second thread of the first process makes a chunk for its first access. -/
def openChunk : List Label := [.call sampleA, .shmOpen, .sendFd, .ftruncate].map (Label.mk 0 1)

/-- The rest of its send. -/
def fillChunk : List Label :=
  [.map, .advance ⟨0, 0, 4⟩, .write, .write, .write, .storeFlag 0 sampleA].map (Label.mk 0 1)

theorem runs_openChunk (proc : Proc) (h : proc 1 = ⟨none, .live .idle⟩) :
    ∃ proc', Lib.runs (step c) ⟨⟨[], []⟩, [proc]⟩ openChunk =
        some ⟨⟨[⟨0, List.replicate SHM_CHUNK_SIZE 0⟩], [0]⟩, [proc']⟩ ∧
      proc' 0 = proc 0 ∧ proc' 1 = ⟨none, .live (.newShm sampleA false (.map 0))⟩ := by
  have hf : filtered sampleA = false := by decide
  refine ⟨Function.update proc 1 ⟨none, .live (.newShm sampleA false (.map 0))⟩, ?_,
    by simp, by simp⟩
  simp [openChunk, Lib.runs, step, Slot.step, h, hf, Slot.goto, Mem.setBytes,
    -List.reduceReplicate]

/-- What a send does once its chunk is there: its record of four bytes replaces those the
cursor stands at. -/
theorem runs_fillRecord {c : Lib.Codec PathAccess} {a : PathAccess} {again : Bool}
    {p len start : Nat} {procs : List Proc} {proc : Proc} {front z : Bytes}
    {b₀ b₁ b₂ b₃ e₀ e₁ e₂ : UInt8} (hp : procs[p]? = some proc)
    (h : proc 1 = ⟨some ⟨0, len, start⟩, .live (.advance a again)⟩)
    (hfront : front.length = start) (hroom : start + 4 ≤ len) (henc : c.encode a = [e₀, e₁, e₂]) :
    Lib.runs (step c) ⟨⟨[⟨0, front ++ b₀ :: b₁ :: b₂ :: b₃ :: z⟩], [0]⟩, procs⟩
        ([.advance ⟨0, start, 4⟩, .write, .write, .write, .storeFlag 0 a].map (Label.mk p 1)) =
      some ⟨⟨[⟨0, front ++ (c.frame a ++ z)⟩], [0]⟩,
        procs.set p (Function.update proc 1 ⟨some ⟨0, len, start + 4⟩, .live .idle⟩)⟩ := by
  have hsize : c.size a = 3 := congrArg List.length henc
  have hfits : ¬len < start + 4 := Nat.not_lt.mpr hroom
  subst hfront
  obtain ⟨hlt, rfl⟩ := List.getElem?_eq_some_iff.mp hp
  simp [Lib.runs, step, Slot.step, h, hlt, Slot.goto, Mem.setBytes, ShmCursor.advance,
    henc, hsize, hfits, Lib.Codec.frame, Nat.add_assoc]

theorem runs_fillChunk {proc : Proc} {z : Bytes} (hz : z.length + 4 = SHM_CHUNK_SIZE)
    (h : proc 1 = ⟨none, .live (.newShm sampleA false (.map 0))⟩) :
    ∃ proc', Lib.runs (step PathAccess.shortCodec)
          ⟨⟨[⟨0, 0 :: 0 :: 0 :: 0 :: z⟩], [0]⟩, [proc]⟩ fillChunk =
        some ⟨⟨[⟨0, PathAccess.shortCodec.frame sampleA ++ z⟩], [0]⟩, [proc']⟩ ∧
      proc' 0 = proc 0 ∧ proc' 1 = ⟨some ⟨0, SHM_CHUNK_SIZE, 4⟩, .live .idle⟩ := by
  let mapped := Function.update proc 1 ⟨some ⟨0, SHM_CHUNK_SIZE, 0⟩, .live (.advance sampleA false)⟩
  have hmap : step PathAccess.shortCodec ⟨⟨[⟨0, 0 :: 0 :: 0 :: 0 :: z⟩], [0]⟩, [proc]⟩
      ⟨0, 1, .map⟩ = some ⟨⟨[⟨0, 0 :: 0 :: 0 :: 0 :: z⟩], [0]⟩, [mapped]⟩ := by
    simp [step, Slot.step, h, ← hz, mapped]
  have henc : PathAccess.shortCodec.encode sampleA = [0, 1, 97] := by decide
  have hfill : Lib.runs (step PathAccess.shortCodec)
      ⟨⟨[⟨0, [] ++ 0 :: 0 :: 0 :: 0 :: z⟩], [0]⟩, [mapped]⟩ fillChunk.tail = _ :=
    runs_fillRecord rfl (Function.update_self ..) rfl (by decide) henc
  exact ⟨_, Lib.runs_cons.mpr ⟨_, hmap, hfill⟩, by simp [mapped], by simp⟩

theorem zeros_split {n : Nat} (h : 4 ≤ n) :
    List.replicate n (0 : UInt8) = 0 :: 0 :: 0 :: 0 :: List.replicate (n - 4) 0 := by
  obtain ⟨m, rfl⟩ := Nat.exists_eq_add_of_le' h
  simp [List.replicate_succ]

/-- The first send of a process with two threads. -/
theorem runs_firstSend : ∃ proc, Lib.runs (step PathAccess.shortCodec) (init 2)
      (openChunk ++ fillChunk) =
        some ⟨⟨[⟨0, PathAccess.shortCodec.frame sampleA ++ List.replicate (SHM_CHUNK_SIZE - 4) 0⟩],
          [0]⟩, [proc]⟩ ∧
      proc 0 = ⟨none, .live .idle⟩ ∧ proc 1 = ⟨some ⟨0, SHM_CHUNK_SIZE, 4⟩, .live .idle⟩ := by
  obtain ⟨proc₁, hrun₁, h0, h1⟩ := runs_openChunk (c := PathAccess.shortCodec)
    (fun i ↦ ⟨none, if i < 2 then .live .idle else .free⟩) rfl
  rw [zeros_split (by decide)] at hrun₁
  obtain ⟨proc₂, hrun₂, h0', h1'⟩ := runs_fillChunk (z := List.replicate (SHM_CHUNK_SIZE - 4) 0)
    (by rw [List.length_replicate]; decide) h1
  exact ⟨proc₂, Lib.runs_append.mpr ⟨_, hrun₁, hrun₂⟩, by rw [h0', h0]; rfl, h1'⟩

theorem crash_consistent_firstSend : ∃ s,
    Lib.runs (step PathAccess.shortCodec) (init 2) (openChunk ++ fillChunk) = some s ∧
      (collected s).iter PathAccess.shortCodec = .ok [sampleA] := by
  obtain ⟨proc, hrun, -⟩ := runs_firstSend
  obtain ⟨⟨zs, hiter, hperm, -⟩, -⟩ := crash_consistent hrun (by decide)
  obtain rfl : zs = [((0, 1), sampleA)] := List.perm_singleton.mp hperm
  exact ⟨_, hrun, hiter⟩

/-- **Delivery across fork and thread turnover.**  As long as no new thread is handed
a cursor with room in a chunk of another process, no two sends share a byte, the
reader meets no undecodable record, and every access a thread was asked to record is
yielded exactly once, unless it is still being sent. -/
theorem delivered_of_startsAtEnd {n : Nat} (hrun : Lib.runs (step c) (init n) ls = some s)
    (hmeet : Lib.StepsMeet (step c) StartsAtEnd (init n) ls) :
    (regions ls).Pairwise Region.Disjoint ∧
      (∃ zs, (collected s).iter c = .ok (zs.map Prod.snd) ∧ Merges ls zs) ∧
      ∀ t, calledBy t ls = flaggedBy t ls ++ s.sending t := by
  have hinv := inv_run hrun hmeet
  exact ⟨hinv.log.disjoint, hinv.iter, accounted_run hrun⟩

/-- The thread that opened the chunk ends, and the other one forks. -/
def endAndFork : List Label := [⟨0, 1, .exit⟩, ⟨0, 0, .fork⟩]

theorem runs_endAndFork {m : Mem} {proc : Proc} {cursor : Option ShmCursor}
    (h0 : proc 0 = ⟨none, .live .idle⟩) (h1 : proc 1 = ⟨cursor, .live .idle⟩) :
    ∃ proc', Lib.runs (step c) ⟨m, [proc]⟩ endAndFork = some ⟨m, [proc', afterFork proc' 0]⟩ ∧
      proc' 0 = ⟨none, .live .idle⟩ ∧ proc' 1 = ⟨cursor, .free⟩ := by
  refine ⟨Function.update proc 1 ⟨cursor, .free⟩, ?_, by simp [h0], by simp⟩
  simp [endAndFork, Lib.runs, step, Slot.step, h0, h1]

theorem delivered_after_fork : ∃ s,
    Lib.runs (step PathAccess.shortCodec) (init 2) (openChunk ++ fillChunk ++ endAndFork) =
        some s ∧
      (collected s).iter PathAccess.shortCodec = .ok [sampleA] := by
  obtain ⟨proc, hrun, h0, h1⟩ := runs_firstSend
  obtain ⟨proc', hrun', -⟩ := runs_endAndFork h0 h1
  have hall := Lib.runs_append.mpr ⟨_, hrun, hrun'⟩
  obtain ⟨-, ⟨zs, hiter, hperm, -⟩, -⟩ := delivered_of_startsAtEnd hall
    (.of_forall fun s l hl hstart ↦ absurd hstart (by revert l; decide))
  obtain rfl : zs = [((0, 1), sampleA)] := List.perm_singleton.mp hperm
  exact ⟨_, hall, hiter⟩

/-- A new thread of each of the two processes is handed the id of the thread that
ended. -/
def turnover : List Label := [⟨0, 1, .start⟩, ⟨1, 1, .start⟩]

/-- A send by the thread with id 1 of the process `p`. -/
def nextSend (p : Nat) (a : PathAccess) : List Label :=
  [.call a, .advance ⟨0, 4, 4⟩, .write, .write, .write, .storeFlag 0 a].map (Label.mk p 1)

/-- The send overwrites the four bytes it finds. -/
theorem runs_nextSend {a : PathAccess} {p : Nat} {procs : List Proc} {proc : Proc}
    {b₀ b₁ b₂ b₃ e₀ e₁ e₂ : UInt8} {z : Bytes} (hp : procs[p]? = some proc)
    (h1 : proc 1 = ⟨some ⟨0, SHM_CHUNK_SIZE, 4⟩, .live .idle⟩)
    (ha : filtered a = false) (henc : PathAccess.shortCodec.encode a = [e₀, e₁, e₂]) :
    Lib.runs (step PathAccess.shortCodec)
        ⟨⟨[⟨0, PathAccess.shortCodec.frame sampleA ++ b₀ :: b₁ :: b₂ :: b₃ :: z⟩], [0]⟩, procs⟩
        (nextSend p a) =
      some ⟨⟨[⟨0, PathAccess.shortCodec.frames [sampleA, a] ++ z⟩], [0]⟩,
        procs.set p (Function.update proc 1 ⟨some ⟨0, SHM_CHUNK_SIZE, 8⟩, .live .idle⟩)⟩ := by
  let called := Function.update proc 1 ⟨some ⟨0, SHM_CHUNK_SIZE, 4⟩, .live (.advance a false)⟩
  have hcall : step PathAccess.shortCodec
      ⟨⟨[⟨0, PathAccess.shortCodec.frame sampleA ++ b₀ :: b₁ :: b₂ :: b₃ :: z⟩], [0]⟩, procs⟩
      ⟨p, 1, .call a⟩ =
    some ⟨⟨[⟨0, PathAccess.shortCodec.frame sampleA ++ b₀ :: b₁ :: b₂ :: b₃ :: z⟩], [0]⟩,
      procs.set p called⟩ := by
    simp [step, Slot.step, hp, h1, ha, Slot.goto, called]
  have hcalled : (procs.set p called)[p]? = some called :=
    List.getElem?_set_self (List.getElem?_eq_some_iff.mp hp).1
  have hfill : Lib.runs (step PathAccess.shortCodec)
      ⟨⟨[⟨0, PathAccess.shortCodec.frame sampleA ++ b₀ :: b₁ :: b₂ :: b₃ :: z⟩], [0]⟩,
        procs.set p called⟩ (nextSend p a).tail = _ :=
    runs_fillRecord hcalled (Function.update_self ..) (by decide) (by decide) henc
  have hframes : PathAccess.shortCodec.frames [sampleA, a] ++ z =
      PathAccess.shortCodec.frame sampleA ++ (PathAccess.shortCodec.frame a ++ z) := by
    simp [Lib.Codec.frames]
  rw [List.set_set, Function.update_idem] at hfill
  rw [hframes]
  exact Lib.runs_cons.mpr ⟨_, hcall, hfill⟩

/-- Both new threads write to the same four bytes. -/
theorem runs_turnover {proc : Proc} {z : Bytes}
    (h1 : proc 1 = ⟨some ⟨0, SHM_CHUNK_SIZE, 4⟩, .free⟩) :
    ∃ s, Lib.runs (step PathAccess.shortCodec)
        ⟨⟨[⟨0, PathAccess.shortCodec.frame sampleA ++ 0 :: 0 :: 0 :: 0 :: z⟩], [0]⟩,
          [proc, afterFork proc 0]⟩
        (turnover ++ (nextSend 0 sampleB ++ nextSend 1 sampleD)) = some s ∧
      s.mem = ⟨[⟨0, PathAccess.shortCodec.frames [sampleA, sampleD] ++ z⟩], [0]⟩ := by
  have hB : PathAccess.shortCodec.encode sampleB = [0, 1, 98] := by decide
  have hD : PathAccess.shortCodec.encode sampleD = [0, 1, 100] := by decide
  have hchild : afterFork proc 0 1 = ⟨some ⟨0, SHM_CHUNK_SIZE, 4⟩, .free⟩ := by
    simp [afterFork, Slot.inherited, h1]
  have hstart : Lib.runs (step PathAccess.shortCodec)
      ⟨⟨[⟨0, PathAccess.shortCodec.frame sampleA ++ 0 :: 0 :: 0 :: 0 :: z⟩], [0]⟩,
        [proc, afterFork proc 0]⟩ turnover =
      some ⟨⟨[⟨0, PathAccess.shortCodec.frame sampleA ++ 0 :: 0 :: 0 :: 0 :: z⟩], [0]⟩,
        [Function.update proc 1 ⟨some ⟨0, SHM_CHUNK_SIZE, 4⟩, .live .idle⟩,
          Function.update (afterFork proc 0) 1 ⟨some ⟨0, SHM_CHUNK_SIZE, 4⟩, .live .idle⟩]⟩ := by
    simp [turnover, Lib.runs, step, Slot.step, h1, hchild, Slot.goto]
  refine ⟨_, Lib.runs_append.mpr ⟨_, hstart, Lib.runs_append.mpr ⟨_,
    runs_nextSend (a := sampleB) rfl (by simp) (by decide) hB,
    runs_nextSend (a := sampleD) rfl (by simp) (by decide) hD⟩⟩, rfl⟩

/-- Fork with an idle cursor in the table: the run. -/
def turnoverRun : List Label :=
  openChunk ++ fillChunk ++ endAndFork ++ (turnover ++ (nextSend 0 sampleB ++ nextSend 1 sampleD))

/-- The cursor that came with the fork was not moved to the end of its chunk: two
sends are handed the same bytes, and the access `b`, whose send returned, is lost. -/
theorem turnover_overlaps : ∃ s,
    Lib.runs (step PathAccess.shortCodec) (init 2) turnoverRun = some s ∧
      ¬(regions turnoverRun).Pairwise Region.Disjoint ∧
      calledBy (0, 1) turnoverRun = [sampleA, sampleB] ∧ s.sending (0, 1) = [] ∧
      (collected s).iter PathAccess.shortCodec = .ok [sampleA, sampleD] := by
  obtain ⟨proc, hrun, h0, h1⟩ := runs_firstSend
  rw [zeros_split (by decide)] at hrun
  obtain ⟨proc', hrun', -, h1'⟩ := runs_endAndFork h0 h1
  obtain ⟨s, hrun'', hmem⟩ := runs_turnover
    (z := List.replicate (SHM_CHUNK_SIZE - 4 - 4) 0) h1'
  have hall := Lib.runs_append.mpr ⟨_, Lib.runs_append.mpr ⟨_, hrun, hrun'⟩, hrun''⟩
  refine ⟨s, hall, by decide, by decide, ?_, ?_⟩
  · have hflagged : flaggedBy (0, 1) turnoverRun = [sampleA, sampleB] := by decide
    have hcalled : calledBy (0, 1) turnoverRun = [sampleA, sampleB] := by decide
    have hacc := accounted_run hall (0, 1)
    change calledBy (0, 1) turnoverRun = flaggedBy (0, 1) turnoverRun ++ _ at hacc
    rw [hflagged, hcalled] at hacc
    exact (List.append_right_eq_self.mp hacc.symm)
  · have hscan : PathAccess.shortCodec.scan (PathAccess.shortCodec.frames [sampleA, sampleD] ++
        List.replicate (SHM_CHUNK_SIZE - 4 - 4) 0) = some [sampleA, sampleD] :=
      Lib.Codec.Quiet.scan rfl
    have hbufs : (collected s).shm_mmaps = [PathAccess.shortCodec.frames [sampleA, sampleD] ++
        List.replicate (SHM_CHUNK_SIZE - 4 - 4) 0] := by
      simp [collected, hmem]
    have hiter := iter_of_scan (c := PathAccess.shortCodec) (.cons hscan .nil)
    rw [← hbufs] at hiter
    exact hiter

end Fspy.Shm
