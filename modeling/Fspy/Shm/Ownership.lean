import Fspy.Shm.Client

/-!
# Who may write where

The safety of the log rests on exclusive ownership: a chunk is written through one
row of one process only, the row of the process that made it, whose cursor lies in
it or whose thread is still setting it up (`Owns`).  What has to hold of a row is
`SlotInv`; it speaks about the chunk the row owns and nothing else, so a step that
touches a chunk (`Frame`) cannot disturb the rows that do not own it
(`SlotInv.frame`).
-/

namespace Fspy.Shm

/-- What the invariants look at: the shared memory, and what the trace says was
published in each chunk and handed out. -/
structure World where
  mem : Mem
  pub : Nat → List (Key × PathAccess)
  regs : List Region

namespace World

/-- The accesses published in a chunk. -/
def pubs (w : World) (k : Nat) : List PathAccess := (w.pub k).map Prod.snd

/-- The process that made a chunk. -/
def creator (w : World) (k : Nat) : Option Nat := (w.mem.chunks[k]?).map Chunk.creator

/-- The world after the step `l` that leaves the memory `m`. -/
def next (w : World) (l : Label) (m : Mem) : World where
  mem := m
  pub k := w.pub k ++ (l.record.toList.filter (·.1 = k)).map (·.2)
  regs := w.regs ++ l.region.toList

theorem creator_eq_some {w : World} {k p : Nat} :
    w.creator k = some p ↔ ∃ ch, w.mem.chunks[k]? = some ch ∧ ch.creator = p := by
  simp [creator]

theorem lt_of_creator {w : World} {k p : Nat} (h : w.creator k = some p) :
    k < w.mem.chunks.length := by
  obtain ⟨ch, hch, -⟩ := creator_eq_some.mp h
  exact (List.getElem?_eq_some_iff.mp hch).1

end World

/-- The world a run has led to. -/
def world (ls : List Label) (s : State) : World := ⟨s.mem, publishedIn ls, regions ls⟩

theorem records_snoc (ls : List Label) (l : Label) :
    records (ls ++ [l]) = records ls ++ l.record.toList := by
  cases h : l.record <;> simp [records, h]

theorem world_snoc (ls : List Label) (l : Label) (s s' : State) :
    world (ls ++ [l]) s' = (world ls s).next l s'.mem := by
  have hreg : regions (ls ++ [l]) = regions ls ++ l.region.toList := by
    cases h : l.region <;> simp [regions, h]
  have hpub : publishedIn (ls ++ [l]) = fun k ↦
      publishedIn ls k ++ (l.record.toList.filter (·.1 = k)).map (·.2) := by
    funext k
    simp [publishedIn, records_snoc, List.filter_append]
  rw [world, hreg, hpub]
  rfl

/-- `k` has reached the tracker, and no chunk that reached it later holds a record
of the thread `t`. -/
def InOrder (w : World) (t : Key) (k : Nat) : Prop :=
  ∃ before after, w.mem.received = before ++ k :: after ∧
    ∀ k' ∈ after, ∀ r ∈ w.pub k', r.1 ≠ t

/-- The bytes of an owned chunk against the cursor in it: between two sends the
cursor stands right after the published records, during a send the record in the
making lies between the two. -/
def Shape (c : Lib.Codec PathAccess) (as : List PathAccess) (cur : ShmCursor) (bytes : Bytes) :
    Owner → Prop
  | .live (.write a start n) =>
      start = (c.frames as).length ∧ cur.position = start + (1 + c.size a) ∧
        n ≤ c.size a ∧ ∃ room, c.Pending as a n room bytes
  | _ => cur.position = (c.frames as).length ∧ ∃ room, c.Quiet as room bytes

/-- The chunk a thread is setting up. -/
def NewShm.chunk : NewShm → Option Nat
  | .shmOpen => none
  | .sendFd k | .ftruncate k | .map k => some k

/-- How far a chunk has got in `new_shm`. -/
def NewShm.Ready (w : World) (t : Key) (bytes : Bytes) : NewShm → Prop
  | .shmOpen => False
  | .sendFd k => bytes = [] ∧ k ∉ w.mem.received
  | .ftruncate k => bytes = [] ∧ InOrder w t k
  | .map k => bytes = List.replicate SHM_CHUNK_SIZE 0 ∧ InOrder w t k

/-- The cursor of the thread `t` in a chunk of its own process. -/
structure OwnChunk (c : Lib.Codec PathAccess) (w : World) (t : Key) (cur : ShmCursor)
    (owner : Owner) (bytes : Bytes) : Prop where
  len_eq : cur.len = bytes.length
  order : InOrder w t cur.chunk
  regs_le : ∀ r ∈ w.regs, r.chunk = cur.chunk → r.start + r.len ≤ cur.position
  shape : Shape c (w.pubs cur.chunk) cur bytes owner

/-- A chunk `t` is setting up. -/
structure NewChunk (w : World) (t : Key) (stage : NewShm) (k : Nat) : Prop where
  pub_nil : w.pub k = []
  regs_ne : ∀ r ∈ w.regs, r.chunk ≠ k
  ready : ∃ ch, w.mem.chunks[k]? = some ch ∧ ch.creator = t.1 ∧ stage.Ready w t ch.bytes

/-- What holds of the cursor of a row: in a chunk of its own process it is in step
with the bytes, and a living thread finds no room behind a cursor that came with a
fork. -/
structure CursorInv (c : Lib.Codec PathAccess) (w : World) (t : Key)
    (cursor : Option ShmCursor) (owner : Owner) : Prop where
  exist : ∀ cur, cursor = some cur → cur.chunk < w.mem.chunks.length
  own : ∀ cur ch, cursor = some cur → w.mem.chunks[cur.chunk]? = some ch →
    ch.creator = t.1 → OwnChunk c w t cur owner ch.bytes
  foreign : ∀ cur pc, cursor = some cur → w.creator cur.chunk ≠ some t.1 →
    owner = .live pc → cur.position = cur.len

/-- What holds of a row. -/
structure SlotInv (c : Lib.Codec PathAccess) (w : World) (t : Key) (slot : Slot) : Prop where
  cursor : CursorInv c w t slot.cursor slot.owner
  writing : ∀ a start n, slot.owner = .live (.write a start n) →
    ∃ cur, slot.cursor = some cur ∧ w.creator cur.chunk = some t.1
  building : ∀ a again stage k, slot.owner = .live (.newShm a again stage) →
    stage.chunk = some k → NewChunk w t stage k
  apart : ∀ a again stage k cur, slot.owner = .live (.newShm a again stage) →
    stage.chunk = some k → slot.cursor = some cur → cur.chunk ≠ k

/-- The row of `t` is the one through which the chunk `k` is written. -/
def Owns (w : World) (t : Key) (slot : Slot) (k : Nat) : Prop :=
  (∃ cur, slot.cursor = some cur ∧ cur.chunk = k ∧ w.creator k = some t.1) ∨
    ∃ a again stage, slot.owner = .live (.newShm a again stage) ∧ stage.chunk = some k

/-- A step of `t` that touches at most the chunk `k`. -/
structure Frame (w w' : World) (t : Key) (k : Nat) : Prop where
  length_le : w.mem.chunks.length ≤ w'.mem.chunks.length
  chunk_eq : ∀ k', k' ≠ k → k' < w.mem.chunks.length →
    w'.mem.chunks[k']? = w.mem.chunks[k']?
  creator_eq : ∀ k', k' < w.mem.chunks.length → w'.creator k' = w.creator k'
  creator_new : ∀ k' p, w'.creator k' = some p → w.creator k' = some p ∨ p = t.1
  pub_eq : ∀ k', k' ≠ k → w'.pub k' = w.pub k'
  pub_sub : ∀ r ∈ w'.pub k, r ∈ w.pub k ∨ r.1 = t
  received : w'.mem.received = w.mem.received ∨
    w'.mem.received = w.mem.received ++ [k] ∧ w'.pub k = []
  regs_sub : ∀ r ∈ w'.regs, r ∈ w.regs ∨ r.chunk = k

variable {c : Lib.Codec PathAccess} {w w' : World} {t t' : Key} {slot slot' : Slot} {k : Nat}

theorem Frame.refl (w : World) (t : Key) (k : Nat) : Frame w w t k where
  length_le := Nat.le_refl _
  chunk_eq _ _ _ := rfl
  creator_eq _ _ := rfl
  creator_new _ _ h := .inl h
  pub_eq _ _ := rfl
  pub_sub _ hr := .inl hr
  received := .inl rfl
  regs_sub _ hr := .inl hr

/-- The order of the chunks of a thread survives a step that publishes nothing in
its name. -/
theorem InOrder.frame {k' : Nat} (h : InOrder w t' k') (hf : Frame w w' t k)
    (hpub : ∀ k'', ∀ r ∈ w'.pub k'', r.1 = t' → r ∈ w.pub k'') : InOrder w' t' k' := by
  obtain ⟨before, after, heq, hafter⟩ := h
  have hold : ∀ k'' ∈ after, ∀ r ∈ w'.pub k'', r.1 ≠ t' := fun k'' hk'' r hr he ↦
    hafter k'' hk'' r (hpub k'' r hr he) he
  rcases hf.received with hrec | ⟨hrec, hnil⟩
  · exact ⟨before, after, hrec.trans heq, hold⟩
  · refine ⟨before, after ++ [k], by rw [hrec, heq]; simp, ?_⟩
    intro k'' hk'' r hr
    rcases List.mem_append.mp hk'' with hk'' | hk''
    · exact hold k'' hk'' r hr
    · obtain rfl := List.mem_singleton.mp hk''
      rw [hnil] at hr
      cases hr

/-- Another thread's step publishes nothing in the name of `t'`. -/
theorem Frame.pub_other (hf : Frame w w' t k) (ht : t' ≠ t) :
    ∀ k'', ∀ r ∈ w'.pub k'', r.1 = t' → r ∈ w.pub k'' := by
  intro k'' r hr he
  by_cases hk : k'' = k
  · subst hk
    rcases hf.pub_sub r hr with hr | hr
    · exact hr
    · exact absurd (he.symm.trans hr) ht
  · exact hf.pub_eq k'' hk ▸ hr

/-- A cursor that does not lie in the touched chunk keeps its invariant. -/
theorem CursorInv.frame {cursor : Option ShmCursor} {owner : Owner}
    (h : CursorInv c w t' cursor owner) (hf : Frame w w' t k)
    (hpub : ∀ k'', ∀ r ∈ w'.pub k'', r.1 = t' → r ∈ w.pub k'')
    (hk : ∀ cur, cursor = some cur → cur.chunk = k → w.creator k ≠ some t'.1) :
    CursorInv c w' t' cursor owner where
  exist cur hcur := Nat.lt_of_lt_of_le (h.exist cur hcur) hf.length_le
  own cur ch hcur hch hp := by
    have hlt := h.exist cur hcur
    have hcr : w.creator cur.chunk = some t'.1 := by
      rw [← hf.creator_eq _ hlt]
      exact World.creator_eq_some.mpr ⟨ch, hch, hp⟩
    have hne : cur.chunk ≠ k := fun he ↦ hk cur hcur he (he ▸ hcr)
    rw [hf.chunk_eq _ hne hlt] at hch
    have ho := h.own cur ch hcur hch hp
    refine ⟨ho.len_eq, ho.order.frame hf hpub, ?_, ?_⟩
    · intro r hr hrk
      rcases hf.regs_sub r hr with hr | hr
      · exact ho.regs_le r hr hrk
      · exact absurd (hrk.symm.trans hr) hne
    · rw [World.pubs, hf.pub_eq _ hne]
      exact ho.shape
  foreign cur pc hcur hcr hpc :=
    h.foreign cur pc hcur (hf.creator_eq _ (h.exist cur hcur) ▸ hcr) hpc

/-- A chunk in the making that is not the touched one. -/
theorem NewChunk.frame {stage : NewShm} {k' : Nat} (h : NewChunk w t' stage k')
    (hs : stage.chunk = some k') (hf : Frame w w' t k) (hne : k' ≠ k)
    (hpub : ∀ k'', ∀ r ∈ w'.pub k'', r.1 = t' → r ∈ w.pub k'') : NewChunk w' t' stage k' := by
  obtain ⟨ch, hch, hcr, hready⟩ := h.ready
  refine ⟨by rw [hf.pub_eq _ hne, h.pub_nil], ?_, ch, ?_, hcr, ?_⟩
  · intro r hr
    rcases hf.regs_sub r hr with hr | hr
    · exact h.regs_ne r hr
    · exact fun he ↦ hne (he.symm.trans hr)
  · rw [hf.chunk_eq _ hne (List.getElem?_eq_some_iff.mp hch).1, hch]
  · cases stage with
    | shmOpen => exact hready
    | sendFd k₀ =>
        obtain rfl : k₀ = k' := Option.some.inj hs
        refine ⟨hready.1, ?_⟩
        rcases hf.received with hrec | ⟨hrec, -⟩
        · rw [hrec]
          exact hready.2
        · rw [hrec]
          simp [hready.2, hne]
    | ftruncate k₀ => exact ⟨hready.1, hready.2.frame hf hpub⟩
    | map k₀ => exact ⟨hready.1, hready.2.frame hf hpub⟩

/-- **Frame.**  A row that does not own the touched chunk keeps its invariant. -/
theorem SlotInv.frame (h : SlotInv c w t' slot) (hf : Frame w w' t k) (ht : t' ≠ t)
    (hk : ¬Owns w t' slot k) : SlotInv c w' t' slot where
  cursor := h.cursor.frame hf (hf.pub_other ht)
    fun cur hcur he hcr ↦ hk (.inl ⟨cur, hcur, he, hcr⟩)
  writing a start n ho := by
    obtain ⟨cur, hcur, hcr⟩ := h.writing a start n ho
    exact ⟨cur, hcur, by rw [hf.creator_eq _ (h.cursor.exist cur hcur), hcr]⟩
  building a again stage k' ho hs :=
    (h.building a again stage k' ho hs).frame hs hf
      (fun he ↦ hk (.inr ⟨a, again, stage, ho, he ▸ hs⟩)) (hf.pub_other ht)
  apart := h.apart

/-- Another thread's step leaves what a row owns. -/
theorem Owns.frame {k' : Nat} (hs : SlotInv c w t' slot) (hf : Frame w w' t k)
    (h : Owns w' t' slot k') : Owns w t' slot k' := by
  rcases h with ⟨cur, hcur, rfl, hcr⟩ | h
  · exact .inl ⟨cur, hcur, rfl, by rw [← hf.creator_eq _ (hs.cursor.exist cur hcur), hcr]⟩
  · exact .inr h

/-- Only chunks that exist are owned. -/
theorem Owns.lt (hs : SlotInv c w t slot) (h : Owns w t slot k) : k < w.mem.chunks.length := by
  rcases h with ⟨cur, hcur, rfl, -⟩ | ⟨a, again, stage, ho, hk⟩
  · exact hs.cursor.exist cur hcur
  · obtain ⟨ch, hch, -⟩ := (hs.building a again stage k ho hk).ready
    exact (List.getElem?_eq_some_iff.mp hch).1

end Fspy.Shm
