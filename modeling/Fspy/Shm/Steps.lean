import Fspy.Shm.Ownership

/-!
# What each step of a thread does

`Log` is what holds of the log as a whole, and `Moved` what a step of one thread
does to its row and to the log: it touches at most one chunk, one the row owned or
one that did not exist before, and keeps the invariant of the row.  There is one
lemma per kind of step; `moved_of_step` assembles them.
-/

namespace Fspy.Shm

/-- Two regions share no byte. -/
def Region.Disjoint (r r' : Region) : Prop :=
  r.chunk ≠ r'.chunk ∨ r.start + r.len ≤ r'.start ∨ r'.start + r'.len ≤ r.start

instance (r r' : Region) : Decidable (r.Disjoint r') :=
  inferInstanceAs (Decidable (_ ∨ _ ∨ _))

/-- What holds of the log as a whole: every chunk reads back as what was published
in it, the regions handed out are pairwise disjoint, and every thread finds its
records in the received chunks in the order it published them. -/
structure Log (c : Lib.Codec PathAccess) (rs : List (Nat × Key × PathAccess)) (w : World) :
    Prop where
  scan : ∀ k ch, w.mem.chunks[k]? = some ch → c.scan ch.bytes = some (w.pubs k)
  fresh_pub : ∀ k, w.mem.chunks.length ≤ k → w.pub k = []
  regs_lt : ∀ r ∈ w.regs, r.chunk < w.mem.chunks.length
  disjoint : w.regs.Pairwise Region.Disjoint
  nodup : w.mem.received.Nodup
  received_lt : ∀ k ∈ w.mem.received, k < w.mem.chunks.length
  order : ∀ t : Key, (w.mem.received.flatMap w.pub).filter (·.1 = t) =
    (rs.map (·.2)).filter (·.1 = t)

/-- The effect of a step of the thread `t`, which turns the row `slot` into `slot'`. -/
structure Moved (c : Lib.Codec PathAccess) (rs : List (Nat × Key × PathAccess)) (t : Key)
    (w w' : World) (slot slot' : Slot) (k : Nat) : Prop where
  frame : Frame w w' t k
  touched : Owns w t slot k ∨ w.mem.chunks.length ≤ k
  owns : ∀ k', Owns w' t slot' k' → Owns w t slot k' ∨ w.mem.chunks.length ≤ k'
  slotInv : SlotInv c w' t slot'
  log : Log c rs w'

variable {c : Lib.Codec PathAccess} {rs : List (Nat × Key × PathAccess)} {w : World} {t : Key}
  {slot : Slot}

/-! ## Steps that only move the thread -/

/-- Neither writing a record nor holding a chunk in the making. -/
def Owner.Still : Owner → Prop
  | .live (.write _ _ _) => False
  | .live (.newShm _ _ stage) => stage.chunk = none
  | _ => True

/-- No record of the row is in the making. -/
def Owner.NotWriting (o : Owner) : Prop := ∀ a start n, o ≠ .live (.write a start n)

theorem Owner.Still.notWriting {o : Owner} (h : o.Still) : o.NotWriting := by
  rintro a start n rfl
  exact h

theorem shape_of_notWriting {as : List PathAccess} {cur : ShmCursor} {bytes : Bytes} {o : Owner}
    (h : o.NotWriting) : Shape c as cur bytes o ↔
      cur.position = (c.frames as).length ∧ ∃ room, c.Quiet as room bytes := by
  cases o with
  | free => exact Iff.rfl
  | orphan => exact Iff.rfl
  | live pc =>
      cases pc with
      | write a start n => exact absurd rfl (h a start n)
      | _ => exact Iff.rfl

/-- The cursor's invariant does not depend on what else the thread is doing. -/
theorem CursorInv.setOwner {cursor : Option ShmCursor} {o o' : Owner}
    (h : CursorInv c w t cursor o) (ho : o.NotWriting) (ho' : o'.NotWriting)
    (hforeign : ∀ cur pc, cursor = some cur → w.creator cur.chunk ≠ some t.1 →
      o' = .live pc → cur.position = cur.len) : CursorInv c w t cursor o' where
  exist := h.exist
  own cur ch hcur hch hcr := by
    obtain ⟨hlen, horder, hregs, hshape⟩ := h.own cur ch hcur hch hcr
    exact ⟨hlen, horder, hregs,
      (shape_of_notWriting ho').mpr ((shape_of_notWriting ho).mp hshape)⟩
  foreign := hforeign

/-- The usual case: the thread was alive before. -/
theorem CursorInv.setPc {cursor : Option ShmCursor} {pc pc' : Pc}
    (h : CursorInv c w t cursor (.live pc)) (hpc : Owner.NotWriting (.live pc))
    (hpc' : Owner.NotWriting (.live pc')) : CursorInv c w t cursor (.live pc') :=
  h.setOwner hpc hpc' fun cur _ hcur hcr _ ↦ h.foreign cur pc hcur hcr rfl

theorem owns_of_still {cursor : Option ShmCursor} {o o' : Owner} {k : Nat} (ho' : o'.Still)
    (h : Owns w t ⟨cursor, o'⟩ k) : Owns w t ⟨cursor, o⟩ k := by
  rcases h with h | ⟨a, again, stage, rfl, hs⟩
  · exact .inl h
  · rw [show stage.chunk = none from ho'] at hs
    cases hs

/-- A step that changes neither the memory nor what the trace says about it. -/
theorem Moved.still {cursor : Option ShmCursor} {o o' : Owner}
    (hs : SlotInv c w t ⟨cursor, o⟩) (hlog : Log c rs w) (ho : o.Still) (ho' : o'.Still)
    (hforeign : ∀ cur pc, cursor = some cur → w.creator cur.chunk ≠ some t.1 →
      o' = .live pc → cur.position = cur.len) :
    Moved c rs t w w ⟨cursor, o⟩ ⟨cursor, o'⟩ w.mem.chunks.length where
  frame := .refl _ _ _
  touched := .inr (Nat.le_refl _)
  owns k' h := .inl (owns_of_still ho' h)
  slotInv := by
    refine ⟨hs.cursor.setOwner ho.notWriting ho'.notWriting hforeign, ?_, ?_, ?_⟩
    · rintro a start n rfl
      exact absurd ho' id
    · rintro a again stage k rfl hk
      rw [show stage.chunk = none from ho'] at hk
      cases hk
    · rintro a again stage k cur rfl hk
      rw [show stage.chunk = none from ho'] at hk
      cases hk
  log := hlog

/-! ## Setting up a chunk -/

theorem Mem.getElem?_setBytes (m : Mem) (k k' : Nat) (f : Bytes → Bytes) :
    (m.setBytes k f).chunks[k']? = (m.chunks[k']?).map fun ch ↦
      if k = k' then { ch with bytes := f ch.bytes } else ch :=
  List.getElem?_modify _ _ _ _

theorem Mem.getElem?_setBytes_self {m : Mem} {k : Nat} {ch : Chunk} (f : Bytes → Bytes)
    (hch : m.chunks[k]? = some ch) :
    (m.setBytes k f).chunks[k]? = some { ch with bytes := f ch.bytes } := by
  rw [Mem.getElem?_setBytes, hch, Option.map_some, if_pos rfl]

@[simp] theorem Mem.length_setBytes (m : Mem) (k : Nat) (f : Bytes → Bytes) :
    (m.setBytes k f).chunks.length = m.chunks.length :=
  List.length_modify _ _ _

@[simp] theorem Mem.received_setBytes (m : Mem) (k : Nat) (f : Bytes → Bytes) :
    (m.setBytes k f).received = m.received := rfl

theorem World.creator_setBytes (w : World) (k k' : Nat) (f : Bytes → Bytes)
    (pub : Nat → List (Key × PathAccess)) (regs : List Region) :
    (World.mk (w.mem.setBytes k f) pub regs).creator k' = w.creator k' := by
  rw [World.creator, World.creator, Mem.getElem?_setBytes, Option.map_map]
  congr 1
  funext ch
  simp only [Function.comp]
  split <;> rfl

/-- Replacing the bytes of one chunk, and possibly publishing one record of `t`
there. -/
theorem Frame.setBytes {k : Nat} {f : Bytes → Bytes} {pub : Nat → List (Key × PathAccess)}
    (hpub : ∀ k', k' ≠ k → pub k' = w.pub k') (hsub : ∀ r ∈ pub k, r ∈ w.pub k ∨ r.1 = t) :
    Frame w ⟨w.mem.setBytes k f, pub, w.regs⟩ t k where
  length_le := by simp
  chunk_eq k' hk' _ := by
    rw [Mem.getElem?_setBytes]
    simp [Ne.symm hk']
  creator_eq k' _ := w.creator_setBytes k k' f pub w.regs
  creator_new k' p h := .inl (by rw [← w.creator_setBytes k k' f pub w.regs, h])
  pub_eq := hpub
  pub_sub := hsub
  received := .inl rfl
  regs_sub _ hr := .inl hr

/-- The log after the bytes of one chunk have changed, if they still read back. -/
theorem Log.setBytes {k : Nat} {f : Bytes → Bytes} (h : Log c rs w)
    (hf : ∀ ch, w.mem.chunks[k]? = some ch → c.scan (f ch.bytes) = some (w.pubs k)) :
    Log c rs ⟨w.mem.setBytes k f, w.pub, w.regs⟩ where
  scan k' ch hch := by
    rw [Mem.getElem?_setBytes] at hch
    obtain ⟨ch₀, hch₀, rfl⟩ := Option.map_eq_some_iff.mp hch
    split
    · rename_i he
      subst he
      exact hf ch₀ hch₀
    · exact h.scan k' ch₀ hch₀
  fresh_pub k' hk' := h.fresh_pub k' (by simpa using hk')
  regs_lt r hr := by simpa using h.regs_lt r hr
  disjoint := h.disjoint
  nodup := h.nodup
  received_lt k' hk' := by simpa using h.received_lt k' hk'
  order := h.order

theorem moved_shmOpen {a : PathAccess} {again : Bool} {cursor : Option ShmCursor}
    (hs : SlotInv c w t ⟨cursor, .live (.newShm a again .shmOpen)⟩) (hlog : Log c rs w) :
    Moved c rs t w ⟨{ w.mem with chunks := w.mem.chunks ++ [⟨t.1, []⟩] }, w.pub, w.regs⟩
      ⟨cursor, .live (.newShm a again .shmOpen)⟩
      ⟨cursor, .live (.newShm a again (.sendFd w.mem.chunks.length))⟩ w.mem.chunks.length := by
  have hold : ∀ k', k' < w.mem.chunks.length →
      (w.mem.chunks ++ [⟨t.1, []⟩])[k']? = w.mem.chunks[k']? := fun k' hk' ↦
    List.getElem?_append_left hk'
  have hframe : Frame w
      ⟨{ w.mem with chunks := w.mem.chunks ++ [⟨t.1, []⟩] }, w.pub, w.regs⟩ t
      w.mem.chunks.length := by
    refine ⟨by simp, fun k' _ hk' ↦ hold k' hk', fun k' hk' ↦ ?_, fun k' p hp ↦ ?_,
      fun _ _ ↦ rfl, fun _ hr ↦ .inl hr, .inl rfl, fun _ hr ↦ .inl hr⟩
    · rw [World.creator, World.creator]
      exact congrArg _ (hold k' hk')
    · obtain ⟨ch, hch, rfl⟩ := World.creator_eq_some.mp hp
      rcases Nat.lt_or_ge k' w.mem.chunks.length with hk' | hk'
      · exact .inl (World.creator_eq_some.mpr ⟨ch, hold k' hk' ▸ hch, rfl⟩)
      · simp only [List.getElem?_append_right hk'] at hch
        exact .inr (by rw [List.mem_singleton.mp (List.mem_of_getElem? hch)])
  refine ⟨hframe, .inr (Nat.le_refl _), ?_, ⟨?_, ?_, ?_, ?_⟩, ?_⟩
  · rintro k' (⟨cur, hcur, rfl, hcr⟩ | ⟨a', again', stage, ho, hk⟩)
    · exact .inl (.inl ⟨cur, hcur, rfl,
        by rw [← hframe.creator_eq _ (hs.cursor.exist cur hcur), hcr]⟩)
    · cases ho
      exact .inr (Nat.le_of_eq (Option.some.inj hk))
  · refine (hs.cursor.frame hframe (fun _ _ hr _ ↦ hr) ?_).setPc
      (by rintro _ _ _ ⟨⟩) (by rintro _ _ _ ⟨⟩)
    intro cur hcur he
    exact absurd (he ▸ hs.cursor.exist cur hcur) (Nat.lt_irrefl _)
  · rintro _ _ _ ⟨⟩
  · intro a' again' stage k ho hk
    cases ho
    obtain rfl := Option.some.inj hk
    refine ⟨hlog.fresh_pub _ (Nat.le_refl _), fun r hr he ↦ ?_, ⟨t.1, []⟩, by simp, rfl, rfl, ?_⟩
    · exact absurd (he ▸ hlog.regs_lt r hr) (Nat.lt_irrefl _)
    · exact fun hmem ↦ absurd (hlog.received_lt _ hmem) (Nat.lt_irrefl _)
  · rintro a' again' stage k cur ho hk hcur rfl
    cases ho
    have hlt := hs.cursor.exist cur hcur
    rw [← Option.some.inj hk] at hlt
    exact absurd hlt (Nat.lt_irrefl _)
  · refine ⟨?_, ?_, ?_, hlog.disjoint, hlog.nodup, ?_, hlog.order⟩
    · intro k' ch hch
      rcases Nat.lt_or_ge k' w.mem.chunks.length with hk' | hk'
      · exact hlog.scan k' ch (hold k' hk' ▸ hch)
      · have hnil : w.pub k' = [] := hlog.fresh_pub k' hk'
        have hbytes : ch.bytes = [] := by
          simp only [List.getElem?_append_right hk'] at hch
          have hmem := List.mem_of_getElem? hch
          rw [List.mem_singleton.mp hmem]
        rw [hbytes, World.pubs, hnil]
        exact c.scan_unpublished trivial
    · intro k' hk'
      simp only [List.length_append, List.length_singleton] at hk'
      exact hlog.fresh_pub k' (by omega)
    · intro r hr
      simp only [List.length_append, List.length_singleton]
      exact Nat.lt_succ_of_lt (hlog.regs_lt r hr)
    · intro k' hk'
      simp only [List.length_append, List.length_singleton]
      exact Nat.lt_succ_of_lt (hlog.received_lt k' hk')

/-- A chunk in the making goes to its next stage, which the cursor does not see. -/
theorem Moved.newShm {a : PathAccess} {again : Bool} {cursor : Option ShmCursor} {k : Nat}
    {stage stage' : NewShm} {w' : World}
    (hs : SlotInv c w t ⟨cursor, .live (.newShm a again stage)⟩) (hk : stage.chunk = some k)
    (hk' : stage'.chunk = some k) (hframe : Frame w w' t k) (hpub : w'.pub = w.pub)
    (hcreator : ∀ k, w'.creator k = w.creator k) (hnew : NewChunk w' t stage' k)
    (hlog : Log c rs w') :
    Moved c rs t w w' ⟨cursor, .live (.newShm a again stage)⟩
      ⟨cursor, .live (.newShm a again stage')⟩ k where
  frame := hframe
  touched := .inl (.inr ⟨a, again, _, rfl, hk⟩)
  owns := by
    rintro j (⟨cur, hcur, he, hcr⟩ | ⟨a', again', stage, ho, hj⟩)
    · exact .inl (.inl ⟨cur, hcur, he, by rw [← hcr, hcreator]⟩)
    · cases ho
      exact .inl (.inr ⟨a, again, _, rfl, hk.trans (hk'.symm.trans hj)⟩)
  slotInv := by
    refine ⟨?_, ?_, ?_, ?_⟩
    · refine (hs.cursor.frame hframe ?_ ?_).setPc (by rintro _ _ _ ⟨⟩) (by rintro _ _ _ ⟨⟩)
      · intro j r hr _
        exact hpub ▸ hr
      · exact fun cur hcur he ↦ absurd he (hs.apart a again _ k cur rfl hk hcur)
    · rintro _ _ _ ⟨⟩
    · intro a' again' stage j ho hj
      cases ho
      obtain rfl := Option.some.inj (hk'.symm.trans hj)
      exact hnew
    · intro a' again' stage j cur ho hj hcur
      cases ho
      exact hs.apart a again _ j cur rfl (hk.trans (hk'.symm.trans hj)) hcur
  log := hlog

theorem moved_sendFd {a : PathAccess} {again : Bool} {cursor : Option ShmCursor} {k : Nat}
    (hs : SlotInv c w t ⟨cursor, .live (.newShm a again (.sendFd k))⟩) (hlog : Log c rs w) :
    Moved c rs t w ⟨{ w.mem with received := w.mem.received ++ [k] }, w.pub, w.regs⟩
      ⟨cursor, .live (.newShm a again (.sendFd k))⟩
      ⟨cursor, .live (.newShm a again (.ftruncate k))⟩ k := by
  have hnew := hs.building a again _ k rfl rfl
  obtain ⟨ch, hch, hcr, hempty, hnot⟩ := hnew.ready
  have hframe : Frame w ⟨{ w.mem with received := w.mem.received ++ [k] }, w.pub, w.regs⟩ t k :=
    ⟨Nat.le_refl _, fun _ _ _ ↦ rfl, fun _ _ ↦ rfl, fun _ _ h ↦ .inl h, fun _ _ ↦ rfl,
      fun _ hr ↦ .inl hr, .inr ⟨rfl, hnew.pub_nil⟩, fun _ hr ↦ .inl hr⟩
  refine .newShm hs rfl rfl hframe rfl (fun _ ↦ rfl) ?_ ?_
  · exact ⟨hnew.pub_nil, hnew.regs_ne, ch, hch, hcr, hempty,
      ⟨w.mem.received, [], rfl, by simp⟩⟩
  · refine ⟨hlog.scan, hlog.fresh_pub, hlog.regs_lt, hlog.disjoint, ?_, ?_, ?_⟩
    · exact List.nodup_append.mpr ⟨hlog.nodup, by simp, by
        rintro x hx y hy rfl
        exact hnot (List.mem_singleton.mp hy ▸ hx)⟩
    · intro k' hk'
      rcases List.mem_append.mp hk' with hk' | hk'
      · exact hlog.received_lt k' hk'
      · rw [List.mem_singleton.mp hk']
        exact (List.getElem?_eq_some_iff.mp hch).1
    · intro t'
      rw [← hlog.order t']
      simp [hnew.pub_nil]

theorem moved_ftruncate {a : PathAccess} {again : Bool} {cursor : Option ShmCursor} {k : Nat}
    (hs : SlotInv c w t ⟨cursor, .live (.newShm a again (.ftruncate k))⟩) (hlog : Log c rs w) :
    Moved c rs t w ⟨w.mem.setBytes k fun _ ↦ List.replicate SHM_CHUNK_SIZE 0, w.pub, w.regs⟩
      ⟨cursor, .live (.newShm a again (.ftruncate k))⟩
      ⟨cursor, .live (.newShm a again (.map k))⟩ k := by
  have hnew := hs.building a again _ k rfl rfl
  obtain ⟨ch, hch, hcr, -, horder⟩ := hnew.ready
  have hframe : Frame w
      ⟨w.mem.setBytes k fun _ ↦ List.replicate SHM_CHUNK_SIZE 0, w.pub, w.regs⟩ t k :=
    .setBytes (fun _ _ ↦ rfl) (fun _ hr ↦ .inl hr)
  refine .newShm hs rfl rfl hframe rfl (fun _ ↦ World.creator_setBytes ..) ?_ ?_
  · exact ⟨hnew.pub_nil, hnew.regs_ne, _, Mem.getElem?_setBytes_self _ hch, hcr, rfl, horder⟩
  · apply hlog.setBytes
    intro ch' _
    rw [(c.quiet_zeros SHM_CHUNK_SIZE).scan, World.pubs, hnew.pub_nil]
    rfl

/-- The thread comes to stand, or stays, in a chunk of its own process, and touches no
other. -/
theorem Moved.ownChunk (cur : ShmCursor) {w' : World} {pc : Pc} {ch : Chunk}
    (howns : Owns w t slot cur.chunk) (hcr : w.creator cur.chunk = some t.1)
    (hpc : ∀ a again stage, pc ≠ .newShm a again stage) (hframe : Frame w w' t cur.chunk)
    (hch : w'.mem.chunks[cur.chunk]? = some ch) (hown : OwnChunk c w' t cur (.live pc) ch.bytes)
    (hlog : Log c rs w') : Moved c rs t w w' slot ⟨some cur, .live pc⟩ cur.chunk where
  frame := hframe
  touched := .inl howns
  owns := by
    rintro k (⟨cur₀, hcur₀, rfl, -⟩ | ⟨a, again, stage, ho, -⟩)
    · cases hcur₀
      exact .inl howns
    · exact absurd (Owner.live.inj ho) (hpc a again stage)
  slotInv := by
    have hcr' : w'.creator cur.chunk = some t.1 := by
      rw [hframe.creator_eq _ (World.lt_of_creator hcr), hcr]
    refine ⟨⟨?_, ?_, ?_⟩, ?_, ?_, ?_⟩
    · rintro cur₀ ⟨⟩
      exact World.lt_of_creator hcr'
    · rintro cur₀ ch₀ ⟨⟩ hch₀ -
      obtain rfl : ch = ch₀ := Option.some.inj (hch.symm.trans hch₀)
      exact hown
    · rintro cur₀ pc₀ ⟨⟩ hne
      exact absurd hcr' hne
    · exact fun _ _ _ _ ↦ ⟨cur, rfl, hcr'⟩
    · exact fun a again stage _ ho ↦ absurd (Owner.live.inj ho) (hpc a again stage)
    · exact fun a again stage _ _ ho ↦ absurd (Owner.live.inj ho) (hpc a again stage)
  log := hlog

theorem moved_map {a : PathAccess} {again : Bool} {cursor : Option ShmCursor} {k : Nat}
    {ch : Chunk} (hs : SlotInv c w t ⟨cursor, .live (.newShm a again (.map k))⟩)
    (hlog : Log c rs w) (hch : w.mem.chunks[k]? = some ch) :
    Moved c rs t w w ⟨cursor, .live (.newShm a again (.map k))⟩
      ⟨some ⟨k, ch.bytes.length, 0⟩, .live (.advance a again)⟩ k := by
  have hnew := hs.building a again _ k rfl rfl
  obtain ⟨ch', hch', hcr, hbytes, horder⟩ := hnew.ready
  obtain rfl : ch = ch' := Option.some.inj (hch.symm.trans hch')
  have hcreator : w.creator k = some t.1 := World.creator_eq_some.mpr ⟨ch, hch, hcr⟩
  refine .ownChunk ⟨k, ch.bytes.length, 0⟩ (.inr ⟨a, again, _, rfl, rfl⟩) hcreator
    (by rintro _ _ _ ⟨⟩) (.refl _ _ _) hch ?_ hlog
  refine ⟨rfl, horder, fun r hr he ↦ absurd he (hnew.regs_ne r hr), ?_⟩
  refine (shape_of_notWriting (by rintro _ _ _ ⟨⟩)).mpr ⟨?_, SHM_CHUNK_SIZE, ?_⟩
  · rw [World.pubs, hnew.pub_nil]
    rfl
  · rw [World.pubs, hnew.pub_nil, hbytes]
    exact c.quiet_zeros _

/-! ## Writing a record -/

/-- The cursor behind which `advance` finds room lies in a chunk of its own process,
where it stands right after the published records. -/
theorem own_of_advance {a : PathAccess} {again : Bool} {cur cur' : ShmCursor} {start : Nat}
    (hs : SlotInv c w t ⟨some cur, .live (.advance a again)⟩)
    (hadv : cur.advance (1 + c.size a) = some (start, cur')) :
    ∃ ch, w.mem.chunks[cur.chunk]? = some ch ∧ ch.creator = t.1 ∧
      OwnChunk c w t cur (.live (.advance a again)) ch.bytes := by
  obtain ⟨hroom, -, -⟩ := ShmCursor.advance_eq_some.mp hadv
  have hcr : w.creator cur.chunk = some t.1 := by
    by_contra hne
    have hfull := hs.cursor.foreign cur _ rfl hne rfl
    omega
  obtain ⟨ch, hch, hp⟩ := World.creator_eq_some.mp hcr
  exact ⟨ch, hch, hp, hs.cursor.own cur ch rfl hch hp⟩

theorem moved_advance {a : PathAccess} {again : Bool} {cur cur' : ShmCursor} {start : Nat}
    (hs : SlotInv c w t ⟨some cur, .live (.advance a again)⟩) (hlog : Log c rs w)
    (hadv : cur.advance (1 + c.size a) = some (start, cur')) :
    Moved c rs t w ⟨w.mem, w.pub, w.regs ++ [⟨cur.chunk, start, 1 + c.size a⟩]⟩
      ⟨some cur, .live (.advance a again)⟩ ⟨some cur', .live (.write a start 0)⟩ cur.chunk := by
  obtain ⟨ch, hch, hp, hown⟩ := own_of_advance hs hadv
  obtain ⟨hroom, rfl, rfl⟩ := ShmCursor.advance_eq_some.mp hadv
  have hcreator : w.creator cur.chunk = some t.1 := World.creator_eq_some.mpr ⟨ch, hch, hp⟩
  obtain ⟨hpos, room, hquiet⟩ := (shape_of_notWriting (by rintro _ _ _ ⟨⟩)).mp hown.shape
  have hframe : Frame w
      ⟨w.mem, w.pub, w.regs ++ [⟨cur.chunk, cur.position, 1 + c.size a⟩]⟩ t cur.chunk := by
    refine ⟨Nat.le_refl _, fun _ _ _ ↦ rfl, fun _ _ ↦ rfl, fun _ _ h ↦ .inl h, fun _ _ ↦ rfl,
      fun _ hr ↦ .inl hr, .inl rfl, fun r hr ↦ ?_⟩
    rcases List.mem_append.mp hr with hr | hr
    · exact .inl hr
    · exact .inr (by rw [List.mem_singleton.mp hr])
  have hregs : ∀ r ∈ w.regs ++ [⟨cur.chunk, cur.position, 1 + c.size a⟩], r.chunk = cur.chunk →
      r.start + r.len ≤ cur.position + (1 + c.size a) := by
    intro r hr he
    rcases List.mem_append.mp hr with hr | hr
    · exact Nat.le_add_right_of_le (hown.regs_le r hr he)
    · obtain rfl := List.mem_singleton.mp hr
      exact Nat.le_refl _
  refine .ownChunk { cur with position := cur.position + (1 + c.size a) }
    (.inl ⟨cur, rfl, rfl, hcreator⟩) hcreator (by rintro _ _ _ ⟨⟩) hframe hch ?_ ?_
  · refine ⟨hown.len_eq, hown.order, hregs, hpos, rfl, Nat.zero_le _, ?_⟩
    have hlen := hquiet.length_eq
    have hlen' := hown.len_eq
    refine ⟨room - (1 + c.size a), Lib.Codec.Quiet.reserve ?_⟩
    rw [show 1 + c.size a + (room - (1 + c.size a)) = room by omega]
    exact hquiet
  · refine ⟨hlog.scan, hlog.fresh_pub, ?_, ?_, hlog.nodup, hlog.received_lt, hlog.order⟩
    · intro r hr
      rcases List.mem_append.mp hr with hr | hr
      · exact hlog.regs_lt r hr
      · rw [List.mem_singleton.mp hr]
        exact hs.cursor.exist cur rfl
    · refine List.pairwise_append.mpr ⟨hlog.disjoint, List.pairwise_singleton _ _, ?_⟩
      intro r hr r' hr'
      rw [List.mem_singleton.mp hr']
      by_cases he : r.chunk = cur.chunk
      · exact .inr (.inl (hown.regs_le r hr he))
      · exact .inl he

/-- The record a thread is writing, in the chunk it owns. -/
theorem own_of_write {a : PathAccess} {start n : Nat} {cur : ShmCursor}
    (hs : SlotInv c w t ⟨some cur, .live (.write a start n)⟩) :
    ∃ ch, w.mem.chunks[cur.chunk]? = some ch ∧ w.creator cur.chunk = some t.1 ∧
      OwnChunk c w t cur (.live (.write a start n)) ch.bytes := by
  obtain ⟨cur₀, hcur₀, hcr⟩ := hs.writing a start n rfl
  cases hcur₀
  obtain ⟨ch, hch, hp⟩ := World.creator_eq_some.mp hcr
  exact ⟨ch, hch, hcr, hs.cursor.own cur ch rfl hch hp⟩

theorem moved_write {a : PathAccess} {start n : Nat} {cur : ShmCursor} {b : UInt8}
    (hs : SlotInv c w t ⟨some cur, .live (.write a start n)⟩) (hlog : Log c rs w)
    (hb : (c.encode a)[n]? = some b) :
    Moved c rs t w ⟨w.mem.setBytes cur.chunk (·.set (start + 1 + n) b), w.pub, w.regs⟩
      ⟨some cur, .live (.write a start n)⟩ ⟨some cur, .live (.write a start (n + 1))⟩
      cur.chunk := by
  obtain ⟨ch, hch, hcr, hown⟩ := own_of_write hs
  obtain ⟨rfl, hpos, hn, room, hpending⟩ := hown.shape
  have hnext := hpending.write hb
  have hframe : Frame w ⟨w.mem.setBytes cur.chunk
      (·.set ((c.frames (w.pubs cur.chunk)).length + 1 + n) b), w.pub, w.regs⟩ t cur.chunk :=
    .setBytes (fun _ _ ↦ rfl) (fun _ hr ↦ .inl hr)
  refine .ownChunk cur (.inl ⟨cur, rfl, rfl, hcr⟩) hcr (by rintro _ _ _ ⟨⟩) hframe
    (Mem.getElem?_setBytes_self _ hch) ?_ ?_
  · have hlt : n < c.size a := (List.getElem?_eq_some_iff.mp hb).1
    exact ⟨by simpa using hown.len_eq, hown.order, hown.regs_le, rfl, hpos, hlt, room, hnext⟩
  · apply hlog.setBytes
    intro ch₀ hch₀
    obtain rfl : ch = ch₀ := Option.some.inj (hch.symm.trans hch₀)
    exact hnext.scan

/-- The world once `t` has stored the flag byte of `a` at `start` in `k`. -/
def World.publish (w : World) (t : Key) (k start : Nat) (a : PathAccess) : World where
  mem := w.mem.setBytes k (·.set start 1)
  pub k' := w.pub k' ++ if k = k' then [(t, a)] else []
  regs := w.regs

theorem World.pub_publish_of_ne {k k' start : Nat} {a : PathAccess} (h : k' ≠ k) :
    (w.publish t k start a).pub k' = w.pub k' := by
  simp [World.publish, Ne.symm h]

theorem World.pubs_publish (k start : Nat) (a : PathAccess) :
    (w.publish t k start a).pubs k = w.pubs k ++ [a] := by
  simp [World.pubs, World.publish]

/-- Publishing at the last place where a thread has records appends to its order. -/
theorem flatMap_publish {k start : Nat} {a : PathAccess} (h : InOrder w t k)
    (hnd : w.mem.received.Nodup) (t' : Key) :
    (w.mem.received.flatMap (w.publish t k start a).pub).filter (·.1 = t') =
      (w.mem.received.flatMap w.pub).filter (·.1 = t') ++ [(t, a)].filter (·.1 = t') := by
  obtain ⟨before, after, heq, hafter⟩ := h
  rw [heq] at hnd ⊢
  have hsplit := List.nodup_append.mp hnd
  have hout : ∀ ks : List Nat, k ∉ ks →
      ks.flatMap (w.publish t k start a).pub = ks.flatMap w.pub := fun ks hk ↦
    List.flatMap_congr fun k' hk' ↦ World.pub_publish_of_ne fun he ↦ hk (he ▸ hk')
  have hbefore : k ∉ before := fun hk ↦ hsplit.2.2 k hk k List.mem_cons_self rfl
  have hnot : k ∉ after := (List.nodup_cons.mp hsplit.2.1).1
  rw [List.flatMap_append, List.flatMap_cons, hout before hbefore, hout after hnot,
    List.flatMap_append, List.flatMap_cons]
  simp only [World.publish, if_true, List.filter_append, List.append_assoc]
  by_cases ht : t = t'
  · subst ht
    have hnone : (after.flatMap w.pub).filter (·.1 = t) = [] := by
      rw [List.filter_eq_nil_iff]
      intro r hr
      obtain ⟨k', hk', hr⟩ := List.mem_flatMap.mp hr
      simpa using hafter k' hk' r hr
    simp [hnone]
  · simp [ht]

/-- Publishing in the last chunk of a thread keeps its chunks in order. -/
theorem InOrder.publish {k start : Nat} {a : PathAccess} (h : InOrder w t k)
    (hnd : w.mem.received.Nodup) : InOrder (w.publish t k start a) t k := by
  obtain ⟨before, after, heq, hafter⟩ := h
  refine ⟨before, after, heq, fun k' hk' r hr ↦ hafter k' hk' r ?_⟩
  have hne : k' ≠ k := by
    rintro rfl
    rw [heq] at hnd
    exact (List.nodup_cons.mp (List.nodup_append.mp hnd).2.1).1 hk'
  rwa [World.pub_publish_of_ne hne] at hr

/-- The log after a record has been published, if its chunk reads back. -/
theorem Log.publish {k start : Nat} {a : PathAccess} (h : Log c rs w) (horder : InOrder w t k)
    (hk : k < w.mem.chunks.length)
    (hscan : ∀ ch, w.mem.chunks[k]? = some ch →
      c.scan (ch.bytes.set start 1) = some (w.pubs k ++ [a])) :
    Log c (rs ++ [(k, t, a)]) (w.publish t k start a) where
  scan k' ch₀ hch₀ := by
    obtain ⟨ch, hch, rfl⟩ :=
      Option.map_eq_some_iff.mp ((Mem.getElem?_setBytes _ _ _ _).symm.trans hch₀)
    split
    · rename_i he
      subst he
      rw [World.pubs_publish]
      exact hscan ch hch
    · rename_i he
      rw [World.pubs, World.pub_publish_of_ne (Ne.symm he)]
      exact h.scan k' ch hch
  fresh_pub k' hk' := by
    have hle : w.mem.chunks.length ≤ k' := by simpa [World.publish] using hk'
    rw [World.pub_publish_of_ne (by omega), h.fresh_pub k' hle]
  regs_lt r hr := by simpa [World.publish] using h.regs_lt r hr
  disjoint := h.disjoint
  nodup := h.nodup
  received_lt k' hk' := by simpa [World.publish] using h.received_lt k' hk'
  order t' := by
    rw [List.map_append, List.filter_append, ← h.order t']
    exact flatMap_publish horder h.nodup t'

theorem moved_storeFlag {a : PathAccess} {start : Nat} {cur : ShmCursor}
    (hs : SlotInv c w t ⟨some cur, .live (.write a start (c.size a))⟩) (hlog : Log c rs w) :
    Moved c (rs ++ [(cur.chunk, t, a)]) t w (w.publish t cur.chunk start a)
      ⟨some cur, .live (.write a start (c.size a))⟩ ⟨some cur, .live .idle⟩ cur.chunk := by
  obtain ⟨ch, hch, hcr, hown⟩ := own_of_write hs
  obtain ⟨rfl, hpos, -, room, hpending⟩ := hown.shape
  have hnext := hpending.publish
  have hframe : Frame w (w.publish t cur.chunk (c.frames (w.pubs cur.chunk)).length a) t
      cur.chunk := by
    have hother : ∀ k', k' ≠ cur.chunk →
        (w.publish t cur.chunk (c.frames (w.pubs cur.chunk)).length a).pub k' = w.pub k' :=
      fun _ hk' ↦ World.pub_publish_of_ne hk'
    refine .setBytes hother fun r hr ↦ ?_
    simp only [if_true, List.mem_append, List.mem_singleton] at hr
    rcases hr with hr | rfl
    · exact .inl hr
    · exact .inr rfl
  refine .ownChunk cur (.inl ⟨cur, rfl, rfl, hcr⟩) hcr (by rintro _ _ _ ⟨⟩) hframe
    (Mem.getElem?_setBytes_self _ hch) ?_ ?_
  · refine ⟨by simpa using hown.len_eq, hown.order.publish hlog.nodup, hown.regs_le, ?_⟩
    rw [World.pubs_publish, shape_of_notWriting (by rintro _ _ _ ⟨⟩), c.length_frames_snoc]
    exact ⟨hpos, room, hnext⟩
  · apply hlog.publish hown.order (hs.cursor.exist cur rfl)
    intro ch₀ hch₀
    obtain rfl : ch = ch₀ := Option.some.inj (hch.symm.trans hch₀)
    exact hnext.scan

/-! ## All steps -/

theorem World.next_storeFlag {k start : Nat} {a : PathAccess} :
    w.next ⟨t.1, t.2, .storeFlag k a⟩ (w.mem.setBytes k (·.set start 1)) =
      w.publish t k start a := by
  rw [World.next, World.publish, World.mk.injEq]
  refine ⟨rfl, funext fun k' ↦ ?_, by simp [Label.region]⟩
  by_cases hk : k = k' <;> simp [Label.record, Label.key, hk]

/-- A step whose label records nothing and hands nothing out. -/
theorem Moved.quiet {act : Act} {m' : Mem} {slot' : Slot} {k : Nat}
    (h : Moved c rs t w ⟨m', w.pub, w.regs⟩ slot slot' k)
    (hrec : Label.record ⟨t.1, t.2, act⟩ = none) (hreg : Label.region ⟨t.1, t.2, act⟩ = none) :
    ∃ k, Moved c (rs ++ (Label.record ⟨t.1, t.2, act⟩).toList) t w
      (w.next ⟨t.1, t.2, act⟩ m') slot slot' k :=
  ⟨k, by simpa [World.next, hrec, hreg] using h⟩

/-- A step that stays within the thread. -/
theorem Moved.local {o : Owner} {pc pc' : Pc} {cursor : Option ShmCursor} {act : Act}
    (hs : SlotInv c w t ⟨cursor, o⟩) (hlog : Log c rs w) (ho : o = .live pc)
    (hpc : Owner.Still (.live pc)) (hpc' : Owner.Still (.live pc'))
    (hrec : Label.record ⟨t.1, t.2, act⟩ = none) (hreg : Label.region ⟨t.1, t.2, act⟩ = none) :
    ∃ k, Moved c (rs ++ (Label.record ⟨t.1, t.2, act⟩).toList) t w
      (w.next ⟨t.1, t.2, act⟩ w.mem) ⟨cursor, o⟩ ⟨cursor, .live pc'⟩ k := by
  subst ho
  exact (Moved.still hs hlog hpc hpc' fun cur _ hcur hcr _ ↦
    hs.cursor.foreign cur pc hcur hcr rfl).quiet hrec hreg

/-- **One step of a thread**, whichever it is.  A thread that starts must not find
room behind a cursor of another process. -/
theorem moved_of_step {act : Act} {m' : Mem} {slot' : Slot}
    (hs : SlotInv c w t slot) (hlog : Log c rs w)
    (hstart : act = .start → ∀ cur, slot.cursor = some cur → w.creator cur.chunk ≠ some t.1 →
      cur.position = cur.len)
    (h : slot.step c w.mem t.1 act = some (m', slot')) :
    ∃ k, Moved c (rs ++ (Label.record ⟨t.1, t.2, act⟩).toList) t w
      (w.next ⟨t.1, t.2, act⟩ m') slot slot' k := by
  obtain ⟨cursor, owner⟩ := slot
  cases act with
  | start =>
      simp only [Slot.step] at h
      split at h
      · cases h
        exact Moved.quiet (Moved.still hs hlog trivial trivial fun cur _ hcur hcr _ ↦
          hstart rfl cur hcur hcr) rfl rfl
      · cases h
  | exit =>
      simp only [Slot.step] at h
      split at h
      · cases h
        exact Moved.quiet (Moved.still hs hlog trivial trivial (by rintro _ _ _ _ ⟨⟩)) rfl rfl
      · cases h
  | fork => cases h
  | call a =>
      simp only [Slot.step] at h
      split at h
      · split at h
        · cases h
          exact Moved.local hs hlog rfl trivial trivial rfl rfl
        · split at h
          · cases h
            exact Moved.local hs hlog rfl trivial rfl rfl rfl
          · cases h
            exact Moved.local hs hlog rfl trivial trivial rfl rfl
      · cases h
  | shmOpen =>
      simp only [Slot.step] at h
      split at h
      · cases h
        exact (moved_shmOpen hs hlog).quiet rfl rfl
      · cases h
  | sendFd =>
      simp only [Slot.step] at h
      split at h
      · cases h
        exact (moved_sendFd hs hlog).quiet rfl rfl
      · cases h
  | ftruncate =>
      simp only [Slot.step] at h
      split at h
      · cases h
        exact (moved_ftruncate hs hlog).quiet rfl rfl
      · cases h
  | map =>
      simp only [Slot.step] at h
      split at h
      · obtain ⟨ch, hch, heq⟩ := Option.map_eq_some_iff.mp h
        cases heq
        exact (moved_map hs hlog hch).quiet rfl rfl
      · cases h
  | advance r =>
      simp only [Slot.step] at h
      split at h
      · split at h
        · rename_i hadv
          split at h
          · rename_i hr
            cases h
            subst hr
            rw [show Label.record ⟨t.1, t.2, .advance _⟩ = none from rfl, Option.toList_none,
              List.append_nil]
            have hnext := moved_advance hs hlog hadv
            exact ⟨_, by simpa [World.next, Label.record, Label.region] using hnext⟩
          · cases h
        · cases h
      · cases h
  | full =>
      simp only [Slot.step] at h
      split at h
      · split at h
        · cases h
        · split at h
          · cases h
            exact Moved.local hs hlog rfl trivial trivial rfl rfl
          · cases h
            exact Moved.local hs hlog rfl trivial rfl rfl rfl
      · cases h
  | write =>
      simp only [Slot.step] at h
      split at h
      · obtain ⟨b, hb, heq⟩ := Option.map_eq_some_iff.mp h
        cases heq
        exact (moved_write hs hlog hb).quiet rfl rfl
      · cases h
  | storeFlag k a =>
      simp only [Slot.step] at h
      split at h
      · split at h
        · rename_i hcond
          obtain ⟨rfl, rfl, rfl⟩ := hcond
          cases h
          exact ⟨_, World.next_storeFlag ▸ moved_storeFlag hs hlog⟩
        · cases h
      · cases h

end Fspy.Shm
