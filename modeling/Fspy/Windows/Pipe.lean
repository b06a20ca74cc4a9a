import Fspy.Lib.Framing
import Fspy.Windows.Access
import Mathlib.Data.List.Dedup
import Mathlib.Data.List.Perm.Basic

/-!
# The pipe of windows

A process keeps the accesses it records as a set of encoded messages, and writes them to
the pipe when it ends, one by one.  The other end reads them into a buffer of its own
size, whatever the size of a message is.
-/

namespace Fspy.Windows

open Lib

/-! ## The clients -/

/-- `write_pipe_message`, from `remaining_msg` on: its result, if the calls of `WriteFile`
are enough for one, and what the pipe was given.  A call fails or tells how much it has
written. -/
def write_pipe_message (msg : Bytes) :
    Bytes → List (Option Nat) → Option (Except Stop Unit) × List Bytes
  | remaining_msg, [] => if remaining_msg.isEmpty then (some (.ok ()), []) else (none, [])
  | remaining_msg, ret :: rest =>
      if remaining_msg.isEmpty then (some (.ok ()), [])
      -- the length is a `DWORD`
      else if 2 ^ 32 ≤ msg.length then (some (.error .panic), [])
      else match ret with
        | none => (some (.error .panic), [])
        | some bytes_written =>
            if bytes_written ≤ remaining_msg.length then
              let (result, accepted) :=
                write_pipe_message msg (remaining_msg.drop bytes_written) rest
              (result, msg.take bytes_written :: accepted)
            else (some (.error .panic), [msg.take bytes_written])

/-- `Client`: its set of messages. -/
structure Client where
  messages : List Bytes
  nodup : messages.Nodup

namespace Client

variable (codec : Codec PathAccess)

def empty : Client := ⟨[], List.nodup_nil⟩

/-- `Client::send`. -/
def send (client : Client) (access : PathAccess) : Client :=
  ⟨client.messages.insert (codec.encode access), client.nodup.insert⟩

/-- A client that was sent these. -/
def recorded (accesses : List PathAccess) : Client := accesses.foldl (send codec) empty

/-- `Client::finish`, for the messages in the order of the iteration: what was written.
The pipe is in message mode, and takes what one call is given. -/
def finish : List Bytes → Except Stop (List Bytes)
  | [] => .ok []
  | msg :: rest => match write_pipe_message msg msg [some msg.length] with
      | (some (.ok ()), accepted) => do
          let accepted' ← finish rest
          return accepted ++ accepted'
      | (some (.error stop), _) => .error stop
      | (none, _) => .error .panic

end Client

/-! ## The receiver -/

def MESSAGE_MAX_LEN : Nat := 4096

/-- The loop of `accesses_future`, on what the calls of `read` return. -/
def accesses_future (codec : Codec PathAccess) :
    List (Except Errno Bytes) → List PathAccess → Option (Except Stop (List PathAccess))
  | [], _ => none
  | .error e :: _, _ => some (.error (.errno e))
  | .ok msg :: rest, arena =>
      if msg.isEmpty then some (.ok arena)
      else match codec.decode msg with
        | none => some (.error .panic)
        | some (path_access, decoded_len) =>
            if decoded_len = msg.length then accesses_future codec rest (arena ++ [path_access])
            else some (.error .panic)

/-- What the calls of `read` return for the messages in the pipe. -/
inductive Reads : List Bytes → List (Except Errno Bytes) → Prop
  /-- All processes have ended. -/
  | closed : Reads [] [.ok []]
  | message {msg arrival reads} : msg.length ≤ MESSAGE_MAX_LEN → Reads arrival reads →
      Reads (msg :: arrival) (.ok msg :: reads)
  /-- A message that is larger than the buffer may be an error. -/
  | error {msg arrival reads e} : MESSAGE_MAX_LEN < msg.length →
      Reads (msg :: arrival) (.error e :: reads)
  /-- Or it may be read in part. -/
  | part {msg chunk arrival reads} : MESSAGE_MAX_LEN < msg.length → chunk <+: msg →
      chunk.length ≤ MESSAGE_MAX_LEN → Reads (msg :: arrival) (.ok chunk :: reads)

/-- The future returns, and its arena holds the distinct accesses of every client. -/
def Delivered (codec : Codec PathAccess) (clients : List (List PathAccess))
    (reads : List (Except Errno Bytes)) : Prop :=
  ∃ arena, accesses_future codec reads [] = some (.ok arena) ∧
    arena.Perm (clients.flatMap List.dedup)

/-! ## What is written -/

variable {codec : Codec PathAccess}

/-- A message is written by one call. -/
theorem write_pipe_message_whole (msg : Bytes) :
    write_pipe_message msg msg [some msg.length] =
      if msg.isEmpty then (some (.ok ()), [])
      else if 2 ^ 32 ≤ msg.length then (some (.error .panic), [])
      else (some (.ok ()), [msg]) := by
  simp only [write_pipe_message, Nat.le_refl, if_true, List.drop_length, List.isEmpty_nil,
    List.take_length]

namespace Client

theorem finish_cons_eq_ok {msg : Bytes} {rest written : List Bytes} (hne : msg ≠ []) :
    finish (msg :: rest) = .ok written ↔
      msg.length < 2 ^ 32 ∧ ∃ written', finish rest = .ok written' ∧ written = msg :: written' := by
  have hempty : msg.isEmpty = false := by simpa using hne
  rw [finish, write_pipe_message_whole, hempty]
  by_cases hlen : 2 ^ 32 ≤ msg.length
  · simp only [if_pos hlen, Bool.false_eq_true, if_false, reduceCtorEq, false_iff, not_and]
    intro h
    exact absurd hlen (Nat.not_le.mpr h)
  · simp only [if_neg hlen, Bool.false_eq_true, if_false, bind_eq_ok]
    constructor
    · rintro ⟨written', hrest, heq⟩
      exact ⟨Nat.not_le.mp hlen, written', hrest, (Except.ok.inj heq).symm⟩
    · rintro ⟨-, written', hrest, rfl⟩
      exact ⟨written', hrest, rfl⟩

/-- What is written are the messages. -/
theorem finish_eq_ok {order written : List Bytes} (hne : ∀ msg ∈ order, msg ≠ []) :
    finish order = .ok written ↔ (∀ msg ∈ order, msg.length < 2 ^ 32) ∧ written = order := by
  induction order generalizing written with
  | nil => simp [finish, eq_comm]
  | cons msg rest ih =>
      rw [List.forall_mem_cons] at hne
      simp only [finish_cons_eq_ok hne.1, ih hne.2, List.forall_mem_cons]
      constructor
      · rintro ⟨hlen, written', ⟨hrest, rfl⟩, rfl⟩
        exact ⟨⟨hlen, hrest⟩, rfl⟩
      · rintro ⟨⟨hlen, hrest⟩, rfl⟩
        exact ⟨hlen, rest, ⟨hrest, rfl⟩, rfl⟩

theorem mem_foldl_send {client : Client} {accesses : List PathAccess} {msg : Bytes} :
    msg ∈ (accesses.foldl (send codec) client).messages ↔
      msg ∈ client.messages ∨ ∃ access ∈ accesses, codec.encode access = msg := by
  induction accesses generalizing client with
  | nil => simp
  | cons access rest ih =>
      rw [List.foldl_cons, ih, send, List.mem_insert_iff]
      simp only [List.mem_cons, exists_eq_or_imp, eq_comm (a := msg)]
      tauto

/-- The messages of a client are the distinct accesses that it was sent. -/
theorem recorded_perm (accesses : List PathAccess) :
    (recorded codec accesses).messages.Perm (accesses.dedup.map codec.encode) := by
  have hnodup : (accesses.dedup.map codec.encode).Nodup :=
    List.Nodup.map (fun _ _ ↦ codec.encode_injective) (List.nodup_dedup accesses)
  apply (List.perm_ext_iff_of_nodup (recorded codec accesses).nodup hnodup).mpr
  intro msg
  rw [recorded, mem_foldl_send]
  simp [empty]

/-- Every client writes its messages, in the order in which it iterates over them. -/
theorem finish_perm (hstrict : codec.Strict) {clients : List (List PathAccess)}
    {orders written : List (List Bytes)}
    (horders : List.Forall₂ List.Perm orders
      (clients.map fun accesses ↦ (recorded codec accesses).messages))
    (hsent : orders.mapM finish = .ok written) :
    written.flatten.Perm ((clients.flatMap List.dedup).map codec.encode) := by
  induction clients generalizing orders written with
  | nil =>
      cases horders
      cases hsent
      exact .nil
  | cons accesses clients ih =>
      cases horders with
      | @cons order _ orders _ horder horders =>
          rw [List.mapM_cons] at hsent
          obtain ⟨own, hown, hsent⟩ := bind_eq_ok.mp hsent
          obtain ⟨rest, hrest, heq⟩ := bind_eq_ok.mp hsent
          cases heq
          have hperm := horder.trans (recorded_perm accesses)
          have hne : ∀ msg ∈ order, msg ≠ [] := by
            intro msg hmsg
            obtain ⟨access, -, rfl⟩ := List.mem_map.mp (hperm.subset hmsg)
            exact hstrict.encode_ne_nil access
          obtain ⟨-, rfl⟩ := (finish_eq_ok hne).mp hown
          rw [List.flatten_cons, List.flatMap_cons, List.map_append]
          exact hperm.append (ih horders hrest)

end Client

/-! ## What is read -/

/-- The decoder sees a message whole. -/
theorem accesses_future_message (hstrict : codec.Strict) (access : PathAccess)
    (reads : List (Except Errno Bytes)) (arena : List PathAccess) :
    accesses_future codec (.ok (codec.encode access) :: reads) arena =
      accesses_future codec reads (arena ++ [access]) := by
  have hne : (codec.encode access).isEmpty = false := by
    simpa using hstrict.encode_ne_nil access
  have hdecode := codec.decode_encode access []
  rw [List.append_nil] at hdecode
  rw [accesses_future, hne, if_neg Bool.false_ne_true, hdecode]
  exact if_pos rfl

/-- Messages that fit the buffer are read one by one. -/
theorem accesses_future_of_fits (hstrict : codec.Strict) {accesses : List PathAccess}
    {reads : List (Except Errno Bytes)} (hreads : Reads (accesses.map codec.encode) reads)
    (hfits : ∀ access ∈ accesses, codec.size access ≤ MESSAGE_MAX_LEN)
    (arena : List PathAccess) :
    accesses_future codec reads arena = some (.ok (arena ++ accesses)) := by
  induction accesses generalizing reads arena with
  | nil =>
      cases hreads
      rw [List.append_nil]
      rfl
  | cons access accesses ih =>
      rw [List.forall_mem_cons] at hfits
      cases hreads with
      | message _ hreads =>
          rw [accesses_future_message hstrict, ih hreads hfits.2, List.append_assoc]
          rfl
      | error hlt => exact absurd hlt (Nat.not_lt.mpr hfits.1)
      | part hlt => exact absurd hlt (Nat.not_lt.mpr hfits.1)

/-- A message that does not fit ends the loop, and the arena stays short of it. -/
theorem length_lt_of_not_fits (hstrict : codec.Strict) {accesses : List PathAccess}
    {reads : List (Except Errno Bytes)} (hreads : Reads (accesses.map codec.encode) reads)
    (hfits : ¬∀ access ∈ accesses, codec.size access ≤ MESSAGE_MAX_LEN)
    {arena arena' : List PathAccess} (h : accesses_future codec reads arena = some (.ok arena')) :
    arena'.length < arena.length + accesses.length := by
  induction accesses generalizing reads arena with
  | nil => exact absurd (fun _ hmem ↦ nomatch hmem) hfits
  | cons access accesses ih =>
      rw [List.map_cons] at hreads
      generalize hmsg : codec.encode access = msg at hreads
      cases hreads with
      | message hle hreads =>
          subst hmsg
          rw [accesses_future_message hstrict] at h
          have hlt := ih hreads (fun hrest ↦ hfits (List.forall_mem_cons.mpr ⟨hle, hrest⟩)) h
          rw [List.length_append] at hlt
          simp only [List.length_cons, List.length_nil] at hlt ⊢
          omega
      | error => cases h
      | @part _ chunk _ _ hlt hchunk hle =>
          subst hmsg
          rw [accesses_future] at h
          split at h
          · -- nothing of it is read, as if the pipe were closed
            cases h
            simp only [List.length_cons]
            omega
          · have hne : chunk ≠ codec.encode access := by
              rintro rfl
              omega
            rw [hstrict.decode_of_prefix hchunk hne] at h
            cases h

/-- A rearrangement of images is the image of a rearrangement. -/
theorem exists_map_of_perm {α β : Type} {f : α → β} {l : List β} {as : List α}
    (h : l.Perm (as.map f)) : ∃ as' : List α, as'.Perm as ∧ l = as'.map f := by
  have hforall : List.Forall₂ (fun b a ↦ b = f a) (as.map f) as := by
    rw [List.forall₂_map_left_iff, List.forall₂_same]
    exact fun _ _ ↦ rfl
  obtain ⟨as', hforall', hperm⟩ := List.perm_comp_forall₂ h hforall
  refine ⟨as', hperm, ?_⟩
  rw [← List.forall₂_eq_eq_eq, List.forall₂_map_right_iff]
  exact hforall'

/-- **When the pipe is lossless**: no message is larger than the buffer it is read into. -/
theorem delivered_iff (hstrict : codec.Strict) {clients : List (List PathAccess)}
    {orders written : List (List Bytes)} {arrival : List Bytes}
    {reads : List (Except Errno Bytes)}
    (horders : List.Forall₂ List.Perm orders
      (clients.map fun accesses ↦ (Client.recorded codec accesses).messages))
    (hsent : orders.mapM Client.finish = .ok written) (harrival : arrival.Perm written.flatten)
    (hreads : Reads arrival reads) :
    Delivered codec clients reads ↔
      ∀ accesses ∈ clients, ∀ access ∈ accesses, codec.size access ≤ MESSAGE_MAX_LEN := by
  obtain ⟨arrived, hperm, rfl⟩ :=
    exists_map_of_perm (harrival.trans (Client.finish_perm hstrict horders hsent))
  have hfits : (∀ accesses ∈ clients, ∀ access ∈ accesses,
      codec.size access ≤ MESSAGE_MAX_LEN) ↔
      ∀ access ∈ arrived, codec.size access ≤ MESSAGE_MAX_LEN := by
    simp only [hperm.mem_iff, List.mem_flatMap, List.mem_dedup]
    constructor
    · rintro h access ⟨accesses, hclient, hmem⟩
      exact h accesses hclient access hmem
    · intro h accesses hclient access hmem
      exact h access ⟨accesses, hclient, hmem⟩
  rw [hfits]
  constructor
  · rintro ⟨arena, hfuture, harena⟩
    by_contra hnot
    have hlt := length_lt_of_not_fits hstrict hreads hnot hfuture
    rw [harena.length_eq, hperm.length_eq] at hlt
    simp at hlt
  · intro h
    exact ⟨arrived, accesses_future_of_fits hstrict hreads h [], hperm⟩

def sampleRead : PathAccess := ⟨.Read, .from_bytes (ascii "C:/a") (by decide)⟩

def sampleWide : PathAccess := ⟨.ReadDir, .from_wide [67, 58, 47, 0x4e2d] (by decide)⟩

/-- Two processes, and one path that both of them have recorded. -/
def sampleClients : List (List PathAccess) := [[sampleRead, sampleWide, sampleRead], [sampleWide]]

/-- The messages of the second process arrive between those of the first. -/
theorem delivered_sample : Delivered bincode sampleClients
    [.ok (bincode.encode sampleRead), .ok (bincode.encode sampleWide),
      .ok (bincode.encode sampleWide), .ok []] := by
  have hsent : (sampleClients.map fun accesses ↦
      (Client.recorded bincode accesses).messages).mapM Client.finish = .ok
        [[bincode.encode sampleWide, bincode.encode sampleRead], [bincode.encode sampleWide]] := by
    decide +kernel
  have hreads : Reads [bincode.encode sampleRead, bincode.encode sampleWide,
      bincode.encode sampleWide] _ :=
    .message (by decide) (.message (by decide) (.message (by decide) .closed))
  refine (delivered_iff strict_bincode ?_ hsent (by decide) hreads).mpr (by decide)
  exact List.forall₂_same.mpr fun _ _ ↦ .refl _

/-- A path of 2046 wide characters. -/
def longAccess : PathAccess :=
  ⟨.Read, .from_wide (List.replicate 2046 97) (by rw [List.length_replicate]; decide)⟩

theorem size_longAccess : bincode.size longAccess = 4097 := by
  rw [size_bincode, longAccess, NativeStr.from_wide]
  simp only [length_castSlice, List.length_replicate]
  decide

/-- Such a path is recorded and written, but not delivered, whatever a read of it returns. -/
theorem long_path_not_delivered :
    Client.finish (Client.recorded bincode [longAccess]).messages =
        .ok [bincode.encode longAccess] ∧
      (∃ reads, Reads [bincode.encode longAccess] reads) ∧
      ∀ reads, Reads [bincode.encode longAccess] reads →
        ¬Delivered bincode [[longAccess]] reads := by
  have hsize := size_longAccess
  have hmessages : (Client.recorded bincode [longAccess]).messages =
      [bincode.encode longAccess] := rfl
  refine ⟨?_, ⟨[.error (.other 234)], .error ?_⟩, ?_⟩
  · rw [hmessages, Client.finish_eq_ok]
    · refine ⟨?_, rfl⟩
      intro msg hmsg
      obtain rfl := List.mem_singleton.mp hmsg
      exact Nat.lt_of_le_of_lt (Nat.le_of_eq hsize) (by decide)
    · intro msg hmsg
      obtain rfl := List.mem_singleton.mp hmsg
      exact strict_bincode.encode_ne_nil longAccess
  · exact Nat.lt_of_lt_of_le (by decide) (Nat.le_of_eq hsize.symm)
  · rintro reads hreads ⟨arena, hfuture, harena⟩
    have hreads' : Reads ([longAccess].map bincode.encode) reads := hreads
    have hnot : ¬∀ access ∈ [longAccess], bincode.size access ≤ MESSAGE_MAX_LEN := by
      intro hfits
      have hle := hfits longAccess List.mem_cons_self
      rw [hsize] at hle
      exact absurd hle (by decide)
    have hlt := length_lt_of_not_fits strict_bincode hreads' hnot hfuture
    rw [harena.length_eq] at hlt
    simp at hlt

end Fspy.Windows
