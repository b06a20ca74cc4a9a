import Fspy.Lib.Format
import Fspy.Windows.Collect
import Fspy.Windows.ObjectName
import Fspy.Windows.Tree

/-!
# What is read back on windows

A process reads its payload back from the bytes that its creator has copied into it.  The
tracker makes strings of the paths in its arena, wherever their data lies in memory.
-/

namespace Fspy.Windows

open Lib

/-! ## The payload -/

namespace Payload

/-- The handle is a `usize`, the path a slice. -/
def format : Format Payload :=
  ((Format.varint 8).pair Format.u8.list).map
    (fun (pipe_handle, asni_dll_path_with_nul) ↦ ⟨UInt64.ofNat pipe_handle, asni_dll_path_with_nul⟩)
    fun payload ↦ (payload.pipe_handle.toNat, payload.asni_dll_path_with_nul)

/-- A slice is shorter than the address space. -/
def WellTyped (payload : Payload) : Prop := payload.asni_dll_path_with_nul.length < 2 ^ 64

theorem lawful_format : format.Lawful WellTyped := by
  have hpair := (Format.lawful_varint (.inr (.inr rfl))).pair Format.lawful_u8.list
  refine hpair.map fun payload h ↦ ⟨⟨UInt64.toNat_lt payload.pipe_handle, h, fun _ _ ↦ trivial⟩, ?_⟩
  dsimp only
  rw [UInt64.ofNat_toNat]

end Payload

/-- `Client::from_payload_bytes`, as far as the payload goes. -/
def from_payload_bytes (payload_bytes : Bytes) : Except Failure Payload :=
  match Payload.format.read payload_bytes with
  | none => .error .panic
  | some (payload, rest) => if rest.length = 0 then .ok payload else .error .panic

theorem from_payload_bytes_write {payload : Payload} (h : payload.WellTyped) :
    from_payload_bytes (Payload.format.write payload) = .ok payload := by
  have hread := Payload.lawful_format.read_write payload h []
  rw [List.append_nil] at hread
  rw [from_payload_bytes, hread]
  rfl

/-- Bytes that are cut off or followed by others are not taken for a payload. -/
theorem from_payload_bytes_panic {payload : Payload} (h : payload.WellTyped) {bytes : Bytes}
    (hne : bytes ≠ Payload.format.write payload)
    (hbytes : bytes <+: Payload.format.write payload ∨ Payload.format.write payload <+: bytes) :
    from_payload_bytes bytes = .error .panic := by
  rw [from_payload_bytes]
  rcases hbytes with hfront | ⟨rest, rfl⟩
  · rw [Payload.lawful_format.read_of_prefix h hfront hne]
  · rw [Payload.lawful_format.read_write payload h]
    have hrest : rest ≠ [] := by
      rintro rfl
      exact hne (List.append_nil _)
    exact if_neg (mt List.length_eq_zero_iff.mp hrest)

namespace Tree

variable {asni_dll_path : Bytes} {procs : List Proc}

/-- **No process dies of its payload.**  In every run from what `spawn_impl` leaves, as long as
payloads are followed by a zero byte and no program closes its handle of the pipe: a process
that runs reads back, from the bytes that were copied into it, a payload with the DLL of the
command and with its own handle of the pipe; bytes that are cut off, or followed by others,
would make it panic. -/
theorem from_payload_bytes_of_run {o : RootOutcomes} {root : Proc} {events : List Event}
    (hdll : NulFree asni_dll_path) (hlength : asni_dll_path.length < 2 ^ 64)
    (hroot : spawn_impl asni_dll_path o = some root)
    (hrun : runs step [root] events = some procs)
    (hmeet : StepsMeet step Careful [root] events) :
    ∀ proc ∈ procs, proc.Runs → ∃ payload, proc.child.payload = some payload ∧
      from_payload_bytes (Payload.format.write payload) = .ok payload ∧
      payload.asni_dll_path_with_nul = asni_dll_path ∧
      proc.handles payload.pipe_handle = some .pipe ∧
      ∀ bytes, bytes ≠ Payload.format.write payload →
        (bytes <+: Payload.format.write payload ∨ Payload.format.write payload <+: bytes) →
          from_payload_bytes bytes = .error .panic := by
  intro proc hproc hruns
  obtain ⟨-, payload, hpayload, hsame, hpipe⟩ :=
    (inv_run hdll hroot hrun hmeet proc hproc).tracked hruns
  have htyped : payload.WellTyped := by
    rw [Payload.WellTyped, hsame]
    exact hlength
  exact ⟨payload, hpayload, from_payload_bytes_write htyped, hsame, hpipe,
    fun _ ↦ from_payload_bytes_panic htyped⟩

theorem from_payload_bytes_of_run_sample : ∃ root procs, spawn_impl [100] sampleRoot = some root ∧
    runs step [root] sampleEvents = some procs ∧ procs.length = 2 ∧
    ∀ proc ∈ procs, proc.Runs → ∃ payload, proc.child.payload = some payload ∧
      from_payload_bytes (Payload.format.write payload) = .ok payload := by
  obtain ⟨root, procs, hroot, hrun, hlength⟩ : ∃ root procs,
      spawn_impl [100] sampleRoot = some root ∧ runs step [root] sampleEvents = some procs ∧
        procs.length = 2 := ⟨_, _, rfl, rfl, rfl⟩
  have hmeet : StepsMeet step Careful [root] sampleEvents :=
    ⟨trivial, fun _ _ ↦ ⟨⟨documented_sampleDetours true, rfl⟩, fun _ _ ↦
      ⟨trivial, fun _ _ ↦ trivial⟩⟩⟩
  refine ⟨root, procs, hroot, hrun, hlength, fun proc hproc hruns ↦ ?_⟩
  obtain ⟨payload, hpayload, hread, -⟩ :=
    from_payload_bytes_of_run (by decide) (by decide) hroot hrun hmeet proc hproc hruns
  exact ⟨payload, hpayload, hread⟩

end Tree

/-! ## The strings of the arena -/

/-- The wide characters of some bytes, the last one filled up with a zero byte
(`pod_collect_to_vec`). -/
def pod_collect_to_vec : Bytes → Wide
  | [] => []
  | [lo] => [lo.toUInt16]
  | lo :: hi :: data => (lo.toUInt16 ||| hi.toUInt16 <<< 8) :: pod_collect_to_vec data

/-- The same bytes seen as wide characters, if they lie right for it. -/
def try_cast_slice (addr : Nat) (data : Bytes) : Option Wide :=
  if addr % 2 = 0 ∧ data.length % 2 = 0 then some (pod_collect_to_vec data) else none

/-- `NativeStr::to_os_string`, of a path whose data is at this address. -/
def NativeStr.to_os_string (MultiByteToWideChar : Bytes → Option Wide) (addr : Nat)
    (path : NativeStr) : Except Failure Wide :=
  if path.is_wide then
    match try_cast_slice addr path.data with
    | some wide => .ok wide
    | none => .ok (pod_collect_to_vec path.data)
  else match MultiByteToWideChar path.data with
    | some wide => .ok wide
    | none => .error .panic

/-- A character is put together from its two bytes. -/
theorem unit_of_bytes (c : UInt16) :
    c.toUInt8.toUInt16 ||| (c >>> 8).toUInt8.toUInt16 <<< 8 = c := by
  have hc := UInt16.toNat_lt c
  have hlo : c.toNat % 2 ^ 8 < 2 ^ 8 := Nat.mod_lt _ (by decide)
  have hhi : (c.toNat >>> 8 % 2 ^ 8) <<< 8 % 2 ^ 16 = (c.toNat >>> 8) <<< 8 := by
    rw [Nat.shiftRight_eq_div_pow, Nat.shiftLeft_eq, Nat.shiftLeft_eq]
    omega
  apply UInt16.toNat_inj.mp
  simp only [UInt16.toNat_or, UInt8.toNat_toUInt16, UInt16.toNat_toUInt8, UInt16.toNat_shiftLeft,
    UInt16.toNat_shiftRight]
  show c.toNat % 2 ^ 8 ||| (c.toNat >>> 8 % 2 ^ 8) <<< 8 % 2 ^ 16 = c.toNat
  rw [hhi, Nat.or_comm, ← Nat.shiftLeft_add_eq_or_of_lt hlo, Nat.shiftRight_eq_div_pow,
    Nat.shiftLeft_eq]
  omega

theorem pod_collect_to_vec_castSlice (wide : Wide) :
    pod_collect_to_vec (castSlice wide) = wide := by
  induction wide with
  | nil => rfl
  | cons c wide ih =>
      have hcast : castSlice (c :: wide) = c.toUInt8 :: (c >>> 8).toUInt8 :: castSlice wide := rfl
      rw [hcast, pod_collect_to_vec, ih, unit_of_bytes]

/-- A wide name is read back as it is, wherever it lies. -/
theorem to_os_string_from_wide (MultiByteToWideChar : Bytes → Option Wide) (addr : Nat)
    {name : Wide} (h : 2 * name.length < 2 ^ 64) :
    (NativeStr.from_wide name h).to_os_string MultiByteToWideChar addr = .ok name := by
  rw [NativeStr.to_os_string, if_pos (by rfl), NativeStr.from_wide, try_cast_slice]
  dsimp only
  split
  · rename_i wide hcast
    obtain ⟨-, hwide⟩ := Option.ite_none_right_eq_some.mp hcast
    rw [← Option.some.inj hwide, pod_collect_to_vec_castSlice]
  · rw [pod_collect_to_vec_castSlice]

/-! ## The names that the hooks send -/

/-- What a hook sends: a name that an `Nt` function is called with, or the application of
`CreateProcessW` or `CreateProcessA`. -/
inductive Sends : AccessMode → ApplicationName → Prop
  | nt {os : Os} {call : NtCall} {mode : AccessMode} {name : Wide} :
      call.hook os = .ok (some (mode, name)) → Sends mode (.inl name)
  | CreateProcess (lp_application_name : ApplicationName) : Sends .Read lp_application_name

/-- The path that is made of a name. -/
def IsName (path : NativeStr) : ApplicationName → Prop
  | .inl wide => ∃ h, path = .from_wide wide h
  | .inr bytes => ∃ h, path = .from_bytes bytes h

/-- An access that a hook records. -/
def Hooked (access : PathAccess) : Prop :=
  ∃ name, Sends access.mode name ∧ IsName access.path name

/-- What becomes of a name. -/
def osString (MultiByteToWideChar : Bytes → Option Wide) : ApplicationName → Except Failure Wide
  | .inl wide => .ok wide
  | .inr bytes => match MultiByteToWideChar bytes with
      | some wide => .ok wide
      | none => .error .panic

theorem to_os_string_of_isName (MultiByteToWideChar : Bytes → Option Wide) (addr : Nat)
    {path : NativeStr} {name : ApplicationName} (h : IsName path name) :
    path.to_os_string MultiByteToWideChar addr = osString MultiByteToWideChar name := by
  cases name with
  | inl wide =>
      obtain ⟨hlength, rfl⟩ := h
      exact to_os_string_from_wide MultiByteToWideChar addr hlength
  | inr bytes =>
      obtain ⟨hlength, rfl⟩ := h
      rfl

namespace Collect

variable {codec : Codec PathAccess} {t : Tree} {events : List Event} {p : Nat}

theorem mem_recordedBy {access : PathAccess} :
    access ∈ recordedBy p events ↔ .record p access ∈ events := by
  rw [recordedBy, List.mem_filterMap]
  constructor
  · rintro ⟨event, hevent, heq⟩
    split at heq
    · obtain ⟨hp, heq⟩ := Option.ite_none_right_eq_some.mp heq
      rw [← hp, ← Option.some.inj heq]
      exact hevent
    · cases heq
  · intro hevent
    exact ⟨_, hevent, if_pos rfl⟩

/-- **The names are read back.**  As long as what is recorded comes from the hooks and fits the
buffer: when the future returns, the strings that the tracker makes of its accesses, wherever
the arena has put their data, are the names that a hook has recorded in the run, each under the
mode it was sent with.  What is recorded by a process that has written everything is among
them. -/
theorem names_of_run (hstrict : codec.Strict)
    (hrun : runs (step codec) start events = some t)
    (hfits : ∀ event ∈ events, Fits codec event)
    (hhooked : ∀ p access, .record p access ∈ events → Hooked access)
    {result : Except Stop (List PathAccess)}
    (hreturned : accesses_future codec t.reads [] = some result) :
    ∃ arena : List PathAccess, result = .ok arena ∧
      (∀ access ∈ arena, ∃ p name, .record p access ∈ events ∧ IsName access.path name ∧
        Sends access.mode name ∧ ∀ MultiByteToWideChar addr,
          access.path.to_os_string MultiByteToWideChar addr =
            osString MultiByteToWideChar name) ∧
      ∀ p access, .record p access ∈ events →
        (∀ proc, t.procs[p]? = some proc → proc.unwritten = []) → access ∈ arena := by
  have hinv := inv_run hstrict hrun hfits
  obtain ⟨-, arena, own, left, rfl, harena, hsplit⟩ := hinv.delivered hstrict hreturned
  refine ⟨arena, rfl, fun access haccess ↦ ?_, fun p access hrecord hwritten ↦ ?_⟩
  · obtain ⟨p, hp, hown⟩ := List.mem_flatMap.mp (harena.subset haccess)
    have hproc := List.getElem?_eq_getElem (List.mem_range.mp hp)
    have hrecorded : access ∈ recordedBy p events :=
      List.mem_dedup.mp ((hsplit p _ hproc).2.subset (List.mem_append_left _ hown))
    have hrecord := mem_recordedBy.mp hrecorded
    obtain ⟨name, hsends, hname⟩ := hhooked p access hrecord
    exact ⟨p, name, hrecord, hname, hsends, fun MultiByteToWideChar addr ↦
      to_os_string_of_isName MultiByteToWideChar addr hname⟩
  · have hrecorded : access ∈ recordedBy p events := mem_recordedBy.mpr hrecord
    have hlt : p < t.procs.length := by
      by_contra hge
      rw [hinv.senders.fresh p (Nat.not_lt.mp hge)] at hrecorded
      cases hrecorded
    have hproc := List.getElem?_eq_getElem hlt
    obtain ⟨hunwritten, hperm⟩ := hsplit p _ hproc
    rw [hwritten _ hproc] at hunwritten
    rw [List.map_eq_nil_iff.mp hunwritten.symm, List.append_nil] at hperm
    exact harena.symm.subset (List.mem_flatMap.mpr
      ⟨p, List.mem_range.mpr hlt, hperm.symm.subset (List.mem_dedup.mpr hrecorded)⟩)

/-- The name of an application, and a name that an attribute is asked of. -/
def sampleApplication : PathAccess := ⟨.Read, .from_bytes [67, 58, 47, 97] (by decide)⟩

def sampleFile : PathAccess := ⟨.Read, .from_wide [97] (by decide)⟩

def sampleNames : List Event :=
  [.record 0 sampleApplication, .record 0 sampleFile, .drop,
    .detach 0 [bincode.encode sampleFile, bincode.encode sampleApplication], .write 0,
    .write 0, .exit 0, .recv (.ok (bincode.encode sampleFile)),
    .recv (.ok (bincode.encode sampleApplication)), .finish]

theorem hooked_sampleNames {access : PathAccess} (h : .record p access ∈ sampleNames) :
    Hooked access := by
  simp only [sampleNames, List.mem_cons, Event.record.injEq, reduceCtorEq, List.not_mem_nil,
    or_false] at h
  rcases h with ⟨-, rfl⟩ | ⟨-, rfl⟩
  · exact ⟨.inr [67, 58, 47, 97], .CreateProcess _, by decide, rfl⟩
  · have hhook : (NtCall.NtQueryAttributesFile ⟨0, ⟨1, 0⟩⟩).hook (sampleOs [97]) =
        .ok (some (.Read, [97])) := by rfl
    exact ⟨.inl _, .nt hhook, by decide, rfl⟩

theorem names_of_run_sample : ∃ t, runs (step bincode) start sampleNames = some t ∧
    ∃ arena : List PathAccess, accesses_future bincode t.reads [] = some (.ok arena) ∧
      ∀ access ∈ arena, ∃ p name, .record p access ∈ sampleNames ∧ IsName access.path name ∧
        Sends access.mode name ∧ ∀ MultiByteToWideChar addr,
          access.path.to_os_string MultiByteToWideChar addr =
            osString MultiByteToWideChar name := by
  have hfits : ∀ event ∈ sampleNames, Fits bincode event := by decide
  obtain ⟨t, result, hrun, hreturned⟩ : ∃ t result,
      runs (step bincode) start sampleNames = some t ∧
        accesses_future bincode t.reads [] = some result := ⟨_, _, rfl, rfl⟩
  obtain ⟨arena, rfl, hnames, -⟩ := names_of_run strict_bincode hrun hfits
    (fun _ _ ↦ hooked_sampleNames) hreturned
  exact ⟨t, hrun, arena, hreturned, hnames⟩

end Collect

end Fspy.Windows
