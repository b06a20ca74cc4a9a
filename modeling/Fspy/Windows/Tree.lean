import Fspy.Lib.CString
import Fspy.Lib.Transition
import Fspy.Windows.CreateProcess

/-!
# The processes below a tracked command, on windows

The root is created suspended by `spawn_impl`, and every other process by a hooked
`CreateProcess` of one that runs.  Each is to run with the DLL, and with a payload whose
handle is its own handle of the pipe.  What could come between is a program that closes the
pipe, and what stands behind the payload: the path of the DLL is passed on without its zero
byte, and read up to the next one.
-/

namespace Fspy.Windows.Tree

open Lib

/-- What a handle is open on. -/
inductive Object where
  | pipe
  | other (id : Nat)
deriving DecidableEq, Repr

structure Proc where
  child : Child
  /-- The path of the DLL that its import table begins with. -/
  dll : Option Bytes
  handles : HANDLE → Option Object
  /-- Whether its creator was told that there is a new process. -/
  created : Bool

/-- How the calls that `spawn_impl` makes end. -/
structure RootOutcomes where
  spawn : Bool
  DetourUpdateProcessWithDll : BOOL
  /-- The handle in the child. -/
  DuplicateHandle : Option HANDLE
  DetourCopyPayloadToProcess : BOOL
  ResumeThread : DWORD

/-- `spawn_impl`, as far as the child is concerned: what is there of it when the closure
returns. -/
def spawn_impl (asni_dll_path : Bytes) (o : RootOutcomes) : Option Proc :=
  if !o.spawn then none
  else if o.DetourUpdateProcessWithDll ≠ TRUE then
    some ⟨⟨true, true, none⟩, none, fun _ ↦ none, false⟩
  else match o.DuplicateHandle with
    | none => some ⟨⟨true, true, none⟩, some asni_dll_path, fun _ ↦ none, false⟩
    | some handle_in_child =>
        let handles := fun handle ↦ if handle = handle_in_child then some .pipe else none
        if o.DetourCopyPayloadToProcess ≠ TRUE then
          some ⟨⟨true, true, none⟩, some asni_dll_path, handles, false⟩
        else
          -- `CStr::to_bytes` is without the zero byte
          let payload : Payload := ⟨handle_in_child, asni_dll_path⟩
          if o.ResumeThread = -1 then
            some ⟨⟨true, true, some payload⟩, some asni_dll_path, handles, false⟩
          else some ⟨⟨true, false, some payload⟩, some asni_dll_path, handles, true⟩

/-- A call of a hooked `CreateProcess`. -/
structure Call where
  /-- The name, if any, for the wide function or for the narrow one. -/
  name : Option Wide ⊕ Option Bytes
  dw_creation_flags : DWORD
  detours : CreateWithDll
  injects : Bool
  o : Outcomes
  /-- The memory behind the payload of the caller. -/
  behind : Bytes

/-- What the hook does, in a process with this payload. -/
def Call.run (call : Call) (payload : Payload) : BOOL × World :=
  match call.name with
  | .inl name => new_fn_W call.detours payload call.o false name call.dw_creation_flags ⟨[], 0, []⟩
  | .inr name => new_fn_A call.detours payload call.o false name call.dw_creation_flags ⟨[], 0, []⟩

inductive Event where
  | create (parent : Nat) (call : Call)
  /-- The creator resumes a process that it has created suspended. -/
  | resume (p : Nat)
  | exit (p : Nat)
  | openHandle (p : Nat) (handle : HANDLE) (object : Object)
  | closeHandle (p : Nat) (handle : HANDLE)

/-- The path at `Client::asni_dll_path`, read up to a zero byte. -/
def dllPath (payload : Payload) (behind : Bytes) : Bytes :=
  cstr (payload.asni_dll_path_with_nul ++ behind)

/-- The process runs. -/
def Proc.Runs (proc : Proc) : Prop := proc.child.alive = true ∧ proc.child.suspended = false

instance (proc : Proc) : Decidable proc.Runs := inferInstanceAs (Decidable (_ ∧ _))

/-- The processes that a call leaves. -/
def Call.children (call : Call) (proc : Proc) (payload : Payload) : List Proc :=
  (call.run payload).2.children.map fun child ↦
    { child
      dll := if call.injects then some (dllPath payload call.behind) else none
      handles := fun handle ↦
        if call.o.DuplicateHandle = some handle then proc.handles payload.pipe_handle else none
      created := (call.run payload).1 != FALSE }

def step (procs : List Proc) : Event → Option (List Proc)
  | .create parent call => do
      let proc ← procs[parent]?
      let payload ← proc.child.payload
      -- `DuplicateHandle` duplicates what is open
      if proc.Runs ∧
          (call.o.DuplicateHandle.isSome → (proc.handles payload.pipe_handle).isSome) then
        procs ++ call.children proc payload
      else none
  | .resume p => do
      let proc ← procs[p]?
      if proc.created then
        procs.set p { proc with child := { proc.child with suspended := false } }
      else none
  | .exit p => do
      let proc ← procs[p]?
      procs.set p { proc with child := { proc.child with alive := false } }
  | .openHandle p handle object => do
      let proc ← procs[p]?
      if proc.handles handle = none then
        procs.set p { proc with handles := Function.update proc.handles handle (some object) }
      else none
  | .closeHandle p handle => do
      let proc ← procs[p]?
      procs.set p { proc with handles := Function.update proc.handles handle none }

/-- The payload is followed by a zero byte, and programs close only what is theirs. -/
def Careful (procs : List Proc) : Event → Prop
  | .create _ call => call.detours.Documented call.injects ∧ call.behind.head? = some 0
  | .closeHandle p handle => ∀ proc payload, procs[p]? = some proc →
      proc.child.payload = some payload → handle ≠ payload.pipe_handle
  | _ => True

/-! ## What a hook leaves -/

/-- A failed call leaves nothing but suspended processes; a process that it has created has
the DLL, and the payload with a handle of its own. -/
def Leaves (payload : Payload) (injects : Bool) (o : Outcomes) (r : BOOL × World) : Prop :=
  r.1 = FALSE ∧ (∀ child ∈ r.2.children, child.suspended = true) ∨
    r.1 = TRUE ∧ injects = true ∧ ∃ handle suspended, o.DuplicateHandle = some handle ∧
      r.2.children = [⟨true, suspended, some { payload with pipe_handle := handle }⟩]

section

variable {detours : CreateWithDll} {injects : Bool} {payload : Payload} {o : Outcomes}
  {real : Create} {flags : DWORD}

theorem detours_leaves (hdetours : detours.Documented injects) (hreal : IsReal o real) (w : World)
    (hw : w.children = []) :
    Leaves payload injects o (detours (CreateProcessWithPayload payload o real) flags w) := by
  have hcreated : ∀ child, (w.created child).children = [child] := by
    intro child
    rw [World.created, hw]
    rfl
  cases hcreate : o.CreateProcess with
  | false =>
      have hcallback := callback_not_created payload flags w hreal hcreate
      rw [hdetours.of_false (by rw [hcallback]), hcallback]
      exact .inl ⟨rfl, by simp [hw]⟩
  | true =>
      by_cases hprepare : o.DuplicateHandle.isSome ∧ o.DetourCopyPayloadToProcess ≠ 0
      · obtain ⟨handle, hhandle⟩ := Option.isSome_iff_exists.mp hprepare.1
        have hcallback := callback_prepared payload flags w hreal hcreate hhandle hprepare.2
        have hne : (CreateProcessWithPayload payload o real (flags ||| CREATE_SUSPENDED) w).1 ≠
            FALSE := by rw [hcallback]; exact hprepare.2
        cases hinject : injects with
        | false =>
            rw [hdetours.not_injected hne hinject, hcallback, World.terminate_created]
            exact .inl ⟨rfl, by simp [hcreated]⟩
        | true =>
            rw [hdetours.injected hne hinject, hcallback, World.resume_created]
            refine .inr ⟨rfl, rfl, handle, flags &&& CREATE_SUSPENDED != 0, hhandle, ?_⟩
            by_cases hflags : flags &&& CREATE_SUSPENDED = 0
            · rw [if_pos hflags, hcreated, hflags]
              rfl
            · rw [if_neg hflags, hcreated, bne_iff_ne.mpr hflags]
      · have hcallback := callback_not_prepared payload flags w hreal hcreate hprepare
        rw [hdetours.of_false (by rw [hcallback]), hcallback]
        exact .inl ⟨rfl, by simp [hcreated]⟩

theorem new_fn_leaves (hdetours : detours.Documented injects) (hreal : IsReal o real)
    (name : Option ApplicationName) :
    Leaves payload injects o (new_fn detours payload o real false name flags ⟨[], 0, []⟩) := by
  cases name with
  | none => exact detours_leaves hdetours hreal _ rfl
  | some path => exact detours_leaves hdetours hreal _ rfl

theorem Call.run_leaves {call : Call} (hdetours : call.detours.Documented call.injects)
    (payload : Payload) : Leaves payload call.injects call.o (call.run payload) := by
  rw [Call.run]
  cases call.name with
  | inl name => exact new_fn_leaves hdetours (isReal_CreateProcessW call.o) _
  | inr name => exact new_fn_leaves hdetours (isReal_CreateProcessA call.detours payload call.o) _

end

/-- A path that has no zero byte is read on into the memory behind it. -/
theorem dllPath_eq {payload : Payload} (behind : Bytes)
    (hdll : NulFree payload.asni_dll_path_with_nul) :
    dllPath payload behind = payload.asni_dll_path_with_nul ++ cstr behind := by
  rw [dllPath, cstr, cstr, List.takeWhile_append_of_pos]
  intro b hb
  rw [bne_iff_ne]
  rintro rfl
  exact hdll hb

theorem dllPath_of_zero {payload : Payload} {behind : Bytes}
    (hdll : NulFree payload.asni_dll_path_with_nul) (h : behind.head? = some 0) :
    dllPath payload behind = payload.asni_dll_path_with_nul := by
  obtain ⟨rest, rfl⟩ : ∃ rest, behind = 0 :: rest := by
    cases behind with
    | nil => cases h
    | cons b rest => exact ⟨rest, by rw [Option.some.inj h]⟩
  rw [dllPath_eq _ hdll]
  exact List.append_nil _

/-! ## The invariant of the tree -/

/-- A process that loads the DLL, and has the pipe. -/
structure Tracked (asni_dll_path : Bytes) (proc : Proc) : Prop where
  dll : proc.dll = some asni_dll_path
  payload : ∃ payload, proc.child.payload = some payload ∧
    payload.asni_dll_path_with_nul = asni_dll_path ∧
    proc.handles payload.pipe_handle = some .pipe

/-- A process that was not created is suspended, and stays so. -/
def Inv (asni_dll_path : Bytes) (proc : Proc) : Prop :=
  proc.created = true ∧ Tracked asni_dll_path proc ∨
    proc.created = false ∧ proc.child.suspended = true

variable {asni_dll_path : Bytes} {proc : Proc} {procs procs' : List Proc} {event : Event}

theorem Inv.tracked (h : Inv asni_dll_path proc) (hruns : proc.Runs) :
    Tracked asni_dll_path proc := by
  rcases h with ⟨-, h⟩ | ⟨-, h⟩
  · exact h
  · cases hruns.2.symm.trans h

theorem inv_spawn_impl {o : RootOutcomes} (h : spawn_impl asni_dll_path o = some proc) :
    Inv asni_dll_path proc := by
  rw [spawn_impl] at h
  split at h
  · cases h
  · split at h
    · cases h
      exact .inr ⟨rfl, rfl⟩
    · split at h
      · cases h
        exact .inr ⟨rfl, rfl⟩
      · split at h
        · cases h
          exact .inr ⟨rfl, rfl⟩
        · split at h
          · cases h
            exact .inr ⟨rfl, rfl⟩
          · cases h
            exact .inl ⟨rfl, rfl, _, rfl, rfl, if_pos rfl⟩

theorem inv_create {call : Call} {payload : Payload} (hdll : NulFree asni_dll_path)
    (hcareful : call.detours.Documented call.injects ∧ call.behind.head? = some 0)
    (h : Tracked asni_dll_path proc) (hpayload : proc.child.payload = some payload) :
    ∀ new ∈ call.children proc payload, Inv asni_dll_path new := by
  obtain ⟨hnew, payload', hpayload', hsame, hpipe⟩ := h
  obtain rfl := Option.some.inj (hpayload.symm.trans hpayload')
  intro new hmem
  obtain ⟨child, hchild, rfl⟩ := List.mem_map.mp hmem
  rcases call.run_leaves hcareful.1 payload with ⟨hfalse, hsuspended⟩ |
    ⟨htrue, hinjects, handle, suspended, hhandle, hchildren⟩
  · refine .inr ⟨?_, hsuspended child hchild⟩
    dsimp only
    rw [hfalse]
    rfl
  · rw [hchildren, List.mem_singleton] at hchild
    subst hchild
    refine .inl ⟨?_, ?_, _, rfl, hsame, ?_⟩
    · dsimp only
      rw [htrue]
      rfl
    · dsimp only
      rw [if_pos hinjects, dllPath_of_zero (hsame ▸ hdll) hcareful.2, hsame]
    · dsimp only
      rw [if_pos hhandle, hpipe]

/-- Every careful event keeps what is known of the processes. -/
theorem inv_step (hdll : NulFree asni_dll_path) (h : ∀ proc ∈ procs, Inv asni_dll_path proc)
    (hcareful : Careful procs event) (hstep : step procs event = some procs') :
    ∀ proc ∈ procs', Inv asni_dll_path proc := by
  cases event with
  | create parent call =>
      obtain ⟨proc, hproc, hstep⟩ := Option.bind_eq_some_iff.mp hstep
      obtain ⟨payload, hpayload, hstep⟩ := Option.bind_eq_some_iff.mp hstep
      obtain ⟨⟨hruns, -⟩, hstep⟩ := Option.ite_none_right_eq_some.mp hstep
      cases hstep
      have htracked := (h proc (List.mem_of_getElem? hproc)).tracked hruns
      intro new hnew
      rcases List.mem_append.mp hnew with hnew | hnew
      · exact h new hnew
      · exact inv_create hdll hcareful htracked hpayload new hnew
  | resume p =>
      obtain ⟨proc, hproc, hstep⟩ := Option.bind_eq_some_iff.mp hstep
      obtain ⟨hcreated, hstep⟩ := Option.ite_none_right_eq_some.mp hstep
      cases hstep
      rcases h proc (List.mem_of_getElem? hproc) with ⟨-, htracked⟩ | ⟨hnot, -⟩
      · exact forall_mem_set h (.inl ⟨hcreated, htracked.dll, htracked.payload⟩)
      · cases hnot.symm.trans hcreated
  | exit p =>
      obtain ⟨proc, hproc, hstep⟩ := Option.bind_eq_some_iff.mp hstep
      cases hstep
      exact forall_mem_set h ((h proc (List.mem_of_getElem? hproc)).imp
        (fun ⟨hcreated, htracked⟩ ↦ ⟨hcreated, htracked.dll, htracked.payload⟩) id)
  | openHandle p handle object =>
      obtain ⟨proc, hproc, hstep⟩ := Option.bind_eq_some_iff.mp hstep
      obtain ⟨hfree, hstep⟩ := Option.ite_none_right_eq_some.mp hstep
      cases hstep
      refine forall_mem_set h ((h proc (List.mem_of_getElem? hproc)).imp ?_ id)
      rintro ⟨hcreated, hproc', payload, hpayload, hsame, hpipe⟩
      have hne : payload.pipe_handle ≠ handle := by
        rintro rfl
        cases hpipe.symm.trans hfree
      exact ⟨hcreated, hproc', payload, hpayload, hsame,
        (Function.update_of_ne hne ..).trans hpipe⟩
  | closeHandle p handle =>
      obtain ⟨proc, hproc, hstep⟩ := Option.bind_eq_some_iff.mp hstep
      cases hstep
      refine forall_mem_set h ((h proc (List.mem_of_getElem? hproc)).imp ?_ id)
      rintro ⟨hcreated, hproc', payload, hpayload, hsame, hpipe⟩
      have hne := hcareful proc payload hproc hpayload
      exact ⟨hcreated, hproc', payload, hpayload, hsame,
        (Function.update_of_ne (Ne.symm hne) ..).trans hpipe⟩

theorem inv_run {o : RootOutcomes} {root : Proc} {events : List Event}
    (hdll : NulFree asni_dll_path) (hroot : spawn_impl asni_dll_path o = some root)
    (hrun : runs step [root] events = some procs)
    (hmeet : StepsMeet step Careful [root] events) : ∀ proc ∈ procs, Inv asni_dll_path proc := by
  have hinit : ∀ proc ∈ [root], Inv asni_dll_path proc := by
    intro proc hproc
    rw [List.mem_singleton.mp hproc]
    exact inv_spawn_impl hroot
  exact runs_induction (fun _ procs ↦ ∀ proc ∈ procs, Inv asni_dll_path proc) hinit
    (fun _ _ _ _ ↦ inv_step hdll) hrun hmeet

/-- **Tracking coverage on windows.**  As long as payloads are followed by a zero byte and no
program closes its handle of the pipe: in every run from what `spawn_impl` leaves, a process
that runs has the DLL of the command, and a payload with that DLL and with its own handle of
the pipe. -/
theorem tracked_of_creates {o : RootOutcomes} {root : Proc} {events : List Event}
    (hdll : NulFree asni_dll_path) (hroot : spawn_impl asni_dll_path o = some root)
    (hrun : runs step [root] events = some procs)
    (hmeet : StepsMeet step Careful [root] events) :
    ∀ proc ∈ procs, proc.Runs → Tracked asni_dll_path proc :=
  fun proc hproc ↦ (inv_run hdll hroot hrun hmeet proc hproc).tracked

/-- The path of the DLL is `d`; the handle of the pipe is 4 in the root and 8 in its child. -/
def sampleRoot : RootOutcomes := ⟨true, TRUE, some 4, TRUE, 1⟩

def sampleCall : Call :=
  ⟨.inl none, 0, sampleDetours true, true, sampleOutcomes (some 8), [0]⟩

/-- The root creates a process, and exits. -/
def sampleEvents : List Event := [.openHandle 0 12 (.other 1), .create 0 sampleCall, .exit 0]

theorem tracked_of_creates_sample : ∃ root procs, spawn_impl [100] sampleRoot = some root ∧
    runs step [root] sampleEvents = some procs ∧ procs.length = 2 ∧
    ∀ proc ∈ procs, proc.Runs → Tracked [100] proc := by
  have hrun : ∃ root procs, spawn_impl [100] sampleRoot = some root ∧
      runs step [root] sampleEvents = some procs ∧ procs.length = 2 := ⟨_, _, rfl, rfl, rfl⟩
  obtain ⟨root, procs, hroot, hrun, hlength⟩ := hrun
  refine ⟨root, procs, hroot, hrun, hlength, tracked_of_creates (by decide) hroot hrun ?_⟩
  exact ⟨trivial, fun _ _ ↦ ⟨⟨documented_sampleDetours true, rfl⟩, fun _ _ ↦
    ⟨trivial, fun _ _ ↦ trivial⟩⟩⟩

end Fspy.Windows.Tree
