import Fspy.Windows.ObjectName

/-!
# Creating a process

A hooked `CreateProcess` hands a callback to Detours, which calls it to create the child,
suspended, and then injects the DLL.  The callback gives the child its payload.  What is
followed here is what becomes of the child when one of the steps fails.
-/

namespace Fspy.Windows

def CREATE_SUSPENDED : DWORD := 4

/-- The `Payload` of a process. -/
structure Payload where
  pipe_handle : HANDLE
  asni_dll_path_with_nul : Bytes
deriving DecidableEq

structure Child where
  alive : Bool
  suspended : Bool
  payload : Option Payload
deriving DecidableEq

/-- The name of an application, wide or narrow. -/
abbrev ApplicationName := Wide ⊕ Bytes

/-- The children of a process, and what its hooks have sent. -/
structure World where
  children : List Child
  /-- `*lp_process_information`: which child it is about. -/
  information : Nat
  sent : List (AccessMode × ApplicationName)

/-- How the calls of the system end. -/
structure Outcomes where
  CreateProcess : Bool
  /-- Whether the narrow function is made of the wide one. -/
  narrowIsWide : Bool
  /-- The handle in the child. -/
  DuplicateHandle : Option HANDLE
  DetourCopyPayloadToProcess : BOOL
  ResumeThread : DWORD

namespace World

/-- A child that has just been created. -/
def created (w : World) (child : Child) : World :=
  { w with children := w.children ++ [child], information := w.children.length }

/-- Change the child that the process information is about. -/
def modify (f : Child → Child) (w : World) : World :=
  { w with children := w.children.modify w.information f }

def terminate : World → World := modify fun child ↦ { child with alive := false }

def resume : World → World := modify fun child ↦ { child with suspended := false }

def send (w : World) (access : AccessMode × ApplicationName) : World :=
  { w with sent := w.sent ++ [access] }

end World

/-- A function that creates a process, from its flags on. -/
abbrev Create := DWORD → World → BOOL × World

/-- `DetourCreateProcessWithDllEx`, of Detours: it is given the function to create with. -/
abbrev CreateWithDll := Create → Create

/-- The wide function of the system. -/
def Outcomes.CreateProcessW (o : Outcomes) : Create := fun dw_creation_flags w ↦
  if o.CreateProcess then
    (TRUE, w.created ⟨true, dw_creation_flags &&& CREATE_SUSPENDED != 0, none⟩)
  else (FALSE, w)

/-- `Client::prepare_child_process`, of the client with this payload. -/
def prepare_child_process (payload : Payload) (o : Outcomes) (w : World) : BOOL × World :=
  match o.DuplicateHandle with
  | none => (0, w)
  | some handle_in_child =>
      let payload := { payload with pipe_handle := handle_in_child }
      if o.DetourCopyPayloadToProcess = 0 then (0, w)
      else (o.DetourCopyPayloadToProcess, w.modify fun child ↦ { child with payload := some payload })

/-- `CreateProcessWithPayload`, which is given to Detours. -/
def CreateProcessWithPayload (payload : Payload) (o : Outcomes) (real : Create) : Create :=
  fun dw_creation_flags w ↦
    let (ret, w) := real (dw_creation_flags ||| CREATE_SUSPENDED) w
    if ret = 0 then (0, w)
    else
      let (ret, w) := prepare_child_process payload o w
      if ret = 0 then (0, w)
      else if dw_creation_flags &&& CREATE_SUSPENDED = 0 then
        if o.ResumeThread = -1 then (0, w) else (ret, w.resume)
      else (ret, w)

/-- `new_fn`; `entered` says that the call is made within another one. -/
def new_fn (detours : CreateWithDll) (payload : Payload) (o : Outcomes) (real : Create)
    (entered : Bool) (lp_application_name : Option ApplicationName) : Create :=
  fun dw_creation_flags w ↦
    -- Detect re-entrance and avoid double hooking
    if entered then real (dw_creation_flags ||| CREATE_SUSPENDED) w
    else
      let w := match lp_application_name with
        | none => w
        | some path => w.send (.Read, path)
      detours (CreateProcessWithPayload payload o real) dw_creation_flags w

/-- The hook of `CreateProcessW`. -/
def new_fn_W (detours : CreateWithDll) (payload : Payload) (o : Outcomes) (entered : Bool)
    (lp_application_name : Option Wide) : Create :=
  new_fn detours payload o o.CreateProcessW entered (lp_application_name.map .inl)

/-- The narrow function of the system; where it calls the wide one, it meets its hook. -/
def CreateProcessA (detours : CreateWithDll) (payload : Payload) (o : Outcomes) : Create :=
  if o.narrowIsWide then new_fn_W detours payload o true none else o.CreateProcessW

/-- The hook of `CreateProcessA`. -/
def new_fn_A (detours : CreateWithDll) (payload : Payload) (o : Outcomes) (entered : Bool)
    (lp_application_name : Option Bytes) : Create :=
  new_fn detours payload o (CreateProcessA detours payload o) entered
    (lp_application_name.map .inr)

/-! ## What is known of Detours, and what should hold -/

/-- What `DetourCreateProcessWithDllEx` does with the function it is given, where the
injection of the DLL succeeds or not. -/
structure CreateWithDll.Documented (detours : CreateWithDll) (injects : Bool) : Prop where
  of_false {flags : DWORD} {create : Create} {w : World} :
    (create (flags ||| CREATE_SUSPENDED) w).1 = FALSE →
      detours create flags w = (FALSE, (create (flags ||| CREATE_SUSPENDED) w).2)
  not_injected {flags : DWORD} {create : Create} {w : World} :
    (create (flags ||| CREATE_SUSPENDED) w).1 ≠ FALSE → injects = false →
      detours create flags w = (FALSE, (create (flags ||| CREATE_SUSPENDED) w).2.terminate)
  injected {flags : DWORD} {create : Create} {w : World} :
    (create (flags ||| CREATE_SUSPENDED) w).1 ≠ FALSE → injects = true →
      detours create flags w = (TRUE, if flags &&& CREATE_SUSPENDED = 0 then
        (create (flags ||| CREATE_SUSPENDED) w).2.resume
      else (create (flags ||| CREATE_SUSPENDED) w).2)

/-- A failure leaves no child alive; a success leaves one that has the payload and is
suspended as the caller asked. -/
def LeavesNoChild (payload : Payload) (o : Outcomes) (flags : DWORD) (w : World)
    (r : BOOL × World) : Prop :=
  (r.1 = FALSE → ∀ child ∈ r.2.children.drop w.children.length, child.alive = false) ∧
    (r.1 ≠ FALSE → ∃ child handle_in_child,
      r.2.children = w.children ++ [child] ∧ child.alive = true ∧
      o.DuplicateHandle = some handle_in_child ∧
      child.payload = some { payload with pipe_handle := handle_in_child } ∧
      (child.suspended = true ↔ flags &&& CREATE_SUSPENDED ≠ 0))

/-! ## A process without children -/

/-- Detours, step by step. -/
def sampleDetours (injects : Bool) : CreateWithDll := fun create flags w ↦
  let (ret, w) := create (flags ||| CREATE_SUSPENDED) w
  if ret = FALSE then (FALSE, w)
  else if injects then (TRUE, if flags &&& CREATE_SUSPENDED = 0 then w.resume else w)
  else (FALSE, w.terminate)

theorem documented_sampleDetours (injects : Bool) :
    (sampleDetours injects).Documented injects where
  of_false h := if_pos h
  not_injected h hinjects := by
    rw [sampleDetours, hinjects]
    exact if_neg h
  injected h hinjects := by
    rw [sampleDetours, hinjects]
    exact if_neg h

/-- A child is created, and the pipe is duplicated for it or not. -/
def sampleOutcomes (handle_in_child : Option HANDLE) : Outcomes where
  CreateProcess := true
  narrowIsWide := true
  DuplicateHandle := handle_in_child
  DetourCopyPayloadToProcess := TRUE
  ResumeThread := 1

/-! ## What becomes of the child -/

namespace World

variable (w : World) (child : Child)

theorem modify_created (f : Child → Child) : (w.created child).modify f = w.created (f child) := by
  have hlast : (w.children ++ [child]).modify w.children.length f = w.children ++ [f child] := by
    induction w.children with
    | nil => rfl
    | cons c children ih => exact congrArg (c :: ·) ih
  rw [modify, created, created]
  exact congrArg (World.mk · w.children.length w.sent) hlast

theorem terminate_created :
    (w.created child).terminate = w.created { child with alive := false } :=
  w.modify_created child _

theorem resume_created :
    (w.created child).resume = w.created { child with suspended := false } :=
  w.modify_created child _

end World

/-- The flag that is added is found. -/
theorem or_and_suspended (flags : DWORD) :
    (flags ||| CREATE_SUSPENDED) &&& CREATE_SUSPENDED ≠ 0 := by
  intro h
  have hbits := congrArg UInt32.toBitVec h
  rw [UInt32.toBitVec_and, UInt32.toBitVec_or, BitVec.and_or_distrib_right] at hbits
  exact absurd (BitVec.or_eq_zero_iff.mp hbits).2 (by decide)

section Callback

variable {o : Outcomes} {real : Create} {flags : DWORD} {w : World}

theorem CreateProcessW_suspended (hcreate : o.CreateProcess = true) :
    o.CreateProcessW (flags ||| CREATE_SUSPENDED) w = (TRUE, w.created ⟨true, true, none⟩) := by
  rw [Outcomes.CreateProcessW, if_pos hcreate, bne_iff_ne.mpr (or_and_suspended flags)]

theorem CreateProcessW_failed (hcreate : o.CreateProcess = false) :
    o.CreateProcessW flags w = (FALSE, w) := by
  rw [Outcomes.CreateProcessW, hcreate]
  exact if_neg (by decide)

/-- The function that a hook replaces, with the flag that is added. -/
def IsReal (o : Outcomes) (real : Create) : Prop :=
  ∀ flags w, real (flags ||| CREATE_SUSPENDED) w = o.CreateProcessW (flags ||| CREATE_SUSPENDED) w

theorem isReal_CreateProcessW (o : Outcomes) : IsReal o o.CreateProcessW := fun _ _ ↦ rfl

/-- Within the hook of the narrow function, that of the wide one does nothing more. -/
theorem isReal_CreateProcessA (detours : CreateWithDll) (payload : Payload) (o : Outcomes) :
    IsReal o (CreateProcessA detours payload o) := by
  intro flags w
  rw [CreateProcessA]
  cases o.narrowIsWide with
  | false => rfl
  | true =>
      change o.CreateProcessW (flags ||| CREATE_SUSPENDED ||| CREATE_SUSPENDED) w = _
      rw [UInt32.or_assoc, UInt32.or_self]

variable (payload : Payload) (flags : DWORD) (w : World)

theorem callback_not_created (hreal : IsReal o real) (hcreate : o.CreateProcess = false) :
    CreateProcessWithPayload payload o real (flags ||| CREATE_SUSPENDED) w = (FALSE, w) := by
  rw [CreateProcessWithPayload, hreal, CreateProcessW_failed hcreate]
  rfl

/-- The child is there, and has no payload. -/
theorem callback_not_prepared (hreal : IsReal o real) (hcreate : o.CreateProcess = true)
    (hprepare : ¬(o.DuplicateHandle.isSome ∧ o.DetourCopyPayloadToProcess ≠ 0)) :
    CreateProcessWithPayload payload o real (flags ||| CREATE_SUSPENDED) w =
      (FALSE, w.created ⟨true, true, none⟩) := by
  have hfail : ∀ w, prepare_child_process payload o w = (0, w) := by
    intro w
    rw [prepare_child_process]
    cases hhandle : o.DuplicateHandle with
    | none => rfl
    | some handle =>
        rw [hhandle, not_and, not_not] at hprepare
        exact if_pos (hprepare rfl)
  rw [CreateProcessWithPayload, hreal, CreateProcessW_suspended hcreate]
  dsimp only
  rw [hfail]
  rfl

/-- The child has the payload, and is left suspended. -/
theorem callback_prepared (hreal : IsReal o real) {handle : HANDLE}
    (hcreate : o.CreateProcess = true) (hhandle : o.DuplicateHandle = some handle)
    (hcopy : o.DetourCopyPayloadToProcess ≠ 0) :
    CreateProcessWithPayload payload o real (flags ||| CREATE_SUSPENDED) w =
      (o.DetourCopyPayloadToProcess,
        w.created ⟨true, true, some { payload with pipe_handle := handle }⟩) := by
  have hprepare : prepare_child_process payload o (w.created ⟨true, true, none⟩) =
      (o.DetourCopyPayloadToProcess,
        w.created ⟨true, true, some { payload with pipe_handle := handle }⟩) := by
    rw [prepare_child_process, hhandle]
    dsimp only
    rw [if_neg hcopy, World.modify_created]
  rw [CreateProcessWithPayload, hreal, CreateProcessW_suspended hcreate]
  dsimp only
  rw [if_neg (by decide), hprepare]
  dsimp only
  rw [if_neg hcopy, if_neg (or_and_suspended flags)]

end Callback

section Hook

variable {detours : CreateWithDll} {injects : Bool} {payload : Payload} {o : Outcomes}
  {real : Create} {flags : DWORD} {w : World} {child : Child}

theorem leavesNoChild_none : LeavesNoChild payload o flags w (FALSE, w) := by
  refine ⟨fun _ child hchild ↦ ?_, fun h ↦ absurd rfl h⟩
  rw [List.drop_length] at hchild
  cases hchild

theorem leavesNoChild_failed :
    LeavesNoChild payload o flags w (FALSE, w.created child) ↔ child.alive = false := by
  have hdrop : (w.created child).children.drop w.children.length = [child] := List.drop_left
  rw [LeavesNoChild, hdrop]
  constructor
  · exact fun h ↦ h.1 rfl child (.head _)
  · refine fun h ↦ ⟨fun _ child' hchild ↦ ?_, fun hne ↦ absurd rfl hne⟩
    rwa [List.mem_singleton.mp hchild]

theorem leavesNoChild_created {handle : HANDLE} {suspended : Bool}
    (hhandle : o.DuplicateHandle = some handle)
    (hsuspended : suspended = true ↔ flags &&& CREATE_SUSPENDED ≠ 0) :
    LeavesNoChild payload o flags w
      (TRUE, w.created ⟨true, suspended, some { payload with pipe_handle := handle }⟩) :=
  ⟨fun h ↦ absurd h (by decide : TRUE ≠ FALSE),
    fun _ ↦ ⟨_, handle, rfl, rfl, hhandle, rfl, hsuspended⟩⟩

/-- A child is left behind exactly where it was created and could not be prepared. -/
theorem new_fn_leavesNoChild (hdetours : detours.Documented injects) (hreal : IsReal o real)
    (name : Option ApplicationName) (flags : DWORD) (w : World) :
    LeavesNoChild payload o flags w (new_fn detours payload o real false name flags w) ↔
      o.CreateProcess = false ∨
        (o.DuplicateHandle.isSome ∧ o.DetourCopyPayloadToProcess ≠ 0) := by
  obtain ⟨w', hchildren, hnew⟩ : ∃ w' : World, w'.children = w.children ∧
      new_fn detours payload o real false name flags w =
        detours (CreateProcessWithPayload payload o real) flags w' := by
    cases name with
    | none => exact ⟨w, rfl, rfl⟩
    | some path => exact ⟨w.send (.Read, path), rfl, rfl⟩
  rw [hnew, LeavesNoChild, ← hchildren, ← LeavesNoChild]
  cases hcreate : o.CreateProcess with
  | false =>
      have hcallback := callback_not_created payload flags w' hreal hcreate
      rw [hdetours.of_false (by rw [hcallback]), hcallback]
      exact iff_of_true leavesNoChild_none (.inl rfl)
  | true =>
      rw [or_iff_right (by decide)]
      by_cases hprepare : o.DuplicateHandle.isSome ∧ o.DetourCopyPayloadToProcess ≠ 0
      · obtain ⟨handle, hhandle⟩ := Option.isSome_iff_exists.mp hprepare.1
        have hcallback := callback_prepared payload flags w' hreal hcreate hhandle hprepare.2
        have hne : (CreateProcessWithPayload payload o real (flags ||| CREATE_SUSPENDED) w').1 ≠
            FALSE := by rw [hcallback]; exact hprepare.2
        refine iff_of_true ?_ hprepare
        cases hinject : injects with
        | false =>
            rw [hdetours.not_injected hne hinject, hcallback, World.terminate_created]
            exact leavesNoChild_failed.mpr rfl
        | true =>
            rw [hdetours.injected hne hinject, hcallback, World.resume_created]
            by_cases hflags : flags &&& CREATE_SUSPENDED = 0
            · rw [if_pos hflags]
              exact leavesNoChild_created hhandle
                (iff_of_false (by decide) fun hne ↦ hne hflags)
            · rw [if_neg hflags]
              exact leavesNoChild_created hhandle (iff_of_true rfl hflags)
      · have hcallback := callback_not_prepared payload flags w' hreal hcreate hprepare
        rw [hdetours.of_false (by rw [hcallback]), hcallback]
        exact iff_of_false (fun h ↦ nomatch leavesNoChild_failed.mp h) hprepare

/-- **When a failed creation leaves no process behind**: if none was created, or the child
could be given its payload. -/
theorem CreateProcess_leavesNoChild_iff (hdetours : detours.Documented injects)
    (payload : Payload) (o : Outcomes) (flags : DWORD) (w : World) :
    (∀ name, LeavesNoChild payload o flags w
        (new_fn_W detours payload o false name flags w) ↔
      o.CreateProcess = false ∨
        (o.DuplicateHandle.isSome ∧ o.DetourCopyPayloadToProcess ≠ 0)) ∧
      ∀ name, LeavesNoChild payload o flags w
          (new_fn_A detours payload o false name flags w) ↔
        o.CreateProcess = false ∨
          (o.DuplicateHandle.isSome ∧ o.DetourCopyPayloadToProcess ≠ 0) :=
  ⟨fun _ ↦ new_fn_leavesNoChild hdetours (isReal_CreateProcessW o) _ flags w,
    fun _ ↦ new_fn_leavesNoChild hdetours (isReal_CreateProcessA detours payload o) _ flags w⟩

theorem CreateProcess_leavesNoChild_sample :
    LeavesNoChild ⟨4, []⟩ (sampleOutcomes (some 8)) 0 ⟨[], 0, []⟩
      (new_fn_A (sampleDetours true) ⟨4, []⟩ (sampleOutcomes (some 8)) false none 0 ⟨[], 0, []⟩) :=
  ((CreateProcess_leavesNoChild_iff (documented_sampleDetours true) _ _ _ _).2 none).mpr
    (.inr ⟨rfl, by decide⟩)

/-- The pipe cannot be duplicated: both hooks fail, and the child stays, suspended. -/
theorem CreateProcess_leaves_child :
    new_fn_W (sampleDetours true) ⟨4, []⟩ (sampleOutcomes none) false none 0 ⟨[], 0, []⟩ =
        (FALSE, ⟨[⟨true, true, none⟩], 0, []⟩) ∧
      new_fn_A (sampleDetours true) ⟨4, []⟩ (sampleOutcomes none) false none 0 ⟨[], 0, []⟩ =
        (FALSE, ⟨[⟨true, true, none⟩], 0, []⟩) ∧
      ¬LeavesNoChild ⟨4, []⟩ (sampleOutcomes none) 0 ⟨[], 0, []⟩
        (new_fn_W (sampleDetours true) ⟨4, []⟩ (sampleOutcomes none) false none 0
          ⟨[], 0, []⟩) ∧
      ¬LeavesNoChild ⟨4, []⟩ (sampleOutcomes none) 0 ⟨[], 0, []⟩
        (new_fn_A (sampleDetours true) ⟨4, []⟩ (sampleOutcomes none) false none 0
          ⟨[], 0, []⟩) := by
  refine ⟨rfl, rfl, fun h ↦ ?_, fun h ↦ ?_⟩
  · exact nomatch h.1 rfl ⟨true, true, none⟩ (.head _)
  · exact nomatch h.1 rfl ⟨true, true, none⟩ (.head _)

end Hook

end Fspy.Windows
