import Fspy.Lib.Traced
import Fspy.Windows.Winapi

/-!
# Installing the hooks and taking them out

The DLL attaches its detours in one transaction when a process loads it, and should take
the same ones out again when the process ends.  Every call of Detours says by a code
whether it succeeded; which codes a run of `DllMain` met is its trace.
-/

namespace Fspy.Windows

open Lib

abbrev LONG := Int32

def DLL_PROCESS_DETACH : DWORD := 0

def DLL_PROCESS_ATTACH : DWORD := 1

/-- A call of Detours that returns a code; a detour is named by its place in the list. -/
inductive DetourCall where
  | TransactionBegin
  | UpdateThread
  | Attach (i : Nat)
  | Detach (i : Nat)
  | TransactionCommit
deriving DecidableEq, Repr

inductive HMODULE where
  | kernelbase
  | kernel32
deriving DecidableEq, Repr

/-- `DetourAny`; a null target is 0. -/
structure DetourAny where
  symbol_name : Bytes
  target : Nat

/-- What a process answers to the DLL. -/
structure Process where
  DetourIsHelperProcess : BOOL
  DetourRestoreAfterWith : BOOL
  /-- How `Client::from_payload_bytes` ends, for the payload that is found. -/
  from_payload_bytes : Except Failure Unit
  /-- How `Client::finish` ends. -/
  finish : Except Failure Unit
  LoadLibraryA : HMODULE → Bool
  GetProcAddress : HMODULE → Bytes → Nat
  /-- The code that a call returns. -/
  code : DetourCall → LONG
  GetLastError : ERROR

namespace Process

variable (process : Process)

/-- A call of Detours. -/
def call (c : DetourCall) : Traced DetourCall Failure LONG := ⟨.ok (process.code c), [c]⟩

/-- `AttachContext::new`. -/
def AttachContext.new : Except Failure Unit :=
  if process.LoadLibraryA .kernelbase && process.LoadLibraryA .kernel32 then .ok ()
  else .error .panic

/-- The target that is attached to. -/
def locate (d : DetourAny) : DetourAny :=
  let symbol_in_kernelbase := process.GetProcAddress .kernelbase d.symbol_name
  if symbol_in_kernelbase ≠ 0 then { d with target := symbol_in_kernelbase }
  else if d.target = 0 then
    { d with target := process.GetProcAddress .kernel32 d.symbol_name }
  else d

/-- `DetourAny::attach`; the detour is returned with its target. -/
def attach (i : Nat) (d : DetourAny) : Traced DetourCall Failure DetourAny :=
  let d := process.locate d
  -- dynamic symbol not found, skip attaching
  if d.target = 0 then pure d
  else do
    let val ← process.call (.Attach i)
    Traced.ofExcept (ck_long val)
    return d

/-- `DetourAny::detach`. -/
def detach (i : Nat) (d : DetourAny) : Traced DetourCall Failure Unit :=
  if d.target = 0 then pure ()
  else do
    let val ← process.call (.Detach i)
    Traced.ofExcept (ck_long val)

/-- The loop over the detours when the process starts. -/
def attachAll (i : Nat) : List DetourAny → Traced DetourCall Failure (List DetourAny)
  | [] => pure []
  | d :: detours => do
      let d ← process.attach i d
      let detours ← attachAll (i + 1) detours
      return d :: detours

/-- The loop when it ends. -/
def detachAll (i : Nat) : List DetourAny → Traced DetourCall Failure Unit
  | [] => pure ()
  | d :: detours => do
      process.detach i d
      detachAll (i + 1) detours

/-- `dll_main`; the detours are static, and are returned as they are afterwards. -/
def dll_main (detours : List DetourAny) (reason : DWORD) :
    Traced DetourCall Failure (List DetourAny) :=
  if process.DetourIsHelperProcess = TRUE then pure detours
  else if reason = DLL_PROCESS_ATTACH then do
    Traced.ofExcept (ck process.GetLastError process.DetourRestoreAfterWith)
    Traced.ofExcept process.from_payload_bytes
    Traced.ofExcept (AttachContext.new process)
    let val ← process.call .TransactionBegin
    Traced.ofExcept (ck_long val)
    let val ← process.call .UpdateThread
    Traced.ofExcept (ck_long val)
    let detours ← process.attachAll 0 detours
    let val ← process.call .TransactionCommit
    Traced.ofExcept (ck_long val)
    return detours
  else if reason = DLL_PROCESS_DETACH then do
    Traced.ofExcept process.finish
    let val ← process.call .TransactionBegin
    Traced.ofExcept (ck process.GetLastError val)
    let val ← process.call .UpdateThread
    Traced.ofExcept (ck process.GetLastError val)
    process.detachAll 0 detours
    let val ← process.call .TransactionCommit
    Traced.ofExcept (ck process.GetLastError val)
    return detours
  else pure detours

/-- What `DllMain` returns, unless `dll_main` panics. -/
def DllMain (detours : List DetourAny) (reason : DWORD) : Traced DetourCall Failure BOOL :=
  let r := process.dll_main detours reason
  match r.result with
  | .ok _ => ⟨.ok TRUE, r.trace⟩
  -- `SetLastError`
  | .error (.err _) => ⟨.ok FALSE, r.trace⟩
  | .error .panic => ⟨.error .panic, r.trace⟩

end Process

/-! ## What should hold of it -/

section Spec

variable (process : Process) (detours : List DetourAny)

/-- The process is told that the hooks are in place only if no call has failed. -/
def AttachReports : Prop :=
  (process.DllMain detours DLL_PROCESS_ATTACH).result = .ok TRUE →
    ∀ c ∈ (process.DllMain detours DLL_PROCESS_ATTACH).trace,
      (process.code c).toUInt32 = NO_ERROR

/-- After a load without a failed call, an end of the process without a failed call takes
out what was installed. -/
def DetachUndoes : Prop :=
  ∀ detours', (process.dll_main detours DLL_PROCESS_ATTACH).result = .ok detours' →
    (∀ c ∈ (process.dll_main detours DLL_PROCESS_ATTACH).trace,
      (process.code c).toUInt32 = NO_ERROR) →
    ∀ process' : Process, process'.DetourIsHelperProcess = process.DetourIsHelperProcess →
      process'.finish = .ok () → (∀ c, (process'.code c).toUInt32 = NO_ERROR) →
      (process'.DllMain detours' DLL_PROCESS_DETACH).result = .ok TRUE ∧
      (∀ i, .Detach i ∈ (process'.DllMain detours' DLL_PROCESS_DETACH).trace ↔
        .Attach i ∈ (process.dll_main detours DLL_PROCESS_ATTACH).trace) ∧
      (.TransactionCommit ∈ (process.dll_main detours DLL_PROCESS_ATTACH).trace →
        .TransactionCommit ∈ (process'.DllMain detours' DLL_PROCESS_DETACH).trace)

/-- The load ends before the transaction begins. -/
def EndsEarly : Prop :=
  process.DetourIsHelperProcess = TRUE ∨ process.DetourRestoreAfterWith = FALSE ∨
    process.from_payload_bytes ≠ .ok () ∨
    ¬(process.LoadLibraryA .kernelbase ∧ process.LoadLibraryA .kernel32)

/-- Every call of an installation returns that there is no error. -/
structure NoErrors : Prop where
  begin : (process.code .TransactionBegin).toUInt32 = NO_ERROR
  updateThread : (process.code .UpdateThread).toUInt32 = NO_ERROR
  attach : ∀ i d, detours[i]? = some d → (process.locate d).target ≠ 0 →
    (process.code (.Attach i)).toUInt32 = NO_ERROR
  commit : (process.code .TransactionCommit).toUInt32 = NO_ERROR

end Spec

variable {process : Process} {detours : List DetourAny}

namespace Process

/-- The call for a detour that has a target. -/
def attempt (process : Process) (i : Nat) (d : DetourAny) : List DetourCall :=
  if (process.locate d).target = 0 then [] else [.Attach i]

def attempts (process : Process) (i : Nat) : List DetourAny → List DetourCall
  | [] => []
  | d :: detours => process.attempt i d ++ attempts process (i + 1) detours

theorem mem_attempt {i : Nat} {d : DetourAny} {c : DetourCall} :
    c ∈ process.attempt i d ↔ (process.locate d).target ≠ 0 ∧ c = .Attach i := by
  rw [attempt]
  split
  · rename_i htarget
    exact iff_of_false List.not_mem_nil fun h ↦ h.1 htarget
  · rename_i htarget
    rw [List.mem_singleton]
    exact (and_iff_right htarget).symm

theorem mem_attempts {i : Nat} {c : DetourCall} : c ∈ process.attempts i detours ↔
    ∃ k d, detours[k]? = some d ∧ (process.locate d).target ≠ 0 ∧ c = .Attach (i + k) := by
  induction detours generalizing i with
  | nil => exact iff_of_false List.not_mem_nil fun ⟨k, d, h, _⟩ ↦ nomatch h
  | cons d detours ih =>
      rw [attempts, List.mem_append, mem_attempt, ih]
      constructor
      · rintro (⟨htarget, rfl⟩ | ⟨k, d', hd', htarget, rfl⟩)
        · exact ⟨0, d, rfl, htarget, rfl⟩
        · exact ⟨k + 1, d', hd', htarget, by rw [Nat.add_right_comm, Nat.add_assoc]⟩
      · rintro ⟨_ | k, d', hd', htarget, rfl⟩
        · cases hd'
          exact .inl ⟨htarget, rfl⟩
        · exact .inr ⟨k, d', hd', htarget, by rw [Nat.add_right_comm, Nat.add_assoc]⟩

/-- Whatever code the call returns, it is taken for a success. -/
theorem attach_eq (i : Nat) (d : DetourAny) :
    process.attach i d = ⟨.ok (process.locate d), process.attempt i d⟩ := by
  rw [attach, attempt]
  split
  · rfl
  · simp only [ck_long_eq]
    rfl

theorem attachAll_eq (i : Nat) (detours : List DetourAny) : process.attachAll i detours =
    ⟨.ok (detours.map process.locate), process.attempts i detours⟩ := by
  induction detours generalizing i with
  | nil => rfl
  | cons d detours ih =>
      rw [attachAll, attach_eq, ih, Traced.bind_of_ok rfl, Traced.bind_of_ok rfl,
        Traced.trace_pure, List.append_nil]
      rfl

/-- A load that reaches the transaction goes through it to its end. -/
theorem dll_main_install (h : ¬EndsEarly process) :
    process.dll_main detours DLL_PROCESS_ATTACH = ⟨.ok (detours.map process.locate),
      .TransactionBegin :: .UpdateThread ::
        (process.attempts 0 detours ++ [.TransactionCommit])⟩ := by
  simp only [EndsEarly, not_or, not_not] at h
  obtain ⟨hhelper, hrestore, hpayload, hkernelbase, hkernel32⟩ := h
  rw [dll_main, if_neg hhelper, if_pos rfl, ck, if_neg hrestore, hpayload, AttachContext.new,
    hkernelbase, hkernel32, attachAll_eq]
  rfl

/-- Any other load calls nothing, and returns only in a helper process. -/
theorem dll_main_early (h : EndsEarly process) :
    (process.dll_main detours DLL_PROCESS_ATTACH).trace = [] ∧
      ∀ detours', (process.dll_main detours DLL_PROCESS_ATTACH).result = .ok detours' →
        process.DetourIsHelperProcess = TRUE := by
  by_cases hhelper : process.DetourIsHelperProcess = TRUE
  · rw [dll_main, if_pos hhelper]
    exact ⟨rfl, fun _ _ ↦ hhelper⟩
  rw [dll_main, if_neg hhelper, if_pos rfl, ck]
  by_cases hrestore : process.DetourRestoreAfterWith = FALSE
  · rw [if_pos hrestore]
    exact ⟨rfl, fun _ h ↦ nomatch h⟩
  rw [if_neg hrestore]
  cases hpayload : process.from_payload_bytes with
  | error e => exact ⟨rfl, fun _ h ↦ nomatch h⟩
  | ok _ =>
      have hload : (process.LoadLibraryA .kernelbase && process.LoadLibraryA .kernel32) = false := by
        rcases h with h | h | h | h
        · exact absurd h hhelper
        · exact absurd h hrestore
        · exact absurd hpayload h
        · rwa [← Bool.and_eq_true, Bool.not_eq_true] at h
      rw [AttachContext.new, hload]
      exact ⟨rfl, fun _ h ↦ nomatch h⟩

theorem trace_DllMain (reason : DWORD) :
    (process.DllMain detours reason).trace = (process.dll_main detours reason).trace := by
  rw [DllMain]
  split <;> rfl

end Process

/-- The codes of the calls of an installation. -/
theorem noErrors_iff (h : ¬EndsEarly process) : NoErrors process detours ↔
    ∀ c ∈ (process.dll_main detours DLL_PROCESS_ATTACH).trace,
      (process.code c).toUInt32 = NO_ERROR := by
  rw [Process.dll_main_install h]
  constructor
  · intro hno c hc
    rcases List.mem_cons.mp hc with rfl | hc
    · exact hno.begin
    rcases List.mem_cons.mp hc with rfl | hc
    · exact hno.updateThread
    rcases List.mem_append.mp hc with hc | hc
    · obtain ⟨k, d, hd, htarget, rfl⟩ := Process.mem_attempts.mp hc
      rw [Nat.zero_add]
      exact hno.attach k d hd htarget
    · obtain rfl := List.mem_singleton.mp hc
      exact hno.commit
  · intro hall
    refine ⟨hall _ (.head _), hall _ (.tail _ (.head _)), fun i d hd htarget ↦ ?_, ?_⟩
    · refine hall _ (.tail _ (.tail _ (List.mem_append_left _ ?_)))
      exact Process.mem_attempts.mpr ⟨i, d, hd, htarget, by rw [Nat.zero_add]⟩
    · exact hall _ (.tail _ (.tail _ (List.mem_append_right _ (.head _))))

theorem attachReports_iff : AttachReports process detours ↔
    EndsEarly process ∨ NoErrors process detours := by
  rw [AttachReports, Process.trace_DllMain]
  by_cases hearly : EndsEarly process
  · refine iff_of_true (fun _ c hc ↦ ?_) (.inl hearly)
    rw [(Process.dll_main_early hearly).1] at hc
    cases hc
  · have hresult : (process.DllMain detours DLL_PROCESS_ATTACH).result = .ok TRUE := by
      rw [Process.DllMain, Process.dll_main_install hearly]
    rw [noErrors_iff hearly, or_iff_right_of_imp fun h ↦ absurd h hearly]
    exact ⟨fun h ↦ h hresult, fun h _ ↦ h⟩

/-- A success of `DetourTransactionBegin` is taken for a failure. -/
theorem DllMain_detach_of_noError (hhelper : process.DetourIsHelperProcess ≠ TRUE)
    (hfinish : process.finish = .ok ()) (hbegin : process.code .TransactionBegin = 0) :
    process.DllMain detours DLL_PROCESS_DETACH = ⟨.ok FALSE, [.TransactionBegin]⟩ := by
  have hck : ck process.GetLastError (process.code .TransactionBegin) =
      .error (.err process.GetLastError) := by
    rw [hbegin]
    rfl
  have hmain : process.dll_main detours DLL_PROCESS_DETACH =
      ⟨.error (.err process.GetLastError), [.TransactionBegin]⟩ := by
    rw [Process.dll_main, if_neg hhelper, if_neg (by decide), if_pos rfl, hfinish,
      Traced.bind_of_ok rfl, Traced.bind_of_ok rfl, Traced.bind_of_error hck]
    rfl
  rw [Process.DllMain, hmain]

/-- The end of the process at which every call succeeds. -/
def Process.withoutErrors (process : Process) : Process :=
  { process with finish := .ok (), code := fun _ ↦ 0 }

theorem detachUndoes_iff : DetachUndoes process detours ↔
    EndsEarly process ∨ ¬NoErrors process detours := by
  constructor
  · intro h
    by_contra hno
    obtain ⟨hearly, herrors⟩ := not_or.mp hno
    have hhelper : process.DetourIsHelperProcess ≠ TRUE := fun hhelper ↦ hearly (.inl hhelper)
    have hcodes := (noErrors_iff hearly).mp (not_not.mp herrors)
    have hdetach := (h (detours.map process.locate) (by rw [Process.dll_main_install hearly])
      hcodes process.withoutErrors rfl rfl fun _ ↦ rfl).1
    rw [@DllMain_detach_of_noError process.withoutErrors _ hhelper rfl rfl] at hdetach
    cases hdetach
  · rintro h detours' hresult hcodes process' hsame - -
    by_cases hearly : EndsEarly process
    · have hhelper := (Process.dll_main_early hearly).2 detours' hresult
      have hmain : process'.dll_main detours' DLL_PROCESS_DETACH = pure detours' := by
        rw [Process.dll_main, hsame, if_pos hhelper]
      rw [Process.DllMain, hmain, (Process.dll_main_early hearly).1]
      exact ⟨rfl, fun _ ↦ iff_of_false List.not_mem_nil List.not_mem_nil, fun h ↦ nomatch h⟩
    · exact absurd ((noErrors_iff hearly).mpr hcodes) (h.resolve_left hearly)

/-- **When the hooks are installed and taken out as reported**: both only where the load
ends before it installs any. -/
theorem DllMain_iff (process : Process) (detours : List DetourAny) :
    (AttachReports process detours ∧ DetachUndoes process detours ↔ EndsEarly process) ∧
      (AttachReports process detours ↔ EndsEarly process ∨ NoErrors process detours) ∧
      (DetachUndoes process detours ↔ EndsEarly process ∨ ¬NoErrors process detours) := by
  refine ⟨?_, attachReports_iff, detachUndoes_iff⟩
  rw [attachReports_iff, detachUndoes_iff, ← or_and_left, and_not_self_iff, or_false]

/-- A process whose modules have the symbol of the one detour, with the codes it returns. -/
def sampleProcess (code : DetourCall → LONG) : Process where
  DetourIsHelperProcess := FALSE
  DetourRestoreAfterWith := TRUE
  from_payload_bytes := .ok ()
  finish := .ok ()
  LoadLibraryA _ := true
  GetProcAddress _ _ := 4096
  code := code
  GetLastError := NO_ERROR

/-- A call of `DetourAttach` fails, and `DllMain` returns `TRUE`; none fails, and the
detour stays when the process ends. -/
theorem DllMain_swapped :
    ((sampleProcess fun c ↦ if c = .Attach 0 then 6 else 0).DllMain [⟨[], 0⟩]
        DLL_PROCESS_ATTACH).result = .ok TRUE ∧
      (sampleProcess fun _ ↦ 0).DllMain [⟨[], 4096⟩] DLL_PROCESS_DETACH =
        ⟨.ok FALSE, [.TransactionBegin]⟩ ∧
      ¬AttachReports (sampleProcess fun c ↦ if c = .Attach 0 then 6 else 0) [⟨[], 0⟩] ∧
      ¬DetachUndoes (sampleProcess fun _ ↦ 0) [⟨[], 0⟩] := by
  refine ⟨rfl, rfl, fun h ↦ ?_, fun h ↦ ?_⟩
  · have hcode := h rfl (.Attach 0) (.tail _ (.tail _ (.head _)))
    exact absurd hcode (by decide)
  · have hdetach := (h [⟨[], 4096⟩] rfl (fun _ _ ↦ rfl) (sampleProcess fun _ ↦ 0) rfl rfl
      fun _ ↦ rfl).1
    cases hdetach

end Fspy.Windows
