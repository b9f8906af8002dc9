import Mathlib.Logic.Function.Basic
import Odin32.OrderedList

/-! # The list of DLLs

Every PE DLL is an object with a count of references and a queue of the DLLs it imports, and
all of them stand in one list, in the order in which they are to be unloaded. A DLL is named
by its object, and using an object that was deleted is a fault. The recursions run on fuel:
an answer is given where it suffices. -/

set_option autoImplicit false

namespace Odin32.DllList

open OrderedList

abbrev Dll := ℕ

inductive Fault where
  /-- An object is used that was deleted, or that never was. -/
  | deleted (dll : Dll)
  | outOfFuel
  deriving DecidableEq, Repr

structure Win32DllBase where
  referenced : ℤ
  nrDynamicLibRef : ℕ
  loadedDlls : List Dll
  fInserted : Bool
  fSkipEntryCalls : Bool
  fAttachedToProcess : Bool
  fUnloaded : Bool
  errorState : Bool
  deriving DecidableEq, Repr

/-- Why an object is being loaded: by `LoadLibraryEx`, for the imports of the executable, or
for the imports of the DLL whose load is the next one on the stack. -/
inductive Origin where
  | loadLibrary | exe | import_
  deriving DecidableEq, Repr

/-- What a load is at: its imports, on the way out after one of them failed, or its entry
point. -/
inductive Phase where
  | imports | failed | entry
  deriving DecidableEq, Repr

structure Load where
  dll : Dll
  origin : Origin
  phase : Phase
  deriving DecidableEq, Repr

/-- The list and its objects, the queue of `LoadLibrary`, the queue of the executable, and
the loads that have not finished, the innermost first. The last two fields only record
what happened: the objects that were deleted, and the DLLs that were detached under one
that depends on them. -/
structure Loader where
  head : List Dll
  object : Dll → Option Win32DllBase
  created : ℕ
  loadLibDlls : List Dll
  exeDlls : List Dll
  loading : List Load
  deleted : List Dll
  detachedUnder : List (Dll × Dll)

namespace Loader

variable (s : Loader)

def get (d : Dll) : Except Fault Win32DllBase :=
  match s.object d with
  | some object => .ok object
  | none => .error (.deleted d)

def set (d : Dll) (object : Win32DllBase) : Loader :=
  { s with object := Function.update s.object d (some object) }

@[simp] theorem set_object_self (d : Dll) (object : Win32DllBase) :
    (s.set d object).object d = some object := Function.update_self ..

theorem set_object_of_ne {d e : Dll} (other : e ≠ d) (object : Win32DllBase) :
    (s.set d object).object e = s.object e := Function.update_of_ne other ..

/-- The imports of a DLL. -/
def deps (d : Dll) : List Dll :=
  match s.object d with
  | some object => object.loadedDlls
  | none => []

def DependsOn (u v : Dll) : Prop := v ∈ s.deps u

end Loader

/-! ## Queues -/

def push (item : Dll) (queue : List Dll) : List Dll := item :: queue

/-- `Queue::PushRev`: the items of a queue, the last one first, are pushed on another. -/
def pushRev (dest : List Dll) : List Dll → List Dll
  | [] => dest
  | item :: rest => push item (pushRev dest rest)

/-- `Queue::operator=`. -/
def assign (dest queue : List Dll) : List Dll := pushRev dest queue

theorem assign_nil (queue : List Dll) : assign [] queue = queue := by
  unfold assign
  induction queue with
  | nil => rfl
  | cons item rest ih => rw [pushRev, ih, push]

/-! ## The list -/

/-- The walk down a list until a DLL is found, with what stands behind it. -/
def walk (s : Loader) (d : Dll) : List Dll → Except Fault (Option (List Dll))
  | [] => .ok none
  | dll :: rest => do
    let _ ← s.get dll
    if dll = d then .ok (some rest) else walk s d rest

/-- The part of `setUnloadOrder` that finds the place in the list. Nothing is given where the
DLL can stay where it is, else the parent DLL that was found and the new list. -/
def place (s : Loader) (parent : Option Dll) (d : Dll) (fInserted : Bool) :
    Except Fault (Option (Option Dll × List Dll)) := do
  let parentdll ← match parent with
    | none => pure none
    | some p => do
      let _ ← s.get p
      pure ((← walk s p s.head).map fun next => (p, next))
  match parentdll with
  | some (p, next) =>
    if fInserted then
      match ← walk s d next with
      | some _ => pure none
      | none => do
        let _ ← walk s d s.head
        pure (some (some p, moveAfter p d s.head))
    else pure (some (some p, insertAfter p d s.head))
  | none => if fInserted then pure none else pure (some (none, d :: s.head))

/-- `Win32DllBase::setUnloadOrder`. The parent is a DLL, or none for the executable. Handles
of DLLs are told apart as the objects are. -/
def setUnloadOrder : ℕ → Option Dll → Dll → Loader → Except Fault Loader
  | 0, _, _, _ => .error .outOfFuel
  | fuel + 1, parent, d, s => do
    let object ← s.get d
    match ← place s parent d object.fInserted with
    | none => .ok s
    | some (parentdll, list) =>
      object.loadedDlls.foldlM
        (fun s dll => if some dll = parentdll then .ok s else setUnloadOrder fuel (some d) dll s)
        ({ s with head := list }.set d { object with fInserted := true })

/-! ## References -/

def addRef (d : Dll) (s : Loader) : Except Fault Loader := do
  let object ← s.get d
  pure (s.set d { object with referenced := object.referenced + 1 })

def addDependency (p d : Dll) (s : Loader) : Except Fault Loader := do
  let object ← s.get p
  pure (s.set p { object with loadedDlls := push d object.loadedDlls })

def incDynamicLib (d : Dll) (s : Loader) : Except Fault Loader := do
  let object ← s.get d
  let s := if object.nrDynamicLibRef = 0 then { s with loadLibDlls := push d s.loadLibDlls } else s
  pure (s.set d { object with nrDynamicLibRef := object.nrDynamicLibRef + 1 })

def decDynamicLib (d : Dll) (s : Loader) : Except Fault Loader := do
  let object ← s.get d
  let s := if object.nrDynamicLibRef - 1 = 0 then { s with loadLibDlls := s.loadLibDlls.erase d }
    else s
  pure (s.set d { object with nrDynamicLibRef := object.nrDynamicLibRef - 1 })

def removeCircularDependency (parent d : Dll) (s : Loader) : Except Fault Loader := do
  let object ← s.get d
  pure (s.set d { object with loadedDlls := object.loadedDlls.filter fun dll => dll ≠ parent })

/-- Whether a DLL is attached to the process. -/
def Win32DllBase.attached (object : Win32DllBase) : Bool :=
  object.fAttachedToProcess && !object.fUnloaded

/-- The attached DLLs that depend on a DLL. -/
def Loader.dependents (s : Loader) (d : Dll) : List Dll :=
  (List.range s.created).filter fun u =>
    u ≠ d && match s.object u with
      | some object => object.attached && d ∈ object.loadedDlls
      | none => false

/-- `attachProcess`, up to the call of the entry point. -/
def attachProcess (d : Dll) (s : Loader) : Except Fault Loader := do
  let object ← s.get d
  if object.fAttachedToProcess || object.fSkipEntryCalls then pure s
  else pure (s.set d { object with fAttachedToProcess := true })

def detachProcess (d : Dll) (s : Loader) : Except Fault Loader := do
  let object ← s.get d
  let s := if object.attached then
      { s with detachedUnder := (s.dependents d).map (fun u => (u, d)) ++ s.detachedUnder }
    else s
  pure (s.set d { object with fUnloaded := true })

/-- `Win32DllBase::~Win32DllBase`. -/
def delete (d : Dll) (s : Loader) : Except Fault Loader := do
  let object ← s.get d
  let s ← if !object.errorState && !object.fUnloaded then detachProcess d s else pure s
  let _ ← walk s d s.head
  pure { s with
    head := s.head.erase d
    object := Function.update s.object d none
    deleted := d :: s.deleted }

def release : ℕ → Dll → Loader → Except Fault Loader
  | 0, _, _ => .error .outOfFuel
  | fuel + 1, d, s => do
    let object ← s.get d
    let s := s.set d { object with referenced := object.referenced - 1 }
    if object.referenced - 1 ≤ 0 then do
      let queue := assign [] object.loadedDlls
      let s ← queue.foldlM (fun s dll => removeCircularDependency d dll s) s
      let s ← delete d s
      queue.foldlM (fun s dll => release fuel dll s) s
    else pure s

/-! ## Unloading -/

def deleteAll : ℕ → Loader → Except Fault Loader
  | 0, _ => .error .outOfFuel
  | fuel + 1, s =>
    match s.head with
    | [] => .ok s
    | dll :: _ => do
      let s ← release fuel dll s
      deleteAll fuel s

/-- The inner loop of `deleteDynamicLibs`. -/
def releaseDynamic (fuel : ℕ) (dll : Dll) : ℕ → Loader → Except Fault Loader
  | 0, s => .ok s
  | dynref + 1, s => do
    let s ← decDynamicLib dll s
    let s ← release fuel dll s
    releaseDynamic fuel dll dynref s

def deleteDynamicLibs : ℕ → Loader → Except Fault Loader
  | 0, _ => .error .outOfFuel
  | fuel + 1, s =>
    match s.loadLibDlls with
    | [] => .ok s
    | dll :: _ => do
      let object ← s.get dll
      let s ← releaseDynamic fuel dll object.nrDynamicLibRef s
      deleteDynamicLibs fuel s

def detachProcessFromAllDlls (s : Loader) : Except Fault Loader :=
  s.head.foldlM (fun s dll => detachProcess dll s) s

/-- The destructor of the executable. -/
def deleteExe (fuel : ℕ) (s : Loader) : Except Fault Loader := do
  let s ← deleteDynamicLibs fuel s
  let s ← s.exeDlls.foldlM (fun s dll => release fuel dll s) { s with exeDlls := [] }
  deleteAll fuel s

/-! ## Runs -/

inductive Op where
  /-- `new Win32PeLdrDll`, up to its imports. -/
  | construct (origin : Origin) (fSkipEntryCalls : Bool)
  /-- `processImports` of the innermost load finds a DLL that is there. -/
  | importFound (d : Dll)
  /-- `processImports` of the executable does. -/
  | exeImportFound (d : Dll)
  /-- `init` of the innermost load succeeds. -/
  | initDone
  /-- `init` of the innermost load fails. -/
  | initFailed
  /-- The entry point of the innermost load returns. -/
  | entryDone (rc : Bool)
  | loadLibraryFound (d : Dll)
  | freeLibrary (d : Dll)
  | deleteDynamicLibs
  /-- `ExitProcess`, which does not return to the loads it is called under. -/
  | exitProcess

def newDll (fSkipEntryCalls : Bool) : Win32DllBase :=
  ⟨0, 0, [], false, fSkipEntryCalls, false, false, false⟩

/-- A DLL of the imports of another was found or loaded. -/
def bindImport (fuel : ℕ) (p d : Dll) (s : Loader) : Except Fault Loader := do
  let s ← addDependency p d s
  setUnloadOrder fuel (some p) d s

/-- A DLL of the imports of the executable was found or loaded. -/
def bindExeImport (fuel : ℕ) (d : Dll) (s : Loader) : Except Fault Loader :=
  setUnloadOrder fuel none d { s with exeDlls := push d s.exeDlls }

def construct (fuel : ℕ) (origin : Origin) (fSkipEntryCalls : Bool) (parent : Option Dll)
    (s : Loader) : Except Fault Loader := do
  let d := s.created
  let s := { s.set d (newDll fSkipEntryCalls) with created := s.created + 1 }
  let s ← setUnloadOrder fuel parent d s
  pure { s with loading := ⟨d, origin, .imports⟩ :: s.loading }

/-- The load of a DLL failed: it is deleted, and so is the one it was loaded for. -/
def abandon (d : Dll) (origin : Origin) (loading : List Load) (s : Loader) :
    Except Fault Loader := do
  let s ← delete d s
  match origin, loading with
  | .import_, importer :: rest =>
    pure { s with loading := { importer with phase := .failed } :: rest }
  | _, _ => pure { s with loading := loading }

/-- The load of a DLL succeeded. -/
def finish (fuel : ℕ) (d : Dll) (origin : Origin) (loading : List Load) (s : Loader) :
    Except Fault Loader :=
  match origin, loading with
  | .import_, importer :: _ => bindImport fuel importer.dll d { s with loading := loading }
  | .exe, _ => bindExeImport fuel d { s with loading := loading }
  | _, _ => incDynamicLib d { s with loading := loading }

/-- One event. Where it cannot happen nothing does. -/
def step (fuel : ℕ) (s : Loader) : Op → Except Fault Loader
  | .construct origin fSkipEntryCalls =>
    match origin, s.loading with
    | .import_, importer :: _ =>
      if importer.phase = .imports then
        construct fuel .import_ fSkipEntryCalls (some importer.dll) s
      else .ok s
    | .import_, [] => .ok s
    | origin, _ => construct fuel origin fSkipEntryCalls none s
  | .importFound d =>
    match s.loading with
    | importer :: _ =>
      if importer.phase = .imports ∧ d ∈ s.head then do
        let s ← addRef d s
        bindImport fuel importer.dll d s
      else .ok s
    | [] => .ok s
  | .exeImportFound d =>
    if d ∈ s.head then do
      let s ← addRef d s
      bindExeImport fuel d s
    else .ok s
  | .initDone =>
    match s.loading with
    | ⟨d, origin, .imports⟩ :: loading => do
      let s ← addRef d s
      attachProcess d { s with loading := ⟨d, origin, .entry⟩ :: loading }
    | _ => .ok s
  | .initFailed =>
    match s.loading with
    | ⟨d, origin, phase⟩ :: loading =>
      if phase = .entry then .ok s
      else do
        let object ← s.get d
        abandon d origin loading (s.set d { object with errorState := true })
    | [] => .ok s
  | .entryDone rc =>
    match s.loading with
    | ⟨d, origin, .entry⟩ :: loading =>
      if rc then finish fuel d origin loading s else abandon d origin loading s
    | _ => .ok s
  | .loadLibraryFound d =>
    if d ∈ s.head then do
      let s ← incDynamicLib d s
      addRef d s
    else .ok s
  | .freeLibrary d =>
    if d ∈ s.head then do
      let object ← s.get d
      if object.nrDynamicLibRef ≠ 0 then do
        let s ← decDynamicLib d s
        release fuel d s
      else .ok s
    else .ok s
  | .deleteDynamicLibs => deleteDynamicLibs fuel s
  | .exitProcess => do
    let s ← detachProcessFromAllDlls s
    deleteExe fuel { s with loading := [] }

def newLoader : Loader := ⟨[], fun _ => none, 0, [], [], [], [], []⟩

end Odin32.DllList
