import Odin32.MemMap
import Mathlib.Data.List.Basic

/-! # Creating file mappings

`HMDeviceMemMapClass::CreateFileMapping` with the searches for a map that exists, the
constructors, `Init` and the destructors. An error of `Init` is answered by deleting the
object, whose destructor closes the file handle it finds and enters and leaves the mutex once
more. -/

set_option autoImplicit false

namespace Odin32.MemMapCreate
open Odin32.MemMap (pageReadonly pageReadwrite pageWritecopy secCommit has)

def secImage : ℕ := 0x01000000
def secReserve : ℕ := 0x04000000
def secNocache : ℕ := 0x10000000

def noError : ℕ := 0
def errorNotEnoughMemory : ℕ := 8
def errorOutofmemory : ℕ := 14
def errorGenFailure : ℕ := 31
def errorInvalidParameter : ℕ := 87
def errorDiskFull : ℕ := 112
def errorAlreadyExists : ℕ := 183

structure Win32MemMap where
  /-- Which object it is. -/
  self : ℕ
  referenced : ℕ
  hMemFile : Option ℕ
  lpszFileName : Option String
  mSize : ℕ
  mProtFlags : ℕ
  mProcessId : ℕ
  lpszMapName : Option String
  /-- What a `Win32MemMapDup` is a duplicate of. -/
  parent : Option ℕ
deriving DecidableEq, Repr

structure State where
  /-- The handles that are open. -/
  handles : List ℕ
  memmaps : List Win32MemMap
  /-- How often a `mapMutex` has been entered. -/
  cEntered : ℕ
  /-- How often a `mapMutex` has been left. -/
  cLeft : ℕ
deriving DecidableEq, Repr

/-- The arguments of the call; the handle -1 is `none`. -/
structure Request where
  hFile : Option ℕ
  protect : ℕ
  sizeHigh : ℕ
  sizeLow : ℕ
  name : Option String

/-- What the system answers during one call. -/
structure Os where
  processId : ℕ
  /-- `GetFileSize` is 0. -/
  fEmpty : Bool
  /-- The empty file can be extended. -/
  fGrow : Bool
  /-- `HMGetFileNameFromHandle` in `findMapByFile`. -/
  szFileName : Option String
  /-- The address of a new object. -/
  self : Option ℕ
  /-- `HMGetFileNameFromHandle` in `Init`. -/
  lpszFileName : Option String
  /-- The handle that `HMDuplicateHandle` makes. -/
  duplicate : Option ℕ
  /-- `SetFilePointer` to the end of the file. -/
  fileEnd : Option ℕ
  /-- `SetFilePointer` to the size that the caller wants. -/
  extended : ℕ
  /-- `allocateMap` -/
  fMapping : Bool

structure Result where
  rc : ℕ
  /-- The map behind the new handle. -/
  dwUserData : Option ℕ
  state : State
deriving DecidableEq, Repr

/-! ## The list of maps and the mutex -/

namespace State

def enter (s : State) : State := { s with cEntered := s.cEntered + 1 }

def leave (s : State) : State := { s with cLeft := s.cLeft + 1 }

def openHandle (s : State) (h : ℕ) : State := { s with handles := h :: s.handles }

def closeHandle (s : State) : Option ℕ → State
  | some h => { s with handles := s.handles.filter fun handle => handle ≠ h }
  | none => s

def addRef (s : State) (self : ℕ) : State :=
  { s with memmaps := s.memmaps.map fun map =>
      if map.self = self then { map with referenced := map.referenced + 1 } else map }

def subRef (s : State) (self : ℕ) : State :=
  { s with memmaps := s.memmaps.map fun map =>
      if map.self = self then { map with referenced := map.referenced - 1 } else map }

/-- The base constructor links the object in front. -/
def link (s : State) (map : Win32MemMap) : State := { s with memmaps := map :: s.memmaps }

/-- The object with what `Init` has set. -/
def put (s : State) (map : Win32MemMap) : State :=
  { s with memmaps := s.memmaps.map fun m => if m.self = map.self then map else m }

/-- `~Win32MemMap` of a map without views. -/
def destroy (s : State) (map : Win32MemMap) : State :=
  let s := (s.enter.closeHandle map.hMemFile).leave
  { s with memmaps := s.memmaps.filter fun m => m.self ≠ map.self }

@[simp] theorem enter_memmaps (s : State) : s.enter.memmaps = s.memmaps := rfl
@[simp] theorem leave_memmaps (s : State) : s.leave.memmaps = s.memmaps := rfl
@[simp] theorem enter_handles (s : State) : s.enter.handles = s.handles := rfl
@[simp] theorem leave_handles (s : State) : s.leave.handles = s.handles := rfl
@[simp] theorem enter_cEntered (s : State) : s.enter.cEntered = s.cEntered + 1 := rfl
@[simp] theorem leave_cEntered (s : State) : s.leave.cEntered = s.cEntered := rfl
@[simp] theorem enter_cLeft (s : State) : s.enter.cLeft = s.cLeft := rfl
@[simp] theorem leave_cLeft (s : State) : s.leave.cLeft = s.cLeft + 1 := rfl

@[simp] theorem closeHandle_memmaps (s : State) (h : Option ℕ) :
    (s.closeHandle h).memmaps = s.memmaps := by
  cases h <;> rfl

@[simp] theorem closeHandle_cEntered (s : State) (h : Option ℕ) :
    (s.closeHandle h).cEntered = s.cEntered := by
  cases h <;> rfl

@[simp] theorem closeHandle_cLeft (s : State) (h : Option ℕ) :
    (s.closeHandle h).cLeft = s.cLeft := by
  cases h <;> rfl

theorem put_closeHandle (s : State) (map : Win32MemMap) (h : Option ℕ) :
    ((s.put map).closeHandle h).handles = (s.closeHandle h).handles := by
  cases h <;> rfl

@[simp] theorem destroy_handles (s : State) (map : Win32MemMap) :
    (s.destroy map).handles = (s.closeHandle map.hMemFile).handles := by
  cases there : map.hMemFile <;> simp [destroy, closeHandle, there]

@[simp] theorem destroy_memmaps (s : State) (map : Win32MemMap) :
    (s.destroy map).memmaps = s.memmaps.filter fun m => m.self ≠ map.self := by
  simp [destroy]

@[simp] theorem destroy_cEntered (s : State) (map : Win32MemMap) :
    (s.destroy map).cEntered = s.cEntered + 1 := by
  simp [destroy]

@[simp] theorem destroy_cLeft (s : State) (map : Win32MemMap) :
    (s.destroy map).cLeft = s.cLeft + 1 := by
  simp [destroy]

/-- `Release`; deleting a duplicate releases what it is a duplicate of. -/
def release : ℕ → State → ℕ → State
  | 0, s, _ => s
  | fuel + 1, s, self =>
    match (s.subRef self).memmaps.find? fun map => map.self = self with
    | none => s.subRef self
    | some map =>
      if map.referenced = 0 then
        match map.parent with
        | some parent => (release fuel (s.subRef self) parent).destroy map
        | none => (s.subRef self).destroy map
      else s.subRef self

/-- `delete map` -/
def delete (s : State) (map : Win32MemMap) : State :=
  match map.parent with
  | some parent => (s.release s.memmaps.length parent).destroy map
  | none => s.destroy map

end State

/-- `Win32MemMap::findMap` of a name, without its `AddRef`. -/
def findMap (name : Option String) (memmaps : List Win32MemMap) : Option Win32MemMap :=
  match name with
  | none => none
  | some lpszName => memmaps.find? fun map => map.lpszMapName = some lpszName

/-- `Win32MemMap::findMapByFile`, without its `AddRef`. -/
def findMapByFile (os : Os) (hFile : Option ℕ) (memmaps : List Win32MemMap) :
    Option Win32MemMap :=
  match hFile, os.szFileName with
  | some h, some szFileName => memmaps.find? fun map =>
      map.mProcessId = os.processId ∧ map.lpszFileName = some szFileName ∧ map.hMemFile ≠ some h
  | _, _ => none

/-! ## `CreateFileMapping` -/

def newMap (os : Os) (rq : Request) (self : ℕ) : Win32MemMap where
  self := self
  referenced := 1
  hMemFile := rq.hFile
  lpszFileName := none
  mSize := rq.sizeLow
  mProtFlags := rq.protect
  mProcessId := os.processId
  lpszMapName := rq.name
  parent := none

/-- `Win32MemMap::Init`: its result, and the object and the state that it leaves. -/
def init (os : Os) (aMSize : ℕ) (map : Win32MemMap) (s : State) : Bool × Win32MemMap × State :=
  match map.hMemFile with
  | none => (os.fMapping, map, s.enter.leave)
  | some _ =>
    match os.lpszFileName with
    -- the one exit that does not leave the mutex
    | none => (false, map, s.enter)
    | some lpszFileName =>
      match os.duplicate with
      | none => (false, { map with lpszFileName := some lpszFileName }, s.enter.leave)
      | some h =>
        match os.fileEnd with
        | none => (false, { map with lpszFileName := some lpszFileName, hMemFile := some h },
            (s.enter.openHandle h).leave)
        | some fileEnd =>
          (os.fMapping, { map with
            lpszFileName := some lpszFileName
            hMemFile := some h
            mSize := if fileEnd < aMSize then os.extended else fileEnd },
            (s.enter.openHandle h).leave)

/-- `new Win32MemMapDup`: the base constructor, and a reference to the map. -/
def newDup (os : Os) (rq : Request) (self : ℕ) (parent : Win32MemMap) (s : State) :
    Win32MemMap × State :=
  let map := { newMap os rq self with hMemFile := none, parent := some parent.self }
  (map, (s.link map).addRef parent.self)

/-- `Win32MemMapDup::Init`, which does not fail. -/
def initDup (parent map : Win32MemMap) (s : State) : State :=
  let s := s.put { map with mSize := parent.mSize }
  if has map.mProtFlags pageReadwrite ∧ parent.mProtFlags = pageReadonly then
    { s with memmaps := s.memmaps.map fun m =>
        if m.self = parent.self then { m with mProtFlags := pageReadwrite } else m }
  else s

namespace Request

/-- The combinations of parameters that are refused. -/
def invalid (rq : Request) : Bool :=
  (rq.hFile.isNone && rq.sizeLow == 0) || rq.sizeHigh != 0 ||
  has rq.protect (0xFFFFFFFF ^^^ (pageReadonly ||| pageReadwrite ||| pageWritecopy |||
    secCommit ||| secImage ||| secReserve ||| secNocache)) ||
  rq.protect &&& (pageReadonly ||| pageReadwrite ||| pageWritecopy) == 0 ||
  (has rq.protect secCommit && has rq.protect secReserve)

/-- The error for a file of length 0. -/
def checkFile (rq : Request) (os : Os) : Option ℕ :=
  if rq.hFile.isSome ∧ os.fEmpty then
    if ¬ has rq.protect pageReadwrite then some errorNotEnoughMemory
    else if ¬ os.fGrow then some errorDiskFull
    else none
  else none

end Request

/-- The part from the search for a map of the same file on. -/
def createMap (os : Os) (rq : Request) (s : State) : Result :=
  match findMapByFile os rq.hFile s.memmaps with
  | some map =>
    let s := s.addRef map.self
    match os.self with
    | none => ⟨errorOutofmemory, none, s⟩
    | some self =>
      let (dupmap, s) := newDup os rq self map s
      let s := s.release s.memmaps.length map.self
      ⟨noError, some self, initDup map dupmap s⟩
  | none =>
    match os.self with
    | none => ⟨errorOutofmemory, none, s⟩
    | some self =>
      match init os rq.sizeLow (newMap os rq self) (s.link (newMap os rq self)) with
      | (true, map, s) => ⟨noError, some self, s.put map⟩
      | (false, map, s) => ⟨errorGenFailure, none, (s.put map).delete map⟩

def createFileMapping (os : Os) (rq : Request) (s : State) : Result :=
  if rq.invalid then ⟨errorInvalidParameter, none, s⟩
  else
    match rq.checkFile os with
    | some rc => ⟨rc, none, s⟩
    | none =>
      match findMap rq.name s.memmaps with
      | some map => ⟨errorAlreadyExists, some map.self, s.addRef map.self⟩
      | none => createMap os rq s

/-! ## What a failed call leaves behind -/

/-- A call that gives no handle. -/
def Result.Failed (r : Result) : Prop := r.rc ≠ noError ∧ r.rc ≠ errorAlreadyExists

instance (r : Result) : Decidable r.Failed := inferInstanceAs (Decidable (_ ∧ _))

/-- The file handle of the caller is still open, the maps and their references are what they
were, and every entry of a mutex has been left. -/
structure Clean (hFile : Option ℕ) (s s' : State) : Prop where
  handle : ∀ h ∈ hFile, h ∈ s.handles → h ∈ s'.handles
  memmaps : s'.memmaps = s.memmaps
  mutex : s'.cEntered - s.cEntered = s'.cLeft - s.cLeft

/-- The system makes objects and handles that are not in use. -/
structure Os.Fresh (os : Os) (s : State) : Prop where
  self : ∀ self ∈ os.self, ∀ map ∈ s.memmaps, map.self ≠ self
  duplicate : ∀ h ∈ os.duplicate, h ∉ s.handles

/-- The call gets as far as making an object. -/
def Reaches (os : Os) (rq : Request) (s : State) : Prop :=
  rq.invalid = false ∧ rq.checkFile os = none ∧ findMap rq.name s.memmaps = none

/-- Of a file with a map there is memory for a duplicate map; of another file there is no memory
for a map, or the name of the file is found and an open handle can be duplicated. -/
def Undoes (os : Os) (rq : Request) (s : State) : Prop :=
  match findMapByFile os rq.hFile s.memmaps with
  | some _ => os.self.isSome
  | none => ∀ h ∈ rq.hFile, os.self.isSome →
      os.lpszFileName.isSome ∧ (h ∈ s.handles → os.duplicate.isSome)

theorem Clean.refl (hFile : Option ℕ) (s : State) : Clean hFile s s where
  handle _ _ there := there
  memmaps := rfl
  mutex := by omega

theorem findMapByFile_mem {os : Os} {hFile : Option ℕ} {memmaps : List Win32MemMap}
    {map : Win32MemMap} (found : findMapByFile os hFile memmaps = some map) : map ∈ memmaps := by
  unfold findMapByFile at found
  split at found
  · exact List.mem_of_find?_eq_some found
  · exact absurd found (Option.some_ne_none map).symm

theorem addRef_memmaps_ne {s : State} {map : Win32MemMap} (mem : map ∈ s.memmaps) :
    (s.addRef map.self).memmaps ≠ s.memmaps := by
  intro same
  have total : (s.addRef map.self).memmaps.map (·.referenced) = s.memmaps.map (·.referenced) := by
    rw [same]
  rw [State.addRef, List.map_map, List.map_inj_left] at total
  have off := total map mem
  simp at off

theorem unlink_memmaps {memmaps : List Win32MemMap} {map put : Win32MemMap}
    (same : map.self = put.self) (fresh : ∀ m ∈ memmaps, m.self ≠ put.self) :
    ((map :: memmaps).map fun m => if m.self = put.self then put else m).filter
      (fun m => m.self ≠ put.self) = memmaps := by
  have kept : memmaps.map (fun m => if m.self = put.self then put else m) = memmaps := by
    refine (List.map_congr_left fun m mem => if_neg (fresh m mem)).trans ?_
    exact List.map_id' memmaps
  rw [List.map_cons, kept, if_pos same, List.filter_cons_of_neg (by simp)]
  exact List.filter_eq_self.2 fun m mem => decide_eq_true (fresh m mem)

theorem delete_put {s : State} {put : Win32MemMap} (orphan : put.parent = none) :
    (s.put put).delete put = (s.put put).destroy put := by
  rw [State.delete, orphan]

theorem init_keeps (os : Os) (aMSize : ℕ) (map : Win32MemMap) (s : State) :
    (init os aMSize map s).2.1.self = map.self ∧
      (init os aMSize map s).2.1.parent = map.parent ∧
      (init os aMSize map s).2.2.memmaps = s.memmaps ∧
      (init os aMSize map s).2.2.cEntered = s.cEntered + 1 := by
  unfold init
  cases map.hMemFile with
  | none => exact ⟨rfl, rfl, rfl, rfl⟩
  | some hFile =>
    cases os.lpszFileName with
    | none => exact ⟨rfl, rfl, rfl, rfl⟩
    | some lpszFileName =>
      cases os.duplicate with
      | none => exact ⟨rfl, rfl, rfl, rfl⟩
      | some h => cases os.fileEnd <;> exact ⟨rfl, rfl, rfl, rfl⟩

theorem init_cLeft (os : Os) (aMSize : ℕ) (map : Win32MemMap) (s : State) :
    (init os aMSize map s).2.2.cLeft =
      if map.hMemFile.isSome ∧ os.lpszFileName = none then s.cLeft else s.cLeft + 1 := by
  unfold init
  cases map.hMemFile with
  | none => rfl
  | some hFile =>
    cases os.lpszFileName with
    | none => rfl
    | some lpszFileName =>
      cases os.duplicate with
      | none => rfl
      | some h => cases os.fileEnd <;> rfl

/-- Closing the handle that the object has after `Init` closes the duplicate, and where there is
none the handle of the caller. -/
theorem init_closeHandle {os : Os} {s : State} (fresh : ∀ h ∈ os.duplicate, h ∉ s.handles)
    (aMSize : ℕ) (map : Win32MemMap) {hFile : ℕ} (file : map.hMemFile = some hFile) :
    ((init os aMSize map s).2.2.closeHandle (init os aMSize map s).2.1.hMemFile).handles =
      if os.lpszFileName.isSome ∧ os.duplicate.isSome then s.handles
      else s.handles.filter fun handle => handle ≠ hFile := by
  unfold init
  rw [file]
  cases os.lpszFileName with
  | none => simp [State.closeHandle, file]
  | some lpszFileName =>
    cases made : os.duplicate with
    | none => simp [State.closeHandle]
    | some h =>
      have closed : (h :: s.handles).filter (fun handle => handle ≠ h) = s.handles := by
        rw [List.filter_cons_of_neg (by simp)]
        refine List.filter_eq_self.2 fun handle mem => decide_eq_true fun eq => ?_
        exact fresh h (made.symm ▸ rfl) (eq ▸ mem)
      cases os.fileEnd <;> exact closed

theorem init_true {os : Os} {aMSize : ℕ} {map : Win32MemMap} {s : State}
    (done : (init os aMSize map s).1 = true) {hFile : ℕ} (file : map.hMemFile = some hFile) :
    os.lpszFileName.isSome ∧ os.duplicate.isSome := by
  unfold init at done
  rw [file] at done
  cases found : os.lpszFileName with
  | none => rw [found] at done; exact absurd done Bool.false_ne_true
  | some lpszFileName =>
    cases made : os.duplicate with
    | none => rw [found, made] at done; exact absurd done Bool.false_ne_true
    | some h => exact ⟨rfl, rfl⟩

theorem deleted_clean_iff {os : Os} {rq : Request} {s : State} (fresh : os.Fresh s) {self : ℕ}
    (made : os.self = some self) {result : Bool} {map : Win32MemMap} {s' : State}
    (done : init os rq.sizeLow (newMap os rq self) (s.link (newMap os rq self)) =
      (result, map, s')) :
    Clean rq.hFile s ((s'.put map).delete map) ↔
      ∀ h ∈ rq.hFile, os.lpszFileName.isSome ∧ (h ∈ s.handles → os.duplicate.isSome) := by
  have keeps := init_keeps os rq.sizeLow (newMap os rq self) (s.link (newMap os rq self))
  have left := init_cLeft os rq.sizeLow (newMap os rq self) (s.link (newMap os rq self))
  have closed := @init_closeHandle os (s.link (newMap os rq self)) fresh.duplicate rq.sizeLow
    (newMap os rq self)
  rw [done] at keeps left closed
  obtain ⟨same, orphan, memmaps, entered⟩ := keeps
  have linked : s'.memmaps = newMap os rq self :: s.memmaps := memmaps
  have unlinked : ((s'.put map).destroy map).memmaps = s.memmaps := by
    rw [State.destroy_memmaps, State.put, linked]
    exact unlink_memmaps same.symm fun m mem eq => fresh.self self made m mem (eq.trans same)
  have counted : ((s'.put map).destroy map).cEntered = s.cEntered + 2 := by
    rw [State.destroy_cEntered]
    exact congrArg Nat.succ entered
  rw [delete_put orphan]
  constructor
  · intro clean h file
    have file' : (newMap os rq self).hMemFile = some h := file
    have found : os.lpszFileName.isSome := by
      rw [Option.isSome_iff_ne_none]
      intro missing
      have balance := clean.mutex
      have once : s'.cLeft = s.cLeft := by
        refine left.trans (if_pos ⟨?_, missing⟩)
        rw [file']
        rfl
      rw [counted, State.destroy_cLeft, State.put, once] at balance
      omega
    refine ⟨found, fun opened => ?_⟩
    by_contra refused
    have still := clean.handle h file opened
    rw [State.destroy_handles, State.put_closeHandle] at still
    have shut := closed file'
    rw [if_neg fun both => refused both.2] at shut
    rw [shut] at still
    exact of_decide_eq_true (List.mem_filter.1 still).2 rfl
  · intro named
    refine ⟨fun h file opened => ?_, unlinked, ?_⟩
    · obtain ⟨found, duplicated⟩ := named h file
      rw [State.destroy_handles, State.put_closeHandle, closed file,
        if_pos ⟨found, duplicated opened⟩]
      exact opened
    · have once : s'.cLeft = s.cLeft + 1 := by
        refine left.trans (if_neg fun missing => ?_)
        obtain ⟨h, file⟩ := Option.isSome_iff_exists.1 missing.1
        obtain ⟨found, -⟩ := named h file
        rw [missing.2] at found
        exact Bool.false_ne_true found
      rw [counted, State.destroy_cLeft, State.put, once]
      omega

theorem failed_errorOutofmemory (data : Option ℕ) (s : State) :
    Result.Failed ⟨errorOutofmemory, data, s⟩ :=
  ⟨show errorOutofmemory ≠ noError by decide, show errorOutofmemory ≠ errorAlreadyExists by decide⟩

theorem failed_errorGenFailure (data : Option ℕ) (s : State) :
    Result.Failed ⟨errorGenFailure, data, s⟩ :=
  ⟨show errorGenFailure ≠ noError by decide, show errorGenFailure ≠ errorAlreadyExists by decide⟩

theorem createMap_clean_iff {os : Os} {rq : Request} {s : State} (fresh : os.Fresh s) :
    ((createMap os rq s).Failed → Clean rq.hFile s (createMap os rq s).state) ↔
      Undoes os rq s := by
  unfold createMap Undoes
  cases found : findMapByFile os rq.hFile s.memmaps with
  | some map =>
    cases os.self with
    | none =>
      have failed : Result.Failed ⟨errorOutofmemory, none, s.addRef map.self⟩ :=
        failed_errorOutofmemory _ _
      refine iff_of_false (fun clean => ?_) (by simp)
      exact addRef_memmaps_ne (findMapByFile_mem found) (clean failed).memmaps
    | some self => exact iff_of_true (fun failed => absurd rfl failed.1) rfl
  | none =>
    cases made : os.self with
    | none => exact iff_of_true (fun _ => Clean.refl _ s) fun _ _ there => by simp at there
    | some self =>
      simp only [Option.isSome_some, true_implies]
      split
      · rename_i map s' done
        refine iff_of_true (fun failed => absurd rfl failed.1) fun h file => ?_
        have both := @init_true os rq.sizeLow (newMap os rq self) (s.link (newMap os rq self))
          (congrArg Prod.fst done) h file
        exact ⟨both.1, fun _ => both.2⟩
      · rename_i map s' done
        rw [← deleted_clean_iff fresh made done]
        exact ⟨fun clean => clean (failed_errorGenFailure _ _), fun clean _ => clean⟩

/-- A failed `CreateFileMapping` leaves the resources of the caller alone exactly if the system
does not refuse what a new object cannot do without: where it refuses the name or a duplicate
of the handle, the destructor closes the handle of the caller or the mutex stays entered, and
where it has no memory for a duplicate map the reference to the map stays. -/
theorem createFileMapping_clean_iff (os : Os) (rq : Request) (s : State) (fresh : os.Fresh s) :
    ((createFileMapping os rq s).Failed → Clean rq.hFile s (createFileMapping os rq s).state) ↔
      (Reaches os rq s → Undoes os rq s) := by
  unfold createFileMapping Reaches
  cases rq.invalid with
  | true => exact iff_of_true (fun _ => Clean.refl _ s) fun reaches => absurd reaches.1 (by decide)
  | false =>
    cases rq.checkFile os with
    | some rc => exact iff_of_true (fun _ => Clean.refl _ s) fun reaches => by simp at reaches
    | none =>
      cases findMap rq.name s.memmaps with
      | some map =>
        exact iff_of_true (fun failed => absurd rfl failed.2) fun reaches => by simp at reaches
      | none => simpa using createMap_clean_iff fresh

/-- A request for a read-write map of an open file that has no map. -/
def sampleRequest : Request := ⟨some 4, pageReadwrite, 0, 0, none⟩

/-- A system that answers everything but the name of the file. -/
def namelessOs : Os := ⟨1, false, false, none, some 0x1000, none, some 5, some 0, 0, true⟩

def sampleState : State := ⟨[4], [], 0, 0⟩

theorem sampleState_fresh (os : Os) (duplicate : os.duplicate ≠ some 4) :
    os.Fresh sampleState where
  self _ _ _ mem := absurd mem List.not_mem_nil
  duplicate h there opened := by
    rw [sampleState, List.mem_singleton] at opened
    exact duplicate (opened ▸ there)

/-- A map that cannot get its memory is undone: the name and the duplicate are there. -/
theorem createFileMapping_clean_allocation :
    Clean (some 4) sampleState (createFileMapping
      { namelessOs with lpszFileName := some "a", fMapping := false } sampleRequest
        sampleState).state :=
  (createFileMapping_clean_iff { namelessOs with lpszFileName := some "a", fMapping := false }
    sampleRequest sampleState (sampleState_fresh _ (by decide))).2
    (fun _ => fun _ _ _ => ⟨rfl, fun _ => rfl⟩) (by decide)

/-- Without the name of the file the call closes the handle of the caller and does not leave
the mutex. -/
theorem createFileMapping_not_clean : ¬ ∀ (os : Os) (rq : Request) (s : State), os.Fresh s →
    (createFileMapping os rq s).Failed → Clean rq.hFile s (createFileMapping os rq s).state := by
  intro always
  have clean := always namelessOs sampleRequest sampleState
    (sampleState_fresh namelessOs (by decide)) (by decide)
  exact absurd (clean.handle 4 rfl (by decide)) (by decide)

end Odin32.MemMapCreate
