import Mathlib.Data.Nat.Notation
import Mathlib.Tactic.Common

/-! # The handle table

A table of entries holds the handles of a process. An entry whose OS/2 handle is
`INVALID_HANDLE_VALUE` is free. Two searches hand entries out: one goes up from the
entry after the last one it took, the other goes round from the entry after its own
last one. A device handler is a function of the entry it is given; it answers with a
return code and the entry as it leaves it. -/

set_option autoImplicit false

namespace Odin32.Handles

def maxOs2HmHandles : ℕ := 16 * 1024
def invalidHandleValue : ℕ := 0xffffffff

def stdInputHandle : ℕ := 0xfffffff6
def stdOutputHandle : ℕ := 0xfffffff5
def stdErrorHandle : ℕ := 0xfffffff4

def noError : ℕ := 0
def errorAlreadyExists : ℕ := 183
def handleFlagInherit : ℕ := 1
def handleFlagProtectFromClose : ℕ := 2

/-- The device handlers of `HMGlobals`, and those registered under a name. -/
inductive DeviceHandler where
  | standard | open32 | event | file | infoFile | disk | mutex | semaphore
  | fileMapping | comm | token | thread | namedPipe | mailslot | parPort | nul
  | registered (name : ℕ)
  deriving DecidableEq, Repr

/-- `HMTYPE_…`. -/
inductive HandleType where
  | unknown | memMap | device | processToken | threadToken | thread | pipe
  | eventSem | mutexSem | semaphore | comPort | parPort | mailslot
  deriving DecidableEq, Repr

structure HMHandleData where
  hHMHandle : ℕ := 0
  hWin32Handle : ℕ := 0
  dwAccess : ℕ := 0
  dwShare : ℕ := 0
  dwCreation : ℕ := 0
  dwFlags : ℕ := 0
  dwUserData : ℕ := 0
  dwInternalType : HandleType := .unknown
  dwHandleInformation : ℕ := 0
  lpHandlerData : ℕ := 0
  lpDeviceData : ℕ := 0
  deriving DecidableEq, Repr

structure HMHandle where
  hmHandleData : HMHandleData
  pDeviceHandler : Option DeviceHandler
  deriving DecidableEq, Repr

structure HandleManager where
  tabWin32Handles : ℕ → HMHandle
  lastIndex : ℕ
  hStandardIn : ℕ
  hStandardOut : ℕ
  hStandardError : ℕ
  ulHandleLast : ℕ

/-- The table as `HMInitialize` fills it. -/
def HandleManager.init : HandleManager :=
  { tabWin32Handles := fun _ => ⟨{ hHMHandle := invalidHandleValue }, none⟩
    lastIndex := 1, hStandardIn := 0, hStandardOut := 0, hStandardError := 0
    ulHandleLast := 0 }

namespace HandleManager

variable (hm : HandleManager)

def data (i : ℕ) : HMHandleData := (hm.tabWin32Handles i).hmHandleData

def free (i : ℕ) : Bool := (hm.data i).hHMHandle == invalidHandleValue

def setData (i : ℕ) (data : HMHandleData) : HandleManager :=
  { hm with tabWin32Handles := fun j =>
      if j = i then { hm.tabWin32Handles i with hmHandleData := data }
      else hm.tabWin32Handles j }

def setDevice (i : ℕ) (device : DeviceHandler) : HandleManager :=
  { hm with tabWin32Handles := fun j =>
      if j = i then { hm.tabWin32Handles i with pDeviceHandler := some device }
      else hm.tabWin32Handles j }

def freeHandle (i : ℕ) : HandleManager :=
  hm.setData i { hm.data i with hHMHandle := invalidHandleValue }

end HandleManager

/-! ## The two searches -/

/-- The loop of `_HMHandleGetFree`, with `n` entries left to look at. -/
def getFreeFrom (hm : HandleManager) : ℕ → ℕ → Option ℕ
  | 0, _ => none
  | n + 1, ulLoop => if hm.free ulLoop then some ulLoop else getFreeFrom hm n (ulLoop + 1)

/-- Where `_HMHandleGetFree` starts. -/
def HandleManager.cursor (hm : HandleManager) : ℕ :=
  if maxOs2HmHandles ≤ hm.lastIndex then 1 else hm.lastIndex

def hmHandleGetFree (hm : HandleManager) : Option ℕ × HandleManager :=
  let hm := { hm with lastIndex := hm.cursor }
  match getFreeFrom hm (maxOs2HmHandles - hm.lastIndex) hm.lastIndex with
  | some i =>
    (some i, { hm.setData i { hHMHandle := i, hWin32Handle := i } with lastIndex := i + 1 })
  | none => (none, hm)

/-- The loop of `HMHandleAllocate`. The outer `none` says that `n` turns were not enough,
the inner one that the loop came round to the last handle. -/
def allocateFrom (hm : HandleManager) : ℕ → ℕ → Option (Option ℕ)
  | 0, _ => none
  | n + 1, ulHandle =>
    if hm.free ulHandle then some (some ulHandle)
    else
      let next := if maxOs2HmHandles ≤ ulHandle + 1 then 1 else ulHandle + 1
      if next = hm.ulHandleLast then some none else allocateFrom hm n next

/-- Where `HMHandleAllocate` starts. -/
def HandleManager.startIndex (hm : HandleManager) : ℕ :=
  if maxOs2HmHandles ≤ hm.ulHandleLast + 1 then 1 else hm.ulHandleLast + 1

/-! ## What a call gives -/

/-- What keeps a call from coming back. -/
inductive Fault where
  | neverReturns
  | outsideTable
  | nullDevice
  deriving DecidableEq, Repr

inductive Outcome where
  | handed (index : ℕ)
  | noHandle
  | failed
  | done
  deriving DecidableEq, Repr

/-- The outcome of a call, and the entry it closed for the caller. -/
structure Result where
  outcome : Outcome
  closed : Option ℕ := none
  deriving DecidableEq, Repr

structure HandlerReply where
  rc : ℕ
  data : HMHandleData

abbrev Handler := HMHandleData → HandlerReply

/-! ## Creation -/

/-- The body the creating calls share: the entry is filled in and marked before the
device handler sees it, and given back unless the handler's return code keeps it. -/
def createWith (device : DeviceHandler) (fill : HMHandleData → HMHandleData) (handler : Handler)
    (keeps : ℕ → Bool) (hm : HandleManager) : Result × HandleManager :=
  match hmHandleGetFree hm with
  | (none, hm) => (⟨.noHandle, none⟩, hm)
  | (some iIndexNew, hm) =>
    let data := { fill (hm.data iIndexNew) with hHMHandle := iIndexNew }
    let hm := (hm.setData iIndexNew data).setDevice iIndexNew device
    let reply := handler data
    let hm := hm.setData iIndexNew reply.data
    if keeps reply.rc then (⟨.handed iIndexNew, none⟩, hm)
    else (⟨.failed, none⟩, hm.freeHandle iIndexNew)

/-- The fields every creating call but the file calls sets. -/
def fillData (dwAccess : ℕ) (dwInternalType : HandleType) (data : HMHandleData) : HMHandleData :=
  { data with
    dwAccess := dwAccess, dwShare := 0, dwCreation := 0, dwFlags := 0, lpHandlerData := 0
    dwInternalType := dwInternalType }

/-- `CreateMutexA` without a name. With one, `OpenMutexA` is called first, and this only
when that gives no handle. -/
def createMutex (handler : Handler) : HandleManager → Result × HandleManager :=
  createWith .mutex (fillData 0 .mutexSem) handler (· == noError)

def openMutex (fdwAccess : ℕ) (handler : Handler) : HandleManager → Result × HandleManager :=
  createWith .mutex (fillData fdwAccess .mutexSem) handler (· == noError)

def createSemaphore (handler : Handler) : HandleManager → Result × HandleManager :=
  createWith .semaphore (fillData 0 .semaphore) handler (· == noError)

def openSemaphore (fdwAccess : ℕ) (handler : Handler) : HandleManager → Result × HandleManager :=
  createWith .semaphore (fillData fdwAccess .semaphore) handler (· == noError)

def hmCreateFileMapping (handler : Handler) : HandleManager → Result × HandleManager :=
  createWith .fileMapping (fillData 0 .memMap) handler
    fun rc => rc == noError || rc == errorAlreadyExists

/-- The entry keeps the type the search gave it. -/
def hmOpenFileMapping (fdwAccess : ℕ) (handler : Handler) :
    HandleManager → Result × HandleManager :=
  createWith .fileMapping (fillData fdwAccess .unknown) handler (· == noError)

def hmOpenThreadToken (desiredAccess : ℕ) (handler : Handler) :
    HandleManager → Result × HandleManager :=
  createWith .token (fillData desiredAccess .threadToken) handler (· == noError)

def hmOpenProcessToken (desiredAccess : ℕ) (handler : Handler) :
    HandleManager → Result × HandleManager :=
  createWith .token (fillData desiredAccess .processToken) handler (· == noError)

def fileConvertOFMode (mode : ℕ) : ℕ × ℕ :=
  (match mode % 4 with
    | 0 => 0x80000000
    | 1 => 0x40000000
    | 2 => 0xc0000000
    | _ => 0,
   match mode / 0x10 % 8 with
    | 1 => 0
    | 2 => 1
    | 3 => 2
    | _ => 3)

def ofParse : ℕ := 0x0100
def ofDelete : ℕ := 0x0200
def ofVerify : ℕ := 0x0400
def ofExist : ℕ := 0x4000

/-- `OpenFile`. The modes that only look at the file give the entry back. -/
def openFile (device : DeviceHandler) (pDevData fuMode : ℕ) (handler : Handler)
    (hm : HandleManager) : Result × HandleManager :=
  let device := if device = .open32 then .file else device
  match hmHandleGetFree hm with
  | (none, hm) => (⟨.noHandle, none⟩, hm)
  | (some iIndexNew, hm) =>
    let data :=
      { hm.data iIndexNew with
        dwAccess := (fileConvertOFMode fuMode).1, dwShare := (fileConvertOFMode fuMode).2
        dwCreation := 3, dwFlags := 0, lpHandlerData := 0, lpDeviceData := pDevData
        hHMHandle := iIndexNew }
    let hm := (hm.setData iIndexNew data).setDevice iIndexNew device
    let reply := handler data
    let hm := hm.setData iIndexNew reply.data
    if fuMode &&& ofParse ≠ 0 then (⟨.done, none⟩, hm.freeHandle iIndexNew)
    else if reply.rc ≠ noError then (⟨.failed, none⟩, hm.freeHandle iIndexNew)
    else if fuMode &&& (ofDelete ||| ofExist) ≠ 0 then
      (⟨.done, none⟩, hm.freeHandle iIndexNew)
    else if fuMode &&& ofVerify ≠ 0 then (⟨.done, none⟩, hm.freeHandle iIndexNew)
    else (⟨.handed iIndexNew, none⟩, hm)

/-! ## Looking a handle up -/

/-- A standard handle stands for the entry it was set to. -/
def HandleManager.translate (hm : HandleManager) (hHandle : ℕ) : Option ℕ :=
  if hHandle < maxOs2HmHandles then some hHandle
  else
    let standard :=
      if hHandle = stdInputHandle then some hm.hStandardIn
      else if hHandle = stdOutputHandle then some hm.hStandardOut
      else if hHandle = stdErrorHandle then some hm.hStandardError
      else none
    standard.filter (· < maxOs2HmHandles)

def hmHandleQuery (hm : HandleManager) (hHandle : ℕ) : Option ℕ :=
  (hm.translate hHandle).filter fun i => !hm.free i

def hmHandleValidate (hm : HandleManager) (hHandle : ℕ) : Bool :=
  (hmHandleQuery hm hHandle).isSome

def hmGetStdHandle (hm : HandleManager) (nStdHandle : ℕ) : Option ℕ :=
  if nStdHandle = stdInputHandle then some hm.hStandardIn
  else if nStdHandle = stdOutputHandle then some hm.hStandardOut
  else if nStdHandle = stdErrorHandle then some hm.hStandardError
  else none

def hmSetStdHandle (nStdHandle hHandle : ℕ) (hm : HandleManager) : Result × HandleManager :=
  if nStdHandle = stdInputHandle then (⟨.done, none⟩, { hm with hStandardIn := hHandle })
  else if nStdHandle = stdOutputHandle then (⟨.done, none⟩, { hm with hStandardOut := hHandle })
  else if nStdHandle = stdErrorHandle then (⟨.done, none⟩, { hm with hStandardError := hHandle })
  else (⟨.failed, none⟩, hm)

/-- `HMSetupStdHandle`, where `type` is what `OSLibDosQueryHType` says of the OS/2 handle
and `o32Handle` is what `O32_GetStdHandle` gives. -/
def hmSetupStdHandle (nStdHandle type o32Handle : ℕ) (hm : HandleManager) :
    Result × HandleManager :=
  match hmHandleGetFree hm with
  | (none, hm) => (⟨.noHandle, none⟩, hm)
  | (some hHandle, hm) =>
    let handle := if nStdHandle = stdInputHandle then some 0
      else if nStdHandle = stdOutputHandle then some 1
      else if nStdHandle = stdErrorHandle then some 2
      else none
    match handle with
    | none => (⟨.failed, none⟩, hm)
    | some handle =>
      let hm := (hmSetStdHandle nStdHandle hHandle hm).2
      let data :=
        { hm.data hHandle with
          dwAccess := 0, dwShare := 0, dwCreation := 0, dwFlags := 0, dwUserData := 0
          lpHandlerData := 0 }
      match type % 8 with
      | 0 => (⟨.handed hHandle, none⟩,
          (hm.setData hHandle { data with hHMHandle := handle }).setDevice hHandle .file)
      | 1 => (⟨.handed hHandle, none⟩,
          (hm.setData hHandle { data with hHMHandle := o32Handle }).setDevice hHandle .standard)
      | 2 => (⟨.handed hHandle, none⟩,
          (hm.setData hHandle { data with hHMHandle := handle }).setDevice hHandle .namedPipe)
      | _ => (⟨.failed, none⟩, hm.setData hHandle data)

/-- `HMSetHandleInformation`. The handler runs on the entry in place. -/
def hmSetHandleInformation (hObject : ℕ) (handler : Handler) (hm : HandleManager) :
    Result × HandleManager :=
  match hmHandleQuery hm hObject with
  | none => (⟨.failed, none⟩, hm)
  | some iIndex =>
    match (hm.tabWin32Handles iIndex).pDeviceHandler with
    | none => (⟨.done, none⟩, hm)
    | some _ =>
      let reply := handler (hm.data iIndex)
      (⟨if reply.rc = 0 then .failed else .done, none⟩, hm.setData iIndex reply.data)

/-! ## Files and duplicates -/

/-- Where `HMCreateFile` gets its device from: a template handle when there is no name,
else the device the name was found to belong to. -/
inductive FileSource where
  | template (hTemplateFile : ℕ)
  | named (device : Option DeviceHandler) (pDevData : ℕ)

def createNew : ℕ := 1

structure CreateFileArgs where
  source : FileSource
  dwDesiredAccess : ℕ
  dwShareMode : ℕ
  dwCreationDisposition : ℕ
  dwFlagsAndAttributes : ℕ
  bInheritHandle : Bool

/-- The device of a new file, and the data copied from the template. -/
def fileDevice (args : CreateFileArgs) (hm : HandleManager) :
    Option (Option DeviceHandler × Option ℕ) :=
  match args.source with
  | .template hTemplateFile =>
    (hmHandleQuery hm hTemplateFile).map fun iIndex =>
      ((hm.tabWin32Handles iIndex).pDeviceHandler, some iIndex)
  | .named none _ => none
  | .named (some device) _ =>
    if device = .open32 then
      if args.dwDesiredAccess = 0 ∧ args.dwCreationDisposition ≠ createNew then
        some (some .infoFile, none)
      else some (some .file, none)
    else some (some device, none)

/-- `HMCreateFile`. The handler works on a copy of the entry, which goes back into the
table when it succeeds. -/
def hmCreateFile (args : CreateFileArgs) (handler setInformation : Handler) (hm : HandleManager) :
    Except Fault (Result × HandleManager) :=
  match fileDevice args hm with
  | none => .ok (⟨.failed, none⟩, hm)
  | some (device, iIndex) =>
    match hmHandleGetFree hm with
    | (none, hm) => .ok (⟨.noHandle, none⟩, hm)
    | (some iIndexNew, hm) =>
      let temp : HMHandleData := match iIndex with
        | some iIndex => hm.data iIndex
        | none =>
          { dwAccess := args.dwDesiredAccess, dwShare := args.dwShareMode
            dwCreation := args.dwCreationDisposition, dwFlags := args.dwFlagsAndAttributes
            hWin32Handle := iIndexNew
            lpDeviceData := match args.source with
              | .named _ pDevData => pDevData
              | .template _ => 0 }
      let temp := { temp with hHMHandle := iIndexNew }
      match device with
      | none => .error .nullDevice
      | some device =>
        let hm := (hm.setDevice iIndexNew device).setData iIndexNew temp
        let reply := handler temp
        if reply.rc ≠ noError then .ok (⟨.failed, none⟩, hm.freeHandle iIndexNew)
        else
          let hm := hm.setData iIndexNew reply.data
          let hm := if args.bInheritHandle then
            (hmSetHandleInformation iIndexNew setInformation hm).2 else hm
          .ok (⟨.handed iIndexNew, none⟩, hm)

/-- `HMCloseHandle`. `fResult` is what the device handler's `CloseHandle` returns, and
`o32Result` what `O32_CloseHandle` says of a handle that is not in the table. -/
def hmCloseHandle (hObject fResult o32Result : ℕ) (hm : HandleManager) :
    Result × HandleManager :=
  match hmHandleQuery hm hObject with
  | none => (⟨if o32Result = 0 then .failed else .done, none⟩, hm)
  | some iIndex =>
    if (hm.data iIndex).dwHandleInformation &&& handleFlagProtectFromClose ≠ 0 then
      (⟨.done, none⟩, hm)
    else
      let fResult := if (hm.tabWin32Handles iIndex).pDeviceHandler = none then 1 else fResult
      if fResult = 1 then (⟨.done, some iIndex⟩, hm.freeHandle iIndex)
      else (⟨if fResult = 0 then .failed else .done, none⟩, hm)

def duplicateCloseSource : ℕ := 1
def duplicateSameAccess : ℕ := 2

/-- `HMDuplicateHandle`. The validated handle may be a standard one, which the table is
then indexed with. -/
def hmDuplicateHandle (srchandle fdwAccess fdwOptions : ℕ) (handler : Handler)
    (fClose o32Close : ℕ) (hm : HandleManager) : Except Fault (Result × HandleManager) :=
  if hmHandleValidate hm srchandle = false then .ok (⟨.failed, none⟩, hm)
  else if maxOs2HmHandles ≤ srchandle then .error .outsideTable
  else
    let device := (hm.tabWin32Handles srchandle).pDeviceHandler
    match hmHandleGetFree hm with
    | (none, hm) => .ok (⟨.noHandle, none⟩, hm)
    | (some iIndexNew, hm) =>
      let src := hm.data srchandle
      let data :=
        { hm.data iIndexNew with
          dwAccess := if fdwOptions &&& duplicateSameAccess ≠ 0 then src.dwAccess else fdwAccess
          dwShare := src.dwShare, dwCreation := src.dwCreation, dwFlags := src.dwFlags
          lpHandlerData := src.lpHandlerData, dwInternalType := src.dwInternalType
          hHMHandle := iIndexNew }
      match device with
      | none => .error .nullDevice
      | some device =>
        let hm := (hm.setData iIndexNew data).setDevice iIndexNew device
        let reply := handler data
        let hm := hm.setData iIndexNew reply.data
        let (closing, hm) := if fdwOptions &&& duplicateCloseSource ≠ 0 then
            hmCloseHandle srchandle fClose o32Close hm
          else (⟨.done, none⟩, hm)
        if reply.rc = 0 then .ok (⟨.failed, closing.closed⟩, hm.freeHandle iIndexNew)
        else .ok (⟨.handed iIndexNew, closing.closed⟩, hm)

/-! ## The translation calls -/

/-- `HMHandleAllocate`. As many turns as the table has entries are enough, or the loop
goes on for ever. -/
def hmHandleAllocate (phHandle16 : Bool) (hHandleOS2 : ℕ) (hm : HandleManager) :
    Except Fault (Result × HandleManager) :=
  if phHandle16 = false then .ok (⟨.noHandle, none⟩, hm)
  else
    match allocateFrom hm maxOs2HmHandles hm.startIndex with
    | none => .error .neverReturns
    | some none => .ok (⟨.noHandle, none⟩, hm)
    | some (some ulHandle) =>
      let data := { hm.data ulHandle with hHMHandle := hHandleOS2, lpDeviceData := 0 }
      .ok (⟨.handed ulHandle, none⟩, { hm.setData ulHandle data with ulHandleLast := ulHandle })

/-- `HMHandleFree`, which indexes the table with the handle that was validated, standard
or not. -/
def hmHandleFree (hHandle16 : ℕ) (hm : HandleManager) : Except Fault (Result × HandleManager) :=
  if hmHandleValidate hm hHandle16 = false then .ok (⟨.failed, none⟩, hm)
  else if maxOs2HmHandles ≤ hHandle16 then .error .outsideTable
  else .ok (⟨.done, some hHandle16⟩, hm.freeHandle hHandle16)

/-- The device `HMHandleGetFreePtr` gives an entry of each type. -/
def typeDevice : HandleType → Option DeviceHandler
  | .memMap => some .fileMapping
  | .device => some .file
  | .processToken | .threadToken => some .token
  | .thread => some .thread
  | .pipe => some .namedPipe
  | .eventSem => some .event
  | .mutexSem => some .mutex
  | .semaphore => some .semaphore
  | .comPort => some .comm
  | .parPort => some .parPort
  | .mailslot => some .mailslot
  | .unknown => none

/-- `HMHandleGetFreePtr` as `CreateThread`, `CreateEvent`, `CreateNamedPipe` and
`CreateMailslot` use it: the handler runs on the entry in place, and what is freed or
returned is the handle that the entry then holds. -/
def createFreePtr (dwType : HandleType) (handler : Handler) (keeps : ℕ → Bool)
    (hm : HandleManager) : Except Fault (Result × HandleManager) :=
  match hmHandleGetFree hm with
  | (none, hm) => .ok (⟨.noHandle, none⟩, hm)
  | (some handle, hm) =>
    match typeDevice dwType with
    | none => (hmHandleFree handle hm).map fun (_, hm) => (⟨.failed, none⟩, hm)
    | some device =>
      let hm := hm.setDevice handle device
      let data := { hm.data handle with dwInternalType := dwType }
      let reply := handler data
      let hm := hm.setData handle reply.data
      if keeps reply.rc then .ok (⟨.handed reply.data.hWin32Handle, none⟩, hm)
      else (hmHandleFree reply.data.hWin32Handle hm).map fun (_, hm) => (⟨.failed, none⟩, hm)

/-! ## Runs -/

inductive Op where
  | setupStdHandle (nStdHandle type o32Handle : ℕ)
  | setStdHandle (nStdHandle hHandle : ℕ)
  | setHandleInformation (hObject : ℕ) (handler : Handler)
  | createFile (args : CreateFileArgs) (handler setInformation : Handler)
  | openFile (device : DeviceHandler) (pDevData fuMode : ℕ) (handler : Handler)
  | duplicateHandle (srchandle fdwAccess fdwOptions : ℕ) (handler : Handler)
      (fClose o32Close : ℕ)
  | createMutex (handler : Handler)
  | openMutex (fdwAccess : ℕ) (handler : Handler)
  | createSemaphore (handler : Handler)
  | openSemaphore (fdwAccess : ℕ) (handler : Handler)
  | createFileMapping (handler : Handler)
  | openFileMapping (fdwAccess : ℕ) (handler : Handler)
  | openThreadToken (desiredAccess : ℕ) (handler : Handler)
  | openProcessToken (desiredAccess : ℕ) (handler : Handler)
  | createFreePtr (dwType : HandleType) (handler : Handler) (keeps : ℕ → Bool)
  | allocate (phHandle16 : Bool) (hHandleOS2 : ℕ)
  | handleFree (hHandle16 : ℕ)
  | closeHandle (hObject fResult o32Result : ℕ)

def step (hm : HandleManager) : Op → Except Fault (Result × HandleManager)
  | .setupStdHandle nStdHandle type o32Handle =>
    .ok (hmSetupStdHandle nStdHandle type o32Handle hm)
  | .setStdHandle nStdHandle hHandle => .ok (hmSetStdHandle nStdHandle hHandle hm)
  | .setHandleInformation hObject handler => .ok (hmSetHandleInformation hObject handler hm)
  | .createFile args handler setInformation => hmCreateFile args handler setInformation hm
  | .openFile device pDevData fuMode handler => .ok (openFile device pDevData fuMode handler hm)
  | .duplicateHandle srchandle fdwAccess fdwOptions handler fClose o32Close =>
    hmDuplicateHandle srchandle fdwAccess fdwOptions handler fClose o32Close hm
  | .createMutex handler => .ok (createMutex handler hm)
  | .openMutex fdwAccess handler => .ok (openMutex fdwAccess handler hm)
  | .createSemaphore handler => .ok (createSemaphore handler hm)
  | .openSemaphore fdwAccess handler => .ok (openSemaphore fdwAccess handler hm)
  | .createFileMapping handler => .ok (hmCreateFileMapping handler hm)
  | .openFileMapping fdwAccess handler => .ok (hmOpenFileMapping fdwAccess handler hm)
  | .openThreadToken desiredAccess handler => .ok (hmOpenThreadToken desiredAccess handler hm)
  | .openProcessToken desiredAccess handler => .ok (hmOpenProcessToken desiredAccess handler hm)
  | .createFreePtr dwType handler keeps => createFreePtr dwType handler keeps hm
  | .allocate phHandle16 hHandleOS2 => hmHandleAllocate phHandle16 hHandleOS2 hm
  | .handleFree hHandle16 => hmHandleFree hHandle16 hm
  | .closeHandle hObject fResult o32Result => .ok (hmCloseHandle hObject fResult o32Result hm)

end Odin32.Handles
