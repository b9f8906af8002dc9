import Odin32.ByteMemory
import Odin32.MemMapRegion

/-! # Paging in a file map with failures

`commitPage`, `commitRange` and `commitGuardPage` of `Win32MemMap` again, over the bytes at
`pMapping`, where each `VirtualQuery`, `VirtualAlloc`, `SetFilePointer`, `ReadFile` and
`VirtualProtect` may fail. Memory that is committed is zero until the file is read into it. -/

set_option autoImplicit false

namespace Odin32.MemMapPageIn
open Odin32.Word Odin32.ByteMemory Odin32.MemMap

/-- What `SetFilePointer` and `ReadFile` do for a region. -/
inductive Delivery where
  | noSeek
  /-- `ReadFile` fails, with so many bytes stored. -/
  | fails (nrBytesRead : ℕ)
  | reads (nrBytesRead : ℕ)
deriving DecidableEq, Repr

/-- What the system answers during one call, for the region at an offset. -/
structure Answers where
  fQuery : ℕ → Bool := fun _ => true
  fAlloc : ℕ → Bool := fun _ => true
  delivery : ℕ → Delivery
  fProtect : ℕ → Bool := fun _ => true
  /-- The page of a copy-on-write view can be made accessible, and read-only again. -/
  fProtectView : Bool := true
  fReprotectView : Bool := true
  /-- As in `Os`. -/
  fAliasWrite : Bool := true

structure State where
  map : Win32MemMap
  /-- The bytes at `pMapping`. -/
  mapping : Mem
  /-- The bytes of `hMemFile`. -/
  file : Mem
  /-- What has been written through views, and where. -/
  written : ℕ → Option UInt8

namespace State

/-- The file overlaid with the writes. -/
def expected (st : State) (i : ℕ) : UInt8 := (st.written i).getD (st.file i)

def committed (st : State) (q : ℕ) : Bool := (st.map.page q).isSome

/-! ## The calls -/

/-- `VirtualAlloc` with `MEM_COMMIT`. -/
def commitMemory (st : State) (answers : Answers) (startPage nrPages : ℕ) : State :=
  { st with
    map := st.map.commitPages { fAliasWrite := answers.fAliasWrite } startPage nrPages
    mapping := fun i =>
      if startPage ≤ i / 0x1000 ∧ i / 0x1000 < startPage + nrPages then 0 else st.mapping i }

/-- What `ReadFile` stores. -/
def store (st : State) (offset nrBytesRead : ℕ) : State :=
  { st with mapping := fun i =>
      if offset ≤ i ∧ i < offset + nrBytesRead then st.file i else st.mapping i }

/-- The bytes of a region that are asked for. -/
def readSize (st : State) (offset regionSize : ℕ) : ℕ :=
  if st.map.mSize < add32 offset regionSize then sub32 st.map.mSize offset else regionSize

def readRegion (st : State) (answers : Answers) (offset regionSize : ℕ) : Bool × State :=
  let size := st.readSize offset regionSize
  match answers.delivery offset with
  | .noSeek => (false, st)
  | .fails nrBytesRead => (false, st.store offset (min nrBytesRead size))
  | .reads nrBytesRead => (nrBytesRead == size, st.store offset (min nrBytesRead size))

def onMap (st : State) (f : Win32MemMap → Win32MemMap) : State := { st with map := f st.map }

def protectRegion (st : State) (answers : Answers) (offset regionSize : ℕ) (a : PageAttr) :
    Bool × State :=
  if answers.fProtect offset then
    match st.map.protectPages offset regionSize a with
    | none => (false, st)
    | some map => (true, { st with map := map })
  else (false, st)

/-- The body of the loop of `commitPage`, with its variable `offset`. -/
def commitRegion (st : State) (answers : Answers) (fWriteAccess : Bool)
    (offset offPage regionSize : ℕ) : Bool × State × ℕ :=
  let startPage := offPage / 0x1000
  let nrPages := nrPages regionSize
  match st.map.page startPage with
  | none =>
    if answers.fAlloc offPage then
      let st := (st.commitMemory answers startPage nrPages).onMap fun map =>
        map.updateViewPages offset regionSize (if fWriteAccess then .view else .readonly)
      let offset := if st.map.fFile then offPage else offset
      match if st.map.fFile then st.readRegion answers offPage regionSize else (true, st) with
      | (false, st) => (false, st, offset)
      | (true, st) =>
        if fWriteAccess then
          (true, st.onMap fun map =>
            (map.markDirtyPages startPage nrPages).updateViewPages offset regionSize .guard, offset)
        else
          let done := st.protectRegion answers offPage regionSize .readonly
          (done.1, done.2, offset)
    else (false, st, offset)
  | some _ =>
    if fWriteAccess then
      let done := (st.onMap fun map => map.markDirtyPages startPage nrPages).protectRegion answers
        offPage regionSize .readwrite
      (done.1, if done.1 then done.2.onMap fun map =>
        (map.updateViewPages offset regionSize .view).updateViewPages offset regionSize .guard
        else done.2, offset)
    else (true, st, offset)

def commitLoop (answers : Answers) (fWriteAccess : Bool) :
    ℕ → State → ℕ → ℕ → ℕ → Bool × State
  | 0, st, _, _, _ => (true, st)
  | rounds + 1, st, offset, offPage, faultsize =>
    if faultsize = 0 then (true, st)
    else if st.map.cbReserved ≤ offPage ∨ answers.fQuery offPage = false then (false, st)
    else
      let regionSize := st.map.regionSize (offPage / 0x1000) faultsize
      match st.commitRegion answers fWriteAccess offset offPage regionSize with
      | (false, st, _) => (false, st)
      | (true, st, offset) =>
        commitLoop answers fWriteAccess rounds st offset (add32 offPage regionSize)
          (faultsize - regionSize)

/-- `commitPage` behind its test for a copy-on-write map. -/
def commitFile (st : State) (answers : Answers) (ulFaultAddr offset : ℕ) (fWriteAccess : Bool)
    (nrpages : ℕ) : Bool × State :=
  if fWriteAccess && !st.map.viewMayWrite ulFaultAddr then (false, st)
  else
    let offPage := offset / 0x1000 * 0x1000
    let faultsize := st.map.faultSize fWriteAccess offPage nrpages
    commitLoop answers fWriteAccess (pagesFor faultsize) st offPage offPage faultsize

/-- `commitGuardPage`; the copy goes to the page of the view, and fails when that page is not
writable. -/
def commitGuardPage (st : State) (answers : Answers) (ulFaultAddr ulOffset : ℕ)
    (fWriteAccess : Bool) : Bool × State :=
  let offPage := ulOffset / 0x1000 * 0x1000
  match st.commitFile answers ulFaultAddr offPage false 1 with
  | (false, st) => (false, st)
  | (true, st) =>
    if answers.fProtectView = false then (false, st)
    else if has st.map.mProtFlags (pageReadwrite ||| pageWritecopy) then
      if fWriteAccess then
        (true, st.onMap fun map => map.modifyView ulFaultAddr fun view =>
          (view.protectPage ulFaultAddr .readwrite).markCOWPages (offPage / 0x1000) 1)
      else if answers.fReprotectView then
        (true, st.onMap fun map => (map.modifyView ulFaultAddr fun view =>
          view.protectPage ulFaultAddr .readonly).updateViewPages offPage 0x1000 .readonly)
      else (false, st.onMap fun map => map.modifyView ulFaultAddr fun view =>
        view.protectPage ulFaultAddr .readwrite)
    else (false, st.onMap fun map => map.modifyView ulFaultAddr fun view =>
      view.protectPage ulFaultAddr .readonly)

def commitPage (st : State) (answers : Answers) (ulFaultAddr offset : ℕ) (fWriteAccess : Bool)
    (nrpages : ℕ) : Bool × State :=
  if fWriteAccess && has st.map.mProtFlags pageWritecopy then
    st.commitGuardPage answers ulFaultAddr offset fWriteAccess
  else st.commitFile answers ulFaultAddr offset fWriteAccess nrpages

/-- The loop of `commitRange` for writes. -/
def commitEach (answers : Answers) : ℕ → State → ℕ → ℕ → Bool × State
  | 0, st, _, _ => (true, st)
  | nrpages + 1, st, ulFaultAddr, offset =>
    match st.commitPage answers ulFaultAddr offset true 1 with
    | (false, st) => (false, st)
    | (true, st) => commitEach answers nrpages st (add32 ulFaultAddr 0x1000) (add32 offset 0x1000)

def commitRange (st : State) (answers : Answers) (ulFaultAddr offset : ℕ) (fWriteAccess : Bool)
    (nrpages : ℕ) : Bool × State :=
  if fWriteAccess then commitEach answers nrpages st ulFaultAddr offset
  else st.commitPage answers ulFaultAddr offset false nrpages

/-- A byte written through a view of committed memory. A copy-on-write view keeps it to
itself; that of the others is the memory of the map, whatever let the write through. -/
def writeView (st : State) (address : ℕ) (b : UInt8) : State :=
  match st.map.findView address with
  | none => st
  | some view =>
    let i := add32 view.mOffset (address - view.pMapView)
    if view.isCow || !st.committed (i / 0x1000) then st
    else { st with
      mapping := Function.update st.mapping i b
      written := Function.update st.written i (some b) }

/-! ## What is read into committed memory -/

/-- If the region gets committed, then all of it is read. -/
def regionLoads (st : State) (answers : Answers) (offPage regionSize : ℕ) : Bool :=
  st.committed (offPage / 0x1000) || !answers.fAlloc offPage ||
    answers.delivery offPage == .reads (st.readSize offPage regionSize)

/-- So it is with each region that a call reaches. -/
def loopLoads (answers : Answers) (fWriteAccess : Bool) : ℕ → State → ℕ → ℕ → ℕ → Bool
  | 0, _, _, _, _ => true
  | rounds + 1, st, offset, offPage, faultsize =>
    faultsize == 0 || (decide (st.map.cbReserved ≤ offPage) || !answers.fQuery offPage) ||
      let regionSize := st.map.regionSize (offPage / 0x1000) faultsize
      st.regionLoads answers offPage regionSize &&
        match st.commitRegion answers fWriteAccess offset offPage regionSize with
        | (false, _) => true
        | (true, st, offset) =>
          loopLoads answers fWriteAccess rounds st offset (add32 offPage regionSize)
            (faultsize - regionSize)

def fileLoads (st : State) (answers : Answers) (offset : ℕ) (fWriteAccess : Bool)
    (nrpages : ℕ) : Bool :=
  let offPage := offset / 0x1000 * 0x1000
  let faultsize := st.map.faultSize fWriteAccess offPage nrpages
  loopLoads answers fWriteAccess (pagesFor faultsize) st offPage offPage faultsize

/-- A call refused for its view reads nothing; that of a copy-on-write map reads one page. -/
def pageLoads (st : State) (answers : Answers) (ulFaultAddr offset : ℕ) (fWriteAccess : Bool)
    (nrpages : ℕ) : Bool :=
  if fWriteAccess && has st.map.mProtFlags pageWritecopy then
    st.fileLoads answers (offset / 0x1000 * 0x1000) false 1
  else (fWriteAccess && !st.map.viewMayWrite ulFaultAddr) ||
    st.fileLoads answers offset fWriteAccess nrpages

def eachLoads (answers : Answers) : ℕ → State → ℕ → ℕ → Bool
  | 0, _, _, _ => true
  | nrpages + 1, st, ulFaultAddr, offset =>
    st.pageLoads answers ulFaultAddr offset true 1 &&
      match st.commitPage answers ulFaultAddr offset true 1 with
      | (false, _) => true
      | (true, st) => eachLoads answers nrpages st (add32 ulFaultAddr 0x1000) (add32 offset 0x1000)

end State

/-! ## Runs -/

inductive Op where
  | commitPage (ulFaultAddr offset : ℕ) (fWriteAccess : Bool) (nrpages : ℕ)
  | commitGuardPage (ulFaultAddr ulOffset : ℕ) (fWriteAccess : Bool)
  | commitRange (ulFaultAddr offset : ℕ) (fWriteAccess : Bool) (nrpages : ℕ)
  | writeView (address : ℕ) (b : UInt8)
deriving DecidableEq, Repr

def step (st : State) (answers : Answers) : Op → Bool × State
  | .commitPage ulFaultAddr offset fWriteAccess nrpages =>
    st.commitPage answers ulFaultAddr offset fWriteAccess nrpages
  | .commitGuardPage ulFaultAddr ulOffset fWriteAccess =>
    st.commitGuardPage answers ulFaultAddr ulOffset fWriteAccess
  | .commitRange ulFaultAddr offset fWriteAccess nrpages =>
    st.commitRange answers ulFaultAddr offset fWriteAccess nrpages
  | .writeView address b => (true, st.writeView address b)

/-- Whatever the call commits it reads in full. -/
def loads (st : State) (answers : Answers) : Op → Bool
  | .commitPage ulFaultAddr offset fWriteAccess nrpages =>
    st.pageLoads answers ulFaultAddr offset fWriteAccess nrpages
  | .commitGuardPage _ ulOffset _ => st.fileLoads answers (ulOffset / 0x1000 * 0x1000) false 1
  | .commitRange ulFaultAddr offset fWriteAccess nrpages =>
    if fWriteAccess then State.eachLoads answers nrpages st ulFaultAddr offset
    else st.pageLoads answers ulFaultAddr offset false nrpages
  | .writeView _ _ => true

/-- The offset lies on one of the pages that a call is for. -/
def onPages (offset : ℕ) (fWriteAccess : Bool) (nrpages i : ℕ) : Prop :=
  offset / 0x1000 * 0x1000 ≤ i ∧
    i < offset / 0x1000 * 0x1000 + if fWriteAccess then 0x1000 else u32 (0x1000 * nrpages)

/-- The pages of `commitRange` for writes, one after another. -/
def onEach (i : ℕ) : ℕ → ℕ → Prop
  | 0, _ => False
  | nrpages + 1, offset => onPages offset true 1 i ∨ onEach i nrpages (add32 offset 0x1000)

def covers (i : ℕ) : Op → Prop
  | .commitPage _ offset fWriteAccess nrpages => onPages offset fWriteAccess nrpages i
  | .commitGuardPage _ ulOffset _ => onPages ulOffset false 1 i
  | .commitRange _ offset fWriteAccess nrpages =>
    if fWriteAccess then onEach i nrpages offset else onPages offset false nrpages i
  | .writeView _ _ => False

/-- The pages of a call that returns `TRUE` are there, with the bytes they should have. -/
def Exact (after : Bool × State) (op : Op) : Prop :=
  after.1 = true → ∀ i < after.2.map.mSize, covers i op →
    after.2.committed (i / 0x1000) = true ∧ after.2.mapping i = after.2.expected i

def RunLoads : State → List (Op × Answers) → Prop
  | _, [] => True
  | st, (op, answers) :: ops =>
    loads st answers op = true ∧ RunLoads (step st answers op).2 ops

instance decidableRunLoads : ∀ (ops : List (Op × Answers)) (st : State), Decidable (RunLoads st ops)
  | [], _ => isTrue trivial
  | (op, answers) :: ops, st =>
    have := decidableRunLoads ops (step st answers op).2
    inferInstanceAs (Decidable (loads st answers op = true ∧ RunLoads (step st answers op).2 ops))

def RunExact : State → List (Op × Answers) → Prop
  | _, [] => True
  | st, (op, answers) :: ops =>
    Exact (step st answers op) op ∧ RunExact (step st answers op).2 ops

end Odin32.MemMapPageIn
