import Odin32.LxEntriesRun
import Odin32.LxReaderRun

/-! # Exports

`makeExports` of `Pe2Lx` for an object without export structures: the export directory is read
through three buffered readers, its functions become entries and its names resident names. A
call that fails leaves what it was to read as it was. -/

set_option autoImplicit false

namespace Odin32.LxExports
open Word ByteMemory ByteTable LxNames LxEntries
open LxReader (BufferedRVARead)

/-- What the optional header tells of the export directory and the image. -/
structure Headers where
  ulRVAExportDir : ℕ
  cbExportDir : ℕ
  sizeOfImage : ℕ

/-- The members of `IMAGE_EXPORT_DIRECTORY` that are used. -/
structure ExportDirectory where
  base : ℕ
  numberOfFunctions : ℕ
  numberOfNames : ℕ
  addressOfFunctions : ℕ
  addressOfNames : ℕ
  addressOfNameOrdinals : ℕ
deriving DecidableEq, Repr

def sizeofExportDirectory : ℕ := 40

def field (expDir : List UInt8) (off : ℕ) : ℕ := ofLe ((expDir.drop off).take 4)

def ExportDirectory.ofBytes (expDir : List UInt8) : ExportDirectory where
  base := field expDir 16
  numberOfFunctions := field expDir 20
  numberOfNames := field expDir 24
  addressOfFunctions := field expDir 28
  addressOfNames := field expDir 32
  addressOfNameOrdinals := field expDir 36

/-- Why there are no exports: `endless` is a reader whose loop does not end. -/
inductive Exit where
  | read (e : LxReader.Failure)
  | table (e : Stop)
  | badExeFormat
  | endless
deriving DecidableEq, Repr

def onTable {α : Type} (x : Except Stop α) : Except Exit α := x.mapError .table

/-- What the calls find beside the state: by function, by name, and for the other calls. -/
structure Memory where
  entry : ℕ → Env
  forwarder : ℕ → ℕ → Bool
  name : ℕ → ℕ → Bool
  resName : ℕ → Bool
  moduleName : Bool
  last : Bool
  /-- The blocks can be made smaller. -/
  finalize : Bool

structure State where
  pFATFOTReader : BufferedRVARead
  pFNTReader : BufferedRVARead
  pNameReader : BufferedRVARead
  tables : Tables
  resNames : NameTable

def addResName (room : Bool) (names : NameTable) (ulOrdinal : ℕ) (pszName : CStr) :
    Except Stop NameTable :=
  let cchName := min pszName.val.length 127
  match names.block.allocateMore (cchName + 1 + 2 + names.offCur) 2048 1024 room with
  | none => .error .notEnoughMemory
  | some block => .ok
      { block := block.put names.offCur
          (UInt8.ofNat cchName :: pszName.val.take cchName ++ le 2 ulOrdinal)
        offCur := names.offCur + (1 + cchName + 2) }

/-- A string in a heap block. -/
def toCStr (psz : List UInt8) : CStr :=
  ⟨psz.takeWhile (· ≠ 0), fun zero => by
    have differs := List.all_eq_true.1 (List.all_takeWhile (p := (· ≠ 0)) (l := psz)) 0 zero
    simp at differs⟩

def dot : UInt8 := 0x2e

/-- The module in front of the first dot, and the function behind it. -/
def splitForwarder (psz : CStr) : Option (CStr × CStr) :=
  if dot ∈ psz.val then
    some (⟨psz.val.takeWhile (· ≠ dot), fun zero =>
        psz.property ((List.takeWhile_prefix _).mem zero)⟩,
      ⟨(psz.val.dropWhile (· ≠ dot)).tail, fun zero =>
        psz.property ((List.dropWhile_suffix _).mem (List.mem_of_mem_tail zero))⟩)
  else none

/-- The RVA of a function lies in the export directory. -/
def isForwarder (hdr : Headers) (ulRVA : ℕ) : Prop :=
  hdr.ulRVAExportDir < ulRVA ∧ ulRVA < add32 hdr.ulRVAExportDir hdr.cbExportDir

instance (hdr : Headers) (ulRVA : ℕ) : Decidable (isForwarder hdr ulRVA) :=
  inferInstanceAs (Decidable (_ ∧ _))

/-- The call that converts a function: a text without a dot is no forwarder. -/
def exportOp (ulOrdinal ulRVA : ℕ) (psz : Option CStr) : Op :=
  match psz.bind splitForwarder with
  | some (pszDll, pszFn) => .forwarder ulOrdinal pszDll pszFn
  | none => .entry ulOrdinal ulRVA

/-- The body of the loop of functions for an RVA other than zero. -/
def convert (c : Setting) (hdr : Headers) (memory : Memory) (base ul ulRVA : ℕ) (st : State) :
    Except Exit State :=
  let add (st : State) (psz : Option CStr) : Except Exit State :=
    (onTable (step c (memory.entry ul) st.tables (exportOp (add32 ul base) ulRVA psz))).map
      fun tables => { st with tables := tables }
  if isForwarder hdr ulRVA then
    match st.pNameReader.dupString (memory.forwarder ul) ulRVA with
    | none => .error .endless
    | some (_, .error e) => .error (.read e)
    | some (pNameReader, .ok psz) =>
      add { st with pNameReader := pNameReader } (some (toCStr psz))
  else add st none

/-- The loop of functions. A function that is not read is taken for what `ulRVA` was before,
and its error is forgotten unless that was zero. -/
def functionLoop (c : Setting) (hdr : Headers) (expDir : ExportDirectory) (memory : Memory) :
    ℕ → ℕ → ℕ → State → Except Exit State
  | 0, _, _, st => .ok st
  | functions + 1, ul, ulRVA, st =>
    match st.pFATFOTReader.readAtRVA (add32 expDir.addressOfFunctions (4 * ul)) 4 with
    | none => .error .endless
    | some (pFATFOTReader, read) =>
      let st := { st with pFATFOTReader := pFATFOTReader }
      let ulRVA :=
        match read with
        | .ok bytes => ofLe bytes
        | .error _ => ulRVA
      if ulRVA = 0 then
        match read with
        | .ok _ => functionLoop c hdr expDir memory functions (ul + 1) ulRVA st
        | .error e => .error (.read e)
      else
        (convert c hdr memory expDir.base ul ulRVA st).bind
          (functionLoop c hdr expDir memory functions (ul + 1) ulRVA)

/-- The loop of names. -/
def nameLoop (expDir : ExportDirectory) (memory : Memory) : ℕ → ℕ → State → Except Exit State
  | 0, _, st => .ok st
  | names + 1, ul, st =>
    match st.pFNTReader.readAtRVA (add32 expDir.addressOfNames (ul * 4)) 4 with
    | none => .error .endless
    | some (_, .error e) => .error (.read e)
    | some (pFNTReader, .ok ulRVA) =>
      match st.pFATFOTReader.readAtRVA (add32 expDir.addressOfNameOrdinals (ul * 2)) 2 with
      | none => .error .endless
      | some (_, .error e) => .error (.read e)
      | some (pFATFOTReader, .ok usOrdinal) =>
        match st.pNameReader.dupString (memory.name ul) (ofLe ulRVA) with
        | none => .error .endless
        | some (_, .error e) => .error (.read e)
        | some (pNameReader, .ok psz) =>
          (onTable (addResName (memory.resName ul) st.resNames
            ((ofLe usOrdinal + expDir.base) % 0x10000) (toCStr psz))).bind fun resNames =>
          nameLoop expDir memory names (ul + 1)
            { st with
              pFNTReader := pFNTReader
              pFATFOTReader := pFATFOTReader
              pNameReader := pNameReader
              resNames := resNames }

/-- `finalizeExports`, which notes the wrong size for the resident names. -/
def finalizeExports (room : Bool) (st : State) : State :=
  { st with
    tables :=
      if st.tables.offCurEntryBundle < st.tables.bundles.allocated ∧ room = true then
        { st.tables with
          bundles := { st.tables.bundles with allocated := st.tables.offCurEntryBundle } }
      else st.tables
    resNames :=
      if st.resNames.offCur < st.resNames.block.allocated ∧ room = true then
        { st.resNames with
          block := { st.resNames.block with allocated := st.tables.offCurEntryBundle } }
      else st.resNames }

/-- The names of a directory that has any, and the end of the entry table. -/
def exportNames (hdr : Headers) (expDir : ExportDirectory) (memory : Memory) (st : State) :
    Except Exit State :=
  if 0 < expDir.numberOfNames then
    if expDir.addressOfNameOrdinals ≠ 0 ∧ expDir.addressOfNames ≠ 0 ∧
        expDir.addressOfNameOrdinals < hdr.sizeOfImage ∧ expDir.addressOfNames < hdr.sizeOfImage
    then
      (nameLoop expDir memory expDir.numberOfNames 0 st).bind fun st =>
      (onTable (addLastEntry memory.last st.tables)).map fun tables =>
        { st with tables := tables }
    else .error .badExeFormat
  else .ok st

/-- The exports of a directory that has been read; the other readers may begin with its page. -/
def exportAll (c : Setting) (hdr : Headers) (memory : Memory) (ulRVA : ℕ) (expDir : ExportDirectory)
    (st : State) : Except Exit State :=
  let st :=
    if expDir.addressOfFunctions < add32 hdr.ulRVAExportDir 0x1000 then
      { st with pFNTReader := st.pFNTReader.assign st.pFATFOTReader }
    else st
  let st := { st with pNameReader := st.pNameReader.assign st.pFATFOTReader }
  (functionLoop c hdr expDir memory expDir.numberOfFunctions 0 ulRVA st).bind
    (exportNames hdr expDir memory)

/-- `makeExports` behind `initEntry`; `ulRVA` is what the variable of that name happens to
hold. -/
def makeExports (c : Setting) (hdr : Headers) (memory : Memory) (pszModuleName : CStr) (ulRVA : ℕ)
    (st : State) : Except Exit State :=
  (onTable (addResName memory.moduleName st.resNames 0 pszModuleName)).bind fun resNames =>
  let st := { st with resNames := resNames }
  if ¬(0 < hdr.cbExportDir ∧ 0 < hdr.ulRVAExportDir ∧ hdr.ulRVAExportDir < hdr.sizeOfImage) then
    .ok (finalizeExports memory.finalize st)
  else
    match st.pFATFOTReader.readAtRVA hdr.ulRVAExportDir sizeofExportDirectory with
    | none => .error .endless
    | some (_, .error e) => .error (.read e)
    | some (pFATFOTReader, .ok expDir) =>
      (exportAll c hdr memory ulRVA (.ofBytes expDir)
        { st with pFATFOTReader := pFATFOTReader }).map (finalizeExports memory.finalize)

end Odin32.LxExports
