import Odin32.LxEntries
import Odin32.LxFixups

/-! # Fixup records of the virtual LX file

The fixup page table and the fixup record table as `addPageFixupEntry`,
`add32OffsetFixup`, `add32OrdImportFixup` and `add32NameImportFixup` of `Pe2Lx` build them,
and the records read by the LX format. A fixup that crosses the end of its page is kept and
repeated in front of the records of the next page. -/

set_option autoImplicit false

namespace Odin32.LxFixupRecords
open ByteMemory ByteTable Word LxNames LxPages LxFixups LxEntries

def nroff32 : UInt8 := 0x07
def nrrint : UInt8 := 0x00
def nrrord : UInt8 := 0x01
def nrrnam : UInt8 := 0x02
def nr32BitOff : UInt8 := 0x10
def nr16ObjMod : UInt8 := 0x40
def nr8BitOrd : UInt8 := 0x80

/-- Why a call does not return `NO_ERROR`; `undefined` is that it reads or writes outside of a
text. -/
inductive Failure where
  | notEnoughMemory | badExeFormat | internalProcessingError | modNotFound | undefined
deriving DecidableEq, Repr

/-- The members of `Pe2Lx` that fixups refer to. The header object is the first one. -/
structure PeImage extends PeObjects where
  ulImageBase : ℕ
  header : ∀ o ∈ paObjects.head?, o.ulRVA = 0
  words : ∀ o ∈ paObjects, o.ulRVA < 0x100000000

structure ImportOptions extends Options where
  pszCustomExports : List UInt8 := []

structure Fixups where
  paulFixupPageTable : List ℕ
  cFPTEAllocated : ℕ
  records : Block
  offCurFixupRec : ℕ
  pvCrossPageFixup : Option (List UInt8)
  names : NameTable

/-- Whether there is memory for more records, for the record that crosses the end of the page
and for more names. -/
structure Memory where
  records : Bool
  cross : Bool
  names : Bool

def Fixups.init (fresh : Mem) (names : NameTable) : Fixups where
  paulFixupPageTable := []
  cFPTEAllocated := 0
  records := .none fresh
  offCurFixupRec := 0
  pvCrossPageFixup := none
  names := names

def allocated (x : Option Block) : Except Failure Block :=
  match x with
  | none => .error .notEnoughMemory
  | some b => .ok b

/-! ## Page entries -/

def pageTableRoom (pe : PeImage) (room fLast : Bool) (st : Fixups) : Except Failure Fixups :=
  if st.paulFixupPageTable.length < st.cFPTEAllocated then .ok st
  else if st.cFPTEAllocated = 0 then
    let cPages := getCountOfPages pe.fAllInOneObject pe.paObjects
    if cPages = 0 ∧ fLast = false then .error .internalProcessingError
    else if room then .ok { st with cFPTEAllocated := cPages + 1 }
    else .error .notEnoughMemory
  else .error .badExeFormat

def addPageFixupEntry (pe : PeImage) (mem : Memory) (st : Fixups) (fLast : Bool) :
    Except Failure Fixups := do
  let st ← pageTableRoom pe mem.cross fLast st
  let st := { st with paulFixupPageTable := st.paulFixupPageTable ++ [st.offCurFixupRec] }
  match st.pvCrossPageFixup with
  | none => .ok st
  | some record =>
    if fLast then .error .internalProcessingError
    else do
      let b ← allocated (st.records.allocateMore (st.offCurFixupRec + record.length) 0x1000 0x1000
        mem.records)
      .ok { st with
        records := b.put st.offCurFixupRec record
        offCurFixupRec := st.offCurFixupRec + record.length
        pvCrossPageFixup := none }

/-! ## Records -/

/-- The stores that fill in a record. A module or object number of one byte is stored as two,
the second of which the target covers. -/
def fillRecord (flags : UInt8) (r32_soff r32_objmod offset32 off : ℕ) (b : Block) : Block :=
  let b := (((b.put off [nroff32]).put (off + 1) [flags]).put (off + 2) (le 2 r32_soff)).put
    (off + 4) (le 2 r32_objmod)
  if flags &&& nr16ObjMod ≠ 0 then b.put (off + 6) (le 4 offset32)
  else b.put (off + 5) (le 4 offset32)

/-- The copy of a record for the next page: `PAGESIZE` is subtracted from `r32_soff`. -/
def crossPageRecord (record : List UInt8) : List UInt8 :=
  record.take 2 ++ le 2 (ofLe ((record.drop 2).take 2) + 0xf000) ++ record.drop 4

/-- The end of each of the three functions. -/
def commitFixup (mem : Memory) (offSource cbFixup : ℕ) (st : Fixups) : Except Failure Fixups :=
  let next := { st with offCurFixupRec := st.offCurFixupRec + cbFixup }
  if 0x1000 - 4 < offSource then
    if mem.cross then
      let record := crossPageRecord (slice st.records.bytes st.offCurFixupRec cbFixup)
      .ok { next with pvCrossPageFixup := some record }
    else .error .notEnoughMemory
  else .ok next

/-- The object and the offset into it of an address. -/
def targetOf (pe : PeImage) (ulTarget : ℕ) : Option (ℕ × ℕ) :=
  if ulTarget < pe.ulImageBase then none
  else
    let ulRVA := ulTarget - pe.ulImageBase
    match seekObject ulRVA 0 pe.paObjects with
    | (_, []) => none
    | (iObj, o :: _) =>
      if pe.fAllInOneObject then some (1, ulRVA) else some (iObj + 1, sub32 ulRVA o.ulRVA)

def offsetFlags (iObj ulTarget : ℕ) : UInt8 × ℕ :=
  let (flags, cbFixup) := if 255 < iObj then (nrrint ||| nr16ObjMod, 8) else (nrrint, 7)
  if 65535 < ulTarget then (flags ||| nr32BitOff, cbFixup + 2) else (flags, cbFixup)

def add32OffsetFixup (pe : PeImage) (mem : Memory) (st : Fixups) (offSource ulTarget : ℕ) :
    Except Failure Fixups := do
  let b ← allocated (st.records.allocateMore (st.offCurFixupRec + 10) 0x1000 0x1000 mem.records)
  match targetOf pe ulTarget with
  | none => .error .badExeFormat
  | some (iObj, offset) =>
    let (flags, cbFixup) := offsetFlags iObj offset
    commitFixup mem offSource cbFixup
      { st with records := fillRecord flags offSource iObj offset st.offCurFixupRec b }

/-- The flags of an import. With a module number of two bytes the other value is not looked
at. -/
def importFlags (nrr : UInt8) (ulModuleOrdinal value : ℕ) : UInt8 × ℕ :=
  if 255 < ulModuleOrdinal then (nrr ||| nr16ObjMod, 8)
  else if 65535 < value then (nrr ||| nr32BitOff, 9)
  else (nrr, 7)

/-- The import fixups behind the translation of custom DLLs. -/
def addImportRecord (mem : Memory) (nrr : UInt8) (offSource ulModuleOrdinal value : ℕ) (b : Block)
    (st : Fixups) : Except Failure Fixups :=
  let (flags, cbFixup) := importFlags nrr ulModuleOrdinal value
  commitFixup mem offSource cbFixup
    { st with records := fillRecord flags offSource ulModuleOrdinal value st.offCurFixupRec b }

/-! ## Custom DLLs -/

def isSpace (ch : UInt8) : Bool := decide (ch = 0x20 ∨ (0x09 ≤ ch ∧ ch ≤ 0x0d))

def digits (text : List UInt8) : ℕ :=
  (text.takeWhile isDigit).foldl (fun n ch => n * 10 + (ch.toNat - 0x30)) 0

/-- `atoi`, as the `ULONG` it is passed as. -/
def atoi (text : List UInt8) : ℕ :=
  match text.dropWhile isSpace with
  | [] => 0
  | ch :: rest =>
    if ch = 0x2d then u32 (0x100000000 - u32 (digits rest))
    else if ch = 0x2b then u32 (digits rest)
    else u32 (digits (ch :: rest))

/-- What `sprintf` makes of `%d`. -/
def decimalText (n : ℕ) : List UInt8 :=
  ascii (if n < 0x80000000 then toString n else toString ((n : ℤ) - 0x100000000))

/-- The ordinal that the table of a custom DLL gives an export, if one is in use for the
module. -/
def customOrdinal (opt : ImportOptions) (pszModuleName : Option CStr) (item : List UInt8) :
    Except Failure (Option ℕ) :=
  match pszModuleName with
  | none => .ok none
  | some pszModuleName =>
    if pszModuleName.val = [] ∨ opt.hasCustomDll = false ∨
        isCustomDllExcluded opt.toOptions pszModuleName.val = true then .ok none
    else
      let szSearchString := pszModuleName.val ++ ascii "." ++ item ++ ascii " "
      if 256 ≤ szSearchString.length then .error .undefined
      else
        match strstr [] opt.pszCustomExports szSearchString with
        | none => .error .modNotFound
        | some (_, behind) =>
          match (szSearchString ++ behind).dropWhile fun ch => ch ≠ 0x40 with
          | [] => .error .undefined
          | _ :: text => .ok (some (atoi text))

def addOrdinalRecord (mem : Memory) (st : Fixups)
    (offSource ulModuleOrdinal ulFunctionOrdinal : ℕ) : Except Failure Fixups := do
  let b ← allocated (st.records.allocateMore (st.offCurFixupRec + 10) 0x1000 0x1000 mem.records)
  addImportRecord mem nrrord offSource ulModuleOrdinal ulFunctionOrdinal b st

def add32OrdImportFixup (opt : ImportOptions) (mem : Memory) (st : Fixups)
    (offSource ulModuleOrdinal ulFunctionOrdinal : ℕ) (pszModuleName : Option CStr) :
    Except Failure Fixups := do
  match ← customOrdinal opt pszModuleName (decimalText ulFunctionOrdinal) with
  | some ordinal => addOrdinalRecord mem st offSource ulModuleOrdinal ordinal
  | none => addOrdinalRecord mem st offSource ulModuleOrdinal ulFunctionOrdinal

def addNameRecord (mem : Memory) (st : Fixups) (offSource ulModuleOrdinal : ℕ)
    (pszFnName : CStr) : Except Failure Fixups := do
  let b ← allocated (st.records.allocateMore (st.offCurFixupRec + 10) 0x1000 0x1000 mem.records)
  match addImportFunctionName mem.names st.names pszFnName with
  | .error _ => .error .notEnoughMemory
  | .ok (offFnName, names) =>
    addImportRecord mem nrrnam offSource ulModuleOrdinal offFnName b { st with names := names }

def add32NameImportFixup (opt : ImportOptions) (mem : Memory) (st : Fixups)
    (offSource ulModuleOrdinal : ℕ) (pszFnName : CStr) (pszModuleName : Option CStr) :
    Except Failure Fixups := do
  match ← customOrdinal opt pszModuleName pszFnName.val with
  | some ordinal => addOrdinalRecord mem st offSource ulModuleOrdinal ordinal
  | none => addNameRecord mem st offSource ulModuleOrdinal pszFnName

/-! ## Reading records -/

inductive Target where
  | object (number offset : ℕ)
  | ordinal (module ordinal : ℕ)
  | name (module offset : ℕ)
deriving DecidableEq, Repr

structure Fixup where
  source : ℤ
  target : Target
deriving DecidableEq, Repr

/-- The value of a 16-bit field as a signed number. -/
def short (n : ℕ) : ℤ := if n < 0x8000 then n else (n : ℤ) - 0x10000

/-- A record by the LX format, and the bytes behind it. Only 32-bit offset fixups of one
source without an additive are read. -/
def decodeRecord : List UInt8 → Option (Fixup × List UInt8)
  | src :: flags :: rest =>
    let cbMod := if flags &&& nr16ObjMod ≠ 0 then 2 else 1
    let cbTarget :=
      if flags &&& 0x03 = nrrord ∧ flags &&& nr8BitOrd ≠ 0 then 1
      else if flags &&& nr32BitOff ≠ 0 then 4 else 2
    if src ≠ nroff32 ∨ flags &&& 0x2c ≠ 0 ∨ rest.length < 2 + cbMod + cbTarget then none
    else
      let source := short (ofLe (rest.take 2))
      let objmod := ofLe ((rest.drop 2).take cbMod)
      let target := ofLe ((rest.drop (2 + cbMod)).take cbTarget)
      let behind := rest.drop (2 + cbMod + cbTarget)
      if flags &&& 0x03 = nrrint then some (⟨source, .object objmod target⟩, behind)
      else if flags &&& 0x03 = nrrord then some (⟨source, .ordinal objmod target⟩, behind)
      else if flags &&& 0x03 = nrrnam then some (⟨source, .name objmod target⟩, behind)
      else none
  | _ => none

/-- All records of a slice. A record takes a byte at least, so that as many rounds as there
are bytes are enough. -/
def decodeRecords : ℕ → List UInt8 → Option (List Fixup)
  | _, [] => some []
  | 0, _ :: _ => none
  | rounds + 1, b :: bytes => do
    let (fixup, behind) ← decodeRecord (b :: bytes)
    let fixups ← decodeRecords rounds behind
    some (fixup :: fixups)

/-- The records of a page by the fixup page table. The records of the last page end where the
next one would begin. -/
def Fixups.pageSlice (st : Fixups) (k : ℕ) : List UInt8 :=
  let first := st.paulFixupPageTable.getD k st.offCurFixupRec
  slice st.records.bytes first (st.paulFixupPageTable.getD (k + 1) st.offCurFixupRec - first)

def Fixups.page (st : Fixups) (k : ℕ) : Option (List Fixup) :=
  decodeRecords (st.pageSlice k).length (st.pageSlice k)

end Odin32.LxFixupRecords
