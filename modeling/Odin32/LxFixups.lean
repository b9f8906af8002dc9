import Odin32.ByteMemory
import Odin32.LxPages

/-! # Applying base relocations page by page

`applyFixups` of `Pe2Lx` with its worker for plain deltas, and the reader
`readAtRVA` they fetch the other part of a fixup with when it lies on a page they
were not given. The relocation directory is the list of its blocks, a page is a
memory of which the first `0x1000` bytes count, and the file behind `ReadAt` always
answers. The checks of the module pointers are not part of the model. -/

set_option autoImplicit false

namespace Odin32.LxFixups
open Odin32.Word Odin32.ByteMemory Odin32.LxPages

/-- `IMAGE_BASE_RELOCATION` with its `TypeOffset` array. -/
structure BaseRelocation where
  virtualAddress : ℕ
  typeOffset : List ℕ
deriving DecidableEq, Repr

def BaseRelocation.sizeOfBlock (pbr : BaseRelocation) : ℕ := 8 + 2 * pbr.typeOffset.length

/-- `cbBaseRelocs` as seen from a block: the bytes from there to the end of the directory. -/
def cbBaseRelocs (pbrs : List BaseRelocation) : ℕ :=
  (pbrs.map BaseRelocation.sizeOfBlock).sum

/-- The parts of `Pe2Lx` and of the module's object table that the fixups depend on. -/
structure PeModule where
  paObjects : List LxObject
  fAllInOneObject : Bool
  ulImageBase : ℕ
  pBaseRelocs : Option (List BaseRelocation)
  /-- `smte_objtab[i].ote_base` -/
  oteBase : ℕ → ℕ
  file : Mem

/-- The members that say whether fixups apply; `none` is `~0UL`, not checked yet. -/
structure FixupState where
  fApplyFixups : Option Bool := none
  fDeltaOnly : Bool := false
deriving DecidableEq, Repr

@[match_pattern] abbrev imageRelBasedHigh : ℕ := 1
@[match_pattern] abbrev imageRelBasedLow : ℕ := 2
@[match_pattern] abbrev imageRelBasedHighLow : ℕ := 3
@[match_pattern] abbrev imageRelBasedHighAdj : ℕ := 4
@[match_pattern] abbrev imageRelBasedHigh3Adj : ℕ := 11

def cbFixupMax : ℕ := 4

/-- `acbFixupTypes`, whose `0xFF` is above `CBFIXUPMAX` since `char` is unsigned. -/
def acbFixupTypes : ℕ → ℕ
  | imageRelBasedHigh => 2
  | imageRelBasedLow => 2
  | imageRelBasedHighLow => 4
  | _ => 0xFF

/-- The RVA from which on the searches leave an object. -/
def objectLimit (o : LxObject) : List LxObject → ℕ
  | [] => add32 (alignPage o.cbVirtual) o.ulRVA
  | next :: _ => next.ulRVA

/-- The search for the object of an RVA: its index, and the objects from it on. -/
def seekObject (ulRVA : ℕ) : ℕ → List LxObject → ℕ × List LxObject
  | iObj, [] => (iObj, [])
  | iObj, o :: rest =>
    if objectLimit o rest ≤ ulRVA then seekObject ulRVA (iObj + 1) rest
    else (iObj, o :: rest)

/-- The loop of `readAtRVA`. Each round delivers a byte at least, so that
`cbBuffer` rounds are enough. -/
def readAtRVAFrom (file : Mem) : ℕ → List LxObject → ℕ → ℕ → Except ApiRet Mem
  | 0, _, _, _ => .ok fun _ => 0
  | rounds + 1, paObjects, ulRVA, cbBuffer =>
    if cbBuffer = 0 then .ok fun _ => 0 else
    match (seekObject ulRVA 0 paObjects).2 with
    | [] => .error .invalidParameter
    | o :: rest =>
      let fPhysical := decide (ulRVA < add32 o.ulRVA o.cbPhysical)
      let cbChunk := min cbBuffer
        (sub32 (if fPhysical then add32 o.ulRVA o.cbPhysical else objectLimit o rest) ulRVA)
      let offFile := add32 (sub32 ulRVA o.ulRVA) o.offPEFile
      let buffer := readAtRVAFrom file rounds (o :: rest) (add32 ulRVA cbChunk) (cbBuffer - cbChunk)
      buffer.map fun tail i =>
        if i < cbChunk then (if fPhysical then file (offFile + i) else 0) else tail (i - cbChunk)

def readAtRVA (pe : PeModule) (ulRVA cbBuffer : ℕ) : Except ApiRet Mem :=
  readAtRVAFrom pe.file cbBuffer pe.paObjects ulRVA cbBuffer

/-- The delta of an object against its place in the unrelocated image. -/
def objectDelta (pe : PeModule) (iObject : ℕ) (o : LxObject) : ℕ :=
  sub32 (sub32 (pe.oteBase iObject) o.ulRVA) pe.ulImageBase

/-- The new value of a pointer whose target lies in an object. -/
def resolveTarget (pe : PeModule) (ul : ℕ) : Option ℕ :=
  let ulTarget := sub32 ul pe.ulImageBase
  match seekObject ulTarget 0 pe.paObjects with
  | (iObj, o :: _) => some (sub32 (add32 (pe.oteBase iObj) ulTarget) o.ulRVA)
  | (_, []) => none

/-- The `switch` that applies the delta to a fixup on two pages. -/
def addDelta (fType ul ulDelta shift : ℕ) : ℕ :=
  match fType with
  | imageRelBasedLow | imageRelBasedHighLow => add32 ul ulDelta
  | imageRelBasedHigh | imageRelBasedHighAdj | imageRelBasedHigh3Adj =>
    add32 ul (ulDelta / 2 ^ shift)
  | _ => ul

/-- `fDeltaOnly` or not a pointer: no target to resolve. -/
def resolveFixup (pe : PeModule) (fDeltaOnly : Bool) (fType ul : ℕ) : Option ℕ :=
  if !fDeltaOnly && fType == imageRelBasedHighLow then resolveTarget pe ul else none

/-- A fixup that begins on the page before. -/
def fixupFromBefore (pe : PeModule) (fDeltaOnly : Bool) (ulDelta ulRVAPage offFixup fType : ℕ)
    (pvPage : Mem) : Except ApiRet Mem :=
  (readAtRVA pe (sub32 (add32 ulRVAPage offFixup) 0x1000) 4).map fun buffer =>
    let ul := word buffer 0 4
    let ul := (resolveFixup pe fDeltaOnly fType ul).getD (addDelta fType ul ulDelta 16)
    copyBytes pvPage 0 ul (0x1000 - offFixup)
      (sub32 (add32 (acbFixupTypes fType) offFixup) 0x1000)

/-- A fixup that ends on the page afterwards. -/
def fixupIntoAfter (pe : PeModule) (fDeltaOnly : Bool) (ulDelta ulRVAPage offFixup fType : ℕ)
    (pvPage : Mem) : Except ApiRet Mem :=
  let resolved : Except ApiRet (Option ℕ) :=
    if !fDeltaOnly && fType == imageRelBasedHighLow then
      (readAtRVA pe (add32 ulRVAPage offFixup) 4).map fun buffer =>
        resolveTarget pe (word buffer 0 4)
    else .ok none
  resolved.map fun target =>
    let ul := target.getD
      (addDelta fType (word pvPage offFixup (0x1000 - offFixup)) ulDelta 8)
    copyBytes pvPage offFixup ul 0 (0x1000 - offFixup)

/-- A fixup on one page, `p` bytes into it. -/
def fixupCommon (pe : PeModule) (fDeltaOnly : Bool) (ulDelta p fType : ℕ) (pvPage : Mem) : Mem :=
  match fType with
  | imageRelBasedHighLow =>
    let ul := word pvPage p 4
    copyBytes pvPage p ((resolveFixup pe fDeltaOnly fType ul).getD (add32 ul ulDelta)) 0 4
  | imageRelBasedHigh | imageRelBasedHighAdj | imageRelBasedHigh3Adj =>
    copyBytes pvPage p (word pvPage p 2 + ulDelta / 2 ^ 16 % 0x10000) 0 2
  | imageRelBasedLow => copyBytes pvPage p (word pvPage p 2 + ulDelta % 0x10000) 0 2
  | _ => pvPage

/-- One entry of a block: its lower 12 bits are an offset, the upper 4 the type. -/
def applyFixup (pe : PeModule) (fDeltaOnly : Bool) (ulDelta ulRVAPage virtualAddress : ℕ)
    (typeOffset : ℕ) (pvPage : Mem) : Except ApiRet Mem :=
  let offFixup := typeOffset % 0x1000
  let fType := typeOffset / 0x1000
  let cbFixup := acbFixupTypes fType
  let ulRVA := add32 offFixup virtualAddress
  if cbFixup ≤ cbFixupMax ∧ ulRVAPage ≤ add32 ulRVA (cbFixup - 1) ∧
      ulRVA < add32 ulRVAPage 0x1000 then
    if ulRVA < ulRVAPage then
      fixupFromBefore pe fDeltaOnly ulDelta ulRVAPage offFixup fType pvPage
    else if add32 ulRVAPage 0x1000 < add32 ulRVA cbFixup then
      fixupIntoAfter pe fDeltaOnly ulDelta ulRVAPage offFixup fType pvPage
    else .ok (fixupCommon pe fDeltaOnly ulDelta (sub32 ulRVA ulRVAPage) fType pvPage)
  else .ok pvPage

def applyEntries (pe : PeModule) (fDeltaOnly : Bool) (ulDelta ulRVAPage virtualAddress : ℕ) :
    List ℕ → Mem → Except ApiRet Mem
  | [], pvPage => .ok pvPage
  | typeOffset :: rest, pvPage => do
    let pvPage' ← applyFixup pe fDeltaOnly ulDelta ulRVAPage virtualAddress typeOffset pvPage
    applyEntries pe fDeltaOnly ulDelta ulRVAPage virtualAddress rest pvPage'

/-- Of a block before the page only the last seven entries are tried. -/
def entriesFor (ulRVAPage : ℕ) (pbr : BaseRelocation) : List ℕ :=
  if pbr.virtualAddress < ulRVAPage ∧ 7 < pbr.typeOffset.length then
    pbr.typeOffset.drop (pbr.typeOffset.length - 7)
  else pbr.typeOffset

def applyBlocks (pe : PeModule) (fDeltaOnly : Bool) (ulDelta ulRVAPage : ℕ) :
    List BaseRelocation → Mem → Except ApiRet Mem
  | [], pvPage => .ok pvPage
  | pbr :: rest, pvPage =>
    if 8 < cbBaseRelocs (pbr :: rest) ∧ pbr.virtualAddress < add32 ulRVAPage 0x1000 then do
      let pvPage' ←
        if ulRVAPage ≤ add32 pbr.virtualAddress 0x1000 then
          applyEntries pe fDeltaOnly ulDelta ulRVAPage pbr.virtualAddress
            (entriesFor ulRVAPage pbr) pvPage
        else .ok pvPage
      applyBlocks pe fDeltaOnly ulDelta ulRVAPage rest pvPage'
    else .ok pvPage

/-- The worker for plain deltas: the same loops without the targets. -/
def applyFixupsDelta (pe : PeModule) (pbrs : List BaseRelocation) (ulDelta ulRVAPage : ℕ)
    (pvPage : Mem) : Except ApiRet Mem :=
  applyBlocks pe true ulDelta ulRVAPage pbrs pvPage

/-- The loop of the check over the objects. -/
def checkObjects (pe : PeModule) (ulDelta : ℕ) :
    ℕ → List LxObject → Bool → Bool → FixupState
  | _, [], fApply, fDeltaOnly => ⟨some fApply, fDeltaOnly⟩
  | i, o :: rest, fApply, fDeltaOnly =>
    if !fApply || fDeltaOnly then
      let ulTmp := sub32 (sub32 (pe.oteBase i) pe.ulImageBase) o.ulRVA
      checkObjects pe ulDelta (i + 1) rest (fApply || ulTmp != 0) (fDeltaOnly && ulTmp == ulDelta)
    else ⟨some fApply, fDeltaOnly⟩

/-- Whether the fixups need to be applied, decided at the first page. -/
def checkFixups (pe : PeModule) (ulDelta : ℕ) : FixupState :=
  if pe.fAllInOneObject then ⟨some (pe.ulImageBase != pe.oteBase 0), true⟩
  else checkObjects pe ulDelta 0 pe.paObjects false true

def applyFixups (pe : PeModule) (st : FixupState) (iObject ulPageAddress : ℕ) (pvPage : Mem) :
    Except ApiRet Mem × FixupState :=
  match pe.pBaseRelocs with
  | none => (.ok pvPage, st)
  | some pbrs =>
    if st.fApplyFixups = some false then (.ok pvPage, st) else
    match pe.paObjects[iObject]? with
    | none => (.error .invalidParameter, st)
    | some o =>
      let ulDelta := objectDelta pe iObject o
      let ulRVAPage := sub32 (add32 o.ulRVA ulPageAddress) (pe.oteBase iObject)
      let st := if st.fApplyFixups = none then checkFixups pe ulDelta else st
      if st.fApplyFixups = some false then (.ok pvPage, st)
      else if st.fDeltaOnly then (applyFixupsDelta pe pbrs ulDelta ulRVAPage pvPage, st)
      else (applyBlocks pe false ulDelta ulRVAPage pbrs pvPage, st)

end Odin32.LxFixups
