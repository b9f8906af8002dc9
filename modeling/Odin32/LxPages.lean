import Odin32.Word

/-! # Page tables of the virtual LX file

The loops of `Pe2Lx` that walk over the pages of all objects: the object table,
the object page table, the page count and the page loop of `makeFixups`, with the
object layout that `Pe2Lx::read` searches. An object array is a list; a walk
carries the objects still ahead, the current one first. The fixups recorded for a
page and the contents of the file are not part of the walks. -/

set_option autoImplicit false

namespace Odin32.LxPages
open Odin32.Word

/-- An element of `paObjects`. -/
structure LxObject where
  ulRVA : ℕ
  cbPhysical : ℕ
  cbVirtual : ℕ
  flFlags : ℕ := 0
  offTIBFix : ℕ := 0
  fTIBFixObject : Bool := false
  fStackObject : Bool := false
  offPEFile : ℕ := 0
  offLXFile : ℕ := 0
deriving DecidableEq, Repr

/-- A row of the LX object table. -/
structure O32Obj where
  o32Size : ℕ
  o32Base : ℕ
  o32Flags : ℕ
  o32Pagemap : ℕ
  o32Mapsize : ℕ
  o32Reserved : ℕ
deriving DecidableEq, Repr

inductive PageFlags where
  | valid | zeroed
deriving DecidableEq, Repr

/-- A row of the LX object page table. -/
structure O32Map where
  o32Pagedataoffset : ℕ
  o32Pagesize : ℕ
  o32Pageflags : PageFlags
deriving DecidableEq, Repr

inductive ApiRet where
  | badExeFormat | internalProcessingError | invalidParameter
deriving DecidableEq, Repr

/-- `OBJREAD | OBJWRITE | OBJBIGDEF`. -/
def objReadWriteBig : ℕ := 0x2003

/-- The bytes the walks give to an object: up to the next object when all objects
are made one, and else the object's own size. -/
def objectSpan (fAllInOneObject : Bool) (o : LxObject) : List LxObject → ℕ
  | [] => o.cbVirtual
  | next :: _ => if fAllInOneObject then sub32 next.ulRVA o.ulRVA else o.cbVirtual

def getCountOfPages (fAllInOneObject : Bool) : List LxObject → ℕ
  | [] => 0
  | o :: rest =>
    alignPage (objectSpan fAllInOneObject o rest) / 0x1000 +
      getCountOfPages fAllInOneObject rest

def objectTableFrom (ulImageBase : ℕ) (fAllRW : Bool) (ulPageMap : ℕ) :
    List LxObject → List O32Obj
  | [] => []
  | o :: rest =>
    let o32Mapsize := alignPage o.cbVirtual / 0x1000
    { o32Size := o.cbVirtual
      o32Base := add32 ulImageBase o.ulRVA
      o32Flags := if fAllRW then objReadWriteBig else o.flFlags
      o32Pagemap := ulPageMap
      o32Mapsize := o32Mapsize
      o32Reserved := 0 } :: objectTableFrom ulImageBase fAllRW (ulPageMap + o32Mapsize) rest

def makeObjectTable (ulImageBase : ℕ) (fAllRW fAllInOneObject : Bool) :
    List LxObject → List O32Obj
  | [] => []
  | o :: rest =>
    if fAllInOneObject then
      let last := (o :: rest).getLast (by simp)
      let o32Size := add32 last.ulRVA last.cbVirtual
      [{ o32Size := o32Size
         o32Base := add32 ulImageBase o.ulRVA
         o32Flags := objReadWriteBig
         o32Pagemap := 1
         o32Mapsize := alignPage o32Size / 0x1000
         o32Reserved := 0 }]
    else objectTableFrom ulImageBase fAllRW 1 (o :: rest)

/-- The loop of `makeObjectPageTable` with `n` pages to go, at the offset
`offObject` of the first object of the list. Without an object left the loop reads
behind the array. -/
def objectPageTableFrom (fAllInOneObject : Bool) :
    ℕ → List LxObject → ℕ → ℕ → Option (List O32Map)
  | 0, _, _, _ => some []
  | _ + 1, [], _, _ => none
  | n + 1, o :: rest, offObject, offPageData =>
    let cbPage := min (o.cbPhysical - offObject) 0x1000
    let entry : O32Map :=
      if offObject < o.cbPhysical then ⟨offPageData, cbPage, .valid⟩
      else ⟨offPageData,
        if fAllInOneObject ∧ rest ≠ [] then 0x1000
        else min (sub32 o.cbVirtual offObject) 0x1000, .zeroed⟩
    let offPageData' := if offObject < o.cbPhysical then add32 offPageData cbPage else offPageData
    let entries :=
      if objectSpan fAllInOneObject o rest ≤ add32 offObject 0x1000 then
        objectPageTableFrom fAllInOneObject n rest 0 offPageData'
      else
        objectPageTableFrom fAllInOneObject n (o :: rest) (add32 offObject 0x1000) offPageData'
    entries.map (entry :: ·)

def makeObjectPageTable (fAllInOneObject : Bool) (paObjects : List LxObject) :
    Option (List O32Map) :=
  objectPageTableFrom fAllInOneObject (getCountOfPages fAllInOneObject paObjects) paObjects 0 0

/-- The RVA at which the page loop of `makeFixups` leaves an object. -/
def objectEnd (fAllInOneObject : Bool) (o : LxObject) : List LxObject → ℕ
  | [] => add32 o.ulRVA o.cbVirtual
  | next :: _ => if fAllInOneObject then next.ulRVA else add32 o.ulRVA o.cbVirtual

/-- The page loop of `makeFixups` with room for `room` more entries in the fixup
page table: for each entry but the last the object and the RVA of its page. -/
def fixupPagesFrom (fAllInOneObject : Bool) :
    ℕ → ℕ → List LxObject → ℕ → Except ApiRet (List (ℕ × ℕ))
  | 0, _, _, _ => .error .badExeFormat -- more fixup pages than calculated
  | _ + 1, _, [], _ => .ok [] -- the final entry
  | room + 1, iObj, o :: rest, ulRVAPage =>
    let pages :=
      if objectEnd fAllInOneObject o rest ≤ add32 ulRVAPage 0x1000 then
        match rest with
        | [] => fixupPagesFrom fAllInOneObject room (iObj + 1) [] ulRVAPage
        | next :: rest' =>
          fixupPagesFrom fAllInOneObject room (iObj + 1) (next :: rest') next.ulRVA
      else fixupPagesFrom fAllInOneObject room iObj (o :: rest) (add32 ulRVAPage 0x1000)
    pages.map ((iObj, ulRVAPage) :: ·)

def makeFixupsPages (fAllInOneObject : Bool) : List LxObject → Except ApiRet (List (ℕ × ℕ))
  | [] => .ok []
  | o :: rest =>
    let cPages := getCountOfPages fAllInOneObject (o :: rest)
    if cPages = 0 then .error .internalProcessingError
    else fixupPagesFrom fAllInOneObject (cPages + 1) 0 (o :: rest) o.ulRVA

/-- Step 18 of `init`: where the file bytes of each object start in the LX file. -/
def setOffLXFile (offObjectData : ℕ) : List LxObject → List LxObject
  | [] => []
  | o :: rest =>
    if 0 < o.cbPhysical then
      { o with offLXFile := offObjectData } :: setOffLXFile (add32 offObjectData o.cbPhysical) rest
    else { o with offLXFile := 0 } :: setOffLXFile offObjectData rest

/-- The search of `Pe2Lx::read` for the object that holds an LX file offset: its
index and the offset into it. -/
def findObject (offLXFile : ℕ) : ℕ → List LxObject → Option (ℕ × ℕ)
  | _, [] => none
  | iObj, o :: rest =>
    if add32 o.offLXFile o.cbPhysical ≤ offLXFile then findObject offLXFile (iObj + 1) rest
    else some (iObj, sub32 offLXFile o.offLXFile)

end Odin32.LxPages
