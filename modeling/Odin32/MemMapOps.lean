import Odin32.MemMap

/-! # Operations on memory mapped files

Page faults, guard page faults, flushing, invalidation, and the making and removing
of views, as functions from a map to a map. Each loop carries the rounds it may
still make; a page a round is enough for all of them. -/

set_option autoImplicit false

namespace Odin32.MemMap
open Odin32.Word

namespace Win32MemMap

/-! ## Faults -/

/-- The body of the loop of `commitPage` for the region of `size` bytes at
`offPage`. `offset` is the variable of that name, which only reading from the file
brings up to date; `none` is the jump to `fail`. -/
def commitRegion (map : Win32MemMap) (os : Os) (fWriteAccess : Bool) (offset offPage size : ℕ) :
    Bool × Win32MemMap × ℕ :=
  let startPage := offPage / 0x1000
  let nrPages := nrPages size
  match map.page startPage with
  | none =>
    let map := map.commitPages os startPage nrPages
    let map := map.updateViewPages offset size (if fWriteAccess then .view else .readonly)
    if map.fFile && !os.fRead offPage then (false, map, offPage)
    else
      let offset := if map.fFile then offPage else offset
      if fWriteAccess then
        let map := map.markDirtyPages startPage nrPages
        (true, map.updateViewPages offset size .guard, offset)
      else
        match map.protectPages offPage size .readonly with
        | none => (false, map, offset)
        | some map => (true, map, offset)
  | some _ =>
    if fWriteAccess then
      let map := map.markDirtyPages startPage nrPages
      match map.protectPages offPage size .readwrite with
      | none => (false, map, offset)
      | some map =>
        (true, (map.updateViewPages offset size .view).updateViewPages offset size .guard, offset)
    else (true, map, offset)

def commitLoop (os : Os) (fWriteAccess : Bool) :
    ℕ → Win32MemMap → ℕ → ℕ → ℕ → Bool × Win32MemMap
  | 0, map, _, _, _ => (true, map)
  | rounds + 1, map, offset, offPage, faultsize =>
    if faultsize = 0 then (true, map)
    else if map.cbReserved ≤ offPage then (false, map)
    else
      let size := map.regionSize (offPage / 0x1000) faultsize
      match map.commitRegion os fWriteAccess offset offPage size with
      | (false, map, _) => (false, map)
      | (true, map, offset) =>
        commitLoop os fWriteAccess rounds map offset (add32 offPage size) (faultsize - size)

/-- `faultsize` before the loop of `commitPage`. -/
def faultSize (map : Win32MemMap) (fWriteAccess : Bool) (offPage nrpages : ℕ) : ℕ :=
  let faultsize := if fWriteAccess then 0x1000 else u32 (0x1000 * nrpages)
  if map.mSize < add32 offPage faultsize then sub32 map.mSize offPage else faultsize

/-- The view at an address has write access. -/
def viewMayWrite (map : Win32MemMap) (address : ℕ) : Bool :=
  match map.findView address with
  | some view => has view.mfAccess memmapAccessWrite
  | none => false

/-- `commitPage` behind its test for a copy-on-write map. -/
def commitFile (map : Win32MemMap) (os : Os) (ulFaultAddr offset : ℕ) (fWriteAccess : Bool)
    (nrpages : ℕ) : Bool × Win32MemMap :=
  if fWriteAccess && !map.viewMayWrite ulFaultAddr then (false, map)
  else
    let offPage := offset / 0x1000 * 0x1000
    let faultsize := map.faultSize fWriteAccess offPage nrpages
    commitLoop os fWriteAccess (pagesFor faultsize) map offPage offPage faultsize

/-- `commitGuardPage`; the copy fails when the page of the view is not writable. -/
def commitGuardPage (map : Win32MemMap) (os : Os) (ulFaultAddr ulOffset : ℕ)
    (fWriteAccess : Bool) : Bool × Win32MemMap :=
  let offPage := ulOffset / 0x1000 * 0x1000
  match map.commitFile os ulFaultAddr offPage false 1 with
  | (false, map) => (false, map)
  | (true, map) =>
    if has map.mProtFlags (pageReadwrite ||| pageWritecopy) then
      let map := map.modifyView ulFaultAddr fun view => view.protectPage ulFaultAddr .readwrite
      if fWriteAccess then
        (true, map.modifyView ulFaultAddr fun view => view.markCOWPages (offPage / 0x1000) 1)
      else
        let map := map.modifyView ulFaultAddr fun view => view.protectPage ulFaultAddr .readonly
        (true, map.updateViewPages offPage 0x1000 .readonly)
    else (false, map.modifyView ulFaultAddr fun view => view.protectPage ulFaultAddr .readonly)

def commitPage (map : Win32MemMap) (os : Os) (ulFaultAddr offset : ℕ) (fWriteAccess : Bool)
    (nrpages : ℕ) : Bool × Win32MemMap :=
  if fWriteAccess && has map.mProtFlags pageWritecopy then
    map.commitGuardPage os ulFaultAddr offset fWriteAccess
  else map.commitFile os ulFaultAddr offset fWriteAccess nrpages

/-- The view at an address that allows an access, and the offset in the map. -/
def findMapByView (views : List Win32MemMapView) (address accessType : ℕ) :
    Option (Win32MemMapView × ℕ) :=
  match views with
  | [] => none
  | view :: rest =>
    if view.pMapView ≤ address then
      if address < add32 view.pMapView view.mSize ∧ accessType ≤ view.mfAccess then
        some (view, add32 view.mOffset (address - view.pMapView))
      else findMapByView rest address accessType
    else none

def faultAccess (fWriteAccess : Bool) : ℕ :=
  if fWriteAccess then memmapAccessWrite else memmapAccessRead

/-- A page fault in a view, handled by the owner of the view or else its map. -/
def pageFault (map : Win32MemMap) (os : Os) (address : ℕ) (fWriteAccess : Bool) (nrpages : ℕ) :
    Bool × Win32MemMap :=
  match findMapByView map.views address (faultAccess fWriteAccess) with
  | none => (false, map)
  | some (view, offset) =>
    match view.mOwnerMap.bind fun i => map.dups[i]? with
    | some dup =>
      if has dup.mProtFlags pageWritecopy then
        map.commitGuardPage os address offset fWriteAccess
      else map.commitPage os address offset fWriteAccess nrpages
    | none => map.commitPage os address offset fWriteAccess nrpages

def guardFault (map : Win32MemMap) (os : Os) (address : ℕ) (fWriteAccess : Bool) :
    Bool × Win32MemMap :=
  match findMapByView map.views address (faultAccess fWriteAccess) with
  | none => (false, map)
  | some (_, offset) => map.commitGuardPage os address offset fWriteAccess

/-! ## Flushing -/

/-- What one round of the loop of `flushView` does with a dirty page: `none` is the
jump to `fail`, with the map as it is then. -/
def flushChunk (map : Win32MemMap) (os : Os) (offset size : ℕ) : Bool × Win32MemMap :=
  if os.fWrite offset then
    let map := map.clearDirtyPages (offset / 0x1000) 1
    match map.protectPages offset size .readonly with
    | none => (false, map)
    | some map => (true, map.updateViewPages offset size .readonly)
  else (false, map)

/-- The loop of `flushView`, with the ranges it writes to the file. -/
def flushLoop (os : Os) : ℕ → Win32MemMap → ℕ → ℕ → Bool × Win32MemMap × List (ℕ × ℕ)
  | 0, map, _, _ => (true, map, [])
  | rounds + 1, map, offset, cbFlush =>
    if cbFlush = 0 then (true, map, [])
    else if map.isDirtyPage (offset / 0x1000) then
      let size := min 0x1000 cbFlush
      match map.flushChunk os offset size with
      | (false, map) => (false, map, if os.fWrite offset then [(offset, size)] else [])
      | (true, map) =>
        let (ok, map, writes) := flushLoop os rounds map (add32 offset size) (cbFlush - size)
        (ok, map, (offset, size) :: writes)
    else if cbFlush < 0x1000 then (true, map, [])
    else flushLoop os rounds map (add32 offset 0x1000) (cbFlush - 0x1000)

/-- `cbFlush` before the loop of `flushView`. -/
def flushSize (map : Win32MemMap) (offset cbFlush : ℕ) : ℕ :=
  let cbFlush := if cbFlush = 0 then map.mSize else cbFlush
  if map.mSize < add32 offset cbFlush then
    sub32 cbFlush (sub32 (add32 offset cbFlush) map.mSize)
  else cbFlush

/-- The access flags that `flushView` goes by; no view address is `MMAP_FLUSHVIEW_ALL`. -/
def flushAccess (map : Win32MemMap) : Option ℕ → Option ℕ
  | none => some fileMapWrite
  | some address => (map.findView address).map Win32MemMapView.mfAccess

def flushView (map : Win32MemMap) (os : Os) (viewaddr : Option ℕ) (offset cbFlush : ℕ) :
    Bool × Win32MemMap × List (ℕ × ℕ) :=
  if !map.fFile then (true, map, [])
  else if map.mSize < offset then (false, map, [])
  else
    match map.flushAccess viewaddr with
    | none => (false, map, [])
    | some accessflags =>
      if !has accessflags memmapAccessWrite || has accessflags memmapAccessCopyonwrite then
        (true, map, [])
      else
        let cbFlush := map.flushSize offset cbFlush
        flushLoop os (pagesFor cbFlush) map offset cbFlush

/-! ## Invalidation -/

def invalidatePages (map : Win32MemMap) (os : Os) (offset size : ℕ) : Win32MemMap :=
  let size := add32 size (offset % 0x1000)
  let offset := offset / 0x1000 * 0x1000
  let map := if os.fDecommit then map.decommitPages offset size else map
  map.updateViewPages offset size .guard

/-! ## Making and removing views -/

/-- The tests of `mapViewOfFile` on the access flags; `readProt` are the protections
that allow reading. -/
def accessAllowed (mProtFlags readProt fdwAccess : ℕ) : Bool :=
  !has fdwAccess 0xfff0ffe0 &&
  !(has fdwAccess fileMapWrite && !has mProtFlags pageReadwrite) &&
  !(has fdwAccess fileMapRead && !has mProtFlags readProt) &&
  !(fdwAccess != fileMapAllAccess && has fdwAccess fileMapCopy && !has mProtFlags pageWritecopy)

/-- The extent of a new view: `mSize` of the map afterwards and the size of the view. -/
def viewExtent (mSize : ℕ) (fFile : Bool) (size offset fdwAccess : ℕ) : Option (ℕ × ℕ) :=
  if mSize < add32 offset size ∧ (!has fdwAccess fileMapWrite || !fFile) then none
  else
    let mSize' := if mSize < add32 offset size then add32 offset size else mSize
    some (mSize', if size = 0 then sub32 mSize' offset else size)

/-- `mfAccess` of a new view. -/
def viewAccess (os : Os) (fdwAccess : ℕ) : ℕ :=
  match fdwAccess with
  | fileMapRead => 1
  | fileMapAllAccess | fileMapWrite | fileMapWriteRead => 3
  | fileMapCopy => 11
  | _ => os.mfAccess

/-- `accessAttr` of a new view. -/
def aliasAttr (fdwAccess : ℕ) : PageAttr :=
  match fdwAccess with
  | fileMapRead => .readonly
  | fileMapAllAccess | fileMapWrite | fileMapWriteRead | fileMapCopy => .readwrite
  | _ => ⟨false, false, false⟩

/-- When `OSLibDosAliasMem` gives an alias: whole pages of the region only, and the
protection of those that are committed can be set. -/
def aliasOk (map : Win32MemMap) (os : Os) (offset size fdwAccess : ℕ) : Bool :=
  let cb := add32 (sub32 size 1 / 0x1000 * 0x1000) 0x1000
  os.fMemory && offset % 0x1000 == 0 && cb != 0 && offset + cb ≤ map.cbReserved &&
  ((aliasAttr fdwAccess).read || (List.range' (offset / 0x1000) (cb / 0x1000)).all fun q =>
    map.page q == none)

/-- The members of a new view. -/
def freshView (os : Os) (owner : Option ℕ) (offset size fdwAccess : ℕ) : Win32MemMapView where
  pMapView := os.pMapView
  mOffset := offset
  mSize := size
  mfAccess := viewAccess os fdwAccess
  mOwnerMap := owner
  pCOWBitmap :=
    if fdwAccess = fileMapCopy then
      some fun i => if i < bitmapBits (nrPages size) then false else os.heap i
    else none
  attr := fun _ => aliasAttr fdwAccess

/-- The constructor of `Win32MemMapView`: private memory of guard pages for a
copy-on-write view, an alias of the region for any other. -/
def newView (map : Win32MemMap) (os : Os) (owner : Option ℕ) (offset size fdwAccess : ℕ) :
    Option Win32MemMapView :=
  if has (viewAccess os fdwAccess) memmapAccessCopyonwrite then
    if os.fMemory && size != 0 && size ≤ 0x7fc00000 then
      some { freshView os owner offset size fdwAccess with attr := fun _ => ⟨true, true, true⟩ }
    else none
  else if map.aliasOk os offset size fdwAccess then
    some (freshView os owner offset size fdwAccess)
  else none

/-- The sorted list of views with a new one. -/
def insertView (view : Win32MemMapView) : List Win32MemMapView → List Win32MemMapView
  | [] => [view]
  | v :: rest =>
    if view.pMapView < v.pMapView then view :: v :: rest else v :: insertView view rest

def addView (map : Win32MemMap) (view : Option Win32MemMapView) : Bool × Win32MemMap :=
  match view with
  | none => (false, map)
  | some view => (true, { map with views := insertView view map.views })

def mapViewOfFile (map : Win32MemMap) (os : Os) (size offset fdwAccess : ℕ) :
    Bool × Win32MemMap :=
  if accessAllowed map.mProtFlags (pageReadwrite ||| pageReadonly ||| pageWritecopy) fdwAccess then
    match viewExtent map.mSize map.fFile size offset fdwAccess with
    | none => (false, map)
    | some (mSize, cbView) =>
      let map := { map with mSize := mSize }
      map.addView (map.newView os none offset cbView fdwAccess)
  else (false, map)

/-- `mapViewOfFile` of a duplicate map. -/
def dupMapViewOfFile (map : Win32MemMap) (os : Os) (i size offset fdwAccess : ℕ) :
    Bool × Win32MemMap :=
  match map.dups[i]? with
  | none => (false, map)
  | some dup =>
    if accessAllowed dup.mProtFlags (pageReadwrite ||| pageReadonly) fdwAccess then
      match viewExtent dup.mSize dup.fFile size offset fdwAccess with
      | none => (false, map)
      | some (mSize, cbView) =>
        let map := { map with dups := map.dups.set i { dup with mSize := mSize } }
        map.addView (map.newView os (some i) offset cbView fdwAccess)
    else (false, map)

/-- Removes the first view that an address lies in. -/
def eraseView (address : ℕ) : List Win32MemMapView → List Win32MemMapView
  | [] => []
  | view :: rest => if view.covers address then rest else view :: eraseView address rest

def unmapViewOfFile (map : Win32MemMap) (os : Os) (address : ℕ) : Bool × Win32MemMap :=
  match map.findView address with
  | none => (false, map)
  | some view =>
    let map :=
      if has view.mfAccess memmapAccessWrite then
        (map.flushView os none view.mOffset view.mSize).2.1
      else map
    (true, { map with views := eraseView address map.views })

/-! ## Making maps -/

/-- `allocateMap` of a new map. -/
def allocateMap (os : Os) (mSize mProtFlags : ℕ) (fFile : Bool) : Option Win32MemMap :=
  if mSize = 0 ∨ 0x7fc00000 < mSize then none
  else
    let map : Win32MemMap := {
      mSize := mSize
      mProtFlags := mProtFlags
      fFile := fFile
      cbReserved := 0x1000 * pagesFor mSize
      page := fun q => if !fFile ∧ 0x1000 * q < mSize then some .readwrite else none
      cbWriteBitmap := 0
      pWriteBitmap := none
      dups := []
      views := [] }
    let map :=
      if fFile && has mProtFlags secCommit then (map.commitPage os 0 0 false (nrPages mSize)).2
      else map
    some <|
      if fFile then
        { map with
          cbWriteBitmap := nrPages mSize / 8 + 1
          pWriteBitmap := some fun i =>
            if i < bitmapBits (nrPages mSize) then false else os.heap i }
      else map

/-- `Init` on a file of `cbFile` bytes, or on no file. -/
def init (os : Os) (cbFile : Option ℕ) (aMSize mProtFlags : ℕ) : Option Win32MemMap :=
  match cbFile with
  | some cbFile => allocateMap os (max cbFile aMSize) mProtFlags true
  | none => allocateMap os aMSize mProtFlags false

/-- `Win32MemMapDup::Init`. -/
def newDup (map : Win32MemMap) (mProtFlags : ℕ) : Win32MemMap :=
  { map with
    dups := map.dups ++ [⟨map.mSize, mProtFlags, map.fFile⟩]
    mProtFlags :=
      if has mProtFlags pageReadwrite && map.mProtFlags == pageReadonly then pageReadwrite
      else map.mProtFlags }

/-! ## Runs -/

inductive Op where
  | newDup (mProtFlags : ℕ)
  | mapViewOfFile (dup : Option ℕ) (size offset fdwAccess : ℕ)
  | pageFault (address : ℕ) (fWriteAccess : Bool) (nrpages : ℕ)
  | guardFault (address : ℕ) (fWriteAccess : Bool)
  | flushView (viewaddr : Option ℕ) (offset cbFlush : ℕ)
  | invalidatePages (offset size : ℕ)
  | unmapViewOfFile (address : ℕ)
deriving DecidableEq, Repr

def step (map : Win32MemMap) (os : Os) : Op → Win32MemMap
  | .newDup mProtFlags => map.newDup mProtFlags
  | .mapViewOfFile none size offset fdwAccess => (map.mapViewOfFile os size offset fdwAccess).2
  | .mapViewOfFile (some i) size offset fdwAccess =>
    (map.dupMapViewOfFile os i size offset fdwAccess).2
  | .pageFault address fWriteAccess nrpages => (map.pageFault os address fWriteAccess nrpages).2
  | .guardFault address fWriteAccess => (map.guardFault os address fWriteAccess).2
  | .flushView viewaddr offset cbFlush => (map.flushView os viewaddr offset cbFlush).2.1
  | .invalidatePages offset size => map.invalidatePages os offset size
  | .unmapViewOfFile address => (map.unmapViewOfFile os address).2

def run (map : Win32MemMap) : List (Op × Os) → Win32MemMap
  | [] => map
  | (op, os) :: ops => run (map.step os op) ops

end Win32MemMap
end Odin32.MemMap
