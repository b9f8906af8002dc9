import Odin32.Word

/-! # Memory mapped files

`Win32MemMap` with its duplicates and views, down to the protection of every page:
the region of the map that is committed page by page, the aliases and private copies
that the views are, the bitmap of dirty pages and the bitmaps of private pages. The
memory calls of the system do to pages what their documentation says; what the
system may decide otherwise is given to each call as its answers. -/

set_option autoImplicit false

namespace Odin32.MemMap
open Odin32.Word

def pageReadonly : ℕ := 0x02
def pageReadwrite : ℕ := 0x04
def pageWritecopy : ℕ := 0x08
def secCommit : ℕ := 0x08000000

@[match_pattern] abbrev fileMapCopy : ℕ := 0x1
@[match_pattern] abbrev fileMapWrite : ℕ := 0x2
@[match_pattern] abbrev fileMapRead : ℕ := 0x4
@[match_pattern] abbrev fileMapWriteRead : ℕ := 0x6
@[match_pattern] abbrev fileMapAllAccess : ℕ := 0xf001f

def memmapAccessRead : ℕ := 1
def memmapAccessWrite : ℕ := 2
def memmapAccessCopyonwrite : ℕ := 8

/-- Whether a flag word has one of the flags of a mask. -/
def has (flags mask : ℕ) : Bool := flags &&& mask != 0

/-- `PAG_READ`, `PAG_WRITE` and `PAG_GUARD` of a committed page. -/
structure PageAttr where
  read : Bool
  write : Bool
  guard : Bool
deriving DecidableEq, Repr

def PageAttr.readonly : PageAttr := ⟨true, false, false⟩
def PageAttr.readwrite : PageAttr := ⟨true, true, false⟩

/-- `PAGEVIEW`. -/
inductive PageView where
  | readonly | view | guard
deriving DecidableEq, Repr

structure Win32MemMapView where
  pMapView : ℕ
  mOffset : ℕ
  mSize : ℕ
  mfAccess : ℕ
  /-- The duplicate map that created the view. -/
  mOwnerMap : Option ℕ
  pCOWBitmap : Option (ℕ → Bool)
  /-- The protection of the pages of the view. -/
  attr : ℕ → PageAttr

structure Win32MemMapDup where
  mSize : ℕ
  mProtFlags : ℕ
  /-- `hDupMemFile != -1` -/
  fFile : Bool
deriving DecidableEq, Repr

structure Win32MemMap where
  mSize : ℕ
  mProtFlags : ℕ
  /-- `hMemFile != -1` -/
  fFile : Bool
  /-- The bytes reserved at `pMapping`. -/
  cbReserved : ℕ
  /-- The pages of the region, with their protection where they are committed. -/
  page : ℕ → Option PageAttr
  /-- The bytes allocated at `pWriteBitmap`. -/
  cbWriteBitmap : ℕ
  pWriteBitmap : Option (ℕ → Bool)
  dups : List Win32MemMapDup
  views : List Win32MemMapView

/-- What the system answers during one call. -/
structure Os where
  /-- There is memory for a new view. -/
  fMemory : Bool := true
  /-- The address of a new view. -/
  pMapView : ℕ := 0
  /-- What a fresh object holds in a member that nothing sets. -/
  mfAccess : ℕ := 0
  /-- What stands behind an allocated bitmap. -/
  heap : ℕ → Bool := fun _ => false
  /-- The file delivers the range that starts at an offset. -/
  fRead : ℕ → Bool := fun _ => true
  /-- The file takes the range that starts at an offset. -/
  fWrite : ℕ → Bool := fun _ => true
  /-- A page that is committed under an alias can be written through it, until
  `DosSetMem` says otherwise. -/
  fAliasWrite : Bool := true
  /-- Pages under an alias can be decommitted. -/
  fDecommit : Bool := true

/-! ## Views -/

def Win32MemMapView.covers (view : Win32MemMapView) (address : ℕ) : Bool :=
  view.pMapView ≤ address && address < add32 view.pMapView view.mSize

def Win32MemMapView.isCow (view : Win32MemMapView) : Bool :=
  has view.mfAccess memmapAccessCopyonwrite

/-- `nrPages` of a size, as every routine computes it. -/
def nrPages (size : ℕ) : ℕ := pagesFor size

/-- The bits of a bitmap for a number of pages. -/
def bitmapBits (nrPages : ℕ) : ℕ := 8 * (nrPages / 8 + 1)

/-- Sets the protection of every page that a range has a byte on. -/
def setAttr (attr : ℕ → PageAttr) (start size : ℕ) (a : PageAttr) : ℕ → PageAttr :=
  fun q => if start / 0x1000 ≤ q ∧ 0x1000 * q < start + size then a else attr q

def Win32MemMapView.isCOWPage (view : Win32MemMapView) (pagenr : ℕ) : Bool :=
  match view.pCOWBitmap with
  | some bitmap => bitmap pagenr
  | none => false

/-- The pages `markCOWPages` sets bits for: those of the request inside the view,
by their numbers in the map. -/
def Win32MemMapView.cowRange (view : Win32MemMapView) (startpage nrpages : ℕ) : ℕ × ℕ :=
  let viewpagestart := view.mOffset / 0x1000
  let nrviewpages := nrPages view.mSize
  if startpage < viewpagestart ∨ viewpagestart + nrviewpages ≤ startpage then (startpage, 0)
  else if viewpagestart + nrviewpages < startpage + nrpages then
    (startpage, nrpages - (startpage + nrpages - (viewpagestart + nrviewpages)))
  else (startpage, nrpages)

def Win32MemMapView.markCOWPages (view : Win32MemMapView) (startpage nrpages : ℕ) :
    Win32MemMapView :=
  let (start, count) := view.cowRange startpage nrpages
  { view with
    pCOWBitmap := view.pCOWBitmap.map fun bitmap i =>
      if start ≤ i ∧ i < start + count then true else bitmap i }

/-- The attributes that `changePageFlags` asks for. -/
def flagAttr (mfAccess : ℕ) : PageView → PageAttr
  | .readonly => .readonly
  | .view => ⟨has mfAccess memmapAccessRead, has mfAccess memmapAccessWrite, false⟩
  | .guard => ⟨has mfAccess memmapAccessRead, has mfAccess memmapAccessWrite, true⟩

/-- The loop over the pages of a copy-on-write view: the private ones are left out. -/
def Win32MemMapView.guardPages (view : Win32MemMapView) (start nrPages : ℕ) (a : PageAttr) :
    ℕ → PageAttr :=
  (List.range nrPages).foldl
    (fun attr j => if view.isCOWPage (start / 0x1000 + j) then attr
      else setAttr attr (start + 0x1000 * j) 0x1000 a) view.attr

def Win32MemMapView.changePageFlags (view : Win32MemMapView) (offset size : ℕ)
    (flags : PageView) : Win32MemMapView :=
  if offset % 0x1000 ≠ 0 then view
  else if view.isCow ≠ (flags == .guard) then view
  else if add32 view.mOffset view.mSize ≤ offset ∨ add32 offset size ≤ view.mOffset then view
  else
    let size' := if offset < view.mOffset then sub32 size (view.mOffset - offset) else size
    let offset' := max offset view.mOffset
    let size'' :=
      if add32 view.mOffset view.mSize < add32 offset' size' then
        sub32 size' (sub32 (add32 offset' size') (add32 view.mOffset view.mSize))
      else size'
    let accessAttr := flagAttr view.mfAccess flags
    let start := offset' - view.mOffset
    match flags with
    | .guard => { view with attr := view.guardPages start (nrPages size'') accessAttr }
    | _ => { view with attr := setAttr view.attr start size'' accessAttr }

/-- `VirtualProtect` of the page of a view that an address lies on. -/
def Win32MemMapView.protectPage (view : Win32MemMapView) (address : ℕ) (a : PageAttr) :
    Win32MemMapView :=
  { view with attr := setAttr view.attr ((address - view.pMapView) / 0x1000 * 0x1000) 0x1000 a }

/-- What pages committed in the map are to an alias. -/
def Win32MemMapView.freshPages (view : Win32MemMapView) (fAliasWrite : Bool)
    (startpage nrpages : ℕ) : Win32MemMapView :=
  if view.isCow then view
  else { view with
    attr := fun q =>
      if startpage ≤ view.mOffset / 0x1000 + q ∧
          view.mOffset / 0x1000 + q < startpage + nrpages then ⟨true, fAliasWrite, false⟩
      else view.attr q }

/-- Changes the first view that an address lies in. -/
def modifyFirst (address : ℕ) (f : Win32MemMapView → Win32MemMapView) :
    List Win32MemMapView → List Win32MemMapView
  | [] => []
  | view :: rest =>
    if view.covers address then f view :: rest else view :: modifyFirst address f rest

/-! ## The region and the bitmap of dirty pages -/

namespace Win32MemMap

def isDirtyPage (map : Win32MemMap) (pagenr : ℕ) : Bool :=
  match map.pWriteBitmap with
  | some bitmap => bitmap pagenr
  | none => false

def setDirtyPages (map : Win32MemMap) (startpage nrpages : ℕ) (dirty : Bool) : Win32MemMap :=
  { map with
    pWriteBitmap := map.pWriteBitmap.map fun bitmap i =>
      if startpage ≤ i ∧ i < startpage + nrpages then dirty else bitmap i }

def markDirtyPages (map : Win32MemMap) (startpage nrpages : ℕ) : Win32MemMap :=
  map.setDirtyPages startpage nrpages true

def clearDirtyPages (map : Win32MemMap) (startpage nrpages : ℕ) : Win32MemMap :=
  map.setDirtyPages startpage nrpages false

def updateViewPages (map : Win32MemMap) (offset size : ℕ) (flags : PageView) : Win32MemMap :=
  { map with views := map.views.map fun view => view.changePageFlags offset size flags }

/-- `VirtualAlloc` with `MEM_COMMIT` and `PAGE_READWRITE`. -/
def commitPages (map : Win32MemMap) (os : Os) (startpage nrpages : ℕ) : Win32MemMap :=
  { map with
    page := fun q => if startpage ≤ q ∧ q < startpage + nrpages then some .readwrite
      else map.page q
    views := map.views.map fun view => view.freshPages os.fAliasWrite startpage nrpages }

/-- `VirtualProtect` in the region; it fails when a page is not committed. -/
def protectPages (map : Win32MemMap) (start size : ℕ) (a : PageAttr) : Option Win32MemMap :=
  let pages := List.range' (start / 0x1000) (pagesFor (start % 0x1000 + size))
  if pages.all fun q => (map.page q).isSome then
    some { map with page := fun q => if q ∈ pages then some a else map.page q }
  else none

/-- `VirtualFree` with `MEM_DECOMMIT`. -/
def decommitPages (map : Win32MemMap) (start size : ℕ) : Win32MemMap :=
  { map with page := fun q =>
      if start / 0x1000 ≤ q ∧ 0x1000 * q < start + size then none else map.page q }

/-- `min(memInfo.RegionSize, faultsize)`: the pages from `p` on that are in one state. -/
def regionSize (map : Win32MemMap) (p faultsize : ℕ) : ℕ :=
  let pages := (List.range' p (pagesFor faultsize)).takeWhile fun q =>
    0x1000 * q < map.cbReserved && map.page q == map.page p
  min (0x1000 * pages.length) faultsize

def findView (map : Win32MemMap) (address : ℕ) : Option Win32MemMapView :=
  map.views.find? fun view => view.covers address

/-- Changes the view that an address lies in. -/
def modifyView (map : Win32MemMap) (address : ℕ) (f : Win32MemMapView → Win32MemMapView) :
    Win32MemMap :=
  { map with views := modifyFirst address f map.views }

end Win32MemMap
end Odin32.MemMap
