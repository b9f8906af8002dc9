import Odin32.FreeSize
import Odin32.Tiling
import Odin32.Word

/-! # Blocks in use and free blocks of one heap anchor

What the resident and the swappable heap do to the trees and the counters of an anchor. The two
differ in the header that stands in front of a block's bytes: `CB_HDR` bytes in the resident heap,
none in the swappable one, whose descriptors lie elsewhere. An operation has no result when the
stack of an AVL operation overruns. -/

set_option autoImplicit false

namespace Odin32.HeapBlocks
open Odin32.RankedTree Odin32.Avl Odin32.AvlTable Odin32.FreeSize Odin32.Word

def blockSize : ℕ := 0x40000

def align (a alignment : ℕ) : ℕ := add32 a (alignment - 1) / alignment * alignment

structure BlockTrees where
  pcoreFree : Tree ℕ Memblock
  pcoreFreeSize : SizeTree
  cbFree : ℕ
  pcoreUsed : Tree ℕ Memblock
  cbUsed : ℕ
deriving DecidableEq, Repr

def BlockTrees.empty : BlockTrees := ⟨.nil, .nil, 0, .nil, 0⟩

/-- `PNEXT_BLOCK`. -/
def nextBlock (cbHdr : ℕ) (pmb : Memblock) : ℕ := u32 (pmb.uData + cbHdr + pmb.cbSize)

def resized (cbNew : ℕ) (pmb : Memblock) : Memblock := { pmb with cbSize := cbNew }

def insertUsed (pmb : Memblock) (a : BlockTrees) : Option BlockTrees := do
  let (pcoreUsed, _) ← avlInsert a.pcoreUsed pmb.uData pmb
  some { a with pcoreUsed := pcoreUsed, cbUsed := add32 a.cbUsed pmb.cbSize }

def removeUsed (uData : ℕ) (a : BlockTrees) : Option (BlockTrees × Option Memblock) := do
  let (pcoreUsed, gone) ← avlRemove a.pcoreUsed uData
  match gone with
  | none => some ({ a with pcoreUsed := pcoreUsed }, none)
  | some (_, pmb) =>
    some ({ a with pcoreUsed := pcoreUsed, cbUsed := sub32 a.cbUsed pmb.cbSize }, some pmb)

/-- The free block that ends where `pmb` starts. -/
def leftOf (cbHdr : ℕ) (pmb : Memblock) (a : BlockTrees) : Option Memblock :=
  ((avlGetBestFit pmb.uData false a.pcoreFree none).map Prod.snd).filter
    fun pmbLeft => nextBlock cbHdr pmbLeft = pmb.uData

def rightOf (cbHdr : ℕ) (pmb : Memblock) (a : BlockTrees) : Option Memblock :=
  (avlGet (nextBlock cbHdr pmb) a.pcoreFree).map Prod.snd

/-- A block of the free trees for another one in its place. -/
def changeFree (old new : Memblock) (a : BlockTrees) : Option BlockTrees := do
  let pcoreFreeSize ← removeFromFreeSize old a.pcoreFreeSize
  let pcoreFreeSize ← insertIntoFreeSize new pcoreFreeSize
  some { a with pcoreFree := avlReplace old.uData new.uData new a.pcoreFree,
                pcoreFreeSize := pcoreFreeSize }

/-- The block grown over what stands right of it. -/
def grown (cbHdr : ℕ) (pmb right : Memblock) : Memblock :=
  { pmb with cbSize := u32 (pmb.cbSize + cbHdr + right.cbSize) }

/-- `InsertFree`, with the descriptors it releases. -/
def insertFree (cbHdr : ℕ) (pmb : Memblock) (a : BlockTrees) :
    Option (BlockTrees × List Memblock) :=
  let counted := { a with cbFree := add32 a.cbFree pmb.cbSize }
  match leftOf cbHdr pmb a, rightOf cbHdr pmb a with
  | none, none => do -- 1 - insert no merge
    let (pcoreFree, _) ← avlInsert a.pcoreFree pmb.uData pmb
    let pcoreFreeSize ← insertIntoFreeSize pmb a.pcoreFreeSize
    some ({ counted with pcoreFree := pcoreFree, pcoreFreeSize := pcoreFreeSize }, [])
  | some pmbLeft, none => do -- 2 - insert left merge
    let merged ← changeFree pmbLeft (grown cbHdr pmbLeft pmb) counted
    some ({ merged with cbFree := add32 merged.cbFree cbHdr }, [pmb])
  | none, some pmbRight => do -- 3 - insert right merge
    let merged ← changeFree pmbRight (grown cbHdr pmb pmbRight) counted
    some ({ merged with cbFree := add32 merged.cbFree cbHdr }, [pmbRight])
  | some pmbLeft, some pmbRight => do -- 4 - insert both left and right merge
    let (pcoreFree, gone) ← avlRemove a.pcoreFree pmbRight.uData
    if gone.map (fun e => e.2.pmb) ≠ some pmbRight.pmb then
      some ({ counted with pcoreFree := pcoreFree }, [])
    else
      let pcoreFreeSize ← removeFromFreeSize pmbLeft a.pcoreFreeSize
      let pcoreFreeSize ← removeFromFreeSize pmbRight pcoreFreeSize
      let merged := grown cbHdr (grown cbHdr pmbLeft pmb) pmbRight
      let pcoreFreeSize ← insertIntoFreeSize merged pcoreFreeSize
      some ({ counted with pcoreFree := avlReplace pmbLeft.uData pmbLeft.uData merged pcoreFree,
                           pcoreFreeSize := pcoreFreeSize,
                           cbFree := add32 counted.cbFree (2 * cbHdr) }, [pmb, pmbRight])

/-! ## Taking from the free blocks -/

/-- The head of the chain of the least size that is large enough. -/
def bestFit (cbUserSize : ℕ) (a : BlockTrees) : Option Memblock :=
  (avlGetBestFit cbUserSize true a.pcoreFreeSize none).map fun e => e.2.1

/-- The block that `carve` cuts off the end of a free block. -/
def carved (cbUserSize node : ℕ) (pmbTmp : Memblock) : Memblock :=
  ⟨node, sub32 (add32 pmbTmp.uData pmbTmp.cbSize) cbUserSize, cbUserSize⟩

def carve (cbHdr cbUserSize : ℕ) (pmbTmp : Memblock) (a : BlockTrees) : Option BlockTrees := do
  let rest := resized (sub32 pmbTmp.cbSize (u32 (cbHdr + cbUserSize))) pmbTmp
  let a ← changeFree pmbTmp rest a
  some { a with cbFree := add32 (sub32 a.cbFree pmbTmp.cbSize) rest.cbSize }

/-- The whole block leaves the free trees; `false` is the internal heap error. -/
def takeWhole (pmb : Memblock) (a : BlockTrees) : Option (BlockTrees × Bool) := do
  let pcoreFreeSize ← removeFromFreeSize pmb a.pcoreFreeSize
  let (pcoreFree, gone) ← avlRemove a.pcoreFree pmb.uData
  some ({ a with pcoreFree := pcoreFree, pcoreFreeSize := pcoreFreeSize,
                 cbFree := sub32 a.cbFree pmb.cbSize },
    gone.map (fun e => e.2.pmb) = some pmb.pmb)

/-- Taken out of the free-size tree and put back. -/
def putBack (pmb : Memblock) (a : BlockTrees) : Option BlockTrees := do
  let pcoreFreeSize ← removeFromFreeSize pmb a.pcoreFreeSize
  let pcoreFreeSize ← insertIntoFreeSize pmb pcoreFreeSize
  some { a with pcoreFreeSize := pcoreFreeSize,
                cbFree := add32 (sub32 a.cbFree pmb.cbSize) pmb.cbSize }

/-! ## Blocks in use that change their size -/

/-- The first bytes of a block stay in use. -/
def trim (cbNew : ℕ) (pmb : Memblock) (a : BlockTrees) : BlockTrees :=
  { a with
    pcoreUsed := avlReplace pmb.uData pmb.uData (resized cbNew pmb) a.pcoreUsed,
    cbUsed := sub32 a.cbUsed (sub32 pmb.cbSize cbNew) }

/-- The bytes behind the first `cbNew` ones, as a block. -/
def tailOf (cbHdr cbNew node : ℕ) (pmb : Memblock) : Memblock :=
  ⟨node, u32 (pmb.uData + cbHdr + cbNew), sub32 (sub32 pmb.cbSize cbNew) cbHdr⟩

/-- What is left of the free block right of a block that grows. -/
def pushed (cbHdr cbNew node : ℕ) (pmb pmbRight : Memblock) : Memblock :=
  ⟨node, u32 (pmb.uData + cbHdr + cbNew), sub32 (add32 pmbRight.cbSize pmb.cbSize) cbNew⟩

def growInto (cbHdr cbNew node : ℕ) (pmb pmbRight : Memblock) (a : BlockTrees) :
    Option BlockTrees := do
  let rest := pushed cbHdr cbNew node pmb pmbRight
  let a ← changeFree pmbRight rest a
  some { a with
    cbFree := add32 (sub32 a.cbFree pmbRight.cbSize) rest.cbSize,
    pcoreUsed := avlReplace pmb.uData pmb.uData (resized cbNew pmb) a.pcoreUsed,
    cbUsed := add32 a.cbUsed (sub32 cbNew pmb.cbSize) }

/-- The whole free block right of a block that grows; `false` is the internal heap error. -/
def growOver (cbHdr : ℕ) (pmb pmbRight : Memblock) (a : BlockTrees) :
    Option (BlockTrees × Bool) := do
  let (pcoreFree, gone) ← avlRemove a.pcoreFree pmbRight.uData
  if gone.map (fun e => e.2.pmb) ≠ some pmbRight.pmb then
    some ({ a with pcoreFree := pcoreFree }, false)
  else
    let pcoreFreeSize ← removeFromFreeSize pmbRight a.pcoreFreeSize
    some ({ pcoreFree := pcoreFree, pcoreFreeSize := pcoreFreeSize,
            cbFree := sub32 a.cbFree pmbRight.cbSize,
            pcoreUsed :=
              avlReplace pmb.uData pmb.uData (grown cbHdr pmb pmbRight) a.pcoreUsed,
            cbUsed := add32 a.cbUsed (u32 (pmbRight.cbSize + cbHdr)) }, true)

end Odin32.HeapBlocks
