import Mathlib.Data.List.Pairwise
import Odin32.Word

/-! # Allocation records

`OSLibDosAllocMem` asks OS/2 for more than it was asked for when a block is not aligned to
64KB, and keeps a list of the ranges its callers got. Where a block comes to lie is up to
OS/2: a call takes the answers it gets along, and an answer that is no room fails. -/

set_option autoImplicit false

namespace Odin32.AllocRecords

open Word

def pagRead : ℕ := 0x1
def pagWrite : ℕ := 0x2
def pagExecute : ℕ := 0x4
def pagGuard : ℕ := 0x8
def pagCommit : ℕ := 0x10
def pagShared : ℕ := 0x2000
def pagFree : ℕ := 0x4000
def pagBase : ℕ := 0x10000

def errorNotEnoughMemory : ℕ := 8
def errorNotSupported : ℕ := 50
def errorInvalidParameter : ℕ := 87
def errorInvalidAddress : ℕ := 487

/-- The last 64KB of the address space never belong to a process. -/
def memoryTop : ℕ := 0xffff0000

/-- A block that OS/2 gave out, in whole pages. -/
structure Block where
  base : ℕ
  size : ℕ
  deriving DecidableEq, Repr

structure VirtAllocRec where
  baseaddr : ℕ
  size : ℕ
  attr : ℕ
  deriving DecidableEq, Repr

/-- The range a caller was given, and the block it lies in. OS/2 does not know of it, and
no routine reads it: it says what the records are to mirror. -/
structure Asked where
  block : ℕ
  base : ℕ
  size : ℕ
  deriving DecidableEq, Repr

structure Memory where
  blocks : List Block
  allocrecords : List VirtAllocRec
  asked : List Asked

namespace Block

def Contains (block : Block) (addr : ℕ) : Prop :=
  block.base ≤ addr ∧ addr < block.base + block.size

instance (block : Block) (addr : ℕ) : Decidable (block.Contains addr) :=
  inferInstanceAs (Decidable (_ ∧ _))

/-- Whether there is room for a block among others. -/
def fits (blocks : List Block) (block : Block) : Bool :=
  block.base % 0x1000 = 0 && 0 < block.base && 0 < block.size &&
    block.base + block.size ≤ memoryTop &&
    blocks.all fun other =>
      block.base + block.size ≤ other.base || other.base + other.size ≤ block.base

end Block

/-! ## OS/2 -/

/-- `DosAllocMem`, with the address OS/2 picks. -/
def dosAllocMem (pick : Option ℕ) (cb : ℕ) (blocks : List Block) : Option (ℕ × List Block) :=
  match pick with
  | none => none
  | some base =>
    let block : Block := ⟨base, pagesFor cb * 0x1000⟩
    if block.fits blocks then some (base, block :: blocks) else none

/-- `DosFreeMem`, which wants the base of a block. -/
def dosFreeMem (base : ℕ) (blocks : List Block) : ℕ × List Block :=
  if blocks.any fun block => block.base == base then
    (0, blocks.filter fun block => block.base != base)
  else (errorInvalidAddress, blocks)

/-- What `DosQueryMem` says of a page besides where its block begins: the length of the
run of pages like it, and the flags. -/
structure PageAnswer where
  range : ℕ
  attr : ℕ
  deriving DecidableEq, Repr

/-- The block `DosQueryMem` finds a page in. -/
def blockAt (blocks : List Block) (addr : ℕ) : Option Block :=
  blocks.find? fun block => decide (block.Contains addr)

/-- The page is the first one of a block. -/
def isBase (blocks : List Block) (ulAddr : ℕ) : Option Bool :=
  (blockAt blocks ulAddr).map fun block => block.base == ulAddr

/-! ## An allocation at an address -/

def allocatMaxFillers : ℕ := 256

/-- The loop of `allocAtAddress`, with the fillers it keeps. The second value says whether
a block came back at the wanted address. -/
def allocAtLoop (pvReq cbReq : ℕ) (picks : ℕ → Option ℕ) :
    ℕ → ℕ → List ℕ → List Block → List ℕ × Bool × List Block
  | 0, _, fillers, blocks => (fillers, false, blocks)
  | n + 1, i, fillers, blocks =>
    match dosAllocMem (picks (2 * i)) cbReq blocks with
    | none => (fillers, false, blocks)
    | some (pvNew, blocks) =>
      if pvNew = pvReq then (fillers, true, blocks)
      else if pvReq < pvNew then (fillers, false, (dosFreeMem pvNew blocks).2)
      else if pvReq < pvNew + cbReq then
        match dosAllocMem (picks (2 * i + 1)) (pvReq - pvNew) (dosFreeMem pvNew blocks).2 with
        | none => (fillers, false, (dosFreeMem pvNew blocks).2)
        | some (pvGap, blocks) =>
          if allocatMaxFillers - 1 ≤ (pvGap :: fillers).length then (pvGap :: fillers, false, blocks)
          else allocAtLoop pvReq cbReq picks n (i + 1) (pvGap :: fillers) blocks
      else
        if allocatMaxFillers - 1 ≤ (pvNew :: fillers).length then (pvNew :: fillers, false, blocks)
        else allocAtLoop pvReq cbReq picks n (i + 1) (pvNew :: fillers) blocks

def freeFillers (fillers : List ℕ) (blocks : List Block) : List Block :=
  fillers.foldl (fun blocks filler => (dosFreeMem filler blocks).2) blocks

def allocAtAddress (pvReq cbReq : ℕ) (picks : ℕ → Option ℕ) (blocks : List Block) :
    Bool × List Block :=
  let (fillers, got, blocks') :=
    allocAtLoop pvReq (alignPage cbReq) picks allocatMaxFillers 0 [] blocks
  (got, freeFillers fillers blocks')

/-! ## The records -/

/-- The insertion of `AddAllocRec`: before the first record with a higher base. -/
def insertRec (rec_ : VirtAllocRec) : List VirtAllocRec → List VirtAllocRec
  | [] => [rec_]
  | head :: tail =>
    if rec_.baseaddr < head.baseaddr then rec_ :: head :: tail else head :: insertRec rec_ tail

/-- `AddAllocRec`. Without memory for it there is no record. -/
def addAllocRec (fMalloc : Bool) (baseaddr size attr : ℕ) (m : Memory) : Memory :=
  if fMalloc then { m with allocrecords := insertRec ⟨baseaddr, size, attr⟩ m.allocrecords }
  else m

/-- `FreeAllocRec`: the first record with this base goes. -/
def freeAllocRec (baseaddr : ℕ) (m : Memory) : Memory :=
  { m with allocrecords := m.allocrecords.eraseP fun rec_ => rec_.baseaddr == baseaddr }

/-- The end of a record, as the code computes it. -/
def VirtAllocRec.end_ (rec_ : VirtAllocRec) : ℕ := add32 rec_.baseaddr rec_.size

def findAllocRec (addr : ℕ) : List VirtAllocRec → Option VirtAllocRec
  | [] => none
  | rec_ :: rest =>
    if rec_.baseaddr ≤ addr ∧ addr < rec_.end_ then some rec_
    else if addr < rec_.baseaddr then none
    else findAllocRec addr rest

/-- What `OSLibDosQueryAllocEnd` returns, `ret` being the value so far. -/
inductive AllocState where
  | outside
  | inside (end_ : ℕ)
  | behind
  deriving DecidableEq, Repr

def queryAllocEndFrom (addr : ℕ) : AllocState → List VirtAllocRec → AllocState
  | ret, [] => ret
  | ret, rec_ :: rest =>
    if addr < rec_.baseaddr then ret
    else if addr < rec_.end_ then .inside rec_.end_
    else queryAllocEndFrom addr (if addr = rec_.end_ then .behind else ret) rest

/-- `OSLibDosQueryAllocEnd`. -/
def queryAllocEnd (addr : ℕ) (records : List VirtAllocRec) : AllocState :=
  queryAllocEndFrom addr .outside records

/-! ## Allocation -/

/-- What the system does in one call: the answer of Win32k where that is installed, the
addresses OS/2 picks, whether the page flags can be set, and whether there is memory for
a record. -/
structure AllocAnswers where
  win32k : Option (Except ℕ ℕ)
  first : Option ℕ
  fillers : ℕ → Option ℕ
  second : Option ℕ
  setMem : ℕ
  fMalloc : Bool

/-- A range is handed to the caller. -/
def Memory.give (m : Memory) (block base size : ℕ) : Memory :=
  { m with asked := ⟨block, base, size⟩ :: m.asked }

/-- The first attempt: at the wanted address, or wherever OS/2 puts the block. -/
def firstBlock (wanted : Option ℕ) (cbSize : ℕ) (os : AllocAnswers) (blocks : List Block) :
    Option ℕ × List Block :=
  match wanted with
  | some pvReq =>
    let (got, blocks) := allocAtAddress pvReq cbSize os.fillers blocks
    (if got then some pvReq else none, blocks)
  | none =>
    match dosAllocMem os.first cbSize blocks with
    | some (pvMemAddr, blocks) => (some pvMemAddr, blocks)
    | none => (none, blocks)

/-- The part of `OSLibDosAllocMem` that does without Win32k. -/
def allocMemOld (wanted : Option ℕ) (cbSize flFlags : ℕ) (os : AllocAnswers) (m : Memory) :
    Option ℕ × Memory :=
  match firstBlock wanted cbSize os m.blocks with
  | (none, blocks) => (none, { m with blocks := blocks })
  | (some pvMemAddr, blocks) =>
    if pvMemAddr % 0x10000 = 0 then
      (some pvMemAddr, addAllocRec os.fMalloc pvMemAddr cbSize flFlags
        ({ m with blocks := blocks }.give pvMemAddr pvMemAddr cbSize))
    else
      let blocks := (dosFreeMem pvMemAddr blocks).2
      match dosAllocMem os.second (add32 cbSize 0x10000) blocks with
      | none => (none, { m with blocks := blocks })
      | some (baseAddr, blocks') =>
        let addr64kb := if baseAddr % 0x10000 = 0 then baseAddr
          else add32 baseAddr 0xffff / 0x10000 * 0x10000
        if flFlags &&& pagCommit ≠ 0 ∧ os.setMem ≠ 0 then
          (none, { m with blocks := (dosFreeMem baseAddr blocks').2 })
        else
          (some addr64kb, addAllocRec os.fMalloc addr64kb cbSize flFlags
            ({ m with blocks := blocks' }.give baseAddr addr64kb cbSize))

/-- `OSLibDosAllocMem`. The memory Win32k gives out is not recorded. -/
def osLibDosAllocMem (wanted : Option ℕ) (cbSize flFlags : ℕ) (os : AllocAnswers) (m : Memory) :
    Option ℕ × Memory :=
  match os.win32k with
  | none => allocMemOld wanted cbSize flFlags os m
  | some (.error rc) =>
    if rc = errorNotSupported then allocMemOld wanted cbSize flFlags os m else (none, m)
  | some (.ok base) =>
    match dosAllocMem (some base) cbSize m.blocks with
    | none => (none, m)
    | some (base, blocks) => (some base, { m with blocks := blocks }.give base base cbSize)

/-- `OSLibDosAliasMem`, where `pages` says whether the flags of all pages could be queried
and set. -/
def osLibDosAliasMem (cb fl : ℕ) (alias_ : Option ℕ) (pages fMalloc : Bool) (m : Memory) :
    Option ℕ × Memory :=
  let cb := add32 (sub32 cb 1 / 0x1000 * 0x1000) 0x1000
  match dosAllocMem alias_ cb m.blocks with
  | none => (none, m)
  | some (ppbAlias, blocks) =>
    if pages then
      (some ppbAlias, addAllocRec fMalloc ppbAlias cb fl
        ({ m with blocks := blocks }.give ppbAlias ppbAlias cb))
    else (none, { m with blocks := blocks })

/-- The walk of `OSLibDosFreeMem` back to the first page of the block. -/
def findBase (blocks : List Block) : ℕ → ℕ → Option ℕ
  | 0, _ => none
  | n + 1, ulAddr =>
    match isBase blocks ulAddr with
    | none => none
    | some true => some ulAddr
    | some false => findBase blocks n (sub32 ulAddr 0x1000)

def osLibDosFreeMem (lpMemAddr : ℕ) (m : Memory) : ℕ × Memory :=
  match findBase m.blocks 16 (lpMemAddr / 0x1000 * 0x1000) with
  | none => (errorInvalidParameter, m)
  | some ulAddr =>
    let m := freeAllocRec lpMemAddr m
    let (rc, blocks) := dosFreeMem ulAddr m.blocks
    (rc, { m with blocks := blocks, asked := m.asked.filter fun a => a.block != ulAddr })

/-! ## Queries -/

inductive MemState where
  | free | commit | reserve
  deriving DecidableEq, Repr

/-- The state part of `TranslateOS2PageAttr`. -/
def winState (os2attr : ℕ) : MemState :=
  if os2attr &&& pagFree ≠ 0 then .free
  else if os2attr &&& pagCommit ≠ 0 then .commit
  else .reserve

/-- The protection part of `TranslateOS2PageAttr`. -/
def winProtect (os2attr : ℕ) : ℕ :=
  if os2attr &&& (pagRead ||| pagWrite ||| pagExecute ||| pagGuard) = 0 then 0x01
  else
    (if os2attr &&& pagRead ≠ 0 ∧ os2attr &&& pagWrite = 0 then 0x02
      else if os2attr &&& pagWrite ≠ 0 then 0x04 else 0) |||
    (if os2attr &&& (pagWrite ||| pagExecute) = pagWrite ||| pagExecute then 0x40
      else if os2attr &&& pagExecute ≠ 0 then 0x20 else 0) |||
    (if os2attr &&& pagGuard ≠ 0 then 0x100 else 0)

/-- The type part: private memory, or none given. -/
def winPrivate (os2attr : ℕ) : Bool := os2attr &&& pagShared == 0

/-- The walk of `OSLibDosFindMemBase` back to the first page of the block. -/
def findMemBaseFrom (blocks : List Block) : ℕ → Option ℕ
  | 0 => none
  | page + 1 =>
    match isBase blocks ((page + 1) * 0x1000) with
    | none => none
    | some true =>
      let ulAddr := (page + 1) * 0x1000
      some (if 0x1fffffff < ulAddr then add32 ulAddr 0xffff / 0x10000 * 0x10000 else ulAddr)
    | some false => findMemBaseFrom blocks page

/-- `OSLibDosFindMemBase`: the base and, for a recorded range, its flags. -/
def findMemBase (lpMemAddr : ℕ) (m : Memory) : ℕ × ℕ :=
  match findAllocRec lpMemAddr m.allocrecords with
  | some rec_ => (rec_.baseaddr, rec_.attr)
  | none =>
    match isBase m.blocks lpMemAddr with
    | some false => ((findMemBaseFrom m.blocks (lpMemAddr / 0x1000 - 1)).getD 0, 0)
    | _ => (lpMemAddr, 0)

structure MemoryBasicInformation where
  baseAddress : ℕ
  regionSize : ℕ
  state : MemState
  protect : ℕ
  private_ : Bool
  allocationProtect : ℕ
  allocationBase : ℕ
  deriving DecidableEq, Repr

def isInvalidAddress : Except ℕ PageAnswer → Bool
  | .error rc => rc == errorInvalidAddress
  | .ok _ => false

/-- `VirtualQuery`. For a page in no block OS/2 fails in one way or another, or answers
that the pages are free. -/
def virtualQuery (lpvAddress : ℕ) (answer : Except ℕ PageAnswer) (m : Memory) :
    Option MemoryBasicInformation :=
  let lpBase := lpvAddress / 0x1000 * 0x1000
  let allocState := queryAllocEnd lpBase m.allocrecords
  if isInvalidAddress answer ∨ allocState = .behind then
    some ⟨lpBase, 0x1000, .free, 0, false, 0, 0⟩
  else
    match answer with
    | .error _ => none
    | .ok answer =>
      let regionSize := add32 answer.range 0xfff / 0x1000 * 0x1000
      let regionSize := match allocState with
        | .inside ulAllocEnd =>
          if ulAllocEnd < add32 lpBase regionSize then sub32 ulAllocEnd lpBase else regionSize
        | _ => regionSize
      let protect := winProtect answer.attr
      let (allocationBase, dAttr) := findMemBase lpBase m
      some ⟨lpBase, regionSize, winState answer.attr, protect, winPrivate answer.attr,
        if dAttr ≠ 0 then winProtect dAttr else protect, allocationBase⟩

/-- What OS/2 can answer: for a page of a block, pages of that block that are not free. -/
def Answers (m : Memory) (lpBase : ℕ) (answer : Except ℕ PageAnswer) : Prop :=
  ∀ block ∈ m.blocks, block.Contains lpBase → ∃ page, answer = .ok page ∧
    lpBase + page.range ≤ block.base + block.size ∧ page.attr &&& pagFree = 0

/-! ## Runs -/

inductive Op where
  | allocMem (wanted : Option ℕ) (cbSize : UInt32) (flFlags : ℕ) (os : AllocAnswers)
  | aliasMem (cb fl : ℕ) (alias_ : Option ℕ) (pages fMalloc : Bool)
  | freeMem (lpMemAddr : ℕ)
  /-- Memory given out by OS/2 to others. -/
  | other (pick : Option ℕ) (cb : ℕ)

def step (m : Memory) : Op → Memory
  | .allocMem wanted cbSize flFlags os => (osLibDosAllocMem wanted cbSize.toNat flFlags os m).2
  | .aliasMem cb fl alias_ pages fMalloc => (osLibDosAliasMem cb fl alias_ pages fMalloc m).2
  | .freeMem lpMemAddr => (osLibDosFreeMem lpMemAddr m).2
  | .other pick cb => ((dosAllocMem pick cb m.blocks).map fun new =>
      { m with blocks := new.2 }).getD m

def run (m : Memory) (ops : List Op) : Memory := ops.foldl step m

def newMemory : Memory := ⟨[], [], []⟩

end Odin32.AllocRecords
