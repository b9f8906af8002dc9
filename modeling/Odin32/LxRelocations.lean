import Odin32.LxFixups
import Odin32.Walk

/-! # The base relocation directory as it stands in memory

The block loop of `applyFixups` and `applyFixupsDelta` over the bytes of the directory,
whatever they are. Pointers into the directory are offsets from `pBaseRelocs` modulo 2^32.
The run ends where it reads relocation data outside of the directory, or stores outside of
the page and of `ul`; it has no result where the loop needs more rounds than it is given.
What the entries do to the page is the `applyFixup` of well-formed blocks. -/

set_option autoImplicit false

namespace Odin32.LxRelocations
open Word ByteMemory LxPages LxFixups

/-- The bytes from `pBaseRelocs` on, by offset, and `cbBaseRelocs`. -/
structure Directory where
  bytes : Mem
  cbBaseRelocs : ℕ

inductive Outcome where
  | returns (rc : Except ApiRet Mem)
  | readsOutside
  | storesOutside

namespace Directory

/-- A range lies in the directory. -/
def Inside (dir : Directory) (off n : ℕ) : Prop := u32 off + n ≤ dir.cbBaseRelocs

instance (dir : Directory) (off n : ℕ) : Decidable (dir.Inside off n) :=
  inferInstanceAs (Decidable (_ ≤ _))

def virtualAddress (dir : Directory) (pbr : ℕ) : ℕ := word dir.bytes (u32 pbr) 4

def sizeOfBlock (dir : Directory) (pbr : ℕ) : ℕ := word dir.bytes (u32 (pbr + 4)) 4

def typeOffset (dir : Directory) (pwoffFixup : ℕ) : ℕ := word dir.bytes (u32 pwoffFixup) 2

/-- `cRelocations` with its bound check. -/
def cRelocations (dir : Directory) (pbr : ℕ) : ℕ :=
  if dir.cbBaseRelocs < add32 pbr (dir.sizeOfBlock pbr) then
    sub32 (sub32 dir.cbBaseRelocs pbr) 8 / 2
  else sub32 (dir.sizeOfBlock pbr) 8 / 2

/-- The entries that are skipped in a block before the page. -/
def skipped (dir : Directory) (ulRVAPage pbr : ℕ) : ℕ :=
  if dir.virtualAddress pbr < ulRVAPage ∧ 7 < dir.cRelocations pbr then dir.cRelocations pbr - 7
  else 0

end Directory

section Entries
variable (pe : PeModule) (fDeltaOnly : Bool) (ulRVAPage virtualAddress typeOffset : ℕ)

/-- The RVA of an entry. -/
def entryRVA : ℕ := add32 (typeOffset % 0x1000) virtualAddress

def entrySize : ℕ := acbFixupTypes (typeOffset / 0x1000)

/-- The entry is applied to the page. -/
def Touches : Prop :=
  entrySize typeOffset ≤ cbFixupMax ∧
    ulRVAPage ≤ add32 (entryRVA virtualAddress typeOffset) (entrySize typeOffset - 1) ∧
    entryRVA virtualAddress typeOffset < add32 ulRVAPage 0x1000

instance : Decidable (Touches ulRVAPage virtualAddress typeOffset) :=
  inferInstanceAs (Decidable (_ ∧ _ ∧ _))

/-- The target of a fixup that ends on the page afterwards. -/
def targetAfter : Option (Except ApiRet (Option ℕ)) :=
  if !fDeltaOnly && typeOffset / 0x1000 == imageRelBasedHighLow then
    some ((readAtRVA pe (add32 ulRVAPage (typeOffset % 0x1000)) 4).map fun buffer =>
      resolveTarget pe (word buffer 0 4))
  else none

/-- The object of the target is found, so that `ul` is not made from the page. -/
def resolvesAfter : Bool :=
  match targetAfter pe fDeltaOnly ulRVAPage typeOffset with
  | some (.ok target) => target.isSome
  | _ => false

/-- The stores of an entry that gets so far: those to the page, and that to the four bytes of
`ul` from the end of the page. -/
def StoresInside : Prop :=
  Touches ulRVAPage virtualAddress typeOffset →
    if entryRVA virtualAddress typeOffset < ulRVAPage then
      sub32 (add32 (entrySize typeOffset) (typeOffset % 0x1000)) 0x1000 ≤ 0x1000
    else if add32 ulRVAPage 0x1000 <
        add32 (entryRVA virtualAddress typeOffset) (entrySize typeOffset) then
      resolvesAfter pe fDeltaOnly ulRVAPage typeOffset = true ∨
        0x1000 - typeOffset % 0x1000 ≤ 4
    else sub32 (entryRVA virtualAddress typeOffset) ulRVAPage + entrySize typeOffset ≤ 0x1000

instance : Decidable (StoresInside pe fDeltaOnly ulRVAPage virtualAddress typeOffset) :=
  inferInstanceAs (Decidable (_ → ite _ _ _))

end Entries

section Blocks
variable (pe : PeModule) (fDeltaOnly : Bool) (ulDelta ulRVAPage : ℕ) (dir : Directory)

/-- The loop through the fixups of a block. -/
def applyEntries (virtualAddress : ℕ) : ℕ → ℕ → Mem → Outcome
  | 0, _, pvPage => .returns (.ok pvPage)
  | cRelocations + 1, pwoffFixup, pvPage =>
    if dir.Inside pwoffFixup 2 then
      let typeOffset := dir.typeOffset pwoffFixup
      match applyFixup pe fDeltaOnly ulDelta ulRVAPage virtualAddress typeOffset pvPage with
      | .error rc => .returns (.error rc)
      | .ok pvPage =>
        if StoresInside pe fDeltaOnly ulRVAPage virtualAddress typeOffset then
          applyEntries virtualAddress cRelocations (pwoffFixup + 2) pvPage
        else .storesOutside
    else .readsOutside

/-- One block, if it touches the page. -/
def applyBlock (pbr : ℕ) (pvPage : Mem) : Outcome :=
  if ulRVAPage ≤ add32 (dir.virtualAddress pbr) 0x1000 then
    applyEntries pe fDeltaOnly ulDelta ulRVAPage dir (dir.virtualAddress pbr)
      (dir.cRelocations pbr - dir.skipped ulRVAPage pbr)
      (pbr + 8 + 2 * dir.skipped ulRVAPage pbr) pvPage
  else .returns (.ok pvPage)

/-- The loop through the blocks. -/
def applyBlocks : ℕ → ℕ → Mem → Option Outcome
  | 0, _, _ => none
  | rounds + 1, pbr, pvPage =>
    if dir.cbBaseRelocs ≤ add32 pbr 8 then some (.returns (.ok pvPage))
    else if ¬dir.Inside (pbr + 4) 4 then some .readsOutside
    else if dir.sizeOfBlock pbr < 8 then some (.returns (.ok pvPage))
    else if ¬dir.Inside pbr 4 then some .readsOutside
    else if add32 ulRVAPage 0x1000 ≤ dir.virtualAddress pbr then some (.returns (.ok pvPage))
    else
      match applyBlock pe fDeltaOnly ulDelta ulRVAPage dir pbr pvPage with
      | .returns (.ok pvPage) => applyBlocks rounds (add32 pbr (dir.sizeOfBlock pbr)) pvPage
      | outcome => some outcome

end Blocks

/-- `applyFixups` behind its test for plain deltas. -/
def applyFixups (pe : PeModule) (ulDelta ulRVAPage : ℕ) (dir : Directory) (rounds : ℕ)
    (pvPage : Mem) : Option Outcome :=
  applyBlocks pe false ulDelta ulRVAPage dir rounds 0 pvPage

def applyFixupsDelta (pe : PeModule) (ulDelta ulRVAPage : ℕ) (dir : Directory) (rounds : ℕ)
    (pvPage : Mem) : Option Outcome :=
  applyBlocks pe true ulDelta ulRVAPage dir rounds 0 pvPage

/-! ## What a directory needs -/

section Conditions
variable (pe : PeModule) (fDeltaOnly : Bool) (ulRVAPage : ℕ) (dir : Directory)

/-- The entry ends the run with the error of a read of the image. -/
def stops (virtualAddress typeOffset : ℕ) : Bool :=
  decide (Touches ulRVAPage virtualAddress typeOffset) &&
    if entryRVA virtualAddress typeOffset < ulRVAPage then
      !(readAtRVA pe (sub32 (add32 ulRVAPage (typeOffset % 0x1000)) 0x1000) 4).isOk
    else decide (add32 ulRVAPage 0x1000 <
        add32 (entryRVA virtualAddress typeOffset) (entrySize typeOffset)) &&
      match targetAfter pe fDeltaOnly ulRVAPage typeOffset with
      | some target => !target.isOk
      | none => false

/-- An entry that reaches over an end of the page lies at the same end of its block's page,
unless its target is found without the page. -/
def Fits (virtualAddress typeOffset : ℕ) : Prop :=
  Touches ulRVAPage virtualAddress typeOffset →
    (entryRVA virtualAddress typeOffset < ulRVAPage →
      0x1000 ≤ typeOffset % 0x1000 + entrySize typeOffset) ∧
    (ulRVAPage + 0x1000 < entryRVA virtualAddress typeOffset + entrySize typeOffset →
      resolvesAfter pe fDeltaOnly ulRVAPage typeOffset = true ∨ 0xffc ≤ typeOffset % 0x1000)

/-- The entries of a block from one on, up to one that ends the run. -/
def EntriesFit (virtualAddress : ℕ) : ℕ → ℕ → Prop
  | 0, _ => True
  | cRelocations + 1, pwoffFixup =>
    dir.Inside pwoffFixup 2 ∧
      (stops pe fDeltaOnly ulRVAPage virtualAddress (dir.typeOffset pwoffFixup) = true ∨
        Fits pe fDeltaOnly ulRVAPage virtualAddress (dir.typeOffset pwoffFixup) ∧
          EntriesFit virtualAddress cRelocations (pwoffFixup + 2))

/-- No entry ends the run. -/
def entriesPass (virtualAddress : ℕ) : ℕ → ℕ → Bool
  | 0, _ => true
  | cRelocations + 1, pwoffFixup =>
    !stops pe fDeltaOnly ulRVAPage virtualAddress (dir.typeOffset pwoffFixup) &&
      entriesPass virtualAddress cRelocations (pwoffFixup + 2)

/-- A block reaches the page, or the page before. -/
def reachesPage (pbr : ℕ) : Bool := decide (ulRVAPage ≤ add32 (dir.virtualAddress pbr) 0x1000)

/-- The loop goes on behind the header of a block. -/
def goesOn (pbr : ℕ) : Bool :=
  decide (add32 pbr 8 < dir.cbBaseRelocs) && decide (8 ≤ dir.sizeOfBlock pbr) &&
    decide (dir.virtualAddress pbr < add32 ulRVAPage 0x1000)

/-- The block behind a block. -/
def nextBlock (pbr : ℕ) : Option ℕ :=
  if goesOn ulRVAPage dir pbr && (!reachesPage ulRVAPage dir pbr ||
      entriesPass pe fDeltaOnly ulRVAPage dir (dir.virtualAddress pbr)
        (dir.cRelocations pbr - dir.skipped ulRVAPage pbr)
        (pbr + 8 + 2 * dir.skipped ulRVAPage pbr)) then
    some (add32 pbr (dir.sizeOfBlock pbr))
  else none

/-- The header of a block lies in the directory, or at most four bytes in front of it with a
size that ends the loop; and its entries fit if it reaches the page. -/
structure BlockFits (pbr : ℕ) : Prop where
  header : add32 pbr 8 < dir.cbBaseRelocs →
    pbr + 8 < dir.cbBaseRelocs ∨ 0xfffffffc ≤ pbr ∧ dir.sizeOfBlock pbr < 8
  entries : goesOn ulRVAPage dir pbr = true → reachesPage ulRVAPage dir pbr = true →
    EntriesFit pe fDeltaOnly ulRVAPage dir (dir.virtualAddress pbr)
      (dir.cRelocations pbr - dir.skipped ulRVAPage pbr)
      (pbr + 8 + 2 * dir.skipped ulRVAPage pbr)

/-- The blocks from the first on fit, and none leads back to itself. -/
def BlocksFit : Prop :=
  ∀ pbr, Relation.ReflTransGen (Walk.Step (nextBlock pe fDeltaOnly ulRVAPage dir)) 0 pbr →
    BlockFits pe fDeltaOnly ulRVAPage dir pbr ∧
      ¬Relation.TransGen (Walk.Step (nextBlock pe fDeltaOnly ulRVAPage dir)) pbr pbr

end Conditions

end Odin32.LxRelocations
