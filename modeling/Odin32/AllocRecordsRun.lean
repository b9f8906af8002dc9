import Odin32.AllocBlocks

/-! # Records and blocks over a run

Every record is a range a caller was given and has not freed, and lies in one live block;
then the queries that trust the records tell the truth. A run keeps this as long as the
address that is freed is the one the record of its block begins at. -/

set_option autoImplicit false

namespace Odin32.AllocRecords

open Word

/-- The records mirror the ranges that were given out. -/
structure RecordsOk (m : Memory) : Prop where
  sorted : m.allocrecords.Pairwise fun r s => r.baseaddr ≤ s.baseaddr
  disjoint : m.allocrecords.Pairwise fun r s =>
    r.baseaddr + r.size ≤ s.baseaddr ∨ s.baseaddr + s.size ≤ r.baseaddr
  asked : ∀ r ∈ m.allocrecords, ∃ a ∈ m.asked, a.base = r.baseaddr ∧ a.size = r.size
  live : ∀ r ∈ m.allocrecords, ∃! block, block ∈ m.blocks ∧ block.base ≤ r.baseaddr ∧
    r.baseaddr + r.size ≤ block.base + block.size

/-- No query for an address in a range that was asked for reports memory behind its end,
and none calls memory free that lies in a recorded range. -/
def QueriesOk (m : Memory) : Prop :=
  ∀ lpvAddress answer info, Answers m (lpvAddress / 0x1000 * 0x1000) answer →
    virtualQuery lpvAddress answer m = some info →
    (∀ a ∈ m.asked, a.base ≤ info.baseAddress → info.baseAddress < a.base + a.size →
      info.baseAddress + info.regionSize ≤ a.base + a.size) ∧
    (info.state = .free → ∀ r ∈ m.allocrecords,
      ¬ (r.baseaddr ≤ info.baseAddress ∧ info.baseAddress < r.baseaddr + r.size))

def RunOk (m : Memory) : List Op → Prop
  | [] => RecordsOk m ∧ QueriesOk m
  | op :: ops => RecordsOk m ∧ QueriesOk m ∧ RunOk (step m op) ops

/-- The call leaves a record for what it gave out, or takes away the record of what it
frees. -/
def Fits (m : Memory) : Op → Prop
  | .allocMem _ cbSize _ os =>
    os.fMalloc = true ∧ ∀ base, os.win32k = some (.ok base) → cbSize.toNat % 0x1000 = 0
  | .aliasMem _ _ _ _ fMalloc => fMalloc = true
  | .freeMem lpMemAddr =>
    ∀ base, findBase m.blocks 16 (lpMemAddr / 0x1000 * 0x1000) = some base →
      ∀ r ∈ m.allocrecords, blockAt m.blocks r.baseaddr = blockAt m.blocks base →
        r.baseaddr = lpMemAddr
  | .other _ _ => True

def StepsFit (m : Memory) : List Op → Prop
  | [] => True
  | op :: ops => Fits m op ∧ StepsFit (step m op) ops

/-! ## The invariant -/

/-- A range has a record. -/
def Recorded (m : Memory) (a : Asked) : Prop :=
  ∃ r ∈ m.allocrecords, r.baseaddr = a.base ∧ r.size = a.size

structure Inv (m : Memory) : Prop where
  blocks : BlocksOk m.blocks
  home : ∀ a ∈ m.asked, 0 < a.size ∧ ∃ block ∈ m.blocks, block.base = a.block ∧
    block.base ≤ a.base ∧ a.base + a.size ≤ block.base + block.size ∧
    (Recorded m a ∨ a.base + a.size = block.base + block.size)
  single : ∀ a ∈ m.asked, ∀ b ∈ m.asked, a.block = b.block → a = b
  asked : ∀ r ∈ m.allocrecords, ∃ a ∈ m.asked, a.base = r.baseaddr ∧ a.size = r.size
  ordered : m.allocrecords.Pairwise fun r s => r.baseaddr + r.size ≤ s.baseaddr

namespace Inv

variable {m : Memory} (inv : Inv m)

include inv

theorem asked_eq {a b : Asked} (inside : a ∈ m.asked) (inside' : b ∈ m.asked) {addr : ℕ}
    (low : a.base ≤ addr) (high : addr < a.base + a.size) (low' : b.base ≤ addr)
    (high' : addr < b.base + b.size) : a = b := by
  obtain ⟨_, block, there, base, above, below, _⟩ := inv.home a inside
  obtain ⟨_, other, there', base', above', below', _⟩ := inv.home b inside'
  have same := inv.blocks.eq_of_contains there there' addr ⟨by omega, by omega⟩
    ⟨by omega, by omega⟩
  exact inv.single a inside b inside' (by rw [← base, ← base', same])

theorem record_pos {r : VirtAllocRec} (inside : r ∈ m.allocrecords) :
    0 < r.size ∧ r.baseaddr + r.size ≤ memoryTop := by
  obtain ⟨a, there, base, size⟩ := inv.asked r inside
  obtain ⟨positive, block, here, _, _, below, _⟩ := inv.home a there
  have top := inv.blocks.below block here
  omega

theorem end_eq {r : VirtAllocRec} (inside : r ∈ m.allocrecords) :
    r.end_ = r.baseaddr + r.size := by
  have top := (inv.record_pos inside).2
  unfold memoryTop at top
  exact add32_of_lt (by omega)

theorem recordsOk : RecordsOk m := by
  constructor
  · exact inv.ordered.imp fun before => by omega
  · exact inv.ordered.imp Or.inl
  · exact inv.asked
  · intro r inside
    obtain ⟨a, there, base, size⟩ := inv.asked r inside
    obtain ⟨positive, block, here, _, above, below, _⟩ := inv.home a there
    refine ⟨block, ⟨here, by omega, by omega⟩, ?_⟩
    rintro other ⟨here', above', below'⟩
    exact inv.blocks.eq_of_contains here' here r.baseaddr ⟨by omega, by omega⟩
      ⟨by omega, by omega⟩

end Inv

/-! ## Queries -/

theorem queryAllocEndFrom_spec (addr : ℕ) (ret : AllocState) (records : List VirtAllocRec)
    (ordered : records.Pairwise fun r s => r.baseaddr + r.size ≤ s.baseaddr)
    (ends : ∀ r ∈ records, r.end_ = r.baseaddr + r.size) (outer : ∀ end_, ret ≠ .inside end_) :
    (∃ r ∈ records, r.baseaddr ≤ addr ∧ addr < r.baseaddr + r.size ∧
      queryAllocEndFrom addr ret records = .inside (r.baseaddr + r.size)) ∨
    (∀ r ∈ records, ¬ (r.baseaddr ≤ addr ∧ addr < r.baseaddr + r.size)) ∧
      ∀ end_, queryAllocEndFrom addr ret records ≠ .inside end_ := by
  induction records generalizing ret with
  | nil => exact Or.inr ⟨fun r inside => absurd inside List.not_mem_nil, outer⟩
  | cons head tail ih =>
    rw [List.pairwise_cons] at ordered
    unfold queryAllocEndFrom
    have end_ := ends head List.mem_cons_self
    split
    · next before =>
      refine Or.inr ⟨?_, outer⟩
      intro r inside here
      rcases List.mem_cons.mp inside with rfl | later
      · omega
      · have after := ordered.1 r later
        omega
    split
    · next low high =>
      rw [end_] at high ⊢
      exact Or.inl ⟨head, List.mem_cons_self, by omega, high, rfl⟩
    · next low high =>
      rw [end_] at high
      have next_ := ih (if addr = head.end_ then .behind else ret) ordered.2
        (fun r inside => ends r (List.mem_cons_of_mem _ inside)) (by
          intro e
          split
          · exact nofun
          · exact outer e)
      rcases next_ with ⟨r, inside, here⟩ | ⟨none_, out⟩
      · exact Or.inl ⟨r, List.mem_cons_of_mem _ inside, here⟩
      · refine Or.inr ⟨?_, out⟩
        intro r inside here
        rcases List.mem_cons.mp inside with rfl | later
        · omega
        · exact none_ r later here

theorem queryAllocEnd_spec {m : Memory} (inv : Inv m) (addr : ℕ) :
    (∃ r ∈ m.allocrecords, r.baseaddr ≤ addr ∧ addr < r.baseaddr + r.size ∧
      queryAllocEnd addr m.allocrecords = .inside (r.baseaddr + r.size)) ∨
    (∀ r ∈ m.allocrecords, ¬ (r.baseaddr ≤ addr ∧ addr < r.baseaddr + r.size)) ∧
      ∀ end_, queryAllocEnd addr m.allocrecords ≠ .inside end_ :=
  queryAllocEndFrom_spec addr .outside m.allocrecords inv.ordered (fun _ inside => inv.end_eq inside)
    (fun _ => nofun)

theorem region_in_block {lpBase range top : ℕ} (page : lpBase % 0x1000 = 0)
    (pages : top % 0x1000 = 0) (below : top ≤ memoryTop) (inside : lpBase + range ≤ top) :
    lpBase + add32 range 0xfff / 0x1000 * 0x1000 ≤ top := by
  unfold memoryTop at below
  rw [add32_of_lt (by omega)]
  omega

theorem Inv.queriesOk {m : Memory} (inv : Inv m) : QueriesOk m := by
  intro lpvAddress answer info possible given
  unfold virtualQuery at given
  generalize base : lpvAddress / 0x1000 * 0x1000 = lpBase at possible given
  have page : lpBase % 0x1000 = 0 := by omega
  -- where the address is in a range, its block answers
  have answers {a : Asked} (inside : a ∈ m.asked) (low : a.base ≤ lpBase)
      (high : lpBase < a.base + a.size) : ∃ block ∈ m.blocks, block.base ≤ a.base ∧
        a.base + a.size ≤ block.base + block.size ∧
        (Recorded m a ∨ a.base + a.size = block.base + block.size) ∧ ∃ page, answer = .ok page ∧
        lpBase + page.range ≤ block.base + block.size ∧ page.attr &&& pagFree = 0 := by
    obtain ⟨_, block, here, _, above, below, kind⟩ := inv.home a inside
    exact ⟨block, here, above, below, kind, possible block here ⟨by omega, by omega⟩⟩
  rcases queryAllocEnd_spec inv lpBase with ⟨r, there, low, high, state⟩ | ⟨none_, state⟩
  · -- in a record: the answer of the block is clipped at its end
    obtain ⟨a, inside, base, size⟩ := inv.asked r there
    obtain ⟨block, here, above, below, _, answer, rfl, within, notFree⟩ :=
      answers inside (by omega) (by omega)
    have top := inv.blocks.below block here
    have pages := inv.blocks.aligned block here
    have region := region_in_block page (show (block.base + block.size) % 0x1000 = 0 by omega)
      top within
    simp only [state, isInvalidAddress, reduceCtorEq, Bool.false_eq_true, or_self, if_false] at given
    generalize add32 answer.range 0xfff / 0x1000 * 0x1000 = regionSize at region given
    unfold memoryTop at top
    rw [add32_of_lt (show lpBase + regionSize < 0x100000000 by omega),
      sub32_of_le (show lpBase ≤ r.baseaddr + r.size by omega) (by omega)] at given
    cases given
    constructor
    · intro b inside' low' high'
      simp only at low' high' ⊢
      have same := inv.asked_eq inside' inside low' high' (by omega) (by omega)
      subst same
      split <;> omega
    · intro free
      simp only [winState] at free
      rw [if_neg (by simpa using notFree)] at free
      split at free <;> cases free
  · -- in no record: a range there is one Win32k gave out, and ends with its block
    have unrecorded {a : Asked} (low : a.base ≤ lpBase) (high : lpBase < a.base + a.size) :
        ¬ Recorded m a := by
      rintro ⟨r, there, base, size⟩
      exact none_ r there ⟨by omega, by omega⟩
    by_cases free : isInvalidAddress answer = true ∨ queryAllocEnd lpBase m.allocrecords = .behind
    · simp only [if_pos free] at given
      cases given
      refine ⟨?_, fun _ r there here => none_ r there here⟩
      intro a inside low high
      simp only at low high ⊢
      obtain ⟨block, here, above, below, kind, _⟩ := answers inside low high
      have pages := inv.blocks.aligned block here
      have ends := kind.resolve_left (unrecorded low high)
      omega
    · simp only [if_neg free] at given
      rcases answer with rc | answer
      · cases given
      · simp only at given
        cases given
        refine ⟨?_, fun _ r there here => none_ r there here⟩
        intro a inside low high
        simp only at low high ⊢
        obtain ⟨block, here, above, below, kind, page', ok, within, _⟩ := answers inside low high
        cases ok
        have ends := kind.resolve_left (unrecorded low high)
        have pages := inv.blocks.aligned block here
        have region := region_in_block page
          (show (block.base + block.size) % 0x1000 = 0 by omega) (inv.blocks.below block here) within
        omega

/-! ## What the calls keep -/

theorem mem_insertRec {rec_ r : VirtAllocRec} {records : List VirtAllocRec} :
    r ∈ insertRec rec_ records ↔ r = rec_ ∨ r ∈ records := by
  induction records with
  | nil => simp [insertRec]
  | cons head tail ih =>
    unfold insertRec
    split
    · simp
    · rw [List.mem_cons, ih, List.mem_cons]
      tauto

theorem insertRec_ordered {rec_ : VirtAllocRec} {records : List VirtAllocRec}
    (ordered : records.Pairwise fun r s => r.baseaddr + r.size ≤ s.baseaddr)
    (positive : 0 < rec_.size) (apart : ∀ r ∈ records, 0 < r.size ∧
      (rec_.baseaddr + rec_.size ≤ r.baseaddr ∨ r.baseaddr + r.size ≤ rec_.baseaddr)) :
    (insertRec rec_ records).Pairwise fun r s => r.baseaddr + r.size ≤ s.baseaddr := by
  induction records with
  | nil => exact List.pairwise_singleton _ _
  | cons head tail ih =>
    have first := apart head List.mem_cons_self
    unfold insertRec
    split
    · next before =>
      refine List.pairwise_cons.mpr ⟨?_, ordered⟩
      intro r inside
      rcases List.mem_cons.mp inside with rfl | later
      · omega
      · have after := (List.pairwise_cons.mp ordered).1 r later
        omega
    · next after =>
      rw [List.pairwise_cons] at ordered ⊢
      refine ⟨?_, ih ordered.2 fun r inside => apart r (List.mem_cons_of_mem _ inside)⟩
      intro r inside
      rcases mem_insertRec.mp inside with rfl | later
      · omega
      · exact ordered.1 r later

theorem mem_eraseP_base {records : List VirtAllocRec} (baseaddr : ℕ)
    (ordered : records.Pairwise fun r s => r.baseaddr < s.baseaddr) (r : VirtAllocRec) :
    r ∈ records.eraseP (fun rec_ => rec_.baseaddr == baseaddr) ↔
      r ∈ records ∧ r.baseaddr ≠ baseaddr := by
  induction records with
  | nil => simp
  | cons head tail ih =>
    rw [List.pairwise_cons] at ordered
    by_cases same : head.baseaddr = baseaddr
    · rw [List.eraseP_cons_of_pos (by simpa using same), List.mem_cons]
      constructor
      · intro inside
        have after := ordered.1 r inside
        exact ⟨Or.inr inside, by omega⟩
      · rintro ⟨rfl | inside, other⟩
        · exact absurd same other
        · exact inside
    · rw [List.eraseP_cons_of_neg (by simpa using same), List.mem_cons, List.mem_cons, ih ordered.2]
      constructor
      · rintro (rfl | ⟨inside, other⟩)
        · exact ⟨Or.inl rfl, same⟩
        · exact ⟨Or.inr inside, other⟩
      · rintro ⟨rfl | inside, other⟩
        · exact Or.inl rfl
        · exact Or.inr ⟨inside, other⟩

namespace Inv

variable {m : Memory} (inv : Inv m)

include inv

theorem same_blocks {after : List Block} (same : SameBlocks m.blocks after) :
    Inv { m with blocks := after } where
  blocks := same.ok
  home := by
    intro a inside
    obtain ⟨positive, block, there, rest⟩ := inv.home a inside
    exact ⟨positive, block, (same.mem block).mpr there, rest⟩
  single := inv.single
  asked := inv.asked
  ordered := inv.ordered

theorem add_block {block : Block} (fits : block.fits m.blocks = true)
    (pages : block.size % 0x1000 = 0) : Inv { m with blocks := block :: m.blocks } where
  blocks := inv.blocks.cons fits pages
  home := by
    intro a inside
    obtain ⟨positive, block, there, rest⟩ := inv.home a inside
    exact ⟨positive, block, List.mem_cons_of_mem _ there, rest⟩
  single := inv.single
  asked := inv.asked
  ordered := inv.ordered

theorem asked_away {block : Block} (fits : block.fits m.blocks = true) {a : Asked}
    (inside : a ∈ m.asked) : a.block ≠ block.base ∧
      (block.base + block.size ≤ a.base ∨ a.base + a.size ≤ block.base) := by
  obtain ⟨positive, other, there, base, above, below, _⟩ := inv.home a inside
  have size := (fits_away fits).1
  have size' := (inv.blocks.pos other there).2
  rcases (fits_away fits).2.2.2 other there with before | after
  · exact ⟨by omega, Or.inl (by omega)⟩
  · exact ⟨by omega, Or.inr (by omega)⟩

theorem give {block : Block} (fits : block.fits m.blocks = true)
    (pages : block.size % 0x1000 = 0) {base size : ℕ} (positive : 0 < size)
    (above : block.base ≤ base) (below : base + size ≤ block.base + block.size) (attr : ℕ)
    (fMalloc : Bool) (recorded : fMalloc = true ∨ base + size = block.base + block.size) :
    Inv (addAllocRec fMalloc base size attr
      ({ m with blocks := block :: m.blocks }.give block.base base size)) := by
  have old {r : VirtAllocRec} (inside : r ∈ m.allocrecords) (fMalloc : Bool) :
      r ∈ (addAllocRec fMalloc base size attr
        ({ m with blocks := block :: m.blocks }.give block.base base size)).allocrecords := by
    unfold addAllocRec
    split
    · exact mem_insertRec.mpr (Or.inr inside)
    · exact inside
  have asked_ : (addAllocRec fMalloc base size attr
      ({ m with blocks := block :: m.blocks }.give block.base base size)).asked =
      ⟨block.base, base, size⟩ :: m.asked := by
    unfold addAllocRec
    split <;> rfl
  have blocks_ : (addAllocRec fMalloc base size attr
      ({ m with blocks := block :: m.blocks }.give block.base base size)).blocks =
      block :: m.blocks := by
    unfold addAllocRec
    split <;> rfl
  constructor
  · rw [blocks_]
    exact inv.blocks.cons fits pages
  · rw [asked_, blocks_]
    intro a inside
    rcases List.mem_cons.mp inside with rfl | inside
    · refine ⟨positive, block, List.mem_cons_self, rfl, above, below, ?_⟩
      rcases recorded with rfl | whole
      · exact Or.inl ⟨⟨base, size, attr⟩, mem_insertRec.mpr (Or.inl rfl), rfl, rfl⟩
      · exact Or.inr whole
    · obtain ⟨positive', other, there, base', above', below', kind⟩ := inv.home a inside
      refine ⟨positive', other, List.mem_cons_of_mem _ there, base', above', below', ?_⟩
      refine kind.imp ?_ id
      rintro ⟨r, there', same⟩
      exact ⟨r, old there' fMalloc, same⟩
  · rw [asked_]
    intro a inside b inside' same
    rcases List.mem_cons.mp inside with rfl | inside <;>
      rcases List.mem_cons.mp inside' with rfl | inside'
    · rfl
    · exact absurd same.symm (inv.asked_away fits inside').1
    · exact absurd same (inv.asked_away fits inside).1
    · exact inv.single a inside b inside' same
  · rw [asked_]
    intro r inside
    unfold addAllocRec at inside
    split at inside
    · rcases mem_insertRec.mp inside with rfl | inside
      · exact ⟨_, List.mem_cons_self, rfl, rfl⟩
      · obtain ⟨a, there, same⟩ := inv.asked r inside
        exact ⟨a, List.mem_cons_of_mem _ there, same⟩
    · obtain ⟨a, there, same⟩ := inv.asked r inside
      exact ⟨a, List.mem_cons_of_mem _ there, same⟩
  · unfold addAllocRec
    split
    · refine insertRec_ordered inv.ordered positive ?_
      intro r inside
      obtain ⟨a, there, base', size'⟩ := inv.asked r inside
      have away := (inv.asked_away fits there).2
      have size := (inv.record_pos inside).1
      simp only
      omega
    · exact inv.ordered

theorem firstBlock_spec (wanted : Option ℕ) {cbSize : ℕ} (word : cbSize < 0x100000000)
    (os : AllocAnswers) : ∃ after, SameBlocks m.blocks after ∧
      ((firstBlock wanted cbSize os m.blocks).1 = none ∧
          (firstBlock wanted cbSize os m.blocks).2 = after ∨
        ∃ block : Block, block.fits after = true ∧ block.size % 0x1000 = 0 ∧
          0 < cbSize ∧ cbSize ≤ block.size ∧
          firstBlock wanted cbSize os m.blocks = (some block.base, block :: after)) := by
  unfold firstBlock
  rcases wanted with _ | pvReq
  · refine ⟨m.blocks, ⟨inv.blocks, fun _ => Iff.rfl⟩, ?_⟩
    simp only
    rcases gave : dosAllocMem os.first cbSize m.blocks with _ | ⟨base, blocks⟩
    · exact Or.inl ⟨rfl, rfl⟩
    · obtain ⟨rfl, fits⟩ := dosAllocMem_some gave
      have size := (fits_away fits).1
      refine Or.inr ⟨_, fits, Nat.mul_mod_left _ _, ?_, ?_, rfl⟩ <;>
        simp only [pagesFor] at size ⊢ <;> omega
  · obtain ⟨after, same, failed | ⟨fits, got⟩⟩ :=
      allocAtAddress_spec inv.blocks pvReq cbSize os.fillers
    · refine ⟨after, same, Or.inl ?_⟩
      simp [failed]
    · have size := (fits_away fits).1
      refine ⟨after, same, Or.inr ⟨_, fits, Nat.mul_mod_left _ _, ?_, ?_, ?_⟩⟩
      · simp only [alignPage, add32, u32, pagesFor] at size ⊢
        omega
      · simp only [alignPage, add32, u32, pagesFor] at size ⊢
        omega
      · simp only [got, if_true]

theorem allocMemOld (wanted : Option ℕ) {cbSize : ℕ} (word : cbSize < 0x100000000) (flFlags : ℕ)
    (os : AllocAnswers) (fMalloc : os.fMalloc = true) :
    Inv (AllocRecords.allocMemOld wanted cbSize flFlags os m).2 := by
  obtain ⟨after, same, ⟨none_, blocks_⟩ | ⟨block, fits, pages, positive, room, got⟩⟩ :=
    inv.firstBlock_spec wanted word os
  · unfold AllocRecords.allocMemOld
    rw [show firstBlock wanted cbSize os m.blocks = (none, after) from Prod.ext none_ blocks_]
    exact inv.same_blocks same
  have inv' := inv.same_blocks same
  have ⟨size, top, base, _⟩ := fits_away fits
  unfold memoryTop at top
  unfold AllocRecords.allocMemOld
  rw [got]
  simp only
  split
  · exact inv'.give fits pages positive (Nat.le_refl _) (by omega) flFlags _ (Or.inl fMalloc)
  · rw [dosFreeMem_cons same.ok fits, add32_of_lt (show cbSize + 0x10000 < 0x100000000 by omega)]
    rcases gave : dosAllocMem os.second (cbSize + 0x10000) after with _ | ⟨baseAddr, blocks'⟩
    · exact inv'
    obtain ⟨rfl, fits'⟩ := dosAllocMem_some gave
    have ⟨size', top', base', _⟩ := fits_away fits'
    simp only
    split
    · have freed := dosFreeMem_cons same.ok fits'
      simp only at freed
      rw [freed]
      exact inv'
    · have pages' : cbSize + 0x10000 ≤ pagesFor (cbSize + 0x10000) * 0x1000 := by
        unfold pagesFor
        omega
      simp only [memoryTop] at top'
      refine inv'.give fits' (Nat.mul_mod_left _ _) positive ?_ ?_ flFlags _ (Or.inl fMalloc) <;>
        simp only [add32_of_lt (show baseAddr + 0xffff < 0x100000000 by omega)] <;> split <;> omega

theorem osLibDosAllocMem {wanted : Option ℕ} {cbSize : UInt32} {flFlags : ℕ} {os : AllocAnswers}
    (fits : Fits m (.allocMem wanted cbSize flFlags os)) :
    Inv (AllocRecords.osLibDosAllocMem wanted cbSize.toNat flFlags os m).2 := by
  obtain ⟨fMalloc, pages⟩ := fits
  have old := inv.allocMemOld wanted cbSize.toNat_lt flFlags os fMalloc
  unfold AllocRecords.osLibDosAllocMem
  rcases win32k : os.win32k with _ | (rc | base)
  · exact old
  · simp only
    split
    · exact old
    · exact inv
  · simp only
    rcases gave : dosAllocMem (some base) cbSize.toNat m.blocks with _ | ⟨base', blocks⟩
    · exact inv
    · obtain ⟨rfl, fits⟩ := dosAllocMem_some gave
      have whole : pagesFor cbSize.toNat * 0x1000 = cbSize.toNat := by
        have pages := pages base win32k
        unfold pagesFor
        omega
      have size := (fits_away fits).1
      rw [whole] at fits size ⊢
      -- nothing is recorded, but the range is the whole block
      exact inv.give fits (pages base win32k) size (Nat.le_refl _) (Nat.le_refl _) flFlags
        false (Or.inr rfl)

theorem osLibDosAliasMem {cb fl : ℕ} {alias_ : Option ℕ} {pages fMalloc : Bool}
    (fits : Fits m (.aliasMem cb fl alias_ pages fMalloc)) :
    Inv (AllocRecords.osLibDosAliasMem cb fl alias_ pages fMalloc m).2 := by
  unfold AllocRecords.osLibDosAliasMem
  have aligned : add32 (sub32 cb 1 / 0x1000 * 0x1000) 0x1000 % 0x1000 = 0 := by
    unfold add32 u32
    omega
  generalize add32 (sub32 cb 1 / 0x1000 * 0x1000) 0x1000 = cb' at aligned ⊢
  simp only
  rcases gave : dosAllocMem alias_ cb' m.blocks with _ | ⟨ppbAlias, blocks⟩
  · exact inv
  obtain ⟨rfl, room⟩ := dosAllocMem_some gave
  have size : pagesFor cb' * 0x1000 = cb' := by
    unfold pagesFor
    omega
  have positive := (fits_away room).1
  rw [size] at room positive ⊢
  simp only
  split
  · exact inv.give room aligned positive (Nat.le_refl _) (Nat.le_refl _) fl _ (Or.inl fits)
  · exact inv.add_block room aligned

theorem osLibDosFreeMem {lpMemAddr : ℕ} (fits : Fits m (.freeMem lpMemAddr)) :
    Inv (AllocRecords.osLibDosFreeMem lpMemAddr m).2 := by
  unfold AllocRecords.osLibDosFreeMem
  rcases found : findBase m.blocks 16 (lpMemAddr / 0x1000 * 0x1000) with _ | ulAddr
  · exact inv
  obtain ⟨block, inside, ⟨low, high⟩, base⟩ := findBase_some inv.blocks 16 (by omega) found
  have pages := inv.blocks.aligned block inside
  have ordered : m.allocrecords.Pairwise fun r s => r.baseaddr < s.baseaddr := by
    refine inv.ordered.imp_of_mem ?_
    intro r s there _ before
    have size := (inv.record_pos there).1
    omega
  have gone := mem_eraseP_base lpMemAddr ordered
  -- the record at the address is the record of the block
  have same {a : Asked} {r : VirtAllocRec} (there : a ∈ m.asked) (there' : r ∈ m.allocrecords)
      (base' : a.base = r.baseaddr) : r.baseaddr = lpMemAddr ↔ a.block = ulAddr := by
    obtain ⟨positive, other, here, start, above, below, _⟩ := inv.home a there
    have pages' := inv.blocks.aligned other here
    constructor
    · intro here'
      rw [← start, ← base, inv.blocks.eq_of_contains here inside
        (lpMemAddr / 0x1000 * 0x1000) ⟨by omega, by omega⟩ ⟨low, high⟩]
    · intro here'
      have equal := inv.blocks.eq_of_base here inside (by omega)
      subst equal
      refine fits ulAddr found r there' ?_
      rw [← base, inv.blocks.blockAt_of_contains here ⟨by omega, by omega⟩,
        inv.blocks.blockAt_of_contains here (inv.blocks.contains_base here)]
  simp only [dosFreeMem_snd]
  constructor
  · exact inv.blocks.filter _
  · intro a here
    obtain ⟨there, other_⟩ := List.mem_filter.mp here
    obtain ⟨positive, other, there', start, above, below, kind⟩ := inv.home a there
    have kept : a.block ≠ ulAddr := by simpa using other_
    refine ⟨positive, other, List.mem_filter.mpr ⟨there', by simpa [start] using kept⟩, start, above,
      below, kind.imp ?_ id⟩
    rintro ⟨r, recorded, base', size⟩
    exact ⟨r, (gone r).mpr ⟨recorded, fun here' => kept ((same there recorded base'.symm).mp here')⟩,
      base', size⟩
  · intro a here b here'
    exact inv.single a (List.mem_filter.mp here).1 b (List.mem_filter.mp here').1
  · intro r here
    obtain ⟨recorded, other_⟩ := (gone r).mp here
    obtain ⟨a, there, base', size⟩ := inv.asked r recorded
    refine ⟨a, List.mem_filter.mpr ⟨there, ?_⟩, base', size⟩
    simpa using fun here' => other_ ((same there recorded base').mpr here')
  · exact inv.ordered.sublist List.eraseP_sublist

theorem step {op : Op} (fits : Fits m op) : Inv (AllocRecords.step m op) := by
  cases op with
  | allocMem wanted cbSize flFlags os => exact inv.osLibDosAllocMem fits
  | aliasMem cb fl alias_ pages fMalloc => exact inv.osLibDosAliasMem fits
  | freeMem lpMemAddr => exact inv.osLibDosFreeMem fits
  | other pick cb =>
    simp only [AllocRecords.step]
    rcases gave : dosAllocMem pick cb m.blocks with _ | ⟨base, blocks⟩
    · exact inv
    · obtain ⟨rfl, room⟩ := dosAllocMem_some gave
      exact inv.add_block room (Nat.mul_mod_left _ _)

theorem run {ops : List Op} (fit : StepsFit m ops) : RunOk m ops := by
  induction ops generalizing m with
  | nil => exact ⟨inv.recordsOk, inv.queriesOk⟩
  | cons op ops ih => exact ⟨inv.recordsOk, inv.queriesOk, ih (inv.step fit.1) fit.2⟩

end Inv

theorem inv_newMemory : Inv newMemory where
  blocks := ⟨nofun, nofun, nofun, nofun⟩
  home := nofun
  single := nofun
  asked := nofun
  ordered := List.Pairwise.nil

/-- In a run whose calls leave and take away the record of each block, the records mirror
the blocks and the queries can trust them. -/
theorem run_recordsMirror (ops : List Op) (fit : StepsFit newMemory ops) : RunOk newMemory ops :=
  inv_newMemory.run fit

/-- OS/2 puts the block at an address, and at a second one if that is not aligned. -/
def plainAnswers (first : ℕ) : AllocAnswers := ⟨none, some first, fun _ => none, some first, 0, true⟩

theorem run_recordsMirror_realigned :
    StepsFit newMemory [.allocMem none 0x2000 (pagRead ||| pagCommit) (plainAnswers 0x20001000),
        .freeMem 0x20010000] ∧
      RunOk newMemory [.allocMem none 0x2000 (pagRead ||| pagCommit) (plainAnswers 0x20001000),
        .freeMem 0x20010000] := by
  have fit : StepsFit newMemory
      [.allocMem none 0x2000 (pagRead ||| pagCommit) (plainAnswers 0x20001000),
        .freeMem 0x20010000] := by
    refine ⟨⟨rfl, nofun⟩, ?_, trivial⟩
    intro base _ r inside _
    have records : (step newMemory (.allocMem none 0x2000 (pagRead ||| pagCommit)
        (plainAnswers 0x20001000))).allocrecords =
        [⟨0x20010000, 0x2000, pagRead ||| pagCommit⟩] := by decide
    rw [records, List.mem_singleton] at inside
    rw [inside]
  exact ⟨fit, run_recordsMirror _ fit⟩

/-- A free by an address inside the range gives the block back and leaves the record. -/
theorem freeInside_not_runOk : ¬ ∀ ops, RunOk newMemory ops := by
  intro all
  let ops : List Op := [.allocMem none 0x2000 pagCommit (plainAnswers 0x20000000),
    .freeMem 0x20001000]
  have stale : (run newMemory ops).allocrecords = [⟨0x20000000, 0x2000, pagCommit⟩] := by decide
  have none_ : (run newMemory ops).blocks = [] := by decide
  have ok : RecordsOk (run newMemory ops) := (all ops).2.2.2.2.1
  obtain ⟨block, ⟨inside, _⟩, _⟩ := ok.live ⟨0x20000000, 0x2000, pagCommit⟩
    (by rw [stale]; exact List.mem_singleton_self _)
  rw [none_] at inside
  cases inside

end Odin32.AllocRecords
