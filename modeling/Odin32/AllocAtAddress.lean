import Odin32.AllocBlocks
import Mathlib.Data.Nat.Find

/-! # Allocation at an address

What `OSLibDosAllocMem` hands out for `OBJ_LOCSPECIFIC` when `DosAllocMem` gives the lowest free
area that is large enough: the block at the wanted address goes back again where the address is
not a multiple of 64KB. -/

set_option autoImplicit false

namespace Odin32.AllocRecords

open Word

def objAny : ℕ := 0x400

/-- A part of the address space that `DosAllocMem` takes memory from. -/
structure Arena where
  bottom : ℕ
  top : ℕ
  deriving DecidableEq, Repr

def lowArena : Arena := ⟨0x10000, 0x20000000⟩
def highArena : Arena := ⟨0x20000000, memoryTop⟩

/-- The arena for the flags of `DosAllocMem`. -/
def arena (fl : ℕ) : Arena := if fl &&& objAny = 0 then lowArena else highArena

/-- The arena for an address: `allocAtAddress` drops or sets `OBJ_ANY`. -/
def arenaAt (pvReq : ℕ) : Arena := if pvReq < 0x20000000 then lowArena else highArena

/-- The size of the block that `DosAllocMem` gives. -/
def blockSize (cb : ℕ) : ℕ := pagesFor cb * 0x1000

/-- The area is free and inside of the arena. -/
structure Arena.Free (a : Arena) (blocks : List Block) (block : Block) : Prop where
  above : a.bottom ≤ block.base
  below : block.base + block.size ≤ a.top
  fits : block.fits blocks = true

/-- The answer is the lowest free area that is large enough. -/
def LowestIn (a : Arena) (blocks : List Block) (cb : ℕ) : Option ℕ → Prop
  | some base => a.Free blocks ⟨base, blockSize cb⟩ ∧
      ∀ base', a.Free blocks ⟨base', blockSize cb⟩ → base ≤ base'
  | none => ∀ base', ¬ a.Free blocks ⟨base', blockSize cb⟩

/-- The answers to the loop are the lowest areas, each in the blocks at its call. -/
def LoopLowest (a : Arena) (pvReq cbReq : ℕ) (picks : ℕ → Option ℕ) :
    ℕ → ℕ → List ℕ → List Block → Prop
  | 0, _, _, _ => True
  | n + 1, i, fillers, blocks =>
    LowestIn a blocks cbReq (picks (2 * i)) ∧
    match dosAllocMem (picks (2 * i)) cbReq blocks with
    | none => True
    | some (pvNew, blocks) =>
      if pvNew = pvReq ∨ pvReq < pvNew then True
      else if pvReq < pvNew + cbReq then
        LowestIn a (dosFreeMem pvNew blocks).2 (pvReq - pvNew) (picks (2 * i + 1)) ∧
        match dosAllocMem (picks (2 * i + 1)) (pvReq - pvNew) (dosFreeMem pvNew blocks).2 with
        | none => True
        | some (pvGap, blocks) => LoopLowest a pvReq cbReq picks n (i + 1) (pvGap :: fillers) blocks
      else LoopLowest a pvReq cbReq picks n (i + 1) (pvNew :: fillers) blocks

/-- OS/2 without Win32k gives the lowest free areas: to the loop those for the address, to the
second attempt those for the flags. -/
structure AllocAnswers.Lowest (os : AllocAnswers) (pvReq cbSize fl : ℕ) (blocks : List Block) :
    Prop where
  win32k : os.win32k = none
  fillers : LoopLowest (arenaAt pvReq) pvReq (alignPage cbSize) os.fillers allocatMaxFillers 0 []
    blocks
  second : LowestIn (arena fl)
    (dosFreeMem pvReq (allocAtAddress pvReq cbSize os.fillers blocks).2).2 (add32 cbSize 0x10000)
    os.second

/-- The block that is handed out starts at the wanted address, and no other block has come or
gone. -/
structure Exact (pvReq cbSize : ℕ) (before : List Block) (result : Option ℕ × Memory) : Prop where
  there : ∀ addr ∈ result.1, addr = pvReq
  refused : result.1 = none → ∀ block, block ∈ result.2.blocks ↔ block ∈ before
  given : result.1.isSome → ∀ block, block ∈ result.2.blocks ↔
    block = ⟨pvReq, blockSize (alignPage cbSize)⟩ ∨ block ∈ before

/-- The wanted range lies in the arena of its address. -/
def RangeFits (pvReq cbSize : ℕ) : Prop :=
  0 < alignPage cbSize ∧ (arenaAt pvReq).bottom ≤ pvReq ∧
    pvReq + blockSize (alignPage cbSize) ≤ (arenaAt pvReq).top

/-- The range and 64KB more fit into the arena of the flags. -/
def Room (cbSize fl : ℕ) : Prop :=
  (arena fl).bottom + blockSize (add32 cbSize 0x10000) ≤ (arena fl).top

/-! ## The loop -/

theorem dosAllocMem_pick {pick : Option ℕ} {cb base : ℕ} {blocks blocks' : List Block}
    (gave : dosAllocMem pick cb blocks = some (base, blocks')) : pick = some base := by
  unfold dosAllocMem at gave
  split at gave
  · cases gave
  · simp only at gave
    split at gave
    · cases gave
      rfl
    · cases gave

theorem allocAtLoop_fits {a : Arena} {pvReq cbReq : ℕ} {picks : ℕ → Option ℕ} {n i : ℕ}
    {fillers : List ℕ} {blocks : List Block}
    (lowest : LoopLowest a pvReq cbReq picks n i fillers blocks)
    (got : (allocAtLoop pvReq cbReq picks n i fillers blocks).2.1 = true) :
    0 < blockSize cbReq ∧ a.bottom ≤ pvReq ∧ pvReq + blockSize cbReq ≤ a.top := by
  induction n generalizing i fillers blocks with
  | zero => exact absurd got Bool.false_ne_true
  | succ n ih =>
    unfold LoopLowest at lowest
    unfold allocAtLoop at got
    obtain ⟨low, rest⟩ := lowest
    rcases gave : dosAllocMem (picks (2 * i)) cbReq blocks with _ | ⟨pvNew, blocks'⟩
    · rw [gave] at got
      exact absurd got Bool.false_ne_true
    rw [gave] at got rest
    simp only at got rest
    by_cases same : pvNew = pvReq
    · subst same
      rw [dosAllocMem_pick gave] at low
      exact ⟨(fits_away low.1.fits).1, low.1.above, low.1.below⟩
    rw [if_neg same] at got
    by_cases passed : pvReq < pvNew
    · rw [if_pos passed] at got
      exact absurd got Bool.false_ne_true
    rw [if_neg passed] at got
    rw [if_neg (not_or.2 ⟨same, passed⟩)] at rest
    by_cases spans : pvReq < pvNew + cbReq
    · rw [if_pos spans] at got rest
      rcases gap : dosAllocMem (picks (2 * i + 1)) (pvReq - pvNew) (dosFreeMem pvNew blocks').2
        with _ | ⟨pvGap, blocks''⟩
      · rw [gap] at got
        exact absurd got Bool.false_ne_true
      · rw [gap] at got rest
        simp only at got
        split at got
        · exact absurd got Bool.false_ne_true
        · exact ih rest.2 got
    · rw [if_neg spans] at got rest
      split at got
      · exact absurd got Bool.false_ne_true
      · exact ih rest got

/-! ## What is handed out -/

theorem SameBlocks.fits_iff {before after : List Block} (same : SameBlocks before after)
    (block : Block) : block.fits after = true ↔ block.fits before = true := by
  unfold Block.fits
  simp only [Bool.and_eq_true, List.all_eq_true, same.mem]

theorem free_allocAtAddress {blocks : List Block} (ok : BlocksOk blocks) {pvReq cbSize : ℕ}
    {picks : ℕ → Option ℕ} (got : (allocAtAddress pvReq cbSize picks blocks).1 = true) :
    ∃ after, SameBlocks blocks after ∧
      allocAtAddress pvReq cbSize picks blocks =
        (true, ⟨pvReq, blockSize (alignPage cbSize)⟩ :: after) ∧
      (dosFreeMem pvReq (allocAtAddress pvReq cbSize picks blocks).2).2 = after := by
  obtain ⟨after, same, failed | ⟨fits, made⟩⟩ := allocAtAddress_spec ok pvReq cbSize picks
  · rw [failed] at got
    exact absurd got Bool.false_ne_true
  · refine ⟨after, same, made, ?_⟩
    rw [made]
    exact dosFreeMem_cons same.ok fits

theorem osLibDosAllocMem_at {os : AllocAnswers} (old : os.win32k = none)
    (pvReq cbSize flFlags : ℕ) (m : Memory) :
    osLibDosAllocMem (some pvReq) cbSize flFlags os m =
      allocMemOld (some pvReq) cbSize flFlags os m := by
  rw [osLibDosAllocMem, old]

theorem addAllocRec_blocks (fMalloc : Bool) (baseaddr size attr : ℕ) (m : Memory) :
    (addAllocRec fMalloc baseaddr size attr m).blocks = m.blocks := by
  cases fMalloc <;> rfl

theorem exact_none {pvReq cbSize : ℕ} {before : List Block} {m : Memory}
    (same : ∀ block, block ∈ m.blocks ↔ block ∈ before) :
    Exact pvReq cbSize before (none, m) where
  there _ some_ := (Option.some_ne_none _ some_.symm).elim
  refused _ := same
  given some_ := absurd some_ Bool.false_ne_true

theorem exact_of_aligned (os : AllocAnswers) {pvReq : ℕ} {m : Memory} (ok : BlocksOk m.blocks)
    (aligned : pvReq % 0x10000 = 0) (cbSize flFlags : ℕ) :
    Exact pvReq cbSize m.blocks (allocMemOld (some pvReq) cbSize flFlags os m) := by
  obtain ⟨after, same, failed | ⟨fits, made⟩⟩ := allocAtAddress_spec ok pvReq cbSize os.fillers
  · have result : allocMemOld (some pvReq) cbSize flFlags os m =
        (none, { m with blocks := after }) := by
      rw [allocMemOld, firstBlock, failed]
      rfl
    rw [result]
    exact exact_none same.mem
  · rw [allocMemOld, firstBlock, made]
    simp only [if_true, if_pos aligned]
    refine ⟨fun addr there => (Option.some.inj there).symm, fun none_ => ?_, fun _ block => ?_⟩
    · exact absurd none_ (Option.some_ne_none pvReq)
    · rw [addAllocRec_blocks]
      exact List.mem_cons.trans (or_congr Iff.rfl (same.mem block))

theorem allocMemOld_repair {os : AllocAnswers} {pvReq : ℕ} {m : Memory} (ok : BlocksOk m.blocks)
    (odd : pvReq % 0x10000 ≠ 0) (cbSize flFlags : ℕ)
    (got : (allocAtAddress pvReq cbSize os.fillers m.blocks).1 = true) :
    ∃ after, SameBlocks m.blocks after ∧
      (dosFreeMem pvReq (allocAtAddress pvReq cbSize os.fillers m.blocks).2).2 = after ∧
      (dosAllocMem os.second (add32 cbSize 0x10000) after = none →
        allocMemOld (some pvReq) cbSize flFlags os m = (none, { m with blocks := after })) ∧
      ∀ baseAddr blocks', dosAllocMem os.second (add32 cbSize 0x10000) after =
          some (baseAddr, blocks') → os.setMem = 0 →
        ∃ addr, addr % 0x10000 = 0 ∧
          (allocMemOld (some pvReq) cbSize flFlags os m).1 = some addr := by
  obtain ⟨after, same, made, freed⟩ := free_allocAtAddress ok got
  rw [made] at freed
  refine ⟨after, same, made ▸ freed, fun none_ => ?_, fun baseAddr blocks' some_ set => ?_⟩
  · rw [allocMemOld, firstBlock, made]
    simp only [if_true, if_neg odd]
    rw [freed, none_]
  · rw [allocMemOld, firstBlock, made]
    simp only [if_true, if_neg odd]
    rw [freed, some_]
    simp only
    rw [if_neg fun both => both.2 set]
    refine ⟨_, ?_, rfl⟩
    split
    · assumption
    · exact Nat.mul_mod_left _ _

theorem exact_of_refused {os : AllocAnswers} {pvReq : ℕ} {m : Memory} (ok : BlocksOk m.blocks)
    (odd : pvReq % 0x10000 ≠ 0) {cbSize fl : ℕ} (flFlags : ℕ)
    (lowest : os.Lowest pvReq cbSize fl m.blocks)
    (small : ¬ (RangeFits pvReq cbSize ∧ Room cbSize fl)) :
    Exact pvReq cbSize m.blocks (allocMemOld (some pvReq) cbSize flFlags os m) := by
  cases got : (allocAtAddress pvReq cbSize os.fillers m.blocks).1 with
  | false =>
    obtain ⟨after, same, failed | ⟨fits, made⟩⟩ := allocAtAddress_spec ok pvReq cbSize os.fillers
    · have result : allocMemOld (some pvReq) cbSize flFlags os m =
          (none, { m with blocks := after }) := by
        rw [allocMemOld, firstBlock, failed]
        rfl
      rw [result]
      exact exact_none same.mem
    · rw [made] at got
      cases got
  | true =>
    obtain ⟨after, same, freed, refused, -⟩ := allocMemOld_repair ok odd cbSize flFlags got
    have inLoop : (allocAtLoop pvReq (alignPage cbSize) os.fillers allocatMaxFillers 0 []
        m.blocks).2.1 = true := got
    obtain ⟨pos, above, below⟩ := allocAtLoop_fits lowest.fillers inLoop
    have fits : RangeFits pvReq cbSize := ⟨by unfold blockSize pagesFor at pos; omega, above, below⟩
    have cannot : dosAllocMem os.second (add32 cbSize 0x10000) after = none := by
      rcases gave : dosAllocMem os.second (add32 cbSize 0x10000) after with _ | ⟨base, blocks'⟩
      · rfl
      · have second := lowest.second
        rw [dosAllocMem_pick gave] at second
        have above' := second.1.above
        have below' := second.1.below
        simp only at above' below'
        exact absurd ⟨fits, by unfold Room; omega⟩ small
    rw [refused cannot]
    exact exact_none same.mem

/-! ## An arena that is taken up to an address -/

structure Arena.Ok (a : Arena) : Prop where
  bottom : 0x10000 ≤ a.bottom
  top : a.top ≤ memoryTop

theorem arenaAt_ok (pvReq : ℕ) : (arenaAt pvReq).Ok := by
  unfold arenaAt
  split
  · exact ⟨by decide, by decide⟩
  · exact ⟨by decide, by decide⟩

/-- Below an address the arena is taken, and above it is free. -/
structure FreeFrom (a : Arena) (blocks : List Block) (y : ℕ) : Prop where
  start : a.bottom ≤ y
  aligned : y % 0x1000 = 0
  clear : ∀ block ∈ blocks, block.base + block.size ≤ y ∨ a.top ≤ block.base
  taken : ∀ p, a.bottom ≤ p → p < y → ∃ block ∈ blocks, block.Contains p

theorem FreeFrom.free {a : Arena} (ok : a.Ok) {blocks : List Block} {y size : ℕ}
    (region : FreeFrom a blocks y) (pos : 0 < size) (room : y + size ≤ a.top) :
    a.Free blocks ⟨y, size⟩ where
  above := region.start
  below := room
  fits := by
    have start := region.start
    have bottom := ok.bottom
    have top := ok.top
    unfold Block.fits
    simp only [Bool.and_eq_true, decide_eq_true_eq, List.all_eq_true, Bool.or_eq_true]
    refine ⟨⟨⟨⟨region.aligned, by omega⟩, pos⟩, by omega⟩, fun block inside => ?_⟩
    rcases region.clear block inside with before | after
    · exact Or.inr before
    · exact Or.inl (Nat.le_trans room after)

theorem FreeFrom.lowest {a : Arena} (ok : a.Ok) {blocks : List Block} {y cb : ℕ}
    (region : FreeFrom a blocks y) (pos : 0 < blockSize cb) (room : y + blockSize cb ≤ a.top) :
    LowestIn a blocks cb (some y) := by
  refine ⟨region.free ok pos room, fun base free => ?_⟩
  by_contra below
  obtain ⟨block, inside, here⟩ := region.taken base free.above (by omega)
  have low := here.1
  have high := here.2
  rcases (fits_away free.fits).2.2.2 block inside with before | after
  · simp only at before
    omega
  · simp only at after
    omega

theorem FreeFrom.alloc {a : Arena} (ok : a.Ok) {blocks : List Block} {y cb : ℕ}
    (region : FreeFrom a blocks y) (pos : 0 < blockSize cb) (room : y + blockSize cb ≤ a.top) :
    dosAllocMem (some y) cb blocks = some (y, ⟨y, blockSize cb⟩ :: blocks) ∧
      FreeFrom a (⟨y, blockSize cb⟩ :: blocks) (y + blockSize cb) := by
  refine ⟨?_, Nat.le_trans region.start (Nat.le_add_right _ _), ?_, ?_, ?_⟩
  · rw [dosAllocMem]
    exact if_pos (region.free ok pos room).fits
  · rw [Nat.add_mod, region.aligned, blockSize, Nat.mul_mod_left]
  · intro block inside
    rcases List.mem_cons.1 inside with rfl | old
    · exact Or.inl (Nat.le_refl _)
    · rcases region.clear block old with before | after
      · exact Or.inl (Nat.le_trans before (Nat.le_add_right _ _))
      · exact Or.inr after
  · intro p above below
    by_cases new : y ≤ p
    · exact ⟨_, List.mem_cons_self, new, below⟩
    · obtain ⟨block, inside, here⟩ := region.taken p above (by omega)
      exact ⟨block, List.mem_cons_of_mem _ inside, here⟩

/-- The answers of an arena that is free from `x` on. -/
def risingPicks (x cbReq pvReq : ℕ) (j : ℕ) : Option ℕ := some (min (x + j / 2 * cbReq) pvReq)

theorem allocAtLoop_reaches {a : Arena} (ok : a.Ok) {x pvReq cbReq : ℕ}
    (aligned : pvReq % 0x1000 = 0) (pages : blockSize cbReq = cbReq) (pos : 0 < cbReq)
    (room : pvReq + cbReq ≤ a.top) {n i : ℕ} {fillers : List ℕ} {blocks : List Block}
    (good : BlocksOk blocks) (region : FreeFrom a blocks (min (x + i * cbReq) pvReq))
    (enough : (pvReq - min (x + i * cbReq) pvReq) / 0x1000 < n)
    (few : fillers.length + (pvReq - min (x + i * cbReq) pvReq) / 0x1000 < 255) :
    LoopLowest a pvReq cbReq (risingPicks x cbReq pvReq) n i fillers blocks ∧
      (allocAtLoop pvReq cbReq (risingPicks x cbReq pvReq) n i fillers blocks).2.1 = true := by
  induction n generalizing i fillers blocks with
  | zero => exact absurd enough (Nat.not_lt_zero _)
  | succ n ih =>
    obtain ⟨y, at_⟩ : ∃ y, y = min (x + i * cbReq) pvReq := ⟨_, rfl⟩
    have first : risingPicks x cbReq pvReq (2 * i) = some y := by
      rw [risingPicks, Nat.mul_div_cancel_left i (by decide), at_]
    have second : risingPicks x cbReq pvReq (2 * i + 1) = some y := by
      rw [risingPicks, at_, show (2 * i + 1) / 2 = i by omega]
    rw [← at_] at region enough few
    have next : min (x + (i + 1) * cbReq) pvReq = min (y + cbReq) pvReq := by
      rw [Nat.succ_mul, at_]
      omega
    have below : y ≤ pvReq := at_ ▸ Nat.min_le_right _ _
    have fits : y + blockSize cbReq ≤ a.top := by omega
    obtain ⟨gave, above⟩ := @FreeFrom.alloc a ok blocks y cbReq region (by omega) fits
    have low := @FreeFrom.lowest a ok blocks y cbReq region (by omega) fits
    have freed : (dosFreeMem y (⟨y, blockSize cbReq⟩ :: blocks)).2 = blocks :=
      dosFreeMem_cons good (region.free ok (by omega) fits).fits
    unfold LoopLowest allocAtLoop
    rw [first, gave, second]
    simp only
    by_cases same : y = pvReq
    · rw [if_pos same, if_pos (Or.inl same)]
      exact ⟨⟨low, trivial⟩, rfl⟩
    have passed : ¬ pvReq < y := Nat.not_lt.2 below
    rw [if_neg same, if_neg passed, if_neg (not_or.2 ⟨same, passed⟩)]
    have page := region.aligned
    have step : 0x1000 ≤ pvReq - y := by omega
    by_cases spans : pvReq < y + cbReq
    · rw [if_pos spans, if_pos spans, freed]
      have gap : blockSize (pvReq - y) = pvReq - y := by
        unfold blockSize pagesFor
        omega
      obtain ⟨gave', above'⟩ := @FreeFrom.alloc a ok blocks y (pvReq - y) region (by omega)
        (by omega)
      have low' := @FreeFrom.lowest a ok blocks y (pvReq - y) region (by omega) (by omega)
      rw [gave']
      have there : y + blockSize (pvReq - y) = min (x + (i + 1) * cbReq) pvReq := by omega
      rw [there] at above'
      have done := dosAllocMem_ok good gave'
      simp only
      rw [if_neg (by rw [List.length_cons]; unfold allocatMaxFillers; omega)]
      obtain ⟨rest, reached⟩ := @ih (i + 1) (y :: fillers) _ done above' (by omega)
        (by rw [List.length_cons]; omega)
      exact ⟨⟨low, low', rest⟩, reached⟩
    · rw [if_neg spans, if_neg spans]
      have there : y + blockSize cbReq = min (x + (i + 1) * cbReq) pvReq := by omega
      rw [there] at above
      have done := dosAllocMem_ok good gave
      rw [if_neg (by rw [List.length_cons]; unfold allocatMaxFillers; omega)]
      obtain ⟨rest, reached⟩ := @ih (i + 1) (y :: fillers) _ done above (by omega)
        (by rw [List.length_cons]; omega)
      exact ⟨⟨low, rest⟩, reached⟩

theorem exists_lowest (a : Arena) (blocks : List Block) (cb : ℕ) :
    ∃ pick, LowestIn a blocks cb pick := by
  by_cases some_ : ∃ base, a.Free blocks ⟨base, blockSize cb⟩
  · classical
    exact ⟨some (Nat.find some_), Nat.find_spec some_, fun base free => Nat.find_min' some_ free⟩
  · exact ⟨none, fun base free => some_ ⟨base, free⟩⟩

theorem blockSize_alignPage {cbSize : ℕ} (word : cbSize < 0x100000000)
    (pos : 0 < alignPage cbSize) :
    blockSize (alignPage cbSize) = alignPage cbSize ∧ alignPage cbSize = blockSize cbSize := by
  unfold alignPage add32 u32 at pos ⊢
  unfold blockSize pagesFor
  omega

theorem blockSize_repair {pvReq cbSize : ℕ} (word : cbSize < 0x100000000)
    (fits : RangeFits pvReq cbSize) :
    blockSize (add32 cbSize 0x10000) = alignPage cbSize + 0x10000 := by
  obtain ⟨pos, above, below⟩ := fits
  obtain ⟨pages, same⟩ := blockSize_alignPage word pos
  have bottom := (arenaAt_ok pvReq).bottom
  have top := (arenaAt_ok pvReq).top
  unfold memoryTop at top
  have small : cbSize ≤ alignPage cbSize := by
    rw [same]
    unfold blockSize pagesFor
    omega
  rw [pages] at below
  rw [add32_of_lt (by omega), same]
  unfold blockSize pagesFor
  omega

/-- From here on the arena is left free, so that the wanted range is reached and there is room
for the repair. -/
def freeStart (pvReq size : ℕ) : ℕ :=
  max (arenaAt pvReq).bottom (min pvReq ((arenaAt pvReq).top - size))

def takenBlocks (pvReq size : ℕ) : List Block :=
  if (arenaAt pvReq).bottom < freeStart pvReq size then
    [⟨(arenaAt pvReq).bottom, freeStart pvReq size - (arenaAt pvReq).bottom⟩]
  else []

theorem arenaAt_aligned (pvReq : ℕ) :
    (arenaAt pvReq).bottom % 0x1000 = 0 ∧ (arenaAt pvReq).top % 0x1000 = 0 := by
  unfold arenaAt
  split
  · exact ⟨by decide, by decide⟩
  · exact ⟨by decide, by decide⟩

theorem freeStart_room {pvReq size : ℕ}
    (room : (arenaAt pvReq).bottom + size ≤ (arenaAt pvReq).top) :
    freeStart pvReq size + size ≤ (arenaAt pvReq).top := by
  unfold freeStart
  omega

theorem freeStart_le {pvReq size : ℕ} (above : (arenaAt pvReq).bottom ≤ pvReq) :
    freeStart pvReq size ≤ pvReq := by
  unfold freeStart
  omega

theorem freeStart_near {pvReq size : ℕ} (below : pvReq + size ≤ (arenaAt pvReq).top) :
    pvReq ≤ freeStart pvReq (size + 0x10000) + 0x10000 := by
  unfold freeStart
  omega

theorem freeStart_aligned {pvReq size : ℕ} (page : pvReq % 0x1000 = 0)
    (pages : size % 0x1000 = 0) : freeStart pvReq size % 0x1000 = 0 := by
  obtain ⟨bottom, top⟩ := arenaAt_aligned pvReq
  unfold freeStart
  omega

theorem takenBlocks_ok {pvReq size : ℕ} (page : pvReq % 0x1000 = 0) (pages : size % 0x1000 = 0)
    (below : pvReq ≤ (arenaAt pvReq).top) : BlocksOk (takenBlocks pvReq size) := by
  obtain ⟨bottom, -⟩ := arenaAt_aligned pvReq
  have aligned := freeStart_aligned page pages
  have ok := arenaAt_ok pvReq
  have low := ok.bottom
  have top := ok.top
  unfold takenBlocks
  split
  · rename_i some_
    have reach : freeStart pvReq size ≤ (arenaAt pvReq).top := by
      unfold freeStart at some_ ⊢
      omega
    constructor
    · intro block inside
      rw [List.mem_singleton.1 inside]
      exact ⟨bottom, by simp only; omega⟩
    · intro block inside
      rw [List.mem_singleton.1 inside]
      exact ⟨by simp only; omega, by simp only; omega⟩
    · intro block inside
      rw [List.mem_singleton.1 inside]
      simp only
      omega
    · intro block inside other inside'
      exact Or.inl ((List.mem_singleton.1 inside).trans (List.mem_singleton.1 inside').symm)
  · exact ⟨fun _ no => absurd no List.not_mem_nil, fun _ no => absurd no List.not_mem_nil,
      fun _ no => absurd no List.not_mem_nil, fun _ no => absurd no List.not_mem_nil⟩

theorem takenBlocks_freeFrom {pvReq size : ℕ} (page : pvReq % 0x1000 = 0)
    (pages : size % 0x1000 = 0) :
    FreeFrom (arenaAt pvReq) (takenBlocks pvReq size) (freeStart pvReq size) where
  start := Nat.le_max_left _ _
  aligned := freeStart_aligned page pages
  clear block inside := by
    unfold takenBlocks at inside
    split at inside
    · rw [List.mem_singleton.1 inside]
      left
      simp only
      omega
    · exact absurd inside List.not_mem_nil
  taken p above below := by
    have some_ : (arenaAt pvReq).bottom < freeStart pvReq size := Nat.lt_of_le_of_lt above below
    refine ⟨⟨(arenaAt pvReq).bottom, freeStart pvReq size - (arenaAt pvReq).bottom⟩, ?_, above, ?_⟩
    · unfold takenBlocks
      rw [if_pos some_]
      exact List.mem_singleton_self _
    · simp only
      omega

theorem arena_ok (fl : ℕ) : (arena fl).Ok := by
  unfold arena
  split
  · exact ⟨by decide, by decide⟩
  · exact ⟨by decide, by decide⟩

theorem arena_aligned (fl : ℕ) : (arena fl).bottom % 0x1000 = 0 := by
  unfold arena
  split
  · decide
  · decide

theorem arenas_apart (fl pvReq : ℕ) : arena fl = arenaAt pvReq ∨
    (arena fl).top ≤ (arenaAt pvReq).bottom ∨ (arenaAt pvReq).top ≤ (arena fl).bottom := by
  unfold arena arenaAt
  split
  · split
    · exact Or.inl rfl
    · exact Or.inr (Or.inl (by decide))
  · split
    · exact Or.inr (Or.inr (by decide))
    · exact Or.inl rfl

theorem exists_free_repair {pvReq cbSize fl : ℕ} (page : pvReq % 0x1000 = 0)
    (word : cbSize < 0x100000000) (fits : RangeFits pvReq cbSize) (room : Room cbSize fl) :
    ∃ base, (arena fl).Free (takenBlocks pvReq (alignPage cbSize + 0x10000))
      ⟨base, blockSize (add32 cbSize 0x10000)⟩ := by
  have size := blockSize_repair word fits
  have pages : (alignPage cbSize + 0x10000) % 0x1000 = 0 := by
    unfold alignPage
    omega
  obtain ⟨pos, above, below⟩ := fits
  have region := takenBlocks_freeFrom page pages
  unfold Room at room
  rw [size] at room ⊢
  by_cases same : arena fl = arenaAt pvReq
  · refine ⟨freeStart pvReq (alignPage cbSize + 0x10000), same ▸ ?_⟩
    rw [same] at room
    exact region.free (arenaAt_ok pvReq) (Nat.add_pos_left pos _) (freeStart_room room)
  · have apart := (arenas_apart fl pvReq).resolve_left same
    have free : FreeFrom (arena fl) (takenBlocks pvReq (alignPage cbSize + 0x10000))
        (arena fl).bottom := by
      refine ⟨Nat.le_refl _, arena_aligned fl, fun block inside => ?_, fun p above below => ?_⟩
      · have reach := @freeStart_le pvReq (alignPage cbSize + 0x10000) above
        unfold takenBlocks at inside
        split at inside
        · rename_i some_
          rw [List.mem_singleton.1 inside]
          rcases apart with before | after
          · exact Or.inr before
          · left
            simp only
            omega
        · exact absurd inside List.not_mem_nil
      · omega
    exact ⟨(arena fl).bottom, free.free (arena_ok fl) (Nat.add_pos_left pos _) room⟩

/-- Where the range and the repair have room, an address that is not aligned succeeds with
another one: the address space is taken up to 64KB below the wanted range. -/
theorem exists_not_exact {pvReq cbSize fl : ℕ} (flFlags : ℕ) (page : pvReq % 0x1000 = 0)
    (word : cbSize < 0x100000000) (odd : pvReq % 0x10000 ≠ 0) (fits : RangeFits pvReq cbSize)
    (room : Room cbSize fl) : ∃ (m : Memory) (os : AllocAnswers), BlocksOk m.blocks ∧
      os.Lowest pvReq cbSize fl m.blocks ∧
        ¬ Exact pvReq cbSize m.blocks (osLibDosAllocMem (some pvReq) cbSize flFlags os m) := by
  obtain ⟨base, free⟩ := exists_free_repair page word fits room
  obtain ⟨pos, above, below⟩ := fits
  obtain ⟨pages, -⟩ := blockSize_alignPage word pos
  rw [pages] at below
  have whole : (alignPage cbSize + 0x10000) % 0x1000 = 0 := by
    unfold alignPage
    omega
  have good := @takenBlocks_ok pvReq (alignPage cbSize + 0x10000) page whole (by omega)
  have region := @takenBlocks_freeFrom pvReq (alignPage cbSize + 0x10000) page whole
  have near := freeStart_near below
  have reach := @freeStart_le pvReq (alignPage cbSize + 0x10000) above
  have first : min (freeStart pvReq (alignPage cbSize + 0x10000) + 0 * alignPage cbSize) pvReq =
      freeStart pvReq (alignPage cbSize + 0x10000) := by
    rw [Nat.zero_mul]
    exact Nat.min_eq_left reach
  obtain ⟨fillers, reached⟩ := @allocAtLoop_reaches (arenaAt pvReq) (arenaAt_ok pvReq)
    (freeStart pvReq (alignPage cbSize + 0x10000)) pvReq (alignPage cbSize) page pages pos below
    allocatMaxFillers 0 [] _ good (first.symm ▸ region)
    (by rw [first]; unfold allocatMaxFillers; omega)
    (by rw [first, List.length_nil]; omega)
  obtain ⟨second, lowest⟩ := exists_lowest (arena fl) (dosFreeMem pvReq (allocAtAddress pvReq
    cbSize (risingPicks (freeStart pvReq (alignPage cbSize + 0x10000)) (alignPage cbSize) pvReq)
    (takenBlocks pvReq (alignPage cbSize + 0x10000))).2).2 (add32 cbSize 0x10000)
  let m : Memory := ⟨takenBlocks pvReq (alignPage cbSize + 0x10000), [], []⟩
  let os : AllocAnswers := ⟨none, none, risingPicks (freeStart pvReq
    (alignPage cbSize + 0x10000)) (alignPage cbSize) pvReq, second, 0, true⟩
  refine ⟨m, os, good, ⟨rfl, fillers, lowest⟩, fun exact_ => ?_⟩
  rw [osLibDosAllocMem_at rfl] at exact_
  obtain ⟨after, same, freed, -, repaired⟩ :=
    @allocMemOld_repair os pvReq m good odd cbSize flFlags reached
  have lowest' : LowestIn (arena fl) after (add32 cbSize 0x10000) second := freed ▸ lowest
  cases second with
  | none =>
    exact lowest' base ⟨free.above, free.below, (same.fits_iff _).2 free.fits⟩
  | some baseAddr =>
    have gave : dosAllocMem os.second (add32 cbSize 0x10000) after =
        some (baseAddr, ⟨baseAddr, blockSize (add32 cbSize 0x10000)⟩ :: after) :=
      if_pos lowest'.1.fits
    obtain ⟨addr, aligned, result⟩ := repaired baseAddr _ gave rfl
    rw [exact_.there addr result] at aligned
    exact odd aligned

end Odin32.AllocRecords
