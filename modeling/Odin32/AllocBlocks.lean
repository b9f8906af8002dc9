import Odin32.AllocRecords

/-! # The blocks of OS/2

What the calls of OS/2 do to the list of blocks, what is left of an allocation at an
address when its fillers are given back, and how the base of a block is found. -/

set_option autoImplicit false

namespace Odin32.AllocRecords

open Word

/-- The blocks are whole pages of the address space, and no two meet. -/
structure BlocksOk (blocks : List Block) : Prop where
  aligned : ∀ block ∈ blocks, block.base % 0x1000 = 0 ∧ block.size % 0x1000 = 0
  pos : ∀ block ∈ blocks, 0 < block.base ∧ 0 < block.size
  below : ∀ block ∈ blocks, block.base + block.size ≤ memoryTop
  apart : ∀ block ∈ blocks, ∀ other ∈ blocks, block = other ∨
    block.base + block.size ≤ other.base ∨ other.base + other.size ≤ block.base

namespace BlocksOk

variable {blocks : List Block} (ok : BlocksOk blocks)

include ok

theorem eq_of_contains {block other : Block} (inside : block ∈ blocks) (inside' : other ∈ blocks)
    (addr : ℕ) (here : block.Contains addr) (here' : other.Contains addr) : block = other := by
  rcases ok.apart block inside other inside' with same | before | after
  · exact same
  · have low := here.2
    have high := here'.1
    omega
  · have low := here.1
    have high := here'.2
    omega

theorem contains_base {block : Block} (inside : block ∈ blocks) : block.Contains block.base :=
  ⟨Nat.le_refl _, by have pos := (ok.pos block inside).2; omega⟩

theorem eq_of_base {block other : Block} (inside : block ∈ blocks) (inside' : other ∈ blocks)
    (same : block.base = other.base) : block = other := by
  apply ok.eq_of_contains inside inside' _ (ok.contains_base inside)
  rw [same]
  exact ok.contains_base inside'

theorem filter (keep : Block → Bool) : BlocksOk (blocks.filter keep) := by
  constructor
  · exact fun block inside => ok.aligned block (List.mem_filter.mp inside).1
  · exact fun block inside => ok.pos block (List.mem_filter.mp inside).1
  · exact fun block inside => ok.below block (List.mem_filter.mp inside).1
  · exact fun block inside other inside' =>
      ok.apart block (List.mem_filter.mp inside).1 other (List.mem_filter.mp inside').1

theorem cons {block : Block} (fits : block.fits blocks = true)
    (pages : block.size % 0x1000 = 0) : BlocksOk (block :: blocks) := by
  unfold Block.fits at fits
  simp only [Bool.and_eq_true, decide_eq_true_eq, List.all_eq_true, Bool.or_eq_true] at fits
  obtain ⟨⟨⟨⟨aligned, positive⟩, size⟩, below⟩, away⟩ := fits
  constructor
  · intro other inside
    rcases List.mem_cons.mp inside with rfl | old
    · exact ⟨aligned, pages⟩
    · exact ok.aligned other old
  · intro other inside
    rcases List.mem_cons.mp inside with rfl | old
    · exact ⟨positive, size⟩
    · exact ok.pos other old
  · intro other inside
    rcases List.mem_cons.mp inside with rfl | old
    · exact below
    · exact ok.below other old
  · intro one inside other inside'
    rcases List.mem_cons.mp inside with rfl | old <;>
      rcases List.mem_cons.mp inside' with rfl | old'
    · exact Or.inl rfl
    · exact Or.inr (away other old')
    · exact Or.inr (away one old).symm
    · exact ok.apart one old other old'

theorem blockAt_of_contains {block : Block} (inside : block ∈ blocks) {addr : ℕ}
    (here : block.Contains addr) : blockAt blocks addr = some block := by
  unfold blockAt
  rcases found : blocks.find? fun block => decide (block.Contains addr) with _ | other
  · rw [List.find?_eq_none] at found
    exact absurd (decide_eq_true here) (found block inside)
  · have here' : other.Contains addr := by simpa using List.find?_some found
    rw [found, ok.eq_of_contains (List.mem_of_find?_eq_some found) inside _ here' here]

end BlocksOk

theorem blockAt_spec {blocks : List Block} {addr : ℕ} {block : Block}
    (found : blockAt blocks addr = some block) : block ∈ blocks ∧ block.Contains addr := by
  unfold blockAt at found
  exact ⟨List.mem_of_find?_eq_some found, by simpa using List.find?_some found⟩

theorem fits_away {block : Block} {blocks : List Block} (fits : block.fits blocks = true) :
    0 < block.size ∧ block.base + block.size ≤ memoryTop ∧ 0 < block.base ∧
      ∀ other ∈ blocks, block.base + block.size ≤ other.base ∨
        other.base + other.size ≤ block.base := by
  unfold Block.fits at fits
  simp only [Bool.and_eq_true, decide_eq_true_eq, List.all_eq_true, Bool.or_eq_true] at fits
  exact ⟨fits.1.1.2, fits.1.2, fits.1.1.1.2, fits.2⟩

theorem dosAllocMem_some {pick : Option ℕ} {cb base : ℕ} {blocks blocks' : List Block}
    (gave : dosAllocMem pick cb blocks = some (base, blocks')) :
    blocks' = ⟨base, pagesFor cb * 0x1000⟩ :: blocks ∧
      Block.fits blocks ⟨base, pagesFor cb * 0x1000⟩ = true := by
  unfold dosAllocMem at gave
  split at gave
  · cases gave
  · simp only at gave
    split at gave
    · next fits =>
      cases gave
      exact ⟨rfl, fits⟩
    · cases gave

theorem dosAllocMem_ok {pick : Option ℕ} {cb base : ℕ} {blocks blocks' : List Block}
    (ok : BlocksOk blocks) (gave : dosAllocMem pick cb blocks = some (base, blocks')) :
    BlocksOk blocks' := by
  obtain ⟨rfl, fits⟩ := dosAllocMem_some gave
  exact ok.cons fits (Nat.mul_mod_left _ _)

theorem dosFreeMem_snd (base : ℕ) (blocks : List Block) :
    (dosFreeMem base blocks).2 = blocks.filter fun block => block.base != base := by
  unfold dosFreeMem
  split
  · rfl
  · next none_ =>
    rw [List.filter_eq_self.mpr]
    intro block inside
    simp only [List.any_eq_true, not_exists, not_and] at none_
    simpa using none_ block inside

theorem dosFreeMem_cons {block : Block} {blocks : List Block} (ok : BlocksOk blocks)
    (fits : block.fits blocks = true) :
    (dosFreeMem block.base (block :: blocks)).2 = blocks := by
  rw [dosFreeMem_snd, List.filter_cons_of_neg (by simp), List.filter_eq_self.mpr]
  intro other inside
  have different : other.base ≠ block.base := by
    have size := (fits_away fits).1
    have size' := (ok.pos other inside).2
    rcases (fits_away fits).2.2.2 other inside with before | after
    · omega
    · omega
  simpa using different

/-! ## The fillers -/

/-- The blocks are those there were before, and the fillers. -/
structure Filled (before : List Block) (fillers : List ℕ) (blocks : List Block) : Prop where
  ok : BlocksOk blocks
  old : ∀ block ∈ before, block ∈ blocks ∧ block.base ∉ fillers
  new : ∀ block ∈ blocks, block ∈ before ∨ block.base ∈ fillers
  here : ∀ filler ∈ fillers, ∃ block ∈ blocks, block.base = filler

theorem Filled.cons {before blocks : List Block} {fillers : List ℕ}
    (filled : Filled before fillers blocks) {pick : Option ℕ} {cb base : ℕ} {blocks' : List Block}
    (gave : dosAllocMem pick cb blocks = some (base, blocks')) :
    Filled before (base :: fillers) blocks' := by
  have ok := dosAllocMem_ok filled.ok gave
  obtain ⟨rfl, fits⟩ := dosAllocMem_some gave
  refine ⟨ok, ?_, ?_, ?_⟩
  · intro block inside
    obtain ⟨there, kept⟩ := filled.old block inside
    refine ⟨List.mem_cons_of_mem _ there, ?_⟩
    intro filler
    rcases List.mem_cons.mp filler with same | filler
    · have size := (fits_away fits).1
      have size' := (filled.ok.pos block there).2
      rcases (fits_away fits).2.2.2 block there with low | high
      · simp only at low size
        omega
      · simp only at high
        omega
    · exact kept filler
  · intro block inside
    rcases List.mem_cons.mp inside with rfl | inside
    · exact Or.inr List.mem_cons_self
    · rcases filled.new block inside with old | filler
      · exact Or.inl old
      · exact Or.inr (List.mem_cons_of_mem _ filler)
  · intro filler inside
    rcases List.mem_cons.mp inside with rfl | inside
    · exact ⟨_, List.mem_cons_self, rfl⟩
    · obtain ⟨block, there, base⟩ := filled.here filler inside
      exact ⟨block, List.mem_cons_of_mem _ there, base⟩

theorem allocAtLoop_filled {before : List Block} (pvReq cbReq : ℕ) (picks : ℕ → Option ℕ)
    (n i : ℕ) {fillers : List ℕ} {blocks : List Block} (filled : Filled before fillers blocks) :
    ∃ fillers' blocks', Filled before fillers' blocks' ∧
      (allocAtLoop pvReq cbReq picks n i fillers blocks = (fillers', false, blocks') ∨
        Block.fits blocks' ⟨pvReq, pagesFor cbReq * 0x1000⟩ = true ∧
          allocAtLoop pvReq cbReq picks n i fillers blocks =
            (fillers', true, ⟨pvReq, pagesFor cbReq * 0x1000⟩ :: blocks')) := by
  induction n generalizing i fillers blocks with
  | zero => exact ⟨fillers, blocks, filled, Or.inl rfl⟩
  | succ n ih =>
    unfold allocAtLoop
    rcases gave : dosAllocMem (picks (2 * i)) cbReq blocks with _ | ⟨pvNew, blocks'⟩
    · exact ⟨fillers, blocks, filled, Or.inl rfl⟩
    obtain ⟨shape, fits⟩ := dosAllocMem_some gave
    have freed : (dosFreeMem pvNew blocks').2 = blocks := by
      rw [shape]
      exact dosFreeMem_cons filled.ok fits
    simp only
    split
    · next same =>
      subst same
      rw [shape]
      exact ⟨fillers, blocks, filled, Or.inr ⟨fits, rfl⟩⟩
    split
    · rw [freed]
      exact ⟨fillers, blocks, filled, Or.inl rfl⟩
    split
    · rw [freed]
      rcases gap : dosAllocMem (picks (2 * i + 1)) (pvReq - pvNew) blocks with _ | ⟨pvGap, blocks''⟩
      · exact ⟨fillers, blocks, filled, Or.inl rfl⟩
      · simp only
        split
        · exact ⟨_, _, filled.cons gap, Or.inl rfl⟩
        · exact ih (i + 1) (filled.cons gap)
    · split
      · exact ⟨_, _, filled.cons gave, Or.inl rfl⟩
      · exact ih (i + 1) (filled.cons gave)

theorem freeFillers_eq (fillers : List ℕ) (blocks : List Block) :
    freeFillers fillers blocks = blocks.filter fun block => decide (block.base ∉ fillers) := by
  induction fillers generalizing blocks with
  | nil =>
    unfold freeFillers
    rw [List.foldl_nil, List.filter_eq_self.mpr]
    intro block _
    simp
  | cons filler fillers ih =>
    change freeFillers fillers (dosFreeMem filler blocks).2 = _
    rw [ih, dosFreeMem_snd, List.filter_filter]
    apply List.filter_congr
    intro block _
    by_cases same : block.base = filler <;> simp [same]

/-- The blocks are as they were. -/
structure SameBlocks (before after : List Block) : Prop where
  ok : BlocksOk after
  mem : ∀ block, block ∈ after ↔ block ∈ before

theorem Filled.freed {before blocks : List Block} {fillers : List ℕ}
    (filled : Filled before fillers blocks) : SameBlocks before (freeFillers fillers blocks) := by
  rw [freeFillers_eq]
  refine ⟨filled.ok.filter _, ?_⟩
  intro block
  rw [List.mem_filter, decide_eq_true_eq]
  constructor
  · rintro ⟨inside, kept⟩
    exact (filled.new block inside).resolve_right kept
  · exact filled.old block

theorem allocAtAddress_spec {blocks : List Block} (ok : BlocksOk blocks) (pvReq cbReq : ℕ)
    (picks : ℕ → Option ℕ) :
    ∃ after, SameBlocks blocks after ∧
      (allocAtAddress pvReq cbReq picks blocks = (false, after) ∨
        Block.fits after ⟨pvReq, pagesFor (alignPage cbReq) * 0x1000⟩ = true ∧
          allocAtAddress pvReq cbReq picks blocks =
            (true, ⟨pvReq, pagesFor (alignPage cbReq) * 0x1000⟩ :: after)) := by
  have start : Filled blocks [] blocks :=
    ⟨ok, fun _ inside => ⟨inside, List.not_mem_nil⟩, fun _ inside => Or.inl inside,
      fun _ inside => absurd inside List.not_mem_nil⟩
  obtain ⟨fillers, blocks', filled, failed | ⟨fits, got⟩⟩ :=
    allocAtLoop_filled pvReq (alignPage cbReq) picks allocatMaxFillers 0 start
  · refine ⟨_, filled.freed, Or.inl ?_⟩
    unfold allocAtAddress
    rw [failed]
  · refine ⟨_, filled.freed, Or.inr ?_⟩
    have kept : pvReq ∉ fillers := by
      intro filler
      obtain ⟨block, inside, base⟩ := filled.here pvReq filler
      have size := (fits_away fits).1
      have size' := (filled.ok.pos block inside).2
      rcases (fits_away fits).2.2.2 block inside with low | high
      · simp only at low size
        omega
      · simp only at high
        omega
    constructor
    · unfold Block.fits at fits ⊢
      simp only [Bool.and_eq_true, decide_eq_true_eq, List.all_eq_true] at fits ⊢
      refine ⟨fits.1, fun block inside => fits.2 block ?_⟩
      rw [freeFillers_eq] at inside
      exact (List.mem_filter.mp inside).1
    · unfold allocAtAddress
      rw [got]
      simp only
      rw [freeFillers_eq, freeFillers_eq, List.filter_cons_of_pos (by simpa using kept)]

/-! ## The base of a block -/

theorem findBase_some {blocks : List Block} (ok : BlocksOk blocks) (n : ℕ) {ulAddr base : ℕ}
    (aligned : ulAddr % 0x1000 = 0) (found : findBase blocks n ulAddr = some base) :
    ∃ block ∈ blocks, block.Contains ulAddr ∧ block.base = base := by
  induction n generalizing ulAddr with
  | zero => cases found
  | succ n ih =>
    unfold findBase isBase at found
    rcases at_ : blockAt blocks ulAddr with _ | block
    · rw [at_] at found
      cases found
    · rw [at_] at found
      obtain ⟨inside, here⟩ := blockAt_spec at_
      by_cases same : block.base = ulAddr
      · simp only [Option.map_some, same, beq_self_eq_true] at found
        cases found
        exact ⟨block, inside, here, same⟩
      · simp only [Option.map_some, beq_eq_false_iff_ne.mpr same] at found
        have low := here.1
        have high := here.2
        have below := ok.below block inside
        have pages := (ok.aligned block inside).1
        unfold memoryTop at below
        rw [sub32_of_le (by omega) (by omega)] at found
        obtain ⟨other, inside', here', base'⟩ := ih (by omega) found
        have previous : block.Contains (ulAddr - 0x1000) := ⟨by omega, by omega⟩
        rw [ok.eq_of_contains inside' inside _ here' previous] at base'
        exact ⟨block, inside, here, base'⟩

end Odin32.AllocRecords
