import Odin32.MemMapOps

/-! # Buffers in mapped views

`ReadFile` and `WriteFile` have the pages of a buffer that lies in a mapped view committed before
they pass it on. A map without memory of its own has them faulted in through the view. Pages are
known by their numbers in the map. -/

set_option autoImplicit false

namespace Odin32.MapBufferCommit

open Word MemMap

/-- A buffer in a view, as `findMapByView` finds it. -/
structure Buffer where
  map : Win32MemMap
  /-- `getMappingAddr()` is not `NULL`. -/
  mapped : Bool
  /-- The map of an executable image. -/
  image : Bool
  lpBuffer : ℕ
  offset : ℕ
  nNumberOfBytes : ℕ
  positive : 0 < nNumberOfBytes
  /-- The bytes are in the view, and the view is in the map. -/
  inside : offset + nNumberOfBytes ≤ map.mSize
  /-- No memory is below the first 64 KB. -/
  room : map.mSize + 0x10000 ≤ 0x100000000
  /-- No view is on the last page that there could be. -/
  high : lpBuffer + nNumberOfBytes ≤ 0xfffff000
  /-- A view is an alias of whole pages. -/
  aligned : lpBuffer % 0x1000 = offset % 0x1000

variable (b : Buffer)

def nrpages : ℕ :=
  b.nNumberOfBytes / 0x1000 + if (b.nNumberOfBytes + b.offset) % 0x1000 ≠ 0 then 1 else 0

/-- The pages a call of `commitPage` goes over; an image is asked for the first one. -/
def commitPage (offset : ℕ) (fWriteAccess : Bool) (nrpages : ℕ) : List ℕ :=
  if b.image then [offset / 0x1000]
  else
    let offPage := offset / 0x1000 * 0x1000
    (List.range (pagesFor (b.map.faultSize fWriteAccess offPage nrpages))).map
      (offset / 0x1000 + ·)

/-- The loop of `commitRange` for writes, where `commits` tells which pages it succeeds for. -/
def commitEach (commits : ℕ → Bool) : ℕ → ℕ → List ℕ
  | 0, _ => []
  | nrpages + 1, offset =>
    commitPage b offset true 1 ++
      if commits (offset / 0x1000) then commitEach commits nrpages (add32 offset 0x1000) else []

def commitRange (commits : ℕ → Bool) (offset : ℕ) (fWriteAccess : Bool) (nrpages : ℕ) : List ℕ :=
  if fWriteAccess then commitEach b commits nrpages offset
  else commitPage b offset false nrpages

/-- The loop over the addresses `pg` that touches the pages of the view, with a bound on its
rounds. -/
def touchLoop : ℕ → ℕ → List ℕ
  | 0, _ => []
  | rounds + 1, pg =>
    if pg < b.lpBuffer + b.nNumberOfBytes then
      (b.offset + pg - b.lpBuffer) / 0x1000 :: touchLoop rounds (add32 pg 0x1000)
    else []

/-- The pages that are asked for before the buffer is passed on. -/
def commitBuffer (commits : ℕ → Bool) (fWriteAccess : Bool) : List ℕ :=
  if b.mapped then
    commitRange b commits (b.offset / 0x1000 * 0x1000) fWriteAccess (nrpages b)
  else touchLoop b (b.nNumberOfBytes + 1) (b.lpBuffer / 0x1000 * 0x1000)

/-- For `ReadFile` the buffer is written to. -/
def readFile (commits : ℕ → Bool) : List ℕ := commitBuffer b commits true

def writeFile (commits : ℕ → Bool) : List ℕ := commitBuffer b commits false

/-! ## What it is for -/

/-- A byte of the buffer is on the page. -/
def Touched (page : ℕ) : Prop :=
  b.offset < 0x1000 * page + 0x1000 ∧ 0x1000 * page < b.offset + b.nNumberOfBytes

structure Covers (pages : List ℕ) : Prop where
  all : ∀ page, Touched b page → page ∈ pages
  inside : ∀ page ∈ pages, 0x1000 * page < b.map.mSize

def Promised (commits : ℕ → Bool) (fWriteAccess : Bool) : Prop :=
  Covers b (commitBuffer b commits fWriteAccess)

/-- The bytes behind the last full page and those before the first one are less than a page. Each
page but the last one is committed where they are committed one by one, and there is one page
where an image is asked for one. -/
structure MappedFits (commits : ℕ → Bool) (fWriteAccess : Bool) : Prop where
  bytes : fWriteAccess = true ∨ b.image = false →
    b.nNumberOfBytes % 0x1000 + b.offset % 0x1000 < 0x1000
  commits : fWriteAccess = true →
    ∀ page, Touched b page → Touched b (page + 1) → commits page = true
  single : fWriteAccess = false → b.image = true → ∀ page, Touched b page → ¬ Touched b (page + 1)

def Fits (commits : ℕ → Bool) (fWriteAccess : Bool) : Prop :=
  b.mapped = true → MappedFits b commits fWriteAccess

variable {b}

/-! ## The pages -/

/-- The number of the pages that are touched. -/
def touchedPages (b : Buffer) : ℕ :=
  (b.offset + b.nNumberOfBytes - 1) / 0x1000 - b.offset / 0x1000 + 1

theorem touched_iff {page : ℕ} : Touched b page ↔
    b.offset / 0x1000 ≤ page ∧ page < b.offset / 0x1000 + touchedPages b := by
  have positive := b.positive
  rw [Touched, touchedPages]
  omega

theorem nrpages_le : nrpages b ≤ touchedPages b := by
  have positive := b.positive
  rw [nrpages, touchedPages]
  split_ifs <;> omega

theorem nrpages_eq_iff : nrpages b = touchedPages b ↔
    b.nNumberOfBytes % 0x1000 + b.offset % 0x1000 < 0x1000 := by
  have positive := b.positive
  rw [nrpages, touchedPages]
  split_ifs <;> omega

theorem touched_inside {page : ℕ} (touched : Touched b page) : 0x1000 * page < b.map.mSize :=
  Nat.lt_of_lt_of_le touched.2 b.inside

theorem offset_lt : b.offset < b.map.mSize := by
  have positive := b.positive
  have inside := b.inside
  omega

theorem pages_room {count : ℕ} (le : count ≤ touchedPages b) :
    b.offset / 0x1000 * 0x1000 + 0x1000 * count < 0x100000000 := by
  have positive := b.positive
  have inside := b.inside
  have room := b.room
  have small : 0x1000 * touchedPages b ≤
      b.map.mSize + 0x1000 - b.offset / 0x1000 * 0x1000 := by
    rw [touchedPages]
    omega
  have start := offset_lt (b := b)
  omega

theorem mem_pages (first size page : ℕ) :
    page ∈ (List.range (pagesFor size)).map (first + ·) ↔
      first ≤ page ∧ 0x1000 * page < 0x1000 * first + size := by
  rw [List.mem_map]
  constructor
  · rintro ⟨k, mem, rfl⟩
    have lt := lt_pagesFor.mp (List.mem_range.mp mem)
    omega
  · rintro ⟨low, high⟩
    exact ⟨page - first, List.mem_range.mpr (lt_pagesFor.mpr (by omega)), by omega⟩

theorem mem_commitPage (file : b.image = false) {offset : ℕ} (start : offset < b.map.mSize)
    (fWriteAccess : Bool) {count : ℕ}
    (high : offset / 0x1000 * 0x1000 + 0x1000 * count < 0x100000000) {page : ℕ} :
    page ∈ commitPage b offset fWriteAccess count ↔
      offset / 0x1000 ≤ page ∧ 0x1000 * page < b.map.mSize ∧
        page < offset / 0x1000 + if fWriteAccess then 1 else count := by
  have room := b.room
  have wanted : (if fWriteAccess then 0x1000 else u32 (0x1000 * count)) =
      0x1000 * if fWriteAccess then 1 else count := by
    cases fWriteAccess with
    | true => rfl
    | false =>
      show u32 (0x1000 * count) = 0x1000 * count
      exact Nat.mod_eq_of_lt (by omega)
  have bounded : (offset / 0x1000 * 0x1000 + 0x1000 * if fWriteAccess then 1 else count) <
      0x100000000 := by
    cases fWriteAccess with
    | true =>
      show offset / 0x1000 * 0x1000 + 0x1000 * 1 < 0x100000000
      omega
    | false => exact high
  rw [commitPage, if_neg (Bool.eq_false_iff.mp file), mem_pages, Win32MemMap.faultSize, wanted]
  generalize (if fWriteAccess then 1 else count) = n at bounded ⊢
  simp only [add32_of_lt bounded]
  split_ifs with beyond
  · rw [sub32_of_le (by omega) (by omega)]
    omega
  · omega

theorem mem_commitOne {first : ℕ} (inside : 0x1000 * first < b.map.mSize) {page : ℕ} :
    page ∈ commitPage b (0x1000 * first) true 1 ↔ page = first := by
  have room := b.room
  have page' : 0x1000 * first / 0x1000 = first := Nat.mul_div_cancel_left first (by decide)
  cases file : b.image with
  | true => rw [commitPage, if_pos file, page', List.mem_singleton]
  | false =>
    rw [mem_commitPage file inside true (by omega), page', if_pos rfl]
    omega

theorem mem_commitEach (commits : ℕ → Bool) {count first : ℕ}
    (inside : ∀ k < count, 0x1000 * (first + k) < b.map.mSize) {page : ℕ} :
    page ∈ commitEach b commits count (0x1000 * first) ↔
      first ≤ page ∧ page < first + count ∧
        ∀ before, first ≤ before → before < page → commits before = true := by
  induction count generalizing first with
  | zero =>
    constructor
    · intro mem
      cases mem
    · rintro ⟨low, high, -⟩
      omega
  | succ count ih =>
    have room := b.room
    have here := inside 0 (Nat.succ_pos count)
    have page' : 0x1000 * first / 0x1000 = first := Nat.mul_div_cancel_left first (by decide)
    have next : add32 (0x1000 * first) 0x1000 = 0x1000 * (first + 1) := by
      rw [add32_of_lt (by omega)]
      omega
    have rest : ∀ k < count, 0x1000 * (first + 1 + k) < b.map.mSize := by
      intro k lt
      have there := inside (k + 1) (by omega)
      rwa [show first + 1 + k = first + (k + 1) by omega]
    rw [commitEach, List.mem_append, mem_commitOne (by omega), page', next]
    cases ok : commits first with
    | true =>
      rw [if_pos rfl, ih rest]
      constructor
      · rintro (rfl | ⟨low, high, all⟩)
        · exact ⟨Nat.le_refl _, by omega, fun before low high => by omega⟩
        · refine ⟨by omega, by omega, fun before low' high' => ?_⟩
          by_cases same : before = first
          · rwa [same]
          · exact all before (by omega) high'
      · rintro ⟨low, high, all⟩
        by_cases same : page = first
        · exact Or.inl same
        · exact Or.inr ⟨by omega, by omega, fun before low' => all before (by omega)⟩
    | false =>
      rw [if_neg Bool.false_ne_true]
      constructor
      · rintro (rfl | mem)
        · exact ⟨Nat.le_refl _, by omega, fun before low high => by omega⟩
        · cases mem
      · rintro ⟨low, high, all⟩
        refine Or.inl (Nat.le_antisymm (Nat.not_lt.mp fun later => ?_) low)
        rw [all first (Nat.le_refl _) later] at ok
        cases ok

theorem mem_touchLoop {rounds pg page : ℕ} (low : b.lpBuffer ≤ b.offset + pg) :
    page ∈ touchLoop b rounds pg ↔ ∃ k < rounds,
      pg + 0x1000 * k < b.lpBuffer + b.nNumberOfBytes ∧
        page = (b.offset + (pg + 0x1000 * k) - b.lpBuffer) / 0x1000 := by
  induction rounds generalizing pg with
  | zero =>
    constructor
    · intro mem
      cases mem
    · rintro ⟨k, lt, -⟩
      omega
  | succ rounds ih =>
    have high := b.high
    rw [touchLoop]
    split_ifs with inside
    · have next : add32 pg 0x1000 = pg + 0x1000 := add32_of_lt (by omega)
      rw [List.mem_cons, next, ih (by omega)]
      constructor
      · rintro (rfl | ⟨k, lt, before, rfl⟩)
        · exact ⟨0, Nat.succ_pos _, inside, rfl⟩
        · refine ⟨k + 1, by omega, by omega, ?_⟩
          rw [show pg + 0x1000 + 0x1000 * k = pg + 0x1000 * (k + 1) by omega]
      · rintro ⟨k, lt, before, rfl⟩
        cases k with
        | zero => exact Or.inl rfl
        | succ k =>
          refine Or.inr ⟨k, by omega, by omega, ?_⟩
          rw [show pg + 0x1000 + 0x1000 * k = pg + 0x1000 * (k + 1) by omega]
    · constructor
      · intro mem
        cases mem
      · rintro ⟨k, -, before, -⟩
        omega

/-! ## The buffer -/

theorem covers_touched (away : b.mapped = false) (commits : ℕ → Bool) (fWriteAccess : Bool) :
    Promised b commits fWriteAccess := by
  have aligned := b.aligned
  have positive := b.positive
  have start : b.lpBuffer ≤ b.offset + b.lpBuffer / 0x1000 * 0x1000 := by omega
  have asked : ∀ page, page ∈ commitBuffer b commits fWriteAccess ↔ Touched b page := by
    intro page
    rw [commitBuffer, if_neg (Bool.eq_false_iff.mp away), mem_touchLoop start, Touched]
    constructor
    · rintro ⟨k, lt, before, rfl⟩
      omega
    · rintro ⟨low, high⟩
      exact ⟨page - b.offset / 0x1000, by omega, by omega, by omega⟩
  exact ⟨fun page touched => (asked page).mpr touched,
    fun page mem => touched_inside ((asked page).mp mem)⟩

theorem pages_inside {k : ℕ} (lt : k < touchedPages b) :
    0x1000 * (b.offset / 0x1000 + k) < b.map.mSize :=
  touched_inside (touched_iff.mpr ⟨Nat.le_add_right _ _, Nat.add_lt_add_left lt _⟩)

theorem offPage_eq (b : Buffer) :
    b.offset / 0x1000 * 0x1000 / 0x1000 = b.offset / 0x1000 :=
  Nat.mul_div_cancel _ (by decide)

theorem touched_first (b : Buffer) : Touched b (b.offset / 0x1000) :=
  touched_iff.mpr ⟨Nat.le_refl _, by rw [touchedPages]; omega⟩

theorem touched_last (b : Buffer) : Touched b (b.offset / 0x1000 + (touchedPages b - 1)) := by
  have some_page : 0 < touchedPages b := Nat.succ_pos _
  exact touched_iff.mpr ⟨Nat.le_add_right _ _, by omega⟩

theorem promised_write_iff (mapped : b.mapped = true) (commits : ℕ → Bool) :
    Promised b commits true ↔ MappedFits b commits true := by
  have asked : ∀ page, page ∈ commitBuffer b commits true ↔
      b.offset / 0x1000 ≤ page ∧ page < b.offset / 0x1000 + nrpages b ∧
        ∀ before, b.offset / 0x1000 ≤ before → before < page → commits before = true := by
    intro page
    rw [commitBuffer, if_pos mapped, commitRange, if_pos rfl, Nat.mul_comm (b.offset / 0x1000)]
    exact mem_commitEach commits fun k lt => pages_inside (Nat.lt_of_lt_of_le lt nrpages_le)
  have some_page : 0 < touchedPages b := Nat.succ_pos _
  constructor
  · intro covers
    have last := (asked _).mp (covers.all _ (touched_last b))
    have count : nrpages b = touchedPages b := by
      have le := nrpages_le (b := b)
      omega
    refine ⟨fun _ => nrpages_eq_iff.mp count, fun _ page here next => ?_,
      fun no => Bool.noConfusion no⟩
    have low := (touched_iff.mp here).1
    exact ((asked _).mp (covers.all _ next)).2.2 page low (Nat.lt_succ_self page)
  · intro fits
    have count := nrpages_eq_iff.mpr (fits.bytes (Or.inl rfl))
    refine ⟨fun page touched => (asked page).mpr ?_, fun page mem => ?_⟩
    · obtain ⟨low, high⟩ := touched_iff.mp touched
      rw [count]
      refine ⟨low, high, fun before low' high' => fits.commits rfl before ?_ ?_⟩
      · exact touched_iff.mpr ⟨low', by omega⟩
      · exact touched_iff.mpr ⟨by omega, by omega⟩
    · obtain ⟨low, high, -⟩ := (asked page).mp mem
      exact touched_inside (touched_iff.mpr ⟨low, by omega⟩)

theorem promised_read_iff (mapped : b.mapped = true) (file : b.image = false)
    (commits : ℕ → Bool) : Promised b commits false ↔ MappedFits b commits false := by
  have start := offset_lt (b := b)
  have room := pages_room (b := b) nrpages_le
  have asked : ∀ page, page ∈ commitBuffer b commits false ↔
      b.offset / 0x1000 ≤ page ∧ 0x1000 * page < b.map.mSize ∧
        page < b.offset / 0x1000 + nrpages b := by
    intro page
    have here : b.offset / 0x1000 * 0x1000 < b.map.mSize :=
      Nat.lt_of_le_of_lt (Nat.div_mul_le_self _ _) start
    have end_room : b.offset / 0x1000 * 0x1000 / 0x1000 * 0x1000 + 0x1000 * nrpages b <
        0x100000000 := by
      rw [offPage_eq]
      exact room
    rw [commitBuffer, if_pos mapped, commitRange, if_neg Bool.false_ne_true,
      mem_commitPage file here false end_room, offPage_eq, if_neg Bool.false_ne_true]
  have some_page : 0 < touchedPages b := Nat.succ_pos _
  constructor
  · intro covers
    have last := (asked _).mp (covers.all _ (touched_last b))
    have count : nrpages b = touchedPages b := by
      have le := nrpages_le (b := b)
      omega
    refine ⟨fun _ => nrpages_eq_iff.mp count, fun no => Bool.noConfusion no, fun _ image => ?_⟩
    rw [file] at image
    cases image
  · intro fits
    have count := nrpages_eq_iff.mpr (fits.bytes (Or.inr file))
    refine ⟨fun page touched => (asked page).mpr ?_, fun page mem => ((asked page).mp mem).2.1⟩
    obtain ⟨low, high⟩ := touched_iff.mp touched
    exact ⟨low, touched_inside touched, by omega⟩

theorem promised_image_iff (mapped : b.mapped = true) (image : b.image = true)
    (commits : ℕ → Bool) : Promised b commits false ↔ MappedFits b commits false := by
  have asked : commitBuffer b commits false = [b.offset / 0x1000] := by
    rw [commitBuffer, if_pos mapped, commitRange, if_neg Bool.false_ne_true, commitPage,
      if_pos image, offPage_eq]
  rw [Promised, asked]
  constructor
  · intro covers
    have one : ∀ page, Touched b page → page = b.offset / 0x1000 := fun page touched =>
      List.mem_singleton.mp (covers.all page touched)
    refine ⟨?_, fun no => Bool.noConfusion no, fun _ _ page here next => ?_⟩
    · rintro (no | file)
      · cases no
      · rw [image] at file
        cases file
    · have first := one _ here
      have second := one _ next
      omega
  · intro fits
    have single := fits.single rfl image
    refine ⟨fun page touched => List.mem_singleton.mpr ?_, fun page mem => ?_⟩
    · obtain ⟨low, high⟩ := touched_iff.mp touched
      by_contra other
      refine single _ (touched_first b) (touched_iff.mpr ⟨by omega, by omega⟩)
    · rw [List.mem_singleton.mp mem]
      exact touched_inside (touched_first b)

/-- All pages of the buffer are asked for just when the rounding comes out right, and the pages
are committed one after another where they are asked for so. -/
theorem mapBufferCommit_promised_iff (b : Buffer) (commits : ℕ → Bool) (fWriteAccess : Bool) :
    Promised b commits fWriteAccess ↔ Fits b commits fWriteAccess := by
  cases mapped : b.mapped with
  | false =>
    have covers := covers_touched mapped commits fWriteAccess
    refine ⟨fun _ mapped' => ?_, fun _ => covers⟩
    rw [mapped] at mapped'
    cases mapped'
  | true =>
    have fits : Fits b commits fWriteAccess ↔ MappedFits b commits fWriteAccess :=
      ⟨fun fits => fits mapped, fun fits _ => fits⟩
    rw [fits]
    cases fWriteAccess with
    | true => exact promised_write_iff mapped commits
    | false =>
      cases image : b.image with
      | true => exact promised_image_iff mapped image commits
      | false => exact promised_read_iff mapped image commits

/-- A file of two pages with nothing committed. -/
def twoPages : Win32MemMap where
  mSize := 0x2000
  mProtFlags := pageReadwrite
  fFile := true
  cbReserved := 0x2000
  page _ := none
  cbWriteBitmap := 1
  pWriteBitmap := none
  dups := []
  views := []

theorem border_positive : 0 < 2 := Nat.succ_pos 1

theorem border_inside : 0xfff + 2 ≤ twoPages.mSize := by decide

theorem border_room : twoPages.mSize + 0x10000 ≤ 0x100000000 := by decide

theorem border_high : 0x50fff + 2 ≤ 0xfffff000 := by decide

theorem border_aligned : 0x50fff % 0x1000 = 0xfff % 0x1000 := rfl

/-- Two bytes on the border of the pages. -/
def borderBuffer : Buffer :=
  ⟨twoPages, true, false, 0x50fff, 0xfff, 2, border_positive, border_inside, border_room,
    border_high, border_aligned⟩

theorem border_not_promised :
    ¬ ∀ (b : Buffer) (commits : ℕ → Bool) (fWriteAccess : Bool),
      Promised b commits fWriteAccess := by
  intro all
  have covers : Covers borderBuffer (commitBuffer borderBuffer (fun _ => true) true) :=
    all borderBuffer (fun _ => true) true
  have asked : commitBuffer borderBuffer (fun _ => true) true = [0] := by decide
  have second := covers.all 1 ⟨by decide, by decide⟩
  rw [asked] at second
  exact absurd second (by decide)

end Odin32.MapBufferCommit
