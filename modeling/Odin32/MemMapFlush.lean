import Odin32.MemMapFrame

/-! # Flushing

`flushView` walks over the range of the flush in chunks of one page, from wherever the
range starts, and takes each chunk for the page that it starts on. So a flush in whole
pages loses nothing: what it clears it has written, and what it was asked for and is
dirty it has written. A flush through a view that is not for writing to the file does
nothing, and says that it succeeded. -/

set_option autoImplicit false

namespace Odin32.MemMapFlush
open Odin32.Word Odin32.MemMap Odin32.MemMap.Win32MemMap

/-- The chunks of a flush: where each starts, and its size. -/
def chunks : ℕ → ℕ → ℕ → List (ℕ × ℕ)
  | 0, _, _ => []
  | rounds + 1, offset, cbFlush =>
    if cbFlush = 0 then []
    else (offset, min 0x1000 cbFlush) :: chunks rounds (add32 offset 0x1000) (cbFlush - 0x1000)

/-- The byte is in one of the ranges written to the file. -/
def Written (writes : List (ℕ × ℕ)) (b : ℕ) : Prop :=
  ∃ w ∈ writes, w.1 ≤ b ∧ b < w.1 + w.2

/-- Where the range ends that a flush is asked for; no length asks for the whole map. -/
def flushEnd (map : Win32MemMap) (offset cbFlush : ℕ) : ℕ :=
  if cbFlush = 0 then map.mSize else min (offset + cbFlush) map.mSize

/-- What a flush owes the file, when the map was `map` and is `map'` afterwards. -/
structure LosesNothing (map map' : Win32MemMap) (writes : List (ℕ × ℕ)) (offset cbFlush : ℕ) :
    Prop where
  /-- A page that was cleared is written as far as the map goes. -/
  cleared : ∀ b < map.mSize, map.isDirtyPage (b / 0x1000) = true →
    map'.isDirtyPage (b / 0x1000) = false → Written writes b
  /-- What is dirty of the range is written. -/
  asked : ∀ b, offset ≤ b → b < flushEnd map offset cbFlush →
    map.isDirtyPage (b / 0x1000) = true → Written writes b

/-- The view address is one through which changes go to the file. -/
def Flushes (map : Win32MemMap) (viewaddr : Option ℕ) : Prop :=
  ∃ accessflags, map.flushAccess viewaddr = some accessflags ∧
    has accessflags memmapAccessWrite = true ∧ has accessflags memmapAccessCopyonwrite = false

/-- The flush starts with a page and does not end inside a dirty one, or finds nothing
to flush. -/
def WholePages (map : Win32MemMap) (offset cbFlush : ℕ) : Prop :=
  let size := map.flushSize offset cbFlush
  let stop := add32 offset size
  offset % 0x1000 = 0 ∧
    (stop % 0x1000 = 0 ∨ map.mSize ≤ stop ∨ map.isDirtyPage (stop / 0x1000) = false) ∨
  ∀ b, offset ≤ b → b < offset + size → map.isDirtyPage (u32 b / 0x1000) = false

/-! ## The loop -/

theorem mem_chunks {rounds offset cbFlush : ℕ} {c : ℕ × ℕ} (hoffset : offset < 0x100000000)
    (enough : cbFlush ≤ 0x1000 * rounds) :
    c ∈ chunks rounds offset cbFlush ↔
      ∃ k, 0x1000 * k < cbFlush ∧ c = (add32 offset (0x1000 * k), min 0x1000 (cbFlush - 0x1000 * k)) := by
  induction rounds generalizing offset cbFlush with
  | zero =>
    simp only [chunks, List.not_mem_nil, false_iff]
    rintro ⟨k, hk, -⟩
    omega
  | succ rounds ih =>
    unfold chunks
    split
    · simp_all
    next nonzero =>
    rw [List.mem_cons, ih (add32_lt _ _) (by omega)]
    constructor
    · rintro (rfl | ⟨k, hk, rfl⟩)
      · exact ⟨0, by omega, by simp [add32, u32]; omega⟩
      · refine ⟨k + 1, by omega, ?_⟩
        rw [Prod.mk.injEq]
        constructor
        · unfold add32 u32
          omega
        · omega
    · rintro ⟨k, hk, rfl⟩
      rcases k with _ | k
      · left
        simp [add32, u32]
        omega
      · right
        refine ⟨k, by omega, ?_⟩
        rw [Prod.mk.injEq]
        constructor
        · unfold add32 u32
          omega
        · omega

theorem isDirtyPage_setDirtyPages (map : Win32MemMap) (startpage nrpages p : ℕ) :
    (map.setDirtyPages startpage nrpages false).isDirtyPage p =
      (map.isDirtyPage p && !decide (startpage ≤ p ∧ p < startpage + nrpages)) := by
  unfold isDirtyPage setDirtyPages
  rcases map.pWriteBitmap with _ | bitmap
  · rfl
  · by_cases inside : startpage ≤ p ∧ p < startpage + nrpages
    · simp [inside]
    · simp only [Option.map_some, if_neg inside, decide_eq_false inside, Bool.not_false,
        Bool.and_true]

theorem isDirtyPage_protectPages {map map' : Win32MemMap} {start size : ℕ} {a : PageAttr}
    (h : map.protectPages start size a = some map') (p : ℕ) :
    map'.isDirtyPage p = map.isDirtyPage p := by
  unfold protectPages at h
  dsimp only at h
  split at h
  · obtain rfl := Option.some.inj h
    rfl
  · cases h

theorem isDirtyPage_flushChunk {map : Win32MemMap} {os : Os} {offset size : ℕ}
    (h : (map.flushChunk os offset size).1 = true) (p : ℕ) :
    (map.flushChunk os offset size).2.isDirtyPage p =
      (map.isDirtyPage p && !decide (p = offset / 0x1000)) := by
  have one : ∀ q, (offset / 0x1000 ≤ q ∧ q < offset / 0x1000 + 1) ↔ q = offset / 0x1000 := by
    intro q
    omega
  unfold flushChunk at h ⊢
  split
  · next hw =>
    rw [if_pos hw] at h
    dsimp only at h ⊢
    split
    · next hp =>
      rw [hp] at h
      cases h
    · next map' hp =>
      show map'.isDirtyPage p = _
      rw [isDirtyPage_protectPages hp, clearDirtyPages, isDirtyPage_setDirtyPages,
        decide_eq_decide.mpr (one p)]
  · next hw =>
    rw [if_neg hw] at h
    cases h

theorem chunk_page_ne {rounds offset cbFlush : ℕ} {c : ℕ × ℕ}
    (few : rounds < 0x100000) (enough : cbFlush ≤ 0x1000 * rounds)
    (h : c ∈ chunks rounds (add32 offset 0x1000) cbFlush) :
    c.1 / 0x1000 ≠ offset / 0x1000 := by
  obtain ⟨k, hk, rfl⟩ := (mem_chunks (add32_lt _ _) enough).mp h
  unfold add32 u32
  omega

theorem flushLoop_zero (os : Os) (rounds : ℕ) (map : Win32MemMap) (offset : ℕ) :
    flushLoop os rounds map offset 0 = (true, map, []) := by
  cases rounds <;> simp [flushLoop]

theorem flushLoop_rest (os : Os) (rounds : ℕ) (map : Win32MemMap) (offset cbFlush : ℕ) :
    flushLoop os rounds map (add32 offset (min 0x1000 cbFlush)) (cbFlush - min 0x1000 cbFlush) =
      flushLoop os rounds map (add32 offset 0x1000) (cbFlush - 0x1000) := by
  by_cases full : 0x1000 ≤ cbFlush
  · rw [Nat.min_eq_left full]
  · rw [Nat.min_eq_right (by omega), Nat.sub_self, Nat.sub_eq_zero_of_le (by omega),
      flushLoop_zero, flushLoop_zero]

/-- A loop that succeeds has written exactly the chunks that start on a dirty page, and
has cleared exactly the pages that chunks start on. -/
theorem flushLoop_true {os : Os} {rounds : ℕ} {map : Win32MemMap} {offset cbFlush : ℕ}
    (hoffset : offset < 0x100000000) (few : rounds ≤ 0x100000)
    (enough : cbFlush ≤ 0x1000 * rounds)
    (h : (flushLoop os rounds map offset cbFlush).1 = true) :
    (flushLoop os rounds map offset cbFlush).2.2 =
      (chunks rounds offset cbFlush).filter (fun c => map.isDirtyPage (c.1 / 0x1000)) ∧
    ∀ p, (flushLoop os rounds map offset cbFlush).2.1.isDirtyPage p =
      (map.isDirtyPage p && !(chunks rounds offset cbFlush).any fun c => c.1 / 0x1000 == p) := by
  induction rounds generalizing map offset cbFlush with
  | zero => simp [flushLoop, chunks]
  | succ rounds ih =>
    unfold flushLoop at h ⊢
    unfold chunks
    by_cases empty : cbFlush = 0
    · simp [empty]
    rw [if_neg empty] at h ⊢
    rw [if_neg empty]
    have apart := fun c hc => @chunk_page_ne rounds offset (cbFlush - 0x1000) c
      (Nat.lt_of_succ_le few) (by omega) hc
    by_cases dirty : map.isDirtyPage (offset / 0x1000) = true
    · rw [if_pos dirty] at h ⊢
      have chunk := @isDirtyPage_flushChunk map os offset (min 0x1000 cbFlush)
      dsimp only at h ⊢
      rcases flushed : map.flushChunk os offset (min 0x1000 cbFlush) with ⟨ok, map'⟩
      rw [flushed] at h chunk
      cases ok with
      | false => cases h
      | true =>
      dsimp only at h ⊢
      rw [flushLoop_rest] at h ⊢
      obtain ⟨writes, pages⟩ := ih (add32_lt _ _) (Nat.le_of_succ_le few) (by omega) h
      have clean := chunk rfl
      constructor
      · rw [List.filter_cons_of_pos (by simpa using dirty), writes]
        congr 1
        apply List.filter_congr
        intro c hc
        rw [clean, decide_eq_false (apart c hc), Bool.not_false, Bool.and_true]
      · intro p
        rw [pages, clean, List.any_cons, Bool.not_or, Bool.and_assoc]
        congr 3
        rw [Bool.eq_iff_iff, beq_iff_eq, decide_eq_true_iff]
        exact eq_comm
    · rw [if_neg dirty] at h ⊢
      have rest : (if cbFlush < 0x1000 then (true, map, [])
          else flushLoop os rounds map (add32 offset 0x1000) (cbFlush - 0x1000)) =
          flushLoop os rounds map (add32 offset 0x1000) (cbFlush - 0x1000) := by
        split
        · rw [Nat.sub_eq_zero_of_le (by omega), flushLoop_zero]
        · rfl
      rw [rest] at h ⊢
      obtain ⟨writes, pages⟩ := ih (add32_lt _ _) (Nat.le_of_succ_le few) (by omega) h
      refine ⟨?_, ?_⟩
      · rw [List.filter_cons_of_neg (by simpa using dirty), writes]
      · intro p
        rw [pages, List.any_cons]
        by_cases here : offset / 0x1000 = p
        · rw [here] at dirty
          simp [dirty]
        · rw [beq_eq_false_iff_ne.mpr here, Bool.false_or]

/-! ## The flush -/

theorem flushView_eq_loop {map : Win32MemMap} (os : Os) {viewaddr : Option ℕ} {offset cbFlush : ℕ}
    (file : map.fFile = true) (inside : offset ≤ map.mSize) (flushes : Flushes map viewaddr) :
    map.flushView os viewaddr offset cbFlush =
      flushLoop os (pagesFor (map.flushSize offset cbFlush)) map offset
        (map.flushSize offset cbFlush) := by
  obtain ⟨accessflags, access, write, cow⟩ := flushes
  unfold flushView
  rw [access]
  simp [file, Nat.not_lt.mpr inside, write, cow]

theorem flushView_ignored {map : Win32MemMap} (os : Os) {viewaddr : Option ℕ} {offset cbFlush : ℕ}
    (ignored : ¬Flushes map viewaddr) :
    (map.flushView os viewaddr offset cbFlush).2 = (map, []) := by
  unfold flushView
  split
  · rfl
  split
  · rfl
  rcases access : map.flushAccess viewaddr with _ | accessflags
  · rfl
  have quiet : (!has accessflags memmapAccessWrite ||
      has accessflags memmapAccessCopyonwrite) = true := by
    by_contra loud
    simp only [Bool.not_eq_true, Bool.or_eq_false_iff, Bool.not_eq_false'] at loud
    exact ignored ⟨accessflags, access, loud.1, loud.2⟩
  simp [quiet]

theorem flushEnd_le {map : Win32MemMap} {offset cbFlush : ℕ} (hsize : map.mSize < 0x100000000)
    (inside : offset ≤ map.mSize) (hcb : cbFlush < 0x100000000) :
    flushEnd map offset cbFlush ≤ offset + map.flushSize offset cbFlush := by
  unfold flushEnd flushSize
  dsimp only
  unfold sub32 add32 u32
  split <;> split <;> omega

theorem flushSize_lt {map : Win32MemMap} (offset : ℕ) {cbFlush : ℕ}
    (hsize : map.mSize < 0x100000000) (hcb : cbFlush < 0x100000000) :
    map.flushSize offset cbFlush < 0x100000000 := by
  unfold flushSize
  dsimp only
  unfold sub32 u32
  split <;> split <;> omega

theorem losesNothing_of_wholePages {map : Win32MemMap} {offset cbFlush : ℕ}
    (hsize : map.mSize < 0x100000000) (inside : offset ≤ map.mSize) (hcb : cbFlush < 0x100000000)
    (os : Os) (whole : WholePages map offset cbFlush)
    (h : (flushLoop os (pagesFor (map.flushSize offset cbFlush)) map offset
      (map.flushSize offset cbFlush)).1 = true) :
    LosesNothing map
      (flushLoop os (pagesFor (map.flushSize offset cbFlush)) map offset
        (map.flushSize offset cbFlush)).2.1
      (flushLoop os (pagesFor (map.flushSize offset cbFlush)) map offset
        (map.flushSize offset cbFlush)).2.2 offset cbFlush := by
  have size := flushSize_lt offset hsize hcb
  have covers := flushEnd_le hsize inside hcb
  have below : flushEnd map offset cbFlush ≤ map.mSize := by
    unfold flushEnd
    split <;> omega
  unfold WholePages at whole
  dsimp only at whole
  generalize map.flushSize offset cbFlush = cb at *
  have enough : cb ≤ 0x1000 * pagesFor cb := by
    unfold pagesFor
    omega
  have few : pagesFor cb ≤ 0x100000 := by
    unfold pagesFor
    omega
  obtain ⟨writes, pages⟩ := flushLoop_true (by omega) few enough h
  have chunk : ∀ {c}, c ∈ chunks (pagesFor cb) offset cb ↔ _ := mem_chunks (by omega) enough
  have written : ∀ {b k}, 0x1000 * k < cb →
      map.isDirtyPage (add32 offset (0x1000 * k) / 0x1000) = true →
      add32 offset (0x1000 * k) ≤ b → b < add32 offset (0x1000 * k) + min 0x1000 (cb - 0x1000 * k) →
      Written (flushLoop os (pagesFor cb) map offset cb).2.2 b := by
    intro b k hk dirty lo hi
    refine ⟨(add32 offset (0x1000 * k), min 0x1000 (cb - 0x1000 * k)), ?_, lo, hi⟩
    rw [writes, List.mem_filter]
    exact ⟨chunk.mpr ⟨k, hk, rfl⟩, dirty⟩
  constructor
  · intro b hb dirty clean
    rw [pages, dirty, Bool.true_and, Bool.not_eq_false', List.any_eq_true] at clean
    obtain ⟨c, hc, here⟩ := clean
    obtain ⟨k, hk, rfl⟩ := chunk.mp hc
    simp only [beq_iff_eq] at here
    rcases whole with ⟨aligned, stop⟩ | clean
    · have start : add32 offset (0x1000 * k) % 0x1000 = 0 := by
        unfold add32 u32
        omega
      -- a chunk that is not a whole page ends where the range does
      have last : cb - 0x1000 * k < 0x1000 →
          add32 offset cb = add32 offset (0x1000 * k) + (cb - 0x1000 * k) := by
        unfold add32 u32
        omega
      apply written hk (by rw [here]; exact dirty) (by omega)
      by_cases full : 0x1000 ≤ cb - 0x1000 * k
      · omega
      · have stopped := last (by omega)
        rcases stop with stop | stop | stop
        · omega
        · omega
        · have same : add32 offset cb / 0x1000 = b / 0x1000 := by omega
          rw [same, dirty] at stop
          cases stop
    · have tested := clean (offset + 0x1000 * k) (by omega) (by omega)
      change map.isDirtyPage (add32 offset (0x1000 * k) / 0x1000) = false at tested
      rw [here, dirty] at tested
      cases tested
  · intro b lo hi dirty
    rcases whole with ⟨aligned, -⟩ | clean
    · have start : add32 offset (0x1000 * (b / 0x1000 - offset / 0x1000)) =
          0x1000 * (b / 0x1000) := by
        unfold add32 u32
        omega
      have here : 0x1000 * (b / 0x1000) / 0x1000 = b / 0x1000 := by omega
      apply written (k := b / 0x1000 - offset / 0x1000) (by omega)
      · rw [start, here]
        exact dirty
      · omega
      · omega
    · have tested := clean b lo (by omega)
      rw [show u32 b = b from Nat.mod_eq_of_lt (by omega), dirty] at tested
      cases tested

/-- A flush that succeeds: through a view that is not for writing to the file it did
nothing; through any other, and in whole pages, it lost nothing. -/
theorem flushView_losesNothing {map : Win32MemMap} {os : Os} {viewaddr : Option ℕ}
    {offset cbFlush : ℕ} (file : map.fFile = true) (hsize : map.mSize < 0x100000000)
    (inside : offset ≤ map.mSize) (hcb : cbFlush < 0x100000000)
    (h : (map.flushView os viewaddr offset cbFlush).1 = true) :
    (¬Flushes map viewaddr → (map.flushView os viewaddr offset cbFlush).2 = (map, [])) ∧
    (Flushes map viewaddr → WholePages map offset cbFlush →
      LosesNothing map (map.flushView os viewaddr offset cbFlush).2.1
        (map.flushView os viewaddr offset cbFlush).2.2 offset cbFlush) := by
  refine ⟨flushView_ignored os, ?_⟩
  intro flushes whole
  rw [flushView_eq_loop os file inside flushes] at h ⊢
  exact losesNothing_of_wholePages hsize inside hcb os whole h

/-- A page of a file, written through one view. -/
def writtenPage : Win32MemMap :=
  run (newFileMap {} 0x1000 pageReadwrite) [
    (.mapViewOfFile none 0x1000 0 fileMapWrite, { pMapView := 0x10000 }),
    (.pageFault 0x10000 true 1, {})]

theorem writtenPage_losesNothing :
    LosesNothing writtenPage (writtenPage.flushView {} none 0 0x1000).2.1
      (writtenPage.flushView {} none 0 0x1000).2.2 0 0x1000 :=
  (flushView_losesNothing (by decide) (by decide) (by decide) (by decide) (by decide)).2
    ⟨fileMapWrite, by decide, by decide, by decide⟩ (.inl ⟨by decide, by decide⟩)

/-- The same page flushed through a view for reading: the flush succeeds and the page is
not written. -/
theorem readonlyView_not_losesNothing :
    ¬∀ (map : Win32MemMap) (os : Os) (viewaddr : Option ℕ) (offset cbFlush : ℕ),
      map.fFile = true → map.mSize < 0x100000000 → offset ≤ map.mSize → cbFlush < 0x100000000 →
      (map.flushView os viewaddr offset cbFlush).1 = true →
      LosesNothing map (map.flushView os viewaddr offset cbFlush).2.1
        (map.flushView os viewaddr offset cbFlush).2.2 offset cbFlush := by
  intro all
  have flushed := all (writtenPage.step { pMapView := 0x20000 }
    (.mapViewOfFile none 0x1000 0 fileMapRead)) {} (some 0x20000) 0 0x1000
    (by decide) (by decide) (by decide) (by decide) (by decide)
  obtain ⟨w, mem, -⟩ := flushed.asked 0 (by decide) (by decide) (by decide)
  exact List.not_mem_nil mem

end Odin32.MemMapFlush
