import Odin32.MemMapTrack

/-! # Committing pages

What the loop of `commitPage` does to the writable pages, region by region. A read makes
pages readable that were reserved, and none of them writable, as long as the file
delivers them and the aliases are brought up to date; a write makes one page writable
and marks it dirty. -/

set_option autoImplicit false

namespace Odin32.MemMapTrack
open Odin32.Word Odin32.MemMap Odin32.MemMap.Win32MemMap

/-! ## Regions -/

theorem takeWhile_range' (P : ℕ → Bool) (n first : ℕ) :
    ((List.range' first n).takeWhile P).length ≤ n ∧
    (∀ q, first ≤ q → q < first + ((List.range' first n).takeWhile P).length → P q = true) ∧
    (((List.range' first n).takeWhile P).length < n →
      P (first + ((List.range' first n).takeWhile P).length) = false) := by
  induction n generalizing first with
  | zero =>
    refine ⟨Nat.le_refl _, ?_, ?_⟩
    · intro q lo hi
      simp at hi
      omega
    · intro h
      simp at h
  | succ n ih =>
    obtain ⟨le, all, stop⟩ := ih (first + 1)
    rw [List.range'_succ]
    by_cases here : P first = true
    · rw [List.takeWhile_cons_of_pos here, List.length_cons]
      refine ⟨by omega, ?_, ?_⟩
      · intro q lo hi
        by_cases eq : q = first
        · rw [eq]
          exact here
        · exact all q (by omega) (by omega)
      · intro lt
        have := stop (by omega)
        rwa [Nat.add_right_comm, Nat.add_assoc] at this
    · rw [List.takeWhile_cons_of_neg here]
      refine ⟨Nat.zero_le _, ?_, ?_⟩
      · intro q lo hi
        simp at hi
        omega
      · intro _
        simpa using here

theorem regionSize_spec (map : Win32MemMap) (first : ℕ) {faultsize : ℕ} (nonzero : 0 < faultsize)
    (reserved : 0x1000 * first < map.cbReserved) :
    0 < map.regionSize first faultsize ∧ map.regionSize first faultsize ≤ faultsize ∧
    (∀ q, first ≤ q → 0x1000 * q < 0x1000 * first + map.regionSize first faultsize →
      map.page q = map.page first ∧ 0x1000 * q < map.cbReserved) ∧
    (map.regionSize first faultsize < faultsize →
      map.regionSize first faultsize % 0x1000 = 0 ∧
      (map.cbReserved ≤ 0x1000 * first + map.regionSize first faultsize ∨
        map.page (first + map.regionSize first faultsize / 0x1000) ≠ map.page first)) := by
  obtain ⟨P, hP⟩ : ∃ P : ℕ → Bool, P = fun q =>
    decide (0x1000 * q < map.cbReserved) && map.page q == map.page first := ⟨_, rfl⟩
  obtain ⟨le, all, stop⟩ := takeWhile_range' P (pagesFor faultsize) first
  have size : map.regionSize first faultsize =
      min (0x1000 * ((List.range' first (pagesFor faultsize)).takeWhile P).length) faultsize := by
    rw [hP]
    rfl
  have start : 0 < ((List.range' first (pagesFor faultsize)).takeWhile P).length := by
    by_contra none
    have here := stop (by have := pagesFor_pos.mpr nonzero; omega)
    rw [show ((List.range' first (pagesFor faultsize)).takeWhile P).length = 0 by omega] at here
    simp [hP, reserved] at here
  rw [size]
  generalize ((List.range' first (pagesFor faultsize)).takeWhile P).length = len at *
  refine ⟨by omega, Nat.min_le_right _ _, ?_, ?_⟩
  · intro q lo hi
    have here := all q lo (by omega)
    simp only [hP, Bool.and_eq_true, decide_eq_true_eq, beq_iff_eq] at here
    exact ⟨here.2, here.1⟩
  · intro lt
    have full : min (0x1000 * len) faultsize = 0x1000 * len := by omega
    rw [full]
    have there := stop (by unfold pagesFor; omega)
    rw [hP] at there
    simp only [Bool.and_eq_false_iff, decide_eq_false_iff_not, Nat.not_lt, beq_eq_false_iff_ne]
      at there
    refine ⟨by omega, ?_⟩
    rw [Nat.mul_div_cancel_left len (by decide)]
    rcases there with beyond | other
    · left
      omega
    · exact .inr other

theorem protectPages_eq {map : Win32MemMap} {start size : ℕ} {a : PageAttr}
    (aligned : start % 0x1000 = 0)
    (committed : ∀ q, start ≤ 0x1000 * q → 0x1000 * q < start + size → (map.page q).isSome = true) :
    map.protectPages start size a = some { map with
      page := fun q =>
        if start ≤ 0x1000 * q ∧ 0x1000 * q < start + size then some a else map.page q } := by
  have mem : ∀ q, q ∈ List.range' (start / 0x1000) (pagesFor (start % 0x1000 + size)) ↔
      start ≤ 0x1000 * q ∧ 0x1000 * q < start + size := by
    intro q
    rw [List.mem_range'_1]
    unfold pagesFor
    omega
  have all : ((List.range' (start / 0x1000) (pagesFor (start % 0x1000 + size))).all
      fun q => (map.page q).isSome) = true := by
    rw [List.all_eq_true]
    intro q hq
    exact committed q ((mem q).mp hq).1 ((mem q).mp hq).2
  unfold protectPages
  dsimp only
  rw [if_pos all]
  simp only [mem]

/-! ## One region -/

theorem commitRegion_read {map : Win32MemMap} {os : Os} {offset offPage : ℕ} (size : ℕ)
    (placed : AllPlaced map) (aligned : offPage % 0x1000 = 0)
    (small : offPage + size < 0x100000000)
    (region : map.page (offPage / 0x1000) = none →
      (map.fFile = true → os.fRead offPage = true) ∧ (offset = offPage ∨ os.fAliasWrite = false)) :
    (map.commitRegion os false offset offPage size).1 = true ∧
    KeepsTrack map (map.commitRegion os false offset offPage size).2.1 ∧
    (∀ q, offPage + size ≤ 0x1000 * q →
      (map.commitRegion os false offset offPage size).2.1.page q = map.page q) ∧
    ((map.commitRegion os false offset offPage size).2.2 = offset ∨
      (map.commitRegion os false offset offPage size).2.2 = offPage) := by
  unfold commitRegion
  dsimp only
  rcases here : map.page (offPage / 0x1000) with _ | attr
  · obtain ⟨read, fresh⟩ := region here
    have delivered : (map.fFile && !os.fRead offPage) = false := by
      cases file : map.fFile with
      | false => rfl
      | true => rw [read file]; rfl
    obtain ⟨committed, hcommitted⟩ : ∃ committed, committed =
        (map.commitPages os (offPage / 0x1000) (nrPages size)).updateViewPages offset size
          .readonly := ⟨_, rfl⟩
    have pages : ∀ q, committed.page q =
        if offPage ≤ 0x1000 * q ∧ 0x1000 * q < offPage + size then some .readwrite
        else map.page q := by
      intro q
      rw [hcommitted]
      apply if_congr _ rfl rfl
      unfold nrPages pagesFor
      omega
    have file : committed.fFile = map.fFile := by rw [hcommitted]; rfl
    have isRead : ∀ q, offPage ≤ 0x1000 * q → 0x1000 * q < offPage + size →
        (committed.page q).isSome = true := by
      intro q lo hi
      rw [pages, if_pos ⟨lo, hi⟩]
      rfl
    simp only [Bool.false_eq_true, if_false]
    rw [← hcommitted, file, delivered, protectPages_eq aligned isRead]
    simp only [Bool.false_eq_true, if_false, true_and]
    refine ⟨?_, ?_, ?_⟩
    · rintro p ⟨a, hpage, hw⟩
      dsimp only at hpage hw
      -- an alias that writes the page afterwards did so before, outside the region
      have views : ∀ view' ∈ committed.views, Writes view' p →
          ¬(offPage ≤ 0x1000 * p ∧ 0x1000 * p < offPage + size) ∧
            ∃ view ∈ map.views, Writes view p := by
        intro view' mem writes
        rw [hcommitted] at mem
        obtain ⟨view₁, mem₁, rfl⟩ := mem_updateViewPages mem
        obtain ⟨view, mem₂, rfl⟩ := List.mem_map.mp mem₁
        obtain ⟨writes, beyond⟩ := writes_readonly writes
        have place := placed_of_place (place_freshPages view os.fAliasWrite (offPage / 0x1000)
          (nrPages size)) (placed view mem₂)
        rcases writes_freshPages writes with ⟨lo, hi, alias'⟩ | ⟨outside, writes⟩
        · rcases fresh with rfl | notAlias
          · refine absurd ?_ (beyond place aligned small)
            unfold nrPages pagesFor at hi
            omega
          · rw [notAlias] at alias'
            cases alias'
        · refine ⟨?_, view, mem₂, writes⟩
          unfold nrPages pagesFor at outside
          omega
      right
      refine ⟨?_, fun dirty => by rw [hcommitted]; exact dirty⟩
      by_cases inside : offPage ≤ 0x1000 * p ∧ 0x1000 * p < offPage + size
      · rw [if_pos inside] at hpage
        obtain rfl := Option.some.inj hpage
        rcases hw with hw | ⟨view', mem, writes⟩
        · cases hw
        · exact absurd inside (views view' mem writes).1
      · rw [if_neg inside, pages, if_neg inside] at hpage
        refine ⟨a, hpage, ?_⟩
        rcases hw with hw | ⟨view', mem, writes⟩
        · exact .inl hw
        · exact .inr (views view' mem writes).2
    · intro q beyond
      rw [if_neg (by omega), pages, if_neg (by omega)]
    · split
      · exact .inr rfl
      · exact .inl rfl
  · exact ⟨rfl, KeepsTrack.refl map, fun _ _ => rfl, .inl rfl⟩

theorem isDirtyPage_markDirtyPages {map : Win32MemMap} (bitmap : map.pWriteBitmap.isSome = true)
    (startpage nrpages p : ℕ) :
    (map.markDirtyPages startpage nrpages).isDirtyPage p =
      (decide (startpage ≤ p ∧ p < startpage + nrpages) || map.isDirtyPage p) := by
  obtain ⟨bits, hbits⟩ := Option.isSome_iff_exists.mp bitmap
  unfold isDirtyPage markDirtyPages setDirtyPages
  simp only [hbits, Option.map_some]
  by_cases inside : startpage ≤ p ∧ p < startpage + nrpages
  · simp [inside]
  · rw [if_neg inside, decide_eq_false inside, Bool.false_or]

theorem writes_view_guard {map : Win32MemMap} {offset size p : ℕ} {view' : Win32MemMapView}
    (placed : AllPlaced map) (aligned : offset % 0x1000 = 0) (small : offset + size < 0x100000000)
    (mem : view' ∈ ((map.updateViewPages offset size .view).updateViewPages offset size
      .guard).views) (writes : Writes view' p) :
    (∃ view ∈ map.views, Writes view p) ∨ offset ≤ 0x1000 * p ∧ 0x1000 * p < offset + size := by
  obtain ⟨view₁, mem₁, rfl⟩ := mem_updateViewPages mem
  obtain ⟨view, mem₂, rfl⟩ := mem_updateViewPages mem₁
  rcases writes_view (placed view mem₂) aligned small (writes_guard writes) with writes | reached
  · exact .inl ⟨view, mem₂, writes⟩
  · exact .inr reached

theorem keepsTrack_of_marked {map map' : Win32MemMap} (page : ℕ)
    (dirty : ∀ p, map'.isDirtyPage p = (decide (page ≤ p ∧ p < page + 1) || map.isDirtyPage p))
    (others : ∀ p, p ≠ page → Writable map' p → Writable map p) : KeepsTrack map map' := by
  intro p writable
  rw [dirty]
  by_cases here : p = page
  · left
    simp [here]
  · exact .inr ⟨others p here writable, fun h => by rw [h, Bool.or_true]⟩

theorem commitRegion_write {map : Win32MemMap} {os : Os} {offPage : ℕ} (size : ℕ)
    (placed : AllPlaced map) (bitmap : map.pWriteBitmap.isSome = true)
    (aligned : offPage % 0x1000 = 0) (small : offPage + size < 0x100000000)
    (nonzero : 0 < size) (one : size ≤ 0x1000)
    (region : map.page (offPage / 0x1000) = none → map.fFile = true → os.fRead offPage = true) :
    KeepsTrack map (map.commitRegion os true offPage offPage size).2.1 := by
  have count : nrPages size = 1 := by
    unfold nrPages pagesFor
    omega
  have inside : ∀ {p}, offPage ≤ 0x1000 * p ∧ 0x1000 * p < offPage + size → p = offPage / 0x1000 := by
    omega
  unfold commitRegion
  dsimp only
  rw [count]
  rcases here : map.page (offPage / 0x1000) with _ | attr
  · have delivered : (map.fFile && !os.fRead offPage) = false := by
      cases file : map.fFile with
      | false => rfl
      | true => rw [region here file]; rfl
    obtain ⟨fresh, hfresh⟩ : ∃ fresh, fresh = map.commitPages os (offPage / 0x1000) 1 := ⟨_, rfl⟩
    have same : SameExtent map fresh := hfresh ▸ sameExtent_commitPages map os _ _
    have file : (fresh.updateViewPages offPage size .view).fFile = map.fFile := same.fFile
    simp only [if_true]
    rw [← hfresh, file, delivered]
    simp only [Bool.false_eq_true, if_false, ite_self]
    apply keepsTrack_of_marked (offPage / 0x1000)
    · intro p
      show (markDirtyPages _ _ _).isDirtyPage p = _
      have bitmap' : (fresh.updateViewPages offPage size .view).pWriteBitmap.isSome = true :=
        same.fWriteBitmap.trans bitmap
      rw [isDirtyPage_markDirtyPages bitmap', hfresh]
      rfl
    · rintro p other ⟨a, hpage, hw⟩
      have hpage' : fresh.page p = some a := hpage
      rw [hfresh] at hpage'
      refine ⟨a, ?_, ?_⟩
      · rw [← hpage']
        exact (if_neg (by omega)).symm
      · rcases hw with hw | ⟨view', mem, writes⟩
        · exact .inl hw
        · rcases writes_view_guard (placed.of_same same) aligned small mem writes with
            ⟨view₁, mem₁, writes⟩ | reached
          · rw [hfresh] at mem₁
            obtain ⟨view, mem₂, rfl⟩ := List.mem_map.mp mem₁
            rcases writes_freshPages writes with ⟨lo, hi, -⟩ | ⟨-, writes⟩
            · omega
            · exact .inr ⟨view, mem₂, writes⟩
          · exact absurd (inside reached) other
  · simp only [if_true]
    have committed : ∀ q, offPage ≤ 0x1000 * q → 0x1000 * q < offPage + size →
        ((map.markDirtyPages (offPage / 0x1000) 1).page q).isSome = true := by
      intro q lo hi
      rw [inside ⟨lo, hi⟩]
      show (map.page _).isSome = true
      rw [here]
      rfl
    rw [protectPages_eq aligned committed]
    dsimp only
    obtain ⟨marked, hmarked⟩ : ∃ marked : Win32MemMap, marked =
        { map.markDirtyPages (offPage / 0x1000) 1 with
          page := fun q => if offPage ≤ 0x1000 * q ∧ 0x1000 * q < offPage + size then
            some .readwrite else (map.markDirtyPages (offPage / 0x1000) 1).page q } := ⟨_, rfl⟩
    rw [← hmarked]
    apply keepsTrack_of_marked (offPage / 0x1000)
    · intro p
      show marked.isDirtyPage p = _
      rw [← isDirtyPage_markDirtyPages bitmap, hmarked]
      rfl
    · rintro p other ⟨a, hpage, hw⟩
      have hpage' : marked.page p = some a := hpage
      rw [hmarked] at hpage'
      dsimp only at hpage'
      rw [if_neg (fun reached => other (inside reached))] at hpage'
      refine ⟨a, hpage', ?_⟩
      rcases hw with hw | ⟨view', mem, writes⟩
      · exact .inl hw
      · have placed' : AllPlaced marked := by
          rw [hmarked]
          exact placed
        rcases writes_view_guard placed' aligned small mem writes with
          ⟨view, mem₁, writes⟩ | reached
        · rw [hmarked] at mem₁
          exact .inr ⟨view, mem₁, writes⟩
        · exact absurd (inside reached) other

/-! ## The loop -/

/-- The reads of a range of pages, from the region of `first` on: the file delivers every
region that is still reserved, and where the region is not the one that `offset` is set
to, the system does not hand its pages out for writing. -/
def ReadsOk (map : Win32MemMap) (os : Os) (offset first nrpages : ℕ) : Prop :=
  ∀ p, first ≤ p → p < first + nrpages → 0x1000 * p < map.cbReserved → map.page p = none →
    (p = first ∨ map.page (p - 1) ≠ none) →
    (map.fFile = true → os.fRead (0x1000 * p) = true) ∧
      (offset = 0x1000 * p ∨ os.fAliasWrite = false)

theorem keepsTrack_commitLoop_read {os : Os} (rounds : ℕ) {map : Win32MemMap}
    {offset offPage faultsize : ℕ} (placed : AllPlaced map) (small : map.cbReserved ≤ 0x7fc00000)
    (aligned : offPage % 0x1000 = 0) (stale : offset ≤ offPage)
    (reads : ReadsOk map os offset (offPage / 0x1000) (pagesFor faultsize)) :
    KeepsTrack map (commitLoop os false rounds map offset offPage faultsize).2 := by
  induction rounds generalizing map offset offPage faultsize with
  | zero => exact KeepsTrack.refl map
  | succ rounds ih =>
    unfold commitLoop
    split
    · exact KeepsTrack.refl map
    next nonzero =>
    split
    · exact KeepsTrack.refl map
    next reserved =>
    have start : 0x1000 * (offPage / 0x1000) = offPage := by omega
    obtain ⟨pos, le, region, stop⟩ := regionSize_spec map (offPage / 0x1000)
      (Nat.pos_of_ne_zero nonzero) (by omega)
    rw [start] at region stop
    dsimp only
    generalize map.regionSize (offPage / 0x1000) faultsize = size at *
    have within : offPage + size ≤ map.cbReserved + 0xfff := by
      have last := (region ((offPage + size - 1) / 0x1000) (by omega) (by omega)).2
      omega
    have first : map.page (offPage / 0x1000) = none →
        (map.fFile = true → os.fRead offPage = true) ∧
          (offset = offPage ∨ os.fAliasWrite = false) := by
      intro none
      have := reads (offPage / 0x1000) (Nat.le_refl _) (by unfold pagesFor; omega) (by omega) none
        (.inl rfl)
      rwa [start] at this
    have same := sameExtent_commitRegion map os false offset offPage size
    obtain ⟨ok, keeps, beyond, setTo⟩ := commitRegion_read size placed aligned (by omega) first
    rcases result : map.commitRegion os false offset offPage size with ⟨ok', map', offset'⟩
    rw [result] at same ok keeps beyond setTo
    dsimp only at same ok keeps beyond setTo ⊢
    subst ok
    dsimp only
    apply keeps.trans
    by_cases last : size = faultsize
    · rw [last, Nat.sub_self]
      cases rounds <;> exact KeepsTrack.refl map'
    obtain ⟨whole, stop⟩ := stop (by omega)
    have next : add32 offPage size = offPage + size := add32_of_lt (by omega)
    rw [next]
    apply ih (placed.of_same same)
    · rw [same.cbReserved]
      exact small
    · omega
    · omega
    · -- a reserved region behind this one was there before, and is not the first
      intro p lo hi inside none begins
      rw [same.cbReserved] at inside
      rw [beyond p (by omega)] at none
      have more : p < offPage / 0x1000 + pagesFor faultsize := by
        unfold pagesFor at hi ⊢
        omega
      have begins' : map.page (p - 1) ≠ Option.none := by
        rcases begins with rfl | begins
        · rcases stop with stop | stop
          · omega
          · have here : offPage / 0x1000 + size / 0x1000 = (offPage + size) / 0x1000 := by omega
            rw [here, none] at stop
            rw [(region ((offPage + size) / 0x1000 - 1) (by omega) (by omega)).1]
            exact stop.symm
        · by_cases edge : p = (offPage + size) / 0x1000
          · rcases stop with stop | stop
            · omega
            · have here : offPage / 0x1000 + size / 0x1000 = p := by omega
              rw [here, none] at stop
              rw [(region (p - 1) (by omega) (by omega)).1]
              exact stop.symm
          · rwa [beyond (p - 1) (by omega)] at begins
      obtain ⟨read, fresh⟩ := reads p (by omega) more inside none (.inr begins')
      rw [same.fFile]
      refine ⟨read, .inr ?_⟩
      rcases fresh with fresh | notAlias
      · omega
      · exact notAlias

theorem keepsTrack_commitLoop_write {os : Os} (rounds : ℕ) {map : Win32MemMap}
    {offPage faultsize : ℕ} (placed : AllPlaced map) (small : map.cbReserved ≤ 0x7fc00000)
    (bitmap : map.pWriteBitmap.isSome = true) (aligned : offPage % 0x1000 = 0)
    (one : offPage < map.cbReserved → faultsize ≤ 0x1000)
    (read : map.page (offPage / 0x1000) = none → map.fFile = true → os.fRead offPage = true) :
    KeepsTrack map (commitLoop os true rounds map offPage offPage faultsize).2 := by
  cases rounds with
  | zero => exact KeepsTrack.refl map
  | succ rounds =>
    unfold commitLoop
    split
    · exact KeepsTrack.refl map
    next nonzero =>
    split
    · exact KeepsTrack.refl map
    next reserved =>
    have start : 0x1000 * (offPage / 0x1000) = offPage := by omega
    have single := one (by omega)
    obtain ⟨pos, le, -, stop⟩ := regionSize_spec map (offPage / 0x1000)
      (Nat.pos_of_ne_zero nonzero) (by omega)
    dsimp only
    generalize map.regionSize (offPage / 0x1000) faultsize = size at *
    have all : size = faultsize := by
      by_contra less
      have := (stop (by omega)).1
      omega
    have keeps := commitRegion_write size placed bitmap aligned (by omega) pos (by omega) read
    rcases result : map.commitRegion os true offPage offPage size with ⟨ok, map', offset'⟩
    rw [result] at keeps
    cases ok with
    | false => exact keeps
    | true =>
      dsimp only at keeps ⊢
      rw [all, Nat.sub_self]
      cases rounds <;> exact keeps

end Odin32.MemMapTrack
