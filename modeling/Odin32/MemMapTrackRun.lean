import Odin32.MemMapRegion
import Odin32.MemMapExtent
import Odin32.MemMapFlush

/-! # Write tracking over runs

A run from a new map of a file keeps every writable page marked dirty, as long as no step
runs into one of the gaps of the tracking: a write view over pages that are committed and
clean, a read of the file that fails, an alias of pages that are committed behind others,
a write fault that is handled as if the view were a private copy, and a flush that starts
inside a dirty page. -/

set_option autoImplicit false

namespace Odin32.MemMapTrack
open Odin32.Word Odin32.MemMap Odin32.MemMap.Win32MemMap Odin32.MemMapFlush
open Odin32.MemMapExtent

/-! ## The steps in order -/

/-- A read fault at an offset of the map. -/
def ReadFaultOk (map : Win32MemMap) (os : Os) (offset nrpages : ℕ) : Prop :=
  let offPage := offset / 0x1000 * 0x1000
  ReadsOk map os offPage (offPage / 0x1000) (pagesFor (map.faultSize false offPage nrpages))

/-- A fault handled by `commitFile`. -/
def FileFaultOk (map : Win32MemMap) (os : Os) (ulFaultAddr offset : ℕ) (fWriteAccess : Bool)
    (nrpages : ℕ) : Prop :=
  if fWriteAccess then
    map.viewMayWrite ulFaultAddr = true → map.page (offset / 0x1000) = none →
      map.fFile = true → os.fRead (offset / 0x1000 * 0x1000) = true
  else ReadFaultOk map os offset nrpages

/-- A fault handled by `commitGuardPage`: the page it makes writable is private, or it
was dirty already. -/
def GuardFaultOk (map : Win32MemMap) (os : Os) (ulFaultAddr offset : ℕ) (fWriteAccess : Bool) :
    Prop :=
  ReadFaultOk map os (offset / 0x1000 * 0x1000) 1 ∧
  (fWriteAccess = true → has map.mProtFlags (pageReadwrite ||| pageWritecopy) = true →
    ∀ view, map.findView ulFaultAddr = some view → view.isCow = false →
      map.isDirtyPage (view.mOffset / 0x1000 + (ulFaultAddr - view.pMapView) / 0x1000) = true)

/-- The fault is handled as one of a private copy. -/
def guarded (map : Win32MemMap) (view : Win32MemMapView) (fWriteAccess : Bool) : Bool :=
  (match view.mOwnerMap.bind fun i => map.dups[i]? with
    | some dup => has dup.mProtFlags pageWritecopy
    | none => false) ||
  fWriteAccess && has map.mProtFlags pageWritecopy

/-- A flush that starts with a page, or finds no page to write. -/
def FlushOk (map : Win32MemMap) (viewaddr : Option ℕ) (offset cbFlush : ℕ) : Prop :=
  Flushes map viewaddr → offset ≤ map.mSize → offset % 0x1000 = 0 ∨
    ∀ k, 0x1000 * k < map.flushSize offset cbFlush →
      map.isDirtyPage (add32 offset (0x1000 * k) / 0x1000) = false

/-- A request for a view through a map object: an alias for writing is of pages that are
reserved or dirty. -/
def ViewOk (map : Win32MemMap) (os : Os) (mSize mProtFlags readProt : ℕ) (fFile : Bool)
    (size offset fdwAccess : ℕ) : Prop :=
  accessAllowed mProtFlags readProt fdwAccess = true →
  ∀ mSize' cbView, viewExtent mSize fFile size offset fdwAccess = some (mSize', cbView) →
    has (viewAccess os fdwAccess) memmapAccessCopyonwrite = false →
    map.aliasOk os offset cbView fdwAccess = true → (aliasAttr fdwAccess).write = true →
    ∀ p, offset ≤ 0x1000 * p → 0x1000 * p < offset + cbView → map.page p ≠ none →
      map.isDirtyPage p = true

def TrackOk (map : Win32MemMap) (os : Os) : Op → Prop
  | .newDup _ => True
  | .mapViewOfFile none size offset fdwAccess =>
    ViewOk map os map.mSize map.mProtFlags (pageReadwrite ||| pageReadonly ||| pageWritecopy)
      map.fFile size offset fdwAccess
  | .mapViewOfFile (some i) size offset fdwAccess =>
    ∀ dup, map.dups[i]? = some dup →
      ViewOk map os dup.mSize dup.mProtFlags (pageReadwrite ||| pageReadonly) dup.fFile
        size offset fdwAccess
  | .pageFault address fWriteAccess nrpages =>
    ∀ view offset, findMapByView map.views address (faultAccess fWriteAccess) = some (view, offset) →
      if guarded map view fWriteAccess then GuardFaultOk map os address offset fWriteAccess
      else FileFaultOk map os address offset fWriteAccess nrpages
  | .guardFault address fWriteAccess =>
    ∀ view offset, findMapByView map.views address (faultAccess fWriteAccess) = some (view, offset) →
      GuardFaultOk map os address offset fWriteAccess
  | .flushView viewaddr offset cbFlush => FlushOk map viewaddr offset cbFlush
  | .invalidatePages _ _ => True
  | .unmapViewOfFile address =>
    ∀ view, map.findView address = some view → has view.mfAccess memmapAccessWrite = true →
      FlushOk map none view.mOffset view.mSize

/-- What tracking rests on. -/
structure TrackInv (map : Win32MemMap) : Prop where
  tracked : Tracked map
  placed : AllPlaced map
  fWriteBitmap : map.pWriteBitmap.isSome = true
  small : map.cbReserved ≤ 0x7fc00000
  aligned : map.cbReserved % 0x1000 = 0
  whole : map.cbReserved < map.mSize + 0x1000
  word : map.mSize < 0x100000000

theorem TrackInv.of_keeps {map map' : Win32MemMap} (inv : TrackInv map)
    (same : SameExtent map map') (keeps : KeepsTrack map map') : TrackInv map' where
  tracked := keeps.tracked inv.tracked
  placed := inv.placed.of_same same
  fWriteBitmap := same.fWriteBitmap.trans inv.fWriteBitmap
  small := by
    rw [same.cbReserved]
    exact inv.small
  aligned := by
    rw [same.cbReserved]
    exact inv.aligned
  whole := by
    rw [same.cbReserved, same.mSize]
    exact inv.whole
  word := by
    rw [same.mSize]
    exact inv.word

/-! ## Faults -/

theorem keepsTrack_read {map : Win32MemMap} {os : Os} {ulFaultAddr offset nrpages : ℕ}
    (placed : AllPlaced map) (small : map.cbReserved ≤ 0x7fc00000)
    (ok : ReadFaultOk map os offset nrpages) :
    KeepsTrack map (map.commitFile os ulFaultAddr offset false nrpages).2 := by
  unfold commitFile
  simp only [Bool.false_and, Bool.false_eq_true, if_false]
  exact keepsTrack_commitLoop_read _ placed small (Nat.mul_mod_left _ _) (Nat.le_refl _) ok

theorem keepsTrack_write {map : Win32MemMap} {os : Os} {ulFaultAddr offset nrpages : ℕ}
    (inv : TrackInv map) (ok : FileFaultOk map os ulFaultAddr offset true nrpages) :
    KeepsTrack map (map.commitFile os ulFaultAddr offset true nrpages).2 := by
  unfold commitFile
  simp only [Bool.true_and]
  by_cases may : map.viewMayWrite ulFaultAddr = true
  · simp only [may, Bool.not_true, Bool.false_eq_true, if_false]
    have small := inv.small
    have aligned := inv.aligned
    have whole := inv.whole
    have start : offset / 0x1000 * 0x1000 % 0x1000 = 0 := Nat.mul_mod_left _ _
    apply keepsTrack_commitLoop_write _ inv.placed inv.small inv.fWriteBitmap start
    · generalize offset / 0x1000 * 0x1000 = offPage at start
      intro reserved
      have sum : add32 offPage 0x1000 = offPage + 0x1000 := add32_of_lt (by omega)
      unfold faultSize
      simp only [if_true]
      rw [sum]
      split
      · next beyond =>
        have rest : sub32 map.mSize offPage = map.mSize - offPage :=
          sub32_of_le (by omega) (by omega)
        rw [rest]
        omega
      · exact Nat.le_refl _
    · rw [Nat.mul_div_cancel _ (by decide)]
      exact ok may
  · simp only [may, Bool.not_false, if_true]
    exact KeepsTrack.refl map

theorem isDirtyPage_commitLoop_read {os : Os} (rounds : ℕ) (map : Win32MemMap)
    (offset offPage faultsize p : ℕ) :
    (commitLoop os false rounds map offset offPage faultsize).2.isDirtyPage p =
      map.isDirtyPage p := by
  induction rounds generalizing map offset offPage faultsize with
  | zero => rfl
  | succ rounds ih =>
    have region : (map.commitRegion os false offset offPage
        (map.regionSize (offPage / 0x1000) faultsize)).2.1.isDirtyPage p = map.isDirtyPage p := by
      unfold commitRegion
      dsimp only
      split
      · simp only [Bool.false_eq_true, if_false]
        split
        · rfl
        · split
          · rfl
          · next protected' => exact isDirtyPage_protectPages protected' p
      · rfl
    unfold commitLoop
    split
    · rfl
    split
    · rfl
    dsimp only
    split
    · next result =>
      rw [result] at region
      exact region
    · next result =>
      rw [result] at region
      rw [ih]
      exact region

theorem isDirtyPage_commitFile_read (map : Win32MemMap) (os : Os) (ulFaultAddr offset nrpages p : ℕ) :
    (map.commitFile os ulFaultAddr offset false nrpages).2.isDirtyPage p = map.isDirtyPage p := by
  unfold commitFile
  simp only [Bool.false_and, Bool.false_eq_true, if_false]
  exact isDirtyPage_commitLoop_read _ map _ _ _ p

theorem keepsTrack_modifyView {map : Win32MemMap} {address : ℕ}
    {f : Win32MemMapView → Win32MemMapView}
    (hf : ∀ p view, map.findView address = some view → Writes (f view) p →
      map.isDirtyPage p = true ∨ Writes view p) :
    KeepsTrack map (map.modifyView address f) := by
  apply keepsTrack_of_views
  · exact fun _ => rfl
  · exact fun _ => rfl
  · intro p view' mem writes
    rcases mem_modifyFirst mem with mem' | ⟨view, found, rfl⟩
    · exact .inr ⟨view', mem', writes⟩
    · rcases hf p view found writes with dirty | before
      · exact .inl dirty
      · exact .inr ⟨view, List.mem_of_find?_eq_some found, before⟩

theorem findView_of_same {map map' : Win32MemMap} {address : ℕ} {view' : Win32MemMapView}
    (same : SameExtent map map') (found : map'.findView address = some view') :
    ∃ view, map.findView address = some view ∧ view'.place = view.place := by
  obtain ⟨inside, hinside⟩ : ∃ inside : ℕ × ℕ × ℕ × ℕ × Option ℕ → Bool, inside =
    fun place => decide (place.1 ≤ address) && decide (address < add32 place.1 place.2.2.1) :=
    ⟨_, rfl⟩
  have through : ∀ m : Win32MemMap, (m.findView address).map Win32MemMapView.place =
      (m.views.map Win32MemMapView.place).find? inside := by
    intro m
    rw [List.find?_map, hinside]
    rfl
  have places := through map'
  rw [same.views, ← through map, found] at places
  obtain ⟨view, hview, place⟩ := Option.map_eq_some_iff.mp places.symm
  exact ⟨view, hview, place.symm⟩

theorem keepsTrack_guardPage {map : Win32MemMap} {os : Os} {ulFaultAddr offset : ℕ}
    {fWriteAccess : Bool} (inv : TrackInv map)
    (ok : GuardFaultOk map os ulFaultAddr offset fWriteAccess) :
    KeepsTrack map (map.commitGuardPage os ulFaultAddr offset fWriteAccess).2 := by
  have keeps : KeepsTrack map
      (map.commitFile os ulFaultAddr (offset / 0x1000 * 0x1000) false 1).2 :=
    keepsTrack_read inv.placed inv.small ok.1
  have same := sameExtent_commitFile map os ulFaultAddr (offset / 0x1000 * 0x1000) false 1
  have dirty := isDirtyPage_commitFile_read map os ulFaultAddr (offset / 0x1000 * 0x1000) 1
  unfold commitGuardPage
  dsimp only
  rcases result : map.commitFile os ulFaultAddr (offset / 0x1000 * 0x1000) false 1 with
    ⟨committed, map'⟩
  rw [result] at keeps same dirty
  dsimp only at keeps same dirty
  cases committed with
  | false => exact keeps
  | true =>
  dsimp only
  rw [same.mProtFlags]
  split
  · next flags =>
    cases fWriteAccess with
    | true =>
      simp only [if_true]
      apply (keeps.trans ?_).trans
      · apply keepsTrack_modifyView
        intro p view _ writes
        exact .inr writes
      · apply keepsTrack_modifyView
        intro p view' found writes
        rcases writes_protectPage writes with ⟨shared, -, rfl⟩ | before
        · left
          obtain ⟨view, hview, place⟩ := findView_of_same same found
          simp only [Win32MemMapView.place, Prod.mk.injEq] at place
          rw [place.1, place.2.1, dirty]
          apply ok.2 rfl flags view hview
          unfold Win32MemMapView.isCow at shared ⊢
          rw [← place.2.2.2.1]
          exact shared
        · exact .inr before
    | false =>
      simp only [Bool.false_eq_true, if_false]
      apply keeps.trans (KeepsTrack.trans ?_ (keepsTrack_readonly _ _ _))
      rw [modifyView_modifyView map' ulFaultAddr _ fun view =>
        place_protectPage view ulFaultAddr .readwrite]
      apply keepsTrack_modifyView
      intro p view _ writes
      exact .inr (writes_protectPage_twice writes)
  · apply keeps.trans
    apply keepsTrack_modifyView
    intro p view _ writes
    rcases writes_protectPage writes with ⟨-, hw, -⟩ | before
    · cases hw
    · exact .inr before

theorem pageFault_eq {map : Win32MemMap} (os : Os) {address offset : ℕ} {fWriteAccess : Bool}
    (nrpages : ℕ) {view : Win32MemMapView}
    (found : findMapByView map.views address (faultAccess fWriteAccess) = some (view, offset)) :
    map.pageFault os address fWriteAccess nrpages =
      if guarded map view fWriteAccess then map.commitGuardPage os address offset fWriteAccess
      else map.commitFile os address offset fWriteAccess nrpages := by
  unfold pageFault guarded commitPage
  rw [found]
  dsimp only
  rcases view.mOwnerMap.bind fun i => map.dups[i]? with _ | dup
  · simp only [Bool.false_or]
  · dsimp only
    by_cases copy : has dup.mProtFlags pageWritecopy = true <;> simp [copy]

theorem keepsTrack_pageFault {map : Win32MemMap} {os : Os} {address : ℕ} {fWriteAccess : Bool}
    {nrpages : ℕ} (inv : TrackInv map)
    (ok : TrackOk map os (.pageFault address fWriteAccess nrpages)) :
    KeepsTrack map (map.pageFault os address fWriteAccess nrpages).2 := by
  rcases found : findMapByView map.views address (faultAccess fWriteAccess) with _ | ⟨view, offset⟩
  · unfold pageFault
    rw [found]
    exact KeepsTrack.refl map
  · have fine := ok view offset found
    rw [pageFault_eq os nrpages found]
    split
    · next guard =>
      rw [if_pos guard] at fine
      exact keepsTrack_guardPage inv fine
    · next file =>
      rw [if_neg file] at fine
      cases fWriteAccess with
      | true => exact keepsTrack_write inv fine
      | false => exact keepsTrack_read inv.placed inv.small fine

theorem keepsTrack_guardFault {map : Win32MemMap} {os : Os} {address : ℕ} {fWriteAccess : Bool}
    (inv : TrackInv map) (ok : TrackOk map os (.guardFault address fWriteAccess)) :
    KeepsTrack map (map.guardFault os address fWriteAccess).2 := by
  unfold guardFault
  split
  · exact KeepsTrack.refl map
  · next found => exact keepsTrack_guardPage inv (ok _ _ found)

/-! ## Flushes -/

theorem protectPages_eq_none {map : Win32MemMap} {start size : ℕ} {a : PageAttr}
    (nonzero : 0 < size) (reserved : map.page (start / 0x1000) = none) :
    map.protectPages start size a = none := by
  unfold protectPages
  dsimp only
  rw [if_neg]
  intro all
  rw [List.all_eq_true] at all
  have here := all (start / 0x1000) (List.mem_range'_1.mpr ⟨Nat.le_refl _, by
    unfold pagesFor
    omega⟩)
  rw [reserved] at here
  cases here

theorem keepsTrack_flushChunk {map : Win32MemMap} {os : Os} {offset size : ℕ}
    (placed : AllPlaced map) (aligned : offset % 0x1000 = 0) (nonzero : 0 < size)
    (one : size ≤ 0x1000) : KeepsTrack map (map.flushChunk os offset size).2 := by
  unfold flushChunk
  split
  · obtain ⟨cleared, hcleared⟩ : ∃ cleared, cleared = map.clearDirtyPages (offset / 0x1000) 1 :=
      ⟨_, rfl⟩
    have dirty : ∀ p, p ≠ offset / 0x1000 → cleared.isDirtyPage p = map.isDirtyPage p := by
      intro p other
      rw [hcleared, clearDirtyPages, isDirtyPage_setDirtyPages]
      have outside : ¬(offset / 0x1000 ≤ p ∧ p < offset / 0x1000 + 1) := by omega
      rw [decide_eq_false outside, Bool.not_false, Bool.and_true]
    have page : ∀ p, cleared.page p = map.page p := by
      intro p
      rw [hcleared]
      rfl
    have views : cleared.views = map.views := by
      rw [hcleared]
      rfl
    dsimp only
    rw [← hcleared]
    rcases here : map.page (offset / 0x1000) with _ | attr
    · rw [protectPages_eq_none nonzero (by rw [page]; exact here)]
      rintro p ⟨a, hpage, hw⟩
      dsimp only at hpage hw ⊢
      rw [page] at hpage
      rw [views] at hw
      right
      refine ⟨⟨a, hpage, hw⟩, fun h => ?_⟩
      rw [dirty p (by rintro rfl; rw [here] at hpage; cases hpage)]
      exact h
    · have inside : ∀ {q}, offset ≤ 0x1000 * q → 0x1000 * q < offset + size →
          q = offset / 0x1000 := by omega
      rw [protectPages_eq aligned (by
        intro q lo hi
        rw [page, inside lo hi, here]
        rfl)]
      rintro p ⟨a, hpage, hw⟩
      have old : p ≠ offset / 0x1000 ∧ (a.write = true ∨ ∃ view ∈ map.views, Writes view p) := by
        rcases hw with hw | ⟨view', mem, writes⟩
        · refine ⟨?_, .inl hw⟩
          rintro rfl
          have hpage' := hpage.symm.trans (if_pos (by omega))
          obtain rfl := Option.some.inj hpage'
          cases hw
        · obtain ⟨view, mem', rfl⟩ := mem_updateViewPages mem
          have mem'' : view ∈ map.views := views ▸ mem'
          obtain ⟨writes, beyond⟩ := writes_readonly writes
          refine ⟨?_, .inr ⟨view, mem'', writes⟩⟩
          rintro rfl
          obtain ⟨start, room⟩ := placed view mem'' writes.1
          obtain ⟨-, q, hq, hp, -⟩ := writes
          unfold pagesFor at hq
          exact beyond (placed view mem'') aligned (by omega) (by omega)
      have hpage' : (if offset ≤ 0x1000 * p ∧ 0x1000 * p < offset + size then
          some PageAttr.readonly else cleared.page p) = some a := hpage
      rw [if_neg (fun reached => old.1 (inside reached.1 reached.2)), page] at hpage'
      refine .inr ⟨⟨a, hpage', old.2⟩, fun h => ?_⟩
      show cleared.isDirtyPage p = true
      rw [dirty p old.1]
      exact h
  · exact KeepsTrack.refl map

theorem keepsTrack_flushLoop {os : Os} (rounds : ℕ) {map : Win32MemMap} {offset cbFlush : ℕ}
    (placed : AllPlaced map) (aligned : offset % 0x1000 = 0) :
    KeepsTrack map (flushLoop os rounds map offset cbFlush).2.1 := by
  induction rounds generalizing map offset cbFlush with
  | zero => exact KeepsTrack.refl map
  | succ rounds ih =>
    have next : add32 offset 0x1000 % 0x1000 = 0 := by
      unfold add32 u32
      omega
    unfold flushLoop
    split
    · exact KeepsTrack.refl map
    next nonzero =>
    split
    · have chunk : KeepsTrack map (map.flushChunk os offset (min 0x1000 cbFlush)).2 :=
        keepsTrack_flushChunk placed aligned (by omega) (by omega)
      have same := sameExtent_flushChunk map os offset (min 0x1000 cbFlush)
      dsimp only
      rcases result : map.flushChunk os offset (min 0x1000 cbFlush) with ⟨ok, map'⟩
      rw [result] at chunk same
      cases ok with
      | false => exact chunk
      | true =>
        dsimp only
        rw [flushLoop_rest]
        exact chunk.trans (ih (placed.of_same same) next)
    · split
      · exact KeepsTrack.refl map
      · exact ih placed next

theorem flushLoop_clean {os : Os} (rounds : ℕ) {map : Win32MemMap} {offset cbFlush : ℕ}
    (hoffset : offset < 0x100000000)
    (clean : ∀ k, 0x1000 * k < cbFlush →
      map.isDirtyPage (add32 offset (0x1000 * k) / 0x1000) = false) :
    (flushLoop os rounds map offset cbFlush).2.1 = map := by
  induction rounds generalizing offset cbFlush with
  | zero => rfl
  | succ rounds ih =>
    unfold flushLoop
    split
    · rfl
    next nonzero =>
    have here : map.isDirtyPage (offset / 0x1000) = false := by
      have := clean 0 (by omega)
      rwa [Nat.mul_zero, add32_of_lt (by omega), Nat.add_zero] at this
    rw [here]
    simp only [Bool.false_eq_true, if_false]
    split
    · rfl
    · apply ih (add32_lt _ _)
      intro k hk
      have there := clean (k + 1) (by omega)
      have same : add32 (add32 offset 0x1000) (0x1000 * k) = add32 offset (0x1000 * (k + 1)) := by
        unfold add32 u32
        omega
      rwa [same]

theorem keepsTrack_flushView {map : Win32MemMap} {os : Os} {viewaddr : Option ℕ}
    {offset cbFlush : ℕ} (placed : AllPlaced map) (word : map.mSize < 0x100000000)
    (ok : FlushOk map viewaddr offset cbFlush) :
    KeepsTrack map (map.flushView os viewaddr offset cbFlush).2.1 := by
  by_cases flushes : Flushes map viewaddr
  · by_cases file : map.fFile = true
    · by_cases inside : offset ≤ map.mSize
      · rw [flushView_eq_loop os file inside flushes]
        rcases ok flushes inside with aligned | clean
        · exact keepsTrack_flushLoop _ placed aligned
        · rw [flushLoop_clean _ (by omega) clean]
          exact KeepsTrack.refl map
      · unfold flushView
        rw [if_neg (by simp [file]), if_pos (by omega)]
        exact KeepsTrack.refl map
    · unfold flushView
      rw [if_pos (by simpa using file)]
      exact KeepsTrack.refl map
  · rw [flushView_ignored os flushes]
    exact KeepsTrack.refl map

/-! ## The other operations -/

theorem keepsTrack_invalidatePages (map : Win32MemMap) (os : Os) (offset size : ℕ) :
    KeepsTrack map (map.invalidatePages os offset size) := by
  unfold invalidatePages
  dsimp only
  refine KeepsTrack.trans ?_ (keepsTrack_guard _ _ _)
  split
  · rintro p ⟨a, hpage, hw⟩
    have hpage' : (if offset / 0x1000 * 0x1000 / 0x1000 ≤ p ∧
        0x1000 * p < offset / 0x1000 * 0x1000 + add32 size (offset % 0x1000) then none
      else map.page p) = some a := hpage
    split at hpage'
    · cases hpage'
    · exact .inr ⟨⟨a, hpage', hw⟩, id⟩
  · exact KeepsTrack.refl map

theorem trackInv_erase {map : Win32MemMap} (inv : TrackInv map) (address : ℕ) :
    TrackInv { map with views := eraseView address map.views } where
  tracked := by
    rintro p ⟨a, hpage, hw⟩
    apply inv.tracked p
    refine ⟨a, hpage, ?_⟩
    rcases hw with hw | ⟨view, mem, writes⟩
    · exact .inl hw
    · exact .inr ⟨view, eraseView_subset mem, writes⟩
  placed view mem := inv.placed view (eraseView_subset mem)
  fWriteBitmap := inv.fWriteBitmap
  small := inv.small
  aligned := inv.aligned
  whole := inv.whole
  word := inv.word

theorem trackInv_unmap {map : Win32MemMap} {os : Os} {address : ℕ} (inv : TrackInv map)
    (ok : TrackOk map os (.unmapViewOfFile address)) :
    TrackInv (map.unmapViewOfFile os address).2 := by
  unfold unmapViewOfFile
  split
  · exact inv
  · next view found =>
    apply trackInv_erase
    split
    · next write =>
      exact inv.of_keeps (sameExtent_flushView map os none _ _)
        (keepsTrack_flushView inv.placed inv.word (ok view found write))
    · exact inv

theorem newView_track {map : Win32MemMap} {os : Os} {owner : Option ℕ}
    {offset cbView fdwAccess : ℕ} {view : Win32MemMapView} (small : map.cbReserved ≤ 0x7fc00000)
    (hsize : cbView < 0x100000000)
    (ok : has (viewAccess os fdwAccess) memmapAccessCopyonwrite = false →
      map.aliasOk os offset cbView fdwAccess = true → (aliasAttr fdwAccess).write = true →
      ∀ p, offset ≤ 0x1000 * p → 0x1000 * p < offset + cbView → map.page p ≠ none →
        map.isDirtyPage p = true)
    (h : map.newView os owner offset cbView fdwAccess = some view) :
    Placed view ∧ ∀ p, Writes view p → map.page p ≠ none → map.isDirtyPage p = true := by
  unfold newView at h
  split at h
  · next cow =>
    split at h
    · obtain rfl := Option.some.inj h
      constructor
      · intro shared
        exact absurd (cow.symm.trans shared) (by decide)
      · intro p writes
        exact absurd (cow.symm.trans writes.1) (by decide)
    · cases h
  · next shared =>
    split at h
    · next isAlias =>
      obtain rfl := Option.some.inj h
      have inside := aliasOk_inside hsize isAlias
      have aligned : offset % 0x1000 = 0 := by
        unfold aliasOk at isAlias
        simp only [Bool.and_eq_true, beq_iff_eq] at isAlias
        exact isAlias.1.1.1.2
      constructor
      · intro _
        exact ⟨aligned, by show offset + cbView ≤ _; omega⟩
      · rintro p ⟨-, q, hq, hp, hw⟩
        have hp' : p = offset / 0x1000 + q := hp
        have hq' : q < pagesFor cbView := hq
        rw [lt_pagesFor] at hq'
        exact ok (by simpa using shared) isAlias hw p (by omega) (by omega)
    · cases h

theorem trackInv_addView {map : Win32MemMap} {view : Option Win32MemMapView} (inv : TrackInv map)
    (ok : ∀ v, view = some v →
      Placed v ∧ ∀ p, Writes v p → map.page p ≠ none → map.isDirtyPage p = true) :
    TrackInv (map.addView view).2 := by
  cases view with
  | none => exact inv
  | some new =>
    obtain ⟨placed, dirty⟩ := ok new rfl
    refine ⟨?_, ?_, inv.fWriteBitmap, inv.small, inv.aligned, inv.whole, inv.word⟩
    · rintro p ⟨a, hpage, hw⟩
      have hpage' : map.page p = some a := hpage
      rcases hw with hw | ⟨v, mem, writes⟩
      · exact inv.tracked p ⟨a, hpage', .inl hw⟩
      · rcases mem_insertView.mp mem with rfl | mem
        · exact dirty p writes (by rw [hpage']; exact Option.some_ne_none a)
        · exact inv.tracked p ⟨a, hpage', .inr ⟨v, mem, writes⟩⟩
    · intro v mem
      rcases mem_insertView.mp mem with rfl | mem
      · exact placed
      · exact inv.placed v mem

theorem viewExtent_some {mSize size offset fdwAccess mSize' cbView : ℕ} {fFile : Bool}
    (hsize : size < 0x100000000)
    (h : viewExtent mSize fFile size offset fdwAccess = some (mSize', cbView)) :
    mSize ≤ mSize' ∧ (mSize < 0x100000000 → mSize' < 0x100000000) ∧ cbView < 0x100000000 := by
  unfold viewExtent at h
  split at h
  · cases h
  · obtain ⟨rfl, rfl⟩ := Prod.mk.inj (Option.some.inj h)
    have word := add32_lt offset size
    refine ⟨?_, ?_, ?_⟩
    · split <;> omega
    · split <;> omega
    · split
      · exact u32_lt _
      · exact hsize

theorem trackInv_mapViewOfFile {map : Win32MemMap} {os : Os} {size offset fdwAccess : ℕ}
    (inv : TrackInv map) (hsize : size < 0x100000000)
    (ok : TrackOk map os (.mapViewOfFile none size offset fdwAccess)) :
    TrackInv (map.mapViewOfFile os size offset fdwAccess).2 := by
  unfold mapViewOfFile
  split
  · next allowed =>
    split
    · exact inv
    · next mSize' cbView extent =>
      obtain ⟨grows, word, hview⟩ := viewExtent_some hsize extent
      obtain ⟨map', hmap'⟩ : ∃ map' : Win32MemMap, map' = { map with mSize := mSize' } := ⟨_, rfl⟩
      have inv' : TrackInv map' := by
        rw [hmap']
        have whole := inv.whole
        exact ⟨inv.tracked, inv.placed, inv.fWriteBitmap, inv.small, inv.aligned,
          by dsimp only; omega, word inv.word⟩
      dsimp only
      rw [← hmap']
      apply trackInv_addView inv'
      intro v new
      apply newView_track inv'.small hview _ new
      rw [hmap']
      exact ok allowed mSize' cbView extent
  · exact inv

theorem trackInv_dupMapViewOfFile {map : Win32MemMap} {os : Os} {i size offset fdwAccess : ℕ}
    (inv : TrackInv map) (hsize : size < 0x100000000)
    (ok : TrackOk map os (.mapViewOfFile (some i) size offset fdwAccess)) :
    TrackInv (map.dupMapViewOfFile os i size offset fdwAccess).2 := by
  unfold dupMapViewOfFile
  split
  · exact inv
  next dup get =>
  split
  · next allowed =>
    split
    · exact inv
    · next mSize' cbView extent =>
      obtain ⟨-, -, hview⟩ := viewExtent_some hsize extent
      obtain ⟨map', hmap'⟩ : ∃ map' : Win32MemMap, map' =
        { map with dups := map.dups.set i { dup with mSize := mSize' } } := ⟨_, rfl⟩
      have inv' : TrackInv map' := by
        rw [hmap']
        exact ⟨inv.tracked, inv.placed, inv.fWriteBitmap, inv.small, inv.aligned, inv.whole,
          inv.word⟩
      dsimp only
      rw [← hmap']
      apply trackInv_addView inv'
      intro v new
      apply newView_track inv'.small hview _ new
      rw [hmap']
      exact ok dup get allowed mSize' cbView extent
  · exact inv

theorem trackInv_newDup {map : Win32MemMap} (inv : TrackInv map) (mProtFlags : ℕ) :
    TrackInv (map.newDup mProtFlags) :=
  ⟨inv.tracked, inv.placed, inv.fWriteBitmap, inv.small, inv.aligned, inv.whole, inv.word⟩

/-! ## Runs -/

theorem trackInv_step {map : Win32MemMap} {os : Os} {op : Op} (inv : TrackInv map)
    (words : Words op) (ok : TrackOk map os op) : TrackInv (map.step os op) := by
  cases op with
  | newDup mProtFlags => exact trackInv_newDup inv mProtFlags
  | mapViewOfFile dup size offset fdwAccess =>
    cases dup with
    | none => exact trackInv_mapViewOfFile inv words.1 ok
    | some i => exact trackInv_dupMapViewOfFile inv words.1 ok
  | pageFault address fWriteAccess nrpages =>
    exact inv.of_keeps (sameExtent_pageFault map os address fWriteAccess nrpages)
      (keepsTrack_pageFault inv ok)
  | guardFault address fWriteAccess =>
    exact inv.of_keeps (sameExtent_guardFault map os address fWriteAccess)
      (keepsTrack_guardFault inv ok)
  | flushView viewaddr offset cbFlush =>
    exact inv.of_keeps (sameExtent_flushView map os viewaddr offset cbFlush)
      (keepsTrack_flushView inv.placed inv.word ok)
  | invalidatePages offset size =>
    exact inv.of_keeps (sameExtent_invalidatePages map os offset size)
      (keepsTrack_invalidatePages map os offset size)
  | unmapViewOfFile address => exact trackInv_unmap inv ok

/-- The memory of a new map is read whole when it is to be committed. -/
def InitOk (os : Os) (mProtFlags : ℕ) : Prop :=
  has mProtFlags secCommit = true → os.fRead 0 = true

theorem init_trackInv {os : Os} {cbFile aMSize mProtFlags : ℕ} {map : Win32MemMap}
    (h : init os (some cbFile) aMSize mProtFlags = some map) (ok : InitOk os mProtFlags) :
    TrackInv map := by
  simp only [init, allocateMap] at h
  split at h
  · cases h
  next bounds =>
  generalize max cbFile aMSize = mSize at *
  obtain ⟨region, hregion⟩ : ∃ region : Win32MemMap, region = {
      mSize := mSize
      mProtFlags := mProtFlags
      fFile := true
      cbReserved := 0x1000 * pagesFor mSize
      page := fun q => if (!true) = true ∧ 0x1000 * q < mSize then some .readwrite else none
      cbWriteBitmap := 0
      pWriteBitmap := none
      dups := []
      views := [] } := ⟨_, rfl⟩
  rw [← hregion] at h
  have reserved : ∀ p, region.page p = none := by
    intro p
    rw [hregion]
    simp
  have room : region.cbReserved = 0x1000 * pagesFor mSize := by rw [hregion]
  have size : region.mSize = mSize := by rw [hregion]
  have noBitmap : region.pWriteBitmap.isSome = false := by rw [hregion]; rfl
  have noViews : region.views = [] := by rw [hregion]
  have pages : pagesFor mSize = (mSize + 0xfff) / 0x1000 := rfl
  obtain ⟨committed, hcommitted⟩ : ∃ committed : Win32MemMap, committed =
      if (true && has mProtFlags secCommit) = true then
        (region.commitPage os 0 0 false (nrPages mSize)).2
      else region := ⟨_, rfl⟩
  rw [← hcommitted] at h
  have placed : AllPlaced region := by
    intro v mem
    exact absurd (noViews ▸ mem) List.not_mem_nil
  have both : SameExtent region committed ∧ KeepsTrack region committed := by
    rw [hcommitted]
    split
    · next commit =>
      refine ⟨sameExtent_commitPage region os 0 0 false _, ?_⟩
      unfold commitPage
      simp only [Bool.false_and, Bool.false_eq_true, if_false]
      apply keepsTrack_read placed (by omega)
      -- only the first page starts a region
      intro p lo hi inside none begins
      rcases begins with rfl | begins
      · exact ⟨fun _ => ok (by simpa using commit), .inl rfl⟩
      · exact absurd (reserved _) begins
    · exact ⟨SameExtent.refl region, KeepsTrack.refl region⟩
  obtain ⟨same, keeps⟩ := both
  have noWrites : ∀ p, ¬Writable committed p := by
    intro p writable
    rcases keeps p writable with dirty | ⟨⟨a, hpage, -⟩, -⟩
    · have noBitmap' := same.fWriteBitmap.trans noBitmap
      unfold isDirtyPage at dirty
      rcases hbits : committed.pWriteBitmap with _ | bits
      · rw [hbits] at dirty
        cases dirty
      · rw [hbits] at noBitmap'
        cases noBitmap'
    · rw [reserved] at hpage
      cases hpage
  obtain rfl := Option.some.inj h
  simp only [if_true]
  have size' := same.mSize.trans size
  have room' := same.cbReserved.trans room
  have placed' : AllPlaced committed := placed.of_same same
  refine ⟨?_, placed', rfl, ?_, ?_, ?_, ?_⟩
  · intro p writable
    exact absurd writable (noWrites p)
  all_goals
    dsimp only
    omega

/-- In every run from a new map of a file whose steps are in order, all writes are
tracked. -/
theorem run_tracked {os : Os} {cbFile aMSize mProtFlags : ℕ} {map : Win32MemMap}
    {ops : List (Op × Os)} (h : init os (some cbFile) aMSize mProtFlags = some map)
    (start : InitOk os mProtFlags) (words : ∀ op ∈ ops, Words op.1) (ok : Steps TrackOk map ops) :
    Throughout Tracked map ops :=
  throughout_of_steps (fun _ inv => inv.tracked) (fun _ _ _ => trackInv_step)
    (init_trackInv h start) words ok

theorem guarded_of_no_dups {map : Win32MemMap} (view : Win32MemMapView) (fWriteAccess : Bool)
    (dups : map.dups = []) (flags : has map.mProtFlags pageWritecopy = false) :
    guarded map view fWriteAccess = false := by
  unfold guarded
  rw [dups, flags]
  cases view.mOwnerMap <;> simp

/-- A page written through a view, flushed, and written again. -/
theorem writtenTwice_tracked :
    let map := newFileMap {} 0x1800 pageReadwrite
    let ops : List (Op × Os) := [
      (.mapViewOfFile none 0x1800 0 fileMapWrite, { pMapView := 0x10000 }),
      (.pageFault 0x10000 true 1, {}), (.flushView none 0 0x1800, {}),
      (.pageFault 0x10000 true 1, {})]
    Throughout Tracked map ops := by
  apply run_tracked (init_newFileMap {} (by decide) (by decide) (by decide))
  · intro commit
    exact absurd commit (by decide)
  · simp [Words]
  · refine ⟨?_, ?_, ?_, ?_, trivial⟩
    · intro _ _ _ _ _ _ _ p _ _ committed
      exact absurd rfl committed
    · intro view offset _
      rw [guarded_of_no_dups view true rfl (by decide)]
      intro _ _ _
      rfl
    · intro _ _
      exact .inl (by decide)
    · intro view offset _
      rw [guarded_of_no_dups view true rfl (by decide)]
      intro _ _ _
      rfl

/-- A page that is read through one view and then mapped for writing. -/
def readThenMapped : List (Op × Os) := [
  (.mapViewOfFile none 0x1000 0 fileMapRead, { pMapView := 0x10000 }),
  (.pageFault 0x10000 false 1, {}),
  (.mapViewOfFile none 0x1000 0 fileMapWrite, { pMapView := 0x20000 })]

/-- It can be written without a fault, and it is not dirty. -/
theorem readThenMapped_not_tracked :
    ¬∀ (os : Os) (cbFile aMSize mProtFlags : ℕ) (map : Win32MemMap) (ops : List (Op × Os)),
      init os (some cbFile) aMSize mProtFlags = some map → (∀ op ∈ ops, Words op.1) →
      Throughout Tracked map ops := by
  intro all
  have last : Tracked (run (newFileMap {} 0x1000 pageReadwrite) readThenMapped) :=
    (all {} 0x1000 0 pageReadwrite (newFileMap {} 0x1000 pageReadwrite) readThenMapped
      (init_newFileMap {} (by decide) (by decide) (by decide)) (by simp [readThenMapped, Words])).2.2.2
  have committed : (run (newFileMap {} 0x1000 pageReadwrite) readThenMapped).page 0 =
      some .readonly := by decide
  have mapped : ∃ view ∈ (run (newFileMap {} 0x1000 pageReadwrite) readThenMapped).views,
      Writes view 0 := by decide
  have dirty := last 0 ⟨.readonly, committed, .inr mapped⟩
  exact absurd dirty (by decide)

end Odin32.MemMapTrack
