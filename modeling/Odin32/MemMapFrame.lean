import Odin32.MemMapOps

/-! # What faults and flushes leave alone

Page faults, guard faults, flushes and invalidations change the state of pages, and
nothing about the extent of a map: its size, its region and bitmap, its duplicates
and the place of its views. Runs of operations and new maps of files are here too. -/

set_option autoImplicit false

namespace Odin32.MemMap
open Odin32.Word

/-- A view without the state of its pages. -/
def Win32MemMapView.place (view : Win32MemMapView) : ℕ × ℕ × ℕ × ℕ × Option ℕ :=
  (view.pMapView, view.mOffset, view.mSize, view.mfAccess, view.mOwnerMap)

namespace Win32MemMap

/-- Two maps that differ in the state of their pages only. -/
structure SameExtent (map map' : Win32MemMap) : Prop where
  mSize : map'.mSize = map.mSize
  mProtFlags : map'.mProtFlags = map.mProtFlags
  fFile : map'.fFile = map.fFile
  cbReserved : map'.cbReserved = map.cbReserved
  cbWriteBitmap : map'.cbWriteBitmap = map.cbWriteBitmap
  fWriteBitmap : map'.pWriteBitmap.isSome = map.pWriteBitmap.isSome
  dups : map'.dups = map.dups
  views : map'.views.map Win32MemMapView.place = map.views.map Win32MemMapView.place

theorem SameExtent.refl (map : Win32MemMap) : SameExtent map map :=
  ⟨rfl, rfl, rfl, rfl, rfl, rfl, rfl, rfl⟩

theorem SameExtent.trans {a b c : Win32MemMap} (hab : SameExtent a b) (hbc : SameExtent b c) :
    SameExtent a c where
  mSize := hbc.mSize.trans hab.mSize
  mProtFlags := hbc.mProtFlags.trans hab.mProtFlags
  fFile := hbc.fFile.trans hab.fFile
  cbReserved := hbc.cbReserved.trans hab.cbReserved
  cbWriteBitmap := hbc.cbWriteBitmap.trans hab.cbWriteBitmap
  fWriteBitmap := hbc.fWriteBitmap.trans hab.fWriteBitmap
  dups := hbc.dups.trans hab.dups
  views := hbc.views.trans hab.views

/-! ## One view -/

@[simp] theorem place_changePageFlags (view : Win32MemMapView) (offset size : ℕ)
    (flags : PageView) : (view.changePageFlags offset size flags).place = view.place := by
  unfold Win32MemMapView.changePageFlags
  split
  · rfl
  · split
    · rfl
    · split
      · rfl
      · cases flags <;> rfl

@[simp] theorem place_freshPages (view : Win32MemMapView) (fAliasWrite : Bool)
    (startpage nrpages : ℕ) : (view.freshPages fAliasWrite startpage nrpages).place = view.place := by
  unfold Win32MemMapView.freshPages
  split <;> rfl

@[simp] theorem place_protectPage (view : Win32MemMapView) (address : ℕ) (a : PageAttr) :
    (view.protectPage address a).place = view.place := rfl

@[simp] theorem place_markCOWPages (view : Win32MemMapView) (startpage nrpages : ℕ) :
    (view.markCOWPages startpage nrpages).place = view.place := rfl

theorem place_modifyFirst {f : Win32MemMapView → Win32MemMapView}
    (hf : ∀ view, (f view).place = view.place) (address : ℕ) (views : List Win32MemMapView) :
    (modifyFirst address f views).map Win32MemMapView.place =
      views.map Win32MemMapView.place := by
  induction views with
  | nil => rfl
  | cons view rest ih =>
    unfold modifyFirst
    split
    · simp [hf]
    · simp [ih]

/-! ## Steps of the operations -/

theorem sameExtent_setDirtyPages (map : Win32MemMap) (startpage nrpages : ℕ) (dirty : Bool) :
    SameExtent map (map.setDirtyPages startpage nrpages dirty) :=
  ⟨rfl, rfl, rfl, rfl, rfl, Option.isSome_map, rfl, rfl⟩

theorem sameExtent_updateViewPages (map : Win32MemMap) (offset size : ℕ) (flags : PageView) :
    SameExtent map (map.updateViewPages offset size flags) :=
  ⟨rfl, rfl, rfl, rfl, rfl, rfl, rfl, by simp [updateViewPages, Function.comp_def]⟩

theorem sameExtent_commitPages (map : Win32MemMap) (os : Os) (startpage nrpages : ℕ) :
    SameExtent map (map.commitPages os startpage nrpages) :=
  ⟨rfl, rfl, rfl, rfl, rfl, rfl, rfl, by simp [commitPages, Function.comp_def]⟩

theorem sameExtent_protectPages {map map' : Win32MemMap} {start size : ℕ} {a : PageAttr}
    (h : map.protectPages start size a = some map') : SameExtent map map' := by
  unfold protectPages at h
  dsimp only at h
  split at h
  · obtain rfl := Option.some.inj h
    exact ⟨rfl, rfl, rfl, rfl, rfl, rfl, rfl, rfl⟩
  · cases h

theorem sameExtent_decommitPages (map : Win32MemMap) (start size : ℕ) :
    SameExtent map (map.decommitPages start size) :=
  ⟨rfl, rfl, rfl, rfl, rfl, rfl, rfl, rfl⟩

theorem sameExtent_modifyView (map : Win32MemMap) (address : ℕ)
    {f : Win32MemMapView → Win32MemMapView} (hf : ∀ view, (f view).place = view.place) :
    SameExtent map (map.modifyView address f) :=
  ⟨rfl, rfl, rfl, rfl, rfl, rfl, rfl, place_modifyFirst hf address map.views⟩

/-! ## Operations -/

theorem sameExtent_commitRegion (map : Win32MemMap) (os : Os) (fWriteAccess : Bool)
    (offset offPage size : ℕ) :
    SameExtent map (map.commitRegion os fWriteAccess offset offPage size).2.1 := by
  unfold commitRegion
  dsimp only
  -- reserved pages are committed first, whatever comes then
  have committed : ∀ flags, SameExtent map ((map.commitPages os (offPage / 0x1000)
      (nrPages size)).updateViewPages offset size flags) := fun flags =>
    (sameExtent_commitPages map os _ _).trans (sameExtent_updateViewPages _ offset size flags)
  have marked := sameExtent_setDirtyPages map (offPage / 0x1000) (nrPages size) true
  cases fWriteAccess with
  | true =>
    simp only [if_true]
    rcases map.page (offPage / 0x1000) with _ | a
    · dsimp only
      split
      · exact committed .view
      · exact ((committed .view).trans (sameExtent_setDirtyPages _ _ _ true)).trans
          (sameExtent_updateViewPages _ _ size .guard)
    · dsimp only
      split
      · exact marked
      · next h =>
        exact ((marked.trans (sameExtent_protectPages h)).trans
          (sameExtent_updateViewPages _ _ size .view)).trans
          (sameExtent_updateViewPages _ _ size .guard)
  | false =>
    simp only [Bool.false_eq_true, if_false]
    rcases map.page (offPage / 0x1000) with _ | a
    · dsimp only
      split
      · exact committed .readonly
      · split
        · exact committed .readonly
        · next h => exact (committed .readonly).trans (sameExtent_protectPages h)
    · exact SameExtent.refl map

theorem sameExtent_commitLoop (os : Os) (fWriteAccess : Bool) (rounds : ℕ) (map : Win32MemMap)
    (offset offPage faultsize : ℕ) :
    SameExtent map (commitLoop os fWriteAccess rounds map offset offPage faultsize).2 := by
  induction rounds generalizing map offset offPage faultsize with
  | zero => exact SameExtent.refl map
  | succ rounds ih =>
    unfold commitLoop
    split
    · exact SameExtent.refl map
    · split
      · exact SameExtent.refl map
      · have region := sameExtent_commitRegion map os fWriteAccess offset offPage
          (map.regionSize (offPage / 0x1000) faultsize)
        dsimp only
        split
        · next h => rw [h] at region; exact region
        · next h => rw [h] at region; exact region.trans (ih _ _ _ _)

theorem sameExtent_commitFile (map : Win32MemMap) (os : Os) (ulFaultAddr offset : ℕ)
    (fWriteAccess : Bool) (nrpages : ℕ) :
    SameExtent map (map.commitFile os ulFaultAddr offset fWriteAccess nrpages).2 := by
  unfold commitFile
  dsimp only
  split
  · exact SameExtent.refl map
  · exact sameExtent_commitLoop os fWriteAccess _ map _ _ _

theorem sameExtent_commitGuardPage (map : Win32MemMap) (os : Os) (ulFaultAddr ulOffset : ℕ)
    (fWriteAccess : Bool) :
    SameExtent map (map.commitGuardPage os ulFaultAddr ulOffset fWriteAccess).2 := by
  have committed := sameExtent_commitFile map os ulFaultAddr (ulOffset / 0x1000 * 0x1000) false 1
  unfold commitGuardPage
  dsimp only
  split
  · next h => rw [h] at committed; exact committed
  · next map' h =>
    rw [h] at committed
    have protect : ∀ (m : Win32MemMap) (a : PageAttr),
        SameExtent m (m.modifyView ulFaultAddr fun view => view.protectPage ulFaultAddr a) :=
      fun m a => sameExtent_modifyView m ulFaultAddr fun view => rfl
    split
    · split
      · exact (committed.trans (protect _ _)).trans (sameExtent_modifyView _ _ fun view => rfl)
      · exact ((committed.trans (protect _ _)).trans (protect _ _)).trans
          (sameExtent_updateViewPages _ _ _ _)
    · exact committed.trans (protect _ _)

theorem sameExtent_commitPage (map : Win32MemMap) (os : Os) (ulFaultAddr offset : ℕ)
    (fWriteAccess : Bool) (nrpages : ℕ) :
    SameExtent map (map.commitPage os ulFaultAddr offset fWriteAccess nrpages).2 := by
  unfold commitPage
  split
  · exact sameExtent_commitGuardPage map os ulFaultAddr offset fWriteAccess
  · exact sameExtent_commitFile map os ulFaultAddr offset fWriteAccess nrpages

theorem sameExtent_pageFault (map : Win32MemMap) (os : Os) (address : ℕ) (fWriteAccess : Bool)
    (nrpages : ℕ) : SameExtent map (map.pageFault os address fWriteAccess nrpages).2 := by
  unfold pageFault
  split
  · exact SameExtent.refl map
  · split
    · split
      · exact sameExtent_commitGuardPage map os address _ fWriteAccess
      · exact sameExtent_commitPage map os address _ fWriteAccess nrpages
    · exact sameExtent_commitPage map os address _ fWriteAccess nrpages

theorem sameExtent_guardFault (map : Win32MemMap) (os : Os) (address : ℕ)
    (fWriteAccess : Bool) : SameExtent map (map.guardFault os address fWriteAccess).2 := by
  unfold guardFault
  split
  · exact SameExtent.refl map
  · exact sameExtent_commitGuardPage map os address _ fWriteAccess

theorem sameExtent_flushChunk (map : Win32MemMap) (os : Os) (offset size : ℕ) :
    SameExtent map (map.flushChunk os offset size).2 := by
  unfold flushChunk
  split
  · have cleared := sameExtent_setDirtyPages map (offset / 0x1000) 1 false
    dsimp only
    split
    · exact cleared
    · next h =>
      exact (cleared.trans (sameExtent_protectPages h)).trans
        (sameExtent_updateViewPages _ offset size .readonly)
  · exact SameExtent.refl map

theorem sameExtent_flushLoop (os : Os) (rounds : ℕ) (map : Win32MemMap) (offset cbFlush : ℕ) :
    SameExtent map (flushLoop os rounds map offset cbFlush).2.1 := by
  induction rounds generalizing map offset cbFlush with
  | zero => exact SameExtent.refl map
  | succ rounds ih =>
    unfold flushLoop
    split
    · exact SameExtent.refl map
    · split
      · have chunk := sameExtent_flushChunk map os offset (min 0x1000 cbFlush)
        dsimp only
        split
        · next h => rw [h] at chunk; exact chunk
        · next h => rw [h] at chunk; exact chunk.trans (ih _ _ _)
      · split
        · exact SameExtent.refl map
        · exact ih map _ _

theorem sameExtent_flushView (map : Win32MemMap) (os : Os) (viewaddr : Option ℕ)
    (offset cbFlush : ℕ) : SameExtent map (map.flushView os viewaddr offset cbFlush).2.1 := by
  unfold flushView
  split
  · exact SameExtent.refl map
  · split
    · exact SameExtent.refl map
    · dsimp only
      split
      · exact SameExtent.refl map
      · split
        · exact SameExtent.refl map
        · exact sameExtent_flushLoop os _ map offset _

theorem sameExtent_invalidatePages (map : Win32MemMap) (os : Os) (offset size : ℕ) :
    SameExtent map (map.invalidatePages os offset size) := by
  unfold invalidatePages
  dsimp only
  split
  · exact (sameExtent_decommitPages map _ _).trans (sameExtent_updateViewPages _ _ _ .guard)
  · exact sameExtent_updateViewPages map _ _ .guard

/-! ## Runs -/

/-- All states of a run. -/
def Throughout (P : Win32MemMap → Prop) (map : Win32MemMap) : List (Op × Os) → Prop
  | [] => P map
  | (op, os) :: ops => P map ∧ Throughout P (map.step os op) ops

/-- A condition on all steps of a run, each at the state before it. -/
def Steps (C : Win32MemMap → Os → Op → Prop) (map : Win32MemMap) : List (Op × Os) → Prop
  | [] => True
  | (op, os) :: ops => C map os op ∧ Steps C (map.step os op) ops

/-- The arguments of a request are words. -/
def Words : Op → Prop
  | .mapViewOfFile _ size offset _ => size < 0x100000000 ∧ offset < 0x100000000
  | _ => True

/-- An invariant that every step keeps under a condition holds throughout the runs whose
steps all meet the condition. -/
theorem throughout_of_steps {P Inv : Win32MemMap → Prop} {C : Win32MemMap → Os → Op → Prop}
    (holds : ∀ map, Inv map → P map)
    (step : ∀ map os op, Inv map → Words op → C map os op → Inv (map.step os op))
    {map : Win32MemMap} {ops : List (Op × Os)} (inv : Inv map) (words : ∀ op ∈ ops, Words op.1)
    (ok : Steps C map ops) : Throughout P map ops := by
  induction ops generalizing map with
  | nil => exact holds map inv
  | cons op ops ih =>
    obtain ⟨op, os⟩ := op
    refine ⟨holds map inv, ih ?_ ?_ ok.2⟩
    · exact step map os op inv (words _ List.mem_cons_self) ok.1
    · exact fun o mem => words o (List.mem_cons_of_mem _ mem)

/-! ## New maps -/

/-- A new map of a file, nothing of it read yet. -/
def newFileMap (os : Os) (mSize mProtFlags : ℕ) : Win32MemMap where
  mSize := mSize
  mProtFlags := mProtFlags
  fFile := true
  cbReserved := 0x1000 * pagesFor mSize
  page := fun _ => none
  cbWriteBitmap := nrPages mSize / 8 + 1
  pWriteBitmap := some fun i => if i < bitmapBits (nrPages mSize) then false else os.heap i
  dups := []
  views := []

theorem init_newFileMap (os : Os) {cbFile mProtFlags : ℕ} (nonempty : cbFile ≠ 0)
    (small : cbFile ≤ 0x7fc00000) (reserve : has mProtFlags secCommit = false) :
    init os (some cbFile) 0 mProtFlags = some (newFileMap os cbFile mProtFlags) := by
  have size : ¬(max cbFile 0 = 0 ∨ 0x7fc00000 < max cbFile 0) := by omega
  simp only [init, allocateMap]
  rw [if_neg size]
  simp [reserve, newFileMap]

end Win32MemMap
end Odin32.MemMap
