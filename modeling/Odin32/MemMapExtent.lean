import Odin32.MemMapFrame

/-! # The extent of a map

Views lie within the size of the map they were made through, and every size within
the reserved region and the bitmap of dirty pages. Only `mapViewOfFile` can break
this: its test adds in 32 bits, and for a write view it raises the size of the map
after the region was reserved. -/

set_option autoImplicit false

namespace Odin32.MemMapExtent
open Odin32.Word Odin32.MemMap Odin32.MemMap.Win32MemMap

/-- The size of the map object that a view was made through. -/
def sizeThrough (map : Win32MemMap) : Option ℕ → ℕ
  | none => map.mSize
  | some i => ((map.dups[i]?).map Win32MemMapDup.mSize).getD 0

/-- The size of a map object has room in the region, and in the bitmap if there is one. -/
def HasRoom (map : Win32MemMap) (mSize : ℕ) : Prop :=
  mSize ≤ map.cbReserved ∧ (map.fFile = true → pagesFor mSize ≤ 8 * map.cbWriteBitmap)

structure WithinExtent (map : Win32MemMap) : Prop where
  view : ∀ view ∈ map.views, view.mOffset + view.mSize ≤ sizeThrough map view.mOwnerMap
  room : HasRoom map map.mSize
  dupRoom : ∀ dup ∈ map.dups, HasRoom map dup.mSize

/-- How the region and the bitmap are allocated, once for all. -/
structure Allocated (map : Win32MemMap) : Prop where
  small : map.cbReserved ≤ 0x7fc00000
  bitmap : map.fFile = true → map.cbReserved ≤ 0x8000 * map.cbWriteBitmap

/-- When a request for a view, through a map object of size `mSize`, keeps the extent:
it is turned down, or it ends within the region, or the sum of its offset and size
wraps around to something in the region and no view comes of it. -/
def RequestOk (map : Win32MemMap) (os : Os) (mSize mProtFlags readProt : ℕ) (fFile : Bool)
    (size offset fdwAccess : ℕ) : Prop :=
  accessAllowed mProtFlags readProt fdwAccess = false ∨
  mSize < add32 offset size ∧ (has fdwAccess fileMapWrite = false ∨ fFile = false) ∨
  offset + size ≤ map.cbReserved ∨
  0x100000000 ≤ offset + size ∧ add32 offset size ≤ map.cbReserved ∧
    ¬(has (viewAccess os fdwAccess) memmapAccessCopyonwrite = true ∧ os.fMemory = true ∧
      size ≤ 0x7fc00000)

def StepOk (map : Win32MemMap) (os : Os) : Op → Prop
  | .mapViewOfFile none size offset fdwAccess =>
    RequestOk map os map.mSize map.mProtFlags (pageReadwrite ||| pageReadonly ||| pageWritecopy)
      map.fFile size offset fdwAccess
  | .mapViewOfFile (some i) size offset fdwAccess =>
    ∀ dup, map.dups[i]? = some dup →
      RequestOk map os dup.mSize dup.mProtFlags (pageReadwrite ||| pageReadonly) dup.fFile
        size offset fdwAccess
  | _ => True

/-! ## Requests -/

theorem viewExtent_eq_none {mSize size offset fdwAccess : ℕ} {fFile : Bool} :
    viewExtent mSize fFile size offset fdwAccess = none ↔
      mSize < add32 offset size ∧ (has fdwAccess fileMapWrite = false ∨ fFile = false) := by
  unfold viewExtent
  cases has fdwAccess fileMapWrite <;> cases fFile <;> simp

theorem hasRoom_iff {map : Win32MemMap} (alloc : Allocated map) (mSize : ℕ) :
    HasRoom map mSize ↔ mSize ≤ map.cbReserved := by
  constructor
  · exact fun room => room.1
  · intro le
    refine ⟨le, fun file => ?_⟩
    have := alloc.bitmap file
    unfold pagesFor
    omega

theorem newView_some {map : Win32MemMap} {os : Os} {owner : Option ℕ}
    {offset size fdwAccess : ℕ} {view : Win32MemMapView}
    (h : map.newView os owner offset size fdwAccess = some view) :
    view.mOffset = offset ∧ view.mSize = size ∧ view.mOwnerMap = owner := by
  unfold newView at h
  split at h
  · split at h
    · obtain rfl := Option.some.inj h
      exact ⟨rfl, rfl, rfl⟩
    · cases h
  · split at h
    · obtain rfl := Option.some.inj h
      exact ⟨rfl, rfl, rfl⟩
    · cases h

theorem aliasOk_inside {map : Win32MemMap} {os : Os} {offset size fdwAccess : ℕ}
    (hsize : size < 0x100000000) (h : map.aliasOk os offset size fdwAccess = true) :
    offset + size ≤ map.cbReserved := by
  unfold aliasOk at h
  simp only [Bool.and_eq_true, bne_iff_ne, ne_eq, decide_eq_true_eq] at h
  obtain ⟨⟨⟨-, nonzero⟩, inside⟩, -⟩ := h
  unfold add32 sub32 u32 at nonzero inside
  omega

theorem newView_cow {map : Win32MemMap} {os : Os} {owner : Option ℕ} {offset size fdwAccess : ℕ}
    (cow : has (viewAccess os fdwAccess) memmapAccessCopyonwrite = true) :
    (map.newView os owner offset size fdwAccess).isSome = true ↔
      os.fMemory = true ∧ size ≠ 0 ∧ size ≤ 0x7fc00000 := by
  unfold newView
  rw [if_pos cow]
  split
  · next h => simpa [and_assoc] using h
  · next h => simpa [and_assoc] using h

theorem newView_alias {map : Win32MemMap} {os : Os} {owner : Option ℕ} {offset size fdwAccess : ℕ}
    (notCow : ¬has (viewAccess os fdwAccess) memmapAccessCopyonwrite = true)
    (hsize : size < 0x100000000)
    (h : (map.newView os owner offset size fdwAccess).isSome = true) :
    offset + size ≤ map.cbReserved := by
  unfold newView at h
  rw [if_neg notCow] at h
  split at h
  · next ok => exact aliasOk_inside hsize ok
  · cases h

/-- What becomes of a request: the size of the map object afterwards keeps its room and
a view that comes of it ends within that size, exactly when the request is in order. -/
theorem requestOk_iff {map : Win32MemMap} (map' : Win32MemMap) (os : Os) (owner : Option ℕ)
    {mSize mProtFlags readProt mSize' cbView : ℕ} {fFile : Bool} {size offset fdwAccess : ℕ}
    (alloc : Allocated map) (room : mSize ≤ map.cbReserved)
    (same : map'.cbReserved = map.cbReserved)
    (hsize : size < 0x100000000) (hoffset : offset < 0x100000000)
    (allowed : accessAllowed mProtFlags readProt fdwAccess = true)
    (extent : viewExtent mSize fFile size offset fdwAccess = some (mSize', cbView)) :
    mSize ≤ mSize' ∧
    (RequestOk map os mSize mProtFlags readProt fFile size offset fdwAccess ↔
      mSize' ≤ map.cbReserved ∧
      ((map'.newView os owner offset cbView fdwAccess).isSome = true →
        offset + cbView ≤ mSize')) := by
  have small := alloc.small
  -- the two outcomes of the size test
  have outcome : (add32 offset size ≤ mSize ∧ mSize' = mSize ∨
      mSize < add32 offset size ∧ mSize' = add32 offset size) ∧
      cbView = if size = 0 then sub32 mSize' offset else size := by
    unfold viewExtent at extent
    split at extent
    · cases extent
    · obtain ⟨rfl, rfl⟩ := Prod.mk.inj (Option.some.inj extent)
      refine ⟨?_, rfl⟩
      split
      · next h => exact .inr ⟨h, rfl⟩
      · next h => exact .inl ⟨Nat.le_of_not_lt h, rfl⟩
  obtain ⟨sizes, hview⟩ := outcome
  refine ⟨by omega, ?_⟩
  have request : RequestOk map os mSize mProtFlags readProt fFile size offset fdwAccess ↔
      offset + size ≤ map.cbReserved ∨
      0x100000000 ≤ offset + size ∧ add32 offset size ≤ map.cbReserved ∧
        ¬(has (viewAccess os fdwAccess) memmapAccessCopyonwrite = true ∧ os.fMemory = true ∧
          size ≤ 0x7fc00000) := by
    unfold RequestOk
    rw [allowed, ← viewExtent_eq_none, extent]
    simp
  rw [request]
  by_cases wraps : offset + size < 0x100000000
  · have sum : add32 offset size = offset + size := add32_of_lt wraps
    rw [sum] at sizes ⊢
    have fits : offset + cbView ≤ mSize' := by
      rw [hview]
      split
      · rw [sub32_of_le (by omega) (by omega)]
        omega
      · omega
    constructor
    · intro ok
      exact ⟨by omega, fun _ => fits⟩
    · intro ok
      exact .inl (by omega)
  · have nonzero : size ≠ 0 := by omega
    rw [if_neg nonzero] at hview
    rw [hview]
    constructor
    · intro ok
      rcases ok with ok | ⟨-, inside, refused⟩
      · omega
      refine ⟨by omega, fun made => ?_⟩
      by_cases cow : has (viewAccess os fdwAccess) memmapAccessCopyonwrite = true
      · obtain ⟨memory, -, small'⟩ := (newView_cow cow).mp made
        exact absurd ⟨cow, memory, small'⟩ refused
      · have := newView_alias cow hsize made
        rw [same] at this
        omega
    · rintro ⟨inside, within⟩
      refine .inr ⟨by omega, by omega, ?_⟩
      rintro ⟨cow, memory, small'⟩
      have := within ((newView_cow cow).mpr ⟨memory, nonzero, small'⟩)
      omega

/-! ## One step -/

theorem mem_insertView {view v : Win32MemMapView} {views : List Win32MemMapView} :
    v ∈ insertView view views ↔ v = view ∨ v ∈ views := by
  induction views with
  | nil => simp [insertView]
  | cons w rest ih =>
    unfold insertView
    split
    · simp
    · simp only [List.mem_cons, ih]
      tauto

theorem eraseView_subset {address : ℕ} {views : List Win32MemMapView} {v : Win32MemMapView}
    (h : v ∈ eraseView address views) : v ∈ views := by
  induction views with
  | nil => exact h
  | cons w rest ih =>
    unfold eraseView at h
    split at h
    · exact List.mem_cons_of_mem w h
    · rcases List.mem_cons.mp h with rfl | h
      · exact List.mem_cons_self
      · exact List.mem_cons_of_mem w (ih h)

theorem withinExtent_iff_of_same {map map' : Win32MemMap} (same : SameExtent map map') :
    WithinExtent map' ↔ WithinExtent map := by
  have through : ∀ owner, sizeThrough map' owner = sizeThrough map owner := by
    intro owner
    cases owner with
    | none => exact same.mSize
    | some i => rw [sizeThrough, sizeThrough, same.dups]
  have room : ∀ mSize, HasRoom map' mSize ↔ HasRoom map mSize := by
    intro mSize
    unfold HasRoom
    rw [same.cbReserved, same.fFile, same.cbWriteBitmap]
  have views : (∀ view ∈ map'.views,
        view.mOffset + view.mSize ≤ sizeThrough map' view.mOwnerMap) ↔
      ∀ view ∈ map.views, view.mOffset + view.mSize ≤ sizeThrough map view.mOwnerMap := by
    -- both are about the places of the views only
    have places : ∀ m : Win32MemMap, (∀ view ∈ m.views,
        view.mOffset + view.mSize ≤ sizeThrough map view.mOwnerMap) ↔
        ∀ place ∈ m.views.map Win32MemMapView.place,
          place.2.1 + place.2.2.1 ≤ sizeThrough map place.2.2.2.2 := by
      intro m
      simp [Win32MemMapView.place]
    simp only [through]
    rw [places map', places map, same.views]
  constructor
  · rintro ⟨hview, hroom, hdup⟩
    refine ⟨views.mp hview, ?_, ?_⟩
    · rw [← room, ← same.mSize]
      exact hroom
    · intro dup mem
      rw [← room]
      exact hdup dup (same.dups ▸ mem)
  · rintro ⟨hview, hroom, hdup⟩
    refine ⟨views.mpr hview, ?_, ?_⟩
    · rw [room, same.mSize]
      exact hroom
    · intro dup mem
      rw [room]
      exact hdup dup (same.dups ▸ mem)

theorem withinExtent_addView {map map' : Win32MemMap} {view : Option Win32MemMapView}
    (within : WithinExtent map) (views : map'.views = map.views)
    (grows : ∀ owner, sizeThrough map owner ≤ sizeThrough map' owner) :
    WithinExtent (map'.addView view).2 ↔
      (HasRoom map' map'.mSize ∧ ∀ dup ∈ map'.dups, HasRoom map' dup.mSize) ∧
      ∀ v, view = some v → v.mOffset + v.mSize ≤ sizeThrough map' v.mOwnerMap := by
  have old : ∀ v ∈ map'.views, v.mOffset + v.mSize ≤ sizeThrough map' v.mOwnerMap := by
    intro v mem
    rw [views] at mem
    exact Nat.le_trans (within.view v mem) (grows v.mOwnerMap)
  cases view with
  | none =>
    constructor
    · exact fun h => ⟨⟨h.room, h.dupRoom⟩, by simp⟩
    · exact fun h => ⟨old, h.1.1, h.1.2⟩
  | some new =>
    constructor
    · intro h
      refine ⟨⟨h.room, h.dupRoom⟩, ?_⟩
      intro v same
      obtain rfl := Option.some.inj same
      exact h.view new (mem_insertView.mpr (.inl rfl))
    · rintro ⟨⟨room, dupRoom⟩, fits⟩
      refine ⟨?_, room, dupRoom⟩
      intro v mem
      rcases mem_insertView.mp mem with rfl | mem
      · exact fits v rfl
      · exact old v mem

theorem withinExtent_request {map map' : Win32MemMap} (os : Os) {owner : Option ℕ}
    {mSize mProtFlags readProt mSize' cbView : ℕ} {fFile : Bool} {size offset fdwAccess : ℕ}
    (alloc : Allocated map) (within : WithinExtent map) (before : sizeThrough map owner = mSize)
    (after : sizeThrough map' owner = mSize')
    (others : ∀ o, o ≠ owner → sizeThrough map' o = sizeThrough map o)
    (views : map'.views = map.views) (reserved : map'.cbReserved = map.cbReserved)
    (room : mSize ≤ map.cbReserved)
    (rooms : (HasRoom map' map'.mSize ∧ ∀ dup ∈ map'.dups, HasRoom map' dup.mSize) ↔
      mSize' ≤ map.cbReserved)
    (hsize : size < 0x100000000) (hoffset : offset < 0x100000000)
    (allowed : accessAllowed mProtFlags readProt fdwAccess = true)
    (extent : viewExtent mSize fFile size offset fdwAccess = some (mSize', cbView)) :
    WithinExtent (map'.addView (map'.newView os owner offset cbView fdwAccess)).2 ↔
      RequestOk map os mSize mProtFlags readProt fFile size offset fdwAccess := by
  have request := requestOk_iff map' os owner alloc room reserved hsize hoffset allowed extent
  have grows : ∀ o, sizeThrough map o ≤ sizeThrough map' o := by
    intro o
    by_cases same : o = owner
    · rw [same, before, after]
      exact request.1
    · exact Nat.le_of_eq (others o same).symm
  rw [request.2, withinExtent_addView within views grows, rooms]
  apply and_congr_right
  intro _
  constructor
  · intro fits made
    obtain ⟨v, new⟩ := Option.isSome_iff_exists.mp made
    obtain ⟨hoff, hsz, howner⟩ := newView_some new
    have := fits v new
    rwa [hoff, hsz, howner, after] at this
  · intro fits v new
    obtain ⟨hoff, hsz, howner⟩ := newView_some new
    rw [hoff, hsz, howner, after]
    exact fits (by rw [new]; rfl)

theorem withinExtent_mapViewOfFile {map : Win32MemMap} (os : Os) {size offset fdwAccess : ℕ}
    (alloc : Allocated map) (within : WithinExtent map) (hsize : size < 0x100000000)
    (hoffset : offset < 0x100000000) :
    WithinExtent (map.mapViewOfFile os size offset fdwAccess).2 ↔
      StepOk map os (.mapViewOfFile none size offset fdwAccess) := by
  show _ ↔ RequestOk map os map.mSize map.mProtFlags
    (pageReadwrite ||| pageReadonly ||| pageWritecopy) map.fFile size offset fdwAccess
  unfold mapViewOfFile
  by_cases allowed : accessAllowed map.mProtFlags
      (pageReadwrite ||| pageReadonly ||| pageWritecopy) fdwAccess = true
  · rw [if_pos allowed]
    rcases extent : viewExtent map.mSize map.fFile size offset fdwAccess with
      _ | ⟨mSize', cbView⟩
    · exact iff_of_true within (.inr (.inl (viewExtent_eq_none.mp extent)))
    · obtain ⟨map', hmap'⟩ : ∃ map' : Win32MemMap, map' = { map with mSize := mSize' } := ⟨_, rfl⟩
      have alloc' : Allocated map' := by
        rw [hmap']
        exact ⟨alloc.small, alloc.bitmap⟩
      have others : ∀ o, o ≠ none → sizeThrough map' o = sizeThrough map o := by
        intro o ho
        cases o with
        | none => exact absurd rfl ho
        | some i => rw [hmap']; rfl
      have rooms : (HasRoom map' map'.mSize ∧ ∀ dup ∈ map'.dups, HasRoom map' dup.mSize) ↔
          mSize' ≤ map.cbReserved := by
        have dupRoom : ∀ dup ∈ map'.dups, HasRoom map' dup.mSize := by
          rw [hmap']
          exact within.dupRoom
        rw [and_iff_left dupRoom, hasRoom_iff alloc', hmap']
      dsimp only
      rw [← hmap']
      exact withinExtent_request os alloc within rfl (by rw [hmap']; rfl) others (by rw [hmap'])
        (by rw [hmap']) within.room.1 rooms hsize hoffset allowed extent
  · rw [if_neg allowed]
    exact iff_of_true within (.inl (by simpa using allowed))

theorem sizeThrough_set {map : Win32MemMap} {i mSize : ℕ} {dup : Win32MemMapDup}
    (get : map.dups[i]? = some dup) (owner : Option ℕ) :
    sizeThrough { map with dups := map.dups.set i { dup with mSize := mSize } } owner =
      if owner = some i then mSize else sizeThrough map owner := by
  have inside : i < map.dups.length := (List.getElem?_eq_some_iff.mp get).1
  cases owner with
  | none => rfl
  | some k =>
    simp only [sizeThrough, List.getElem?_set, Option.some.injEq]
    by_cases here : i = k
    · subst here
      simp [inside]
    · simp [here, Ne.symm here]

theorem withinExtent_dupMapViewOfFile {map : Win32MemMap} (os : Os) {i size offset fdwAccess : ℕ}
    (alloc : Allocated map) (within : WithinExtent map) (hsize : size < 0x100000000)
    (hoffset : offset < 0x100000000) :
    WithinExtent (map.dupMapViewOfFile os i size offset fdwAccess).2 ↔
      StepOk map os (.mapViewOfFile (some i) size offset fdwAccess) := by
  show _ ↔ ∀ dup, map.dups[i]? = some dup →
    RequestOk map os dup.mSize dup.mProtFlags (pageReadwrite ||| pageReadonly) dup.fFile
      size offset fdwAccess
  unfold dupMapViewOfFile
  rcases get : map.dups[i]? with _ | dup
  · exact iff_of_true within (by simp)
  simp only [Option.some.injEq, forall_eq']
  by_cases allowed : accessAllowed dup.mProtFlags (pageReadwrite ||| pageReadonly) fdwAccess = true
  · rw [if_pos allowed]
    rcases extent : viewExtent dup.mSize dup.fFile size offset fdwAccess with
      _ | ⟨mSize', cbView⟩
    · exact iff_of_true within (.inr (.inl (viewExtent_eq_none.mp extent)))
    · have mem := List.mem_of_getElem? get
      have inside : i < map.dups.length := (List.getElem?_eq_some_iff.mp get).1
      obtain ⟨map', hmap'⟩ : ∃ map' : Win32MemMap, map' =
          { map with dups := map.dups.set i { dup with mSize := mSize' } } := ⟨_, rfl⟩
      have alloc' : Allocated map' := by
        rw [hmap']
        exact ⟨alloc.small, alloc.bitmap⟩
      have reserved : map'.cbReserved = map.cbReserved := by rw [hmap']
      have through : ∀ o, sizeThrough map' o = if o = some i then mSize' else sizeThrough map o := by
        rw [hmap']
        exact sizeThrough_set get
      have rooms : (HasRoom map' map'.mSize ∧ ∀ d ∈ map'.dups, HasRoom map' d.mSize) ↔
          mSize' ≤ map.cbReserved := by
        have own : map'.mSize ≤ map.cbReserved := by
          rw [hmap']
          exact within.room.1
        simp only [hasRoom_iff alloc', reserved]
        rw [and_iff_right own]
        constructor
        · intro all
          exact all { dup with mSize := mSize' } (by rw [hmap']; exact List.mem_set inside _)
        · intro fits d hd
          rw [hmap'] at hd
          rcases List.mem_or_eq_of_mem_set hd with hd | rfl
          · exact (within.dupRoom d hd).1
          · exact fits
      dsimp only
      rw [← hmap']
      exact withinExtent_request os alloc within (by rw [sizeThrough, get]; rfl)
        (by rw [through, if_pos rfl]) (fun o ho => by rw [through, if_neg ho]) (by rw [hmap'])
        reserved (within.dupRoom dup mem).1 rooms hsize hoffset allowed extent
  · rw [if_neg allowed]
    exact iff_of_true within (.inl (by simpa using allowed))

theorem withinExtent_erase {map : Win32MemMap} (within : WithinExtent map) (address : ℕ) :
    WithinExtent { map with views := eraseView address map.views } where
  view v mem := within.view v (eraseView_subset mem)
  room := within.room
  dupRoom := within.dupRoom

theorem withinExtent_unmap {map : Win32MemMap} (os : Os) (address : ℕ)
    (within : WithinExtent map) : WithinExtent (map.unmapViewOfFile os address).2 := by
  unfold unmapViewOfFile
  split
  · exact within
  · apply withinExtent_erase
    split
    · exact (withinExtent_iff_of_same (sameExtent_flushView map os none _ _)).mpr within
    · exact within

theorem sizeThrough_newDup (map : Win32MemMap) (mProtFlags : ℕ) (owner : Option ℕ) :
    sizeThrough map owner ≤ sizeThrough (map.newDup mProtFlags) owner := by
  cases owner with
  | none => exact Nat.le_refl _
  | some i =>
    show ((map.dups[i]?).map Win32MemMapDup.mSize).getD 0 ≤
      (((map.dups ++ [⟨map.mSize, mProtFlags, map.fFile⟩])[i]?).map Win32MemMapDup.mSize).getD 0
    by_cases inside : i < map.dups.length
    · exact Nat.le_of_eq (by rw [List.getElem?_append_left inside])
    · rw [List.getElem?_eq_none (Nat.le_of_not_lt inside)]
      exact Nat.zero_le _

theorem withinExtent_newDup {map : Win32MemMap} (mProtFlags : ℕ) (within : WithinExtent map) :
    WithinExtent (map.newDup mProtFlags) where
  view v mem := Nat.le_trans (within.view v mem) (sizeThrough_newDup map mProtFlags v.mOwnerMap)
  room := within.room
  dupRoom dup mem := by
    rcases List.mem_append.mp mem with mem | mem
    · exact within.dupRoom dup mem
    · obtain rfl := List.mem_singleton.mp mem
      exact within.room

theorem withinExtent_step {map : Win32MemMap} {os : Os} {op : Op} (alloc : Allocated map)
    (within : WithinExtent map) (words : Words op) :
    WithinExtent (map.step os op) ↔ StepOk map os op := by
  cases op with
  | newDup mProtFlags => exact iff_of_true (withinExtent_newDup mProtFlags within) trivial
  | mapViewOfFile dup size offset fdwAccess =>
    cases dup with
    | none => exact withinExtent_mapViewOfFile os alloc within words.1 words.2
    | some i => exact withinExtent_dupMapViewOfFile os alloc within words.1 words.2
  | pageFault address fWriteAccess nrpages =>
    exact iff_of_true ((withinExtent_iff_of_same
      (sameExtent_pageFault map os address fWriteAccess nrpages)).mpr within) trivial
  | guardFault address fWriteAccess =>
    exact iff_of_true ((withinExtent_iff_of_same
      (sameExtent_guardFault map os address fWriteAccess)).mpr within) trivial
  | flushView viewaddr offset cbFlush =>
    exact iff_of_true ((withinExtent_iff_of_same
      (sameExtent_flushView map os viewaddr offset cbFlush)).mpr within) trivial
  | invalidatePages offset size =>
    exact iff_of_true ((withinExtent_iff_of_same
      (sameExtent_invalidatePages map os offset size)).mpr within) trivial
  | unmapViewOfFile address => exact iff_of_true (withinExtent_unmap os address within) trivial

theorem Allocated.of_eq {map map' : Win32MemMap} (alloc : Allocated map)
    (file : map'.fFile = map.fFile) (reserved : map'.cbReserved = map.cbReserved)
    (bitmap : map'.cbWriteBitmap = map.cbWriteBitmap) : Allocated map' where
  small := reserved ▸ alloc.small
  bitmap h := by
    rw [reserved, bitmap]
    exact alloc.bitmap (file ▸ h)

theorem Allocated.of_same {map map' : Win32MemMap} (alloc : Allocated map)
    (same : SameExtent map map') : Allocated map' :=
  alloc.of_eq same.fFile same.cbReserved same.cbWriteBitmap

theorem allocated_addView {map : Win32MemMap} (view : Option Win32MemMapView)
    (alloc : Allocated map) : Allocated (map.addView view).2 := by
  cases view with
  | none => exact alloc
  | some v => exact alloc.of_eq rfl rfl rfl

theorem allocated_step {map : Win32MemMap} (os : Os) (op : Op) (alloc : Allocated map) :
    Allocated (map.step os op) := by
  cases op with
  | newDup mProtFlags => exact alloc.of_eq rfl rfl rfl
  | mapViewOfFile dup size offset fdwAccess =>
    cases dup with
    | none =>
      show Allocated (map.mapViewOfFile os size offset fdwAccess).2
      unfold mapViewOfFile
      split
      · split
        · exact alloc
        · exact allocated_addView _ (alloc.of_eq rfl rfl rfl)
      · exact alloc
    | some i =>
      show Allocated (map.dupMapViewOfFile os i size offset fdwAccess).2
      unfold dupMapViewOfFile
      split
      · exact alloc
      · split
        · split
          · exact alloc
          · exact allocated_addView _ (alloc.of_eq rfl rfl rfl)
        · exact alloc
  | pageFault address fWriteAccess nrpages =>
    exact alloc.of_same (sameExtent_pageFault map os address fWriteAccess nrpages)
  | guardFault address fWriteAccess =>
    exact alloc.of_same (sameExtent_guardFault map os address fWriteAccess)
  | flushView viewaddr offset cbFlush =>
    exact alloc.of_same (sameExtent_flushView map os viewaddr offset cbFlush)
  | invalidatePages offset size =>
    exact alloc.of_same (sameExtent_invalidatePages map os offset size)
  | unmapViewOfFile address =>
    show Allocated (map.unmapViewOfFile os address).2
    unfold unmapViewOfFile
    split
    · exact alloc
    · dsimp only
      split
      · exact (alloc.of_same (sameExtent_flushView map os none _ _)).of_eq rfl rfl rfl
      · exact alloc.of_eq rfl rfl rfl

/-! ## Runs -/

theorem throughout_iff {map : Win32MemMap} {ops : List (Op × Os)} (alloc : Allocated map)
    (within : WithinExtent map) (words : ∀ op ∈ ops, Words op.1) :
    Throughout WithinExtent map ops ↔ Steps StepOk map ops := by
  induction ops generalizing map with
  | nil => exact iff_of_true within trivial
  | cons op ops ih =>
    obtain ⟨op, os⟩ := op
    have step : WithinExtent (map.step os op) ↔ StepOk map os op :=
      withinExtent_step alloc within (words _ List.mem_cons_self)
    have words' := fun o ho => words o (List.mem_cons_of_mem _ ho)
    constructor
    · rintro ⟨-, rest⟩
      have next : WithinExtent (map.step os op) := by
        cases ops with
        | nil => exact rest
        | cons => exact rest.1
      exact ⟨step.mp next, (ih (allocated_step os op alloc) next words').mp rest⟩
    · rintro ⟨ok, rest⟩
      have next := step.mpr ok
      exact ⟨within, (ih (allocated_step os op alloc) next words').mpr rest⟩

theorem allocateMap_within {os : Os} {mSize mProtFlags : ℕ} {fFile : Bool} {map : Win32MemMap}
    (h : allocateMap os mSize mProtFlags fFile = some map) :
    Allocated map ∧ WithinExtent map := by
  unfold allocateMap at h
  split at h
  · cases h
  next bounds =>
  dsimp only at h
  obtain ⟨region, hregion⟩ : ∃ region : Win32MemMap, region = {
      mSize := mSize
      mProtFlags := mProtFlags
      fFile := fFile
      cbReserved := 0x1000 * pagesFor mSize
      page := fun q => if !fFile ∧ 0x1000 * q < mSize then some .readwrite else none
      cbWriteBitmap := 0
      pWriteBitmap := none
      dups := []
      views := [] } := ⟨_, rfl⟩
  rw [← hregion] at h
  obtain ⟨committed, hcommitted⟩ : ∃ committed : Win32MemMap, committed =
      if (fFile && has mProtFlags secCommit) = true then
        (region.commitPage os 0 0 false (nrPages mSize)).2
      else region := ⟨_, rfl⟩
  rw [← hcommitted] at h
  have same : SameExtent region committed := by
    rw [hcommitted]
    split
    · exact sameExtent_commitPage region os 0 0 false _
    · exact SameExtent.refl region
  have pages : pagesFor mSize = (mSize + 0xfff) / 0x1000 := rfl
  have views : committed.views = [] := by
    have := same.views
    rw [hregion] at this
    exact List.map_eq_nil_iff.mp this
  have dups : committed.dups = [] := by rw [same.dups, hregion]
  have size : committed.mSize = mSize := by rw [same.mSize, hregion]
  have reserved : committed.cbReserved = 0x1000 * pagesFor mSize := by rw [same.cbReserved, hregion]
  have file : committed.fFile = fFile := by rw [same.fFile, hregion]
  obtain rfl := Option.some.inj h
  cases fFile with
  | true =>
    simp only [if_true]
    have alloc : Allocated { committed with
        cbWriteBitmap := nrPages mSize / 8 + 1
        pWriteBitmap := some fun i =>
          if i < bitmapBits (nrPages mSize) then false else os.heap i } := by
      constructor
      · show committed.cbReserved ≤ _
        omega
      · intro _
        show committed.cbReserved ≤ 0x8000 * (pagesFor mSize / 8 + 1)
        omega
    refine ⟨alloc, ?_, (hasRoom_iff alloc _).mpr ?_, ?_⟩
    · intro v mem
      exact absurd (views ▸ mem) List.not_mem_nil
    · show committed.mSize ≤ committed.cbReserved
      omega
    · intro d mem
      exact absurd (dups ▸ mem) List.not_mem_nil
  | false =>
    simp only [Bool.false_eq_true, if_false]
    have alloc : Allocated committed := by
      constructor
      · omega
      · intro h
        rw [file] at h
        cases h
    refine ⟨alloc, ?_, (hasRoom_iff alloc _).mpr (by omega), ?_⟩
    · intro v mem
      exact absurd (views ▸ mem) List.not_mem_nil
    · intro d mem
      exact absurd (dups ▸ mem) List.not_mem_nil

theorem init_within {os : Os} {cbFile : Option ℕ} {aMSize mProtFlags : ℕ} {map : Win32MemMap}
    (h : init os cbFile aMSize mProtFlags = some map) : Allocated map ∧ WithinExtent map := by
  cases cbFile with
  | some cbFile => exact allocateMap_within h
  | none => exact allocateMap_within h

end Odin32.MemMapExtent
