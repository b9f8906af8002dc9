import Odin32.MemMapFrame

/-! # Writable pages

Writes to a file map are tracked by taking the right to write away from its pages: a page
that can be written without a fault, in the region of the map or through one of the
aliases that the views are, has to be marked dirty. Here is what the routines that change
protections do to the set of writable pages. -/

set_option autoImplicit false

namespace Odin32.MemMapTrack
open Odin32.Word Odin32.MemMap Odin32.MemMap.Win32MemMap

/-- The view is an alias through which the page of the map can be written. -/
def Writes (view : Win32MemMapView) (p : ℕ) : Prop :=
  view.isCow = false ∧ ∃ q < pagesFor view.mSize, p = view.mOffset / 0x1000 + q ∧
    (view.attr q).write = true

instance (view : Win32MemMapView) (p : ℕ) : Decidable (Writes view p) :=
  inferInstanceAs (Decidable (view.isCow = false ∧ ∃ q < pagesFor view.mSize,
    p = view.mOffset / 0x1000 + q ∧ (view.attr q).write = true))

/-- The page can be written without a further fault. -/
def Writable (map : Win32MemMap) (p : ℕ) : Prop :=
  ∃ a, map.page p = some a ∧ (a.write = true ∨ ∃ view ∈ map.views, Writes view p)

/-- No write can escape a later flush. -/
def Tracked (map : Win32MemMap) : Prop :=
  ∀ p, Writable map p → map.isDirtyPage p = true

/-- An alias starts with a page, in the region. -/
def Placed (view : Win32MemMapView) : Prop :=
  view.isCow = false → view.mOffset % 0x1000 = 0 ∧ view.mOffset + view.mSize ≤ 0x7fc00000

/-- A page that can be written afterwards is dirty, or could be written before and did
not become clean. -/
def KeepsTrack (map map' : Win32MemMap) : Prop :=
  ∀ p, Writable map' p → map'.isDirtyPage p = true ∨
    Writable map p ∧ (map.isDirtyPage p = true → map'.isDirtyPage p = true)

theorem KeepsTrack.refl (map : Win32MemMap) : KeepsTrack map map :=
  fun _ writable => .inr ⟨writable, id⟩

theorem KeepsTrack.trans {a b c : Win32MemMap} (hab : KeepsTrack a b) (hbc : KeepsTrack b c) :
    KeepsTrack a c := by
  intro p writable
  rcases hbc p writable with dirty | ⟨before, stays⟩
  · exact .inl dirty
  · rcases hab p before with dirty | ⟨before, kept⟩
    · exact .inl (stays dirty)
    · exact .inr ⟨before, fun dirty => stays (kept dirty)⟩

theorem KeepsTrack.tracked {map map' : Win32MemMap} (keeps : KeepsTrack map map')
    (tracked : Tracked map) : Tracked map' := by
  intro p writable
  rcases keeps p writable with dirty | ⟨before, stays⟩
  · exact dirty
  · exact stays (tracked p before)

/-! ## Views -/

theorem placed_of_place {view view' : Win32MemMapView} (same : view'.place = view.place)
    (placed : Placed view) : Placed view' := by
  simp only [Win32MemMapView.place, Prod.mk.injEq] at same
  obtain ⟨-, hoff, hsz, hacc, -⟩ := same
  unfold Placed Win32MemMapView.isCow at *
  rwa [hoff, hsz, hacc]

/-- Whether a page can be written through a view of the same place depends on the
attributes only. -/
theorem Writes.of_place {view view' : Win32MemMapView} {p : ℕ} (same : view'.place = view.place)
    (attr : ∀ q, p = view.mOffset / 0x1000 + q → (view'.attr q).write = true →
      (view.attr q).write = true)
    (writes : Writes view' p) : Writes view p := by
  simp only [Win32MemMapView.place, Prod.mk.injEq] at same
  obtain ⟨-, hoff, hsz, hacc, -⟩ := same
  obtain ⟨cow, q, hq, hp, hw⟩ := writes
  unfold Win32MemMapView.isCow at cow
  rw [hacc] at cow
  rw [hsz] at hq
  rw [hoff] at hp
  exact ⟨cow, q, hq, hp, attr q hp hw⟩

theorem setAttr_write {attr : ℕ → PageAttr} {start size q : ℕ} {a : PageAttr}
    (h : (setAttr attr start size a q).write = true) :
    start / 0x1000 ≤ q ∧ 0x1000 * q < start + size ∧ a.write = true ∨
      ¬(start / 0x1000 ≤ q ∧ 0x1000 * q < start + size) ∧ (attr q).write = true := by
  unfold setAttr at h
  split at h
  · next inside => exact .inl ⟨inside.1, inside.2, h⟩
  · next outside => exact .inr ⟨outside, h⟩

theorem isCow_changePageFlags (view : Win32MemMapView) (offset size : ℕ) (flags : PageView) :
    (view.changePageFlags offset size flags).isCow = view.isCow := by
  have same := place_changePageFlags view offset size flags
  simp only [Win32MemMapView.place, Prod.mk.injEq] at same
  unfold Win32MemMapView.isCow
  rw [same.2.2.2.1]

theorem writes_guard {view : Win32MemMapView} {offset size p : ℕ}
    (writes : Writes (view.changePageFlags offset size .guard) p) : Writes view p := by
  have shared : view.isCow = false := by
    rw [← isCow_changePageFlags view offset size .guard]
    exact writes.1
  unfold Win32MemMapView.changePageFlags at writes
  rw [shared] at writes
  split at writes
  · exact writes
  · exact writes

/-- Where the range ends that `changePageFlags` is left with, once it is clipped to the
view. -/
theorem clip_end {mOffset mSize offset size size' : ℕ} (inside : mOffset + mSize ≤ 0x7fc00000)
    (small : offset + size < 0x100000000) (below : mOffset < offset + size)
    (above : offset < mOffset + mSize)
    (hsize : size' = if offset < mOffset then sub32 size (mOffset - offset) else size) :
    max offset mOffset +
      (if add32 mOffset mSize < add32 (max offset mOffset) size' then
        sub32 size' (sub32 (add32 (max offset mOffset) size') (add32 mOffset mSize))
      else size') = min (offset + size) (mOffset + mSize) := by
  have start : max offset mOffset + size' = offset + size := by
    rw [hsize]
    split
    · rw [sub32_of_le (by omega) (by omega)]
      omega
    · omega
  rw [add32_of_lt (by omega), add32_of_lt (by omega), start]
  split
  · next beyond =>
    have cut : sub32 (offset + size) (mOffset + mSize) = offset + size - (mOffset + mSize) :=
      sub32_of_le (by omega) small
    rw [cut, sub32_of_le (by omega) (by omega)]
    omega
  · omega

theorem attr_changePageFlags {view : Win32MemMapView} {offset size q : ℕ} {flags : PageView}
    (shared : view.isCow = false) (placed : Placed view) (hflags : flags ≠ .guard)
    (aligned : offset % 0x1000 = 0) (small : offset + size < 0x100000000)
    (hq : q < pagesFor view.mSize) :
    (view.changePageFlags offset size flags).attr q =
      if offset ≤ 0x1000 * (view.mOffset / 0x1000 + q) ∧
          0x1000 * (view.mOffset / 0x1000 + q) < offset + size then
        flagAttr view.mfAccess flags
      else view.attr q := by
  obtain ⟨start, inside⟩ := placed shared
  rw [lt_pagesFor] at hq
  have sum : add32 view.mOffset view.mSize = view.mOffset + view.mSize := add32_of_lt (by omega)
  have sum' : add32 offset size = offset + size := add32_of_lt small
  have same : ¬(view.isCow ≠ (flags == PageView.guard)) := by
    rw [shared]
    simpa using hflags
  unfold Win32MemMapView.changePageFlags
  rw [if_neg (by omega), if_neg same]
  by_cases crosses : view.mOffset + view.mSize ≤ offset ∨ offset + size ≤ view.mOffset
  · rw [sum, sum', if_pos crosses, if_neg (by omega)]
  · obtain ⟨size', hsize⟩ : ∃ size', size' =
        if offset < view.mOffset then sub32 size (view.mOffset - offset) else size := ⟨_, rfl⟩
    have stop := clip_end inside small (by omega) (by omega) hsize
    rw [if_neg (by rwa [sum, sum'])]
    dsimp only
    rw [← hsize]
    cases flags with
    | guard => exact absurd rfl hflags
    | readonly =>
      dsimp only
      unfold setAttr
      apply if_congr _ rfl rfl
      omega
    | view =>
      dsimp only
      unfold setAttr
      apply if_congr _ rfl rfl
      omega

theorem writes_readonly {view : Win32MemMapView} {offset size p : ℕ}
    (writes : Writes (view.changePageFlags offset size .readonly) p) :
    Writes view p ∧ (Placed view → offset % 0x1000 = 0 → offset + size < 0x100000000 →
      ¬(offset ≤ 0x1000 * p ∧ 0x1000 * p < offset + size)) := by
  have same := place_changePageFlags view offset size .readonly
  have shared : view.isCow = false := by
    rw [← isCow_changePageFlags view offset size .readonly]
    exact writes.1
  constructor
  · apply writes.of_place same
    intro q _ hw
    unfold Win32MemMapView.changePageFlags at hw
    split at hw
    · exact hw
    split at hw
    · exact hw
    split at hw
    · exact hw
    · rcases setAttr_write hw with ⟨-, -, hw⟩ | ⟨-, hw⟩
      · cases hw
      · exact hw
  · intro placed aligned small reached
    simp only [Win32MemMapView.place, Prod.mk.injEq] at same
    obtain ⟨-, q, hq, hp, hw⟩ := writes
    rw [same.2.2.1] at hq
    rw [same.2.1] at hp
    rw [attr_changePageFlags shared placed (by decide) aligned small hq, ← hp,
      if_pos reached] at hw
    cases hw

theorem writes_view {view : Win32MemMapView} {offset size p : ℕ} (placed : Placed view)
    (aligned : offset % 0x1000 = 0) (small : offset + size < 0x100000000)
    (writes : Writes (view.changePageFlags offset size .view) p) :
    Writes view p ∨ offset ≤ 0x1000 * p ∧ 0x1000 * p < offset + size := by
  have same := place_changePageFlags view offset size .view
  have shared : view.isCow = false := by
    rw [← isCow_changePageFlags view offset size .view]
    exact writes.1
  by_cases reached : offset ≤ 0x1000 * p ∧ 0x1000 * p < offset + size
  · exact .inr reached
  · simp only [Win32MemMapView.place, Prod.mk.injEq] at same
    obtain ⟨-, q, hq, hp, hw⟩ := writes
    rw [same.2.2.1] at hq
    rw [same.2.1] at hp
    rw [attr_changePageFlags shared placed (by decide) aligned small hq, ← hp,
      if_neg reached] at hw
    exact .inl ⟨shared, q, hq, hp, hw⟩

theorem writes_freshPages {view : Win32MemMapView} {fAliasWrite : Bool} {startpage nrpages p : ℕ}
    (writes : Writes (view.freshPages fAliasWrite startpage nrpages) p) :
    startpage ≤ p ∧ p < startpage + nrpages ∧ fAliasWrite = true ∨
      ¬(startpage ≤ p ∧ p < startpage + nrpages) ∧ Writes view p := by
  unfold Win32MemMapView.freshPages at writes
  split at writes
  · next cow => exact absurd (cow.symm.trans writes.1) (by decide)
  · obtain ⟨shared, q, hq, rfl, hw⟩ := writes
    dsimp only at hq hw ⊢
    split at hw
    · next inside => exact .inl ⟨inside.1, inside.2, hw⟩
    · next outside => exact .inr ⟨outside, shared, q, hq, rfl, hw⟩

theorem writes_protectPage {view : Win32MemMapView} {address p : ℕ} {a : PageAttr}
    (writes : Writes (view.protectPage address a) p) :
    view.isCow = false ∧ a.write = true ∧
      p = view.mOffset / 0x1000 + (address - view.pMapView) / 0x1000 ∨
    Writes view p := by
  obtain ⟨shared, q, hq, hp, hw⟩ := writes
  rcases setAttr_write hw with ⟨lo, hi, hw⟩ | ⟨-, hw⟩
  · left
    refine ⟨shared, hw, ?_⟩
    rw [hp]
    show view.mOffset / 0x1000 + q = _
    omega
  · exact .inr ⟨shared, q, hq, hp, hw⟩

theorem writes_protectPage_twice {view : Win32MemMapView} {address p : ℕ} {a : PageAttr}
    (writes : Writes ((view.protectPage address a).protectPage address .readonly) p) :
    Writes view p := by
  obtain ⟨shared, q, hq, hp, hw⟩ := writes
  rcases setAttr_write hw with ⟨-, -, hw⟩ | ⟨beyond, hw⟩
  · cases hw
  · rcases setAttr_write hw with ⟨lo, hi, -⟩ | ⟨-, hw⟩
    · exact absurd ⟨lo, hi⟩ beyond
    · exact ⟨shared, q, hq, hp, hw⟩

theorem mem_modifyFirst {address : ℕ} {f : Win32MemMapView → Win32MemMapView}
    {views : List Win32MemMapView} {v : Win32MemMapView} (mem : v ∈ modifyFirst address f views) :
    v ∈ views ∨
      ∃ view, views.find? (fun view => view.covers address) = some view ∧ v = f view := by
  induction views with
  | nil => exact .inl mem
  | cons view rest ih =>
    unfold modifyFirst at mem
    split at mem
    · next here =>
      rcases List.mem_cons.mp mem with rfl | mem
      · exact .inr ⟨view, by simp [here], rfl⟩
      · exact .inl (List.mem_cons_of_mem _ mem)
    · next other =>
      rcases List.mem_cons.mp mem with rfl | mem
      · exact .inl List.mem_cons_self
      · rcases ih mem with mem | ⟨w, found, rfl⟩
        · exact .inl (List.mem_cons_of_mem _ mem)
        · exact .inr ⟨w, by simp [other, found], rfl⟩

theorem modifyFirst_modifyFirst (address : ℕ) {f g : Win32MemMapView → Win32MemMapView}
    (hf : ∀ view, (f view).place = view.place) (views : List Win32MemMapView) :
    modifyFirst address g (modifyFirst address f views) = modifyFirst address (g ∘ f) views := by
  have covers : ∀ view, (f view).covers address = view.covers address := by
    intro view
    have same := hf view
    simp only [Win32MemMapView.place, Prod.mk.injEq] at same
    unfold Win32MemMapView.covers
    rw [same.1, same.2.2.1]
  induction views with
  | nil => rfl
  | cons view rest ih =>
    by_cases here : view.covers address = true
    · simp [modifyFirst, here, covers]
    · simp [modifyFirst, here, ih]

/-! ## The map -/

theorem modifyView_modifyView (map : Win32MemMap) (address : ℕ)
    {f : Win32MemMapView → Win32MemMapView} (g : Win32MemMapView → Win32MemMapView)
    (hf : ∀ view, (f view).place = view.place) :
    (map.modifyView address f).modifyView address g = map.modifyView address fun view => g (f view) := by
  show { map with views := modifyFirst address g (modifyFirst address f map.views) } = _
  rw [modifyFirst_modifyFirst address hf]
  rfl

/-- All aliases of a map are placed. -/
def AllPlaced (map : Win32MemMap) : Prop :=
  ∀ view ∈ map.views, Placed view

theorem AllPlaced.of_same {map map' : Win32MemMap} (placed : AllPlaced map)
    (same : SameExtent map map') : AllPlaced map' := by
  intro view' mem'
  have mem := List.mem_map_of_mem (f := Win32MemMapView.place) mem'
  rw [same.views] at mem
  obtain ⟨view, mem, place⟩ := List.mem_map.mp mem
  exact placed_of_place place.symm (placed view mem)

theorem keepsTrack_of_views {map map' : Win32MemMap} (page : ∀ p, map'.page p = map.page p)
    (dirty : ∀ p, map'.isDirtyPage p = map.isDirtyPage p)
    (views : ∀ p, ∀ view' ∈ map'.views, Writes view' p →
      map.isDirtyPage p = true ∨ ∃ view ∈ map.views, Writes view p) : KeepsTrack map map' := by
  rintro p ⟨a, hpage, hw⟩
  rw [page] at hpage
  rw [dirty]
  rcases hw with hw | ⟨view', mem, writes⟩
  · exact .inr ⟨⟨a, hpage, .inl hw⟩, id⟩
  · rcases views p view' mem writes with hdirty | before
    · exact .inl hdirty
    · exact .inr ⟨⟨a, hpage, .inr before⟩, id⟩

theorem mem_updateViewPages {map : Win32MemMap} {offset size : ℕ} {flags : PageView}
    {view' : Win32MemMapView} (mem : view' ∈ (map.updateViewPages offset size flags).views) :
    ∃ view ∈ map.views, view' = view.changePageFlags offset size flags := by
  obtain ⟨view, mem', rfl⟩ := List.mem_map.mp mem
  exact ⟨view, mem', rfl⟩

theorem keepsTrack_readonly (map : Win32MemMap) (offset size : ℕ) :
    KeepsTrack map (map.updateViewPages offset size .readonly) := by
  apply keepsTrack_of_views
  · exact fun _ => rfl
  · exact fun _ => rfl
  · intro p view' mem writes
    obtain ⟨view, mem', rfl⟩ := mem_updateViewPages mem
    exact .inr ⟨view, mem', (writes_readonly writes).1⟩

theorem keepsTrack_guard (map : Win32MemMap) (offset size : ℕ) :
    KeepsTrack map (map.updateViewPages offset size .guard) := by
  apply keepsTrack_of_views
  · exact fun _ => rfl
  · exact fun _ => rfl
  · intro p view' mem writes
    obtain ⟨view, mem', rfl⟩ := mem_updateViewPages mem
    exact .inr ⟨view, mem', writes_guard writes⟩

end Odin32.MemMapTrack
