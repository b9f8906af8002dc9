import Odin32.Handles

/-! # What the two searches find

The upward search finds the first free entry at or after its cursor, and nothing below
it. The circular search looks at every entry but the one it took last, and has no end
when it has taken none yet and the table is full. -/

set_option autoImplicit false

namespace Odin32.Handles

namespace HandleManager

variable (hm : HandleManager) (i j : ℕ) (d : HMHandleData) (device : DeviceHandler)

@[simp] theorem data_setData :
    (hm.setData i d).data j = if j = i then d else hm.data j := by
  unfold data setData
  simp only
  split <;> rfl

@[simp] theorem data_setDevice : (hm.setDevice i device).data j = hm.data j := by
  unfold data setDevice
  simp only
  split
  · next same => rw [same]
  · rfl

theorem free_setData :
    (hm.setData i d).free j = if j = i then d.hHMHandle == invalidHandleValue else hm.free j := by
  unfold free
  rw [data_setData]
  split <;> rfl

@[simp] theorem free_setDevice : (hm.setDevice i device).free j = hm.free j := by
  unfold free
  rw [data_setDevice]

theorem free_freeHandle : (hm.freeHandle i).free j = (hm.free j || decide (j = i)) := by
  unfold freeHandle
  rw [free_setData]
  split
  · next same => simp [same]
  · next other => simp [other]

@[simp] theorem lastIndex_setData : (hm.setData i d).lastIndex = hm.lastIndex := rfl
@[simp] theorem lastIndex_setDevice : (hm.setDevice i device).lastIndex = hm.lastIndex := rfl
@[simp] theorem lastIndex_freeHandle : (hm.freeHandle i).lastIndex = hm.lastIndex := rfl
@[simp] theorem ulHandleLast_setData : (hm.setData i d).ulHandleLast = hm.ulHandleLast := rfl
@[simp] theorem ulHandleLast_setDevice :
    (hm.setDevice i device).ulHandleLast = hm.ulHandleLast := rfl
@[simp] theorem ulHandleLast_freeHandle : (hm.freeHandle i).ulHandleLast = hm.ulHandleLast := rfl

/-- The cursors stay inside the table. -/
structure CursorsOk (hm : HandleManager) : Prop where
  lastIndex : 1 ≤ hm.lastIndex
  ulHandleLast : hm.ulHandleLast < maxOs2HmHandles

/-- No entry that can be handed out is free. -/
def Full (hm : HandleManager) : Prop :=
  ∀ i, 1 ≤ i → i < maxOs2HmHandles → hm.free i = false

/-- The upward search does not miss a free entry: there is one at or after its cursor, or
none at all. -/
def UpwardFinds (hm : HandleManager) : Prop :=
  (∃ i, hm.cursor ≤ i ∧ i < maxOs2HmHandles ∧ hm.free i = true) ∨ hm.Full

/-- The circular search comes to the right end: there is a free entry besides the one it
took last, or there is none and it has taken one before. -/
def CircleFinds (hm : HandleManager) : Prop :=
  (∃ i, 1 ≤ i ∧ i < maxOs2HmHandles ∧ i ≠ hm.ulHandleLast ∧ hm.free i = true) ∨
    (hm.Full ∧ hm.ulHandleLast ≠ 0)

end HandleManager

open HandleManager

/-! ## The upward search -/

theorem getFreeFrom_some (hm : HandleManager) (n : ℕ) {ulLoop i : ℕ}
    (found : getFreeFrom hm n ulLoop = some i) :
    ulLoop ≤ i ∧ i < ulLoop + n ∧ hm.free i = true := by
  induction n generalizing ulLoop with
  | zero => cases found
  | succ n ih =>
    rw [getFreeFrom] at found
    split at found
    · next isFree =>
      cases found
      exact ⟨Nat.le_refl _, by omega, isFree⟩
    · have later := ih found
      exact ⟨by omega, by omega, later.2.2⟩

theorem getFreeFrom_none (hm : HandleManager) (n : ℕ) {ulLoop : ℕ}
    (missed : getFreeFrom hm n ulLoop = none) :
    ∀ i, ulLoop ≤ i → i < ulLoop + n → hm.free i = false := by
  induction n generalizing ulLoop with
  | zero =>
    intro i from_ upTo
    omega
  | succ n ih =>
    intro i from_ upTo
    rw [getFreeFrom] at missed
    split at missed
    · cases missed
    · next used =>
      rcases Nat.eq_or_lt_of_le from_ with rfl | later
      · simpa using used
      · exact ih missed i later (by omega)

theorem cursor_pos {hm : HandleManager} (ok : hm.CursorsOk) : 1 ≤ hm.cursor := by
  unfold cursor
  split
  · exact Nat.le_refl 1
  · exact ok.lastIndex

theorem cursor_lt (hm : HandleManager) : hm.cursor < maxOs2HmHandles := by
  unfold cursor
  split
  · decide
  · omega

/-- What `_HMHandleGetFree` leaves after it took an entry. -/
structure Taken (hm : HandleManager) (i : ℕ) (hm' : HandleManager) : Prop where
  pos : 1 ≤ i
  lt : i < maxOs2HmHandles
  wasFree : hm.free i = true
  data : ∀ j, hm'.data j = if j = i then { hHMHandle := i, hWin32Handle := i } else hm.data j
  device : ∀ j, (hm'.tabWin32Handles j).pDeviceHandler = (hm.tabWin32Handles j).pDeviceHandler
  translate : hm'.translate = hm.translate
  cursors : hm'.CursorsOk

theorem Taken.free {hm hm' : HandleManager} {i : ℕ} (taken : Taken hm i hm') (j : ℕ) :
    hm'.free j = (hm.free j && decide (j ≠ i)) := by
  unfold HandleManager.free
  rw [taken.data]
  split
  · next same =>
    have short := taken.lt
    have marked : i ≠ invalidHandleValue := by
      unfold maxOs2HmHandles at short
      unfold invalidHandleValue
      omega
    simp [same, marked]
  · next other => simp [other]

theorem hmHandleGetFree_cases (hm : HandleManager) (ok : hm.CursorsOk) :
    (∃ i hm', hmHandleGetFree hm = (some i, hm') ∧ Taken hm i hm') ∨
    ∃ hm', hmHandleGetFree hm = (none, hm') ∧
      (∀ i, hm.cursor ≤ i → i < maxOs2HmHandles → hm.free i = false) ∧
      hm'.tabWin32Handles = hm.tabWin32Handles ∧ hm'.CursorsOk := by
  have positive := cursor_pos ok
  have below := cursor_lt hm
  unfold hmHandleGetFree
  rcases found : getFreeFrom { hm with lastIndex := hm.cursor }
    (maxOs2HmHandles - hm.cursor) hm.cursor with _ | i
  · right
    simp only [found]
    refine ⟨_, rfl, ?_, rfl, ⟨positive, ok.ulHandleLast⟩⟩
    intro i fromCursor upTo
    exact getFreeFrom_none _ _ found i fromCursor (by omega)
  · left
    obtain ⟨fromCursor, upTo, isFree⟩ := getFreeFrom_some _ _ found
    simp only [found]
    refine ⟨i, _, rfl, ?_⟩
    constructor
    · omega
    · omega
    · exact isFree
    · exact fun j => data_setData { hm with lastIndex := hm.cursor } i j _
    · intro j
      unfold setData
      simp only
      split
      · next same => rw [same]
      · rfl
    · rfl
    · exact ⟨Nat.le_add_left 1 i, ok.ulHandleLast⟩

theorem hmHandleGetFree_full {hm : HandleManager} (finds : hm.UpwardFinds)
    (none_ : ∀ i, hm.cursor ≤ i → i < maxOs2HmHandles → hm.free i = false) : hm.Full := by
  rcases finds with ⟨i, fromCursor, upTo, isFree⟩ | full
  · rw [none_ i fromCursor upTo] at isFree
    cases isFree
  · exact full

/-! ## The circular search -/

theorem allocateFrom_some (hm : HandleManager) (n : ℕ) {ulHandle i : ℕ}
    (positive : 1 ≤ ulHandle) (inside : ulHandle < maxOs2HmHandles)
    (found : allocateFrom hm n ulHandle = some (some i)) :
    1 ≤ i ∧ i < maxOs2HmHandles ∧ hm.free i = true := by
  induction n generalizing ulHandle with
  | zero => cases found
  | succ n ih =>
    rw [allocateFrom] at found
    split at found
    · next isFree =>
      cases found
      exact ⟨positive, inside, isFree⟩
    · by_cases wraps : maxOs2HmHandles ≤ ulHandle + 1
      · simp only [if_pos wraps] at found
        split at found
        · cases found
        · exact ih (Nat.le_refl 1) (by decide) found
      · simp only [if_neg wraps] at found
        split at found
        · cases found
        · exact ih (by omega) (by omega) found

theorem allocateFrom_skip (hm : HandleManager) (n k : ℕ) {ulHandle : ℕ}
    (inside : ulHandle + k < maxOs2HmHandles)
    (used : ∀ j, ulHandle ≤ j → j < ulHandle + k → hm.free j = false)
    (clear : ∀ j, ulHandle < j → j ≤ ulHandle + k → j ≠ hm.ulHandleLast) :
    allocateFrom hm (k + n) ulHandle = allocateFrom hm n (ulHandle + k) := by
  induction k generalizing ulHandle with
  | zero => rw [Nat.zero_add, Nat.add_zero]
  | succ k ih =>
    rw [show k + 1 + n = (k + n) + 1 by omega, allocateFrom,
      used ulHandle (Nat.le_refl _) (by omega)]
    simp only [Bool.false_eq_true, if_false]
    rw [if_neg (show ¬ maxOs2HmHandles ≤ ulHandle + 1 by omega),
      if_neg (clear _ (by omega) (by omega)), ih (by omega)]
    · congr 1
      omega
    · intro j from_ upTo
      exact used j (by omega) (by omega)
    · intro j from_ upTo
      exact clear j (by omega) (by omega)

theorem allocateFrom_finds (hm : HandleManager) (n : ℕ) {ulHandle i : ℕ} (upTo : ulHandle ≤ i)
    (inside : i < maxOs2HmHandles) (turns : i < ulHandle + n) (isFree : hm.free i = true)
    (clear : ∀ j, ulHandle < j → j ≤ i → j ≠ hm.ulHandleLast) :
    ∃ found, allocateFrom hm n ulHandle = some (some found) := by
  induction n generalizing ulHandle with
  | zero => omega
  | succ n ih =>
    rw [allocateFrom]
    split
    · exact ⟨ulHandle, rfl⟩
    · next used =>
      have before : ulHandle < i := by
        rcases Nat.eq_or_lt_of_le upTo with rfl | before
        · exact absurd isFree used
        · exact before
      simp only
      rw [if_neg (show ¬ maxOs2HmHandles ≤ ulHandle + 1 by omega),
        if_neg (clear _ (by omega) (by omega))]
      apply ih (by omega) (by omega)
      intro j from_ within
      exact clear j (by omega) within

theorem allocateFrom_mono (hm : HandleManager) (n k : ℕ) {ulHandle : ℕ} {r : Option ℕ}
    (found : allocateFrom hm n ulHandle = some r) : allocateFrom hm (n + k) ulHandle = some r := by
  induction n generalizing ulHandle with
  | zero => cases found
  | succ n ih =>
    rw [show n + 1 + k = (n + k) + 1 by omega, allocateFrom]
    rw [allocateFrom] at found
    split at found
    · next isFree => rw [if_pos isFree, found]
    · next used =>
      rw [if_neg used]
      generalize (if maxOs2HmHandles ≤ ulHandle + 1 then 1 else ulHandle + 1) = next at found ⊢
      by_cases last : next = hm.ulHandleLast
      · rw [if_pos last] at found ⊢
        exact found
      · rw [if_neg last] at found ⊢
        exact ih found

theorem startIndex_pos (hm : HandleManager) : 1 ≤ hm.startIndex := by
  unfold startIndex
  split <;> omega

theorem startIndex_lt (hm : HandleManager) : hm.startIndex < maxOs2HmHandles := by
  unfold startIndex
  split
  · decide
  · omega

theorem allocate_finds {hm : HandleManager} (ok : hm.CursorsOk) {i : ℕ} (positive : 1 ≤ i)
    (inside : i < maxOs2HmHandles) (other : i ≠ hm.ulHandleLast) (isFree : hm.free i = true) :
    ∃ found, allocateFrom hm maxOs2HmHandles hm.startIndex = some (some found) := by
  have lastInside := ok.ulHandleLast
  rcases Nat.lt_or_ge hm.ulHandleLast i with above | below
  · have start : hm.startIndex = hm.ulHandleLast + 1 := by
      unfold startIndex
      rw [if_neg (by omega)]
    rw [start]
    apply allocateFrom_finds hm _ (by omega) inside (by omega) isFree
    intro j from_ upTo
    omega
  · by_cases atEnd : maxOs2HmHandles ≤ hm.ulHandleLast + 1
    · have start : hm.startIndex = 1 := by
        unfold startIndex
        rw [if_pos atEnd]
      rw [start]
      apply allocateFrom_finds hm _ positive inside (by omega) isFree
      intro j from_ upTo
      omega
    · have start : hm.startIndex = hm.ulHandleLast + 1 := by
        unfold startIndex
        rw [if_neg atEnd]
      rw [start]
      by_cases upper : ∃ j, hm.ulHandleLast < j ∧ j < maxOs2HmHandles ∧ hm.free j = true
      · obtain ⟨j, above, upTo, isFree⟩ := upper
        apply allocateFrom_finds hm _ (by omega) upTo (by omega) isFree
        intro k from_ within
        omega
      · -- everything above the last handle is used: the loop comes to the top, wraps to one
        -- and goes on upwards
        push Not at upper
        have used : ∀ j, hm.ulHandleLast < j → j < maxOs2HmHandles → hm.free j = false :=
          fun j above upTo => by simpa using upper j above upTo
        have skip := allocateFrom_skip hm (hm.ulHandleLast + 2)
          (maxOs2HmHandles - 1 - (hm.ulHandleLast + 1)) (show hm.ulHandleLast + 1 + _ < _ by omega)
          (fun j from_ upTo => used j (by omega) (by omega)) (fun j from_ upTo => by omega)
        rw [show maxOs2HmHandles - 1 - (hm.ulHandleLast + 1) + (hm.ulHandleLast + 2) =
          maxOs2HmHandles by omega] at skip
        rw [skip, show hm.ulHandleLast + 1 + (maxOs2HmHandles - 1 - (hm.ulHandleLast + 1)) =
          maxOs2HmHandles - 1 by omega, allocateFrom, used _ (by omega) (by omega)]
        simp only [Bool.false_eq_true, if_false]
        rw [if_pos (show maxOs2HmHandles ≤ maxOs2HmHandles - 1 + 1 by omega),
          if_neg (by omega)]
        apply allocateFrom_finds hm _ positive inside (by omega) isFree
        intro j from_ upTo
        omega

theorem allocate_full {hm : HandleManager} (ok : hm.CursorsOk) (full : hm.Full)
    (last : hm.ulHandleLast ≠ 0) :
    allocateFrom hm maxOs2HmHandles hm.startIndex = some none := by
  have lastInside := ok.ulHandleLast
  -- from any entry below the last handle the loop stops at it
  have upTo : ∀ k u, 1 ≤ u → u + k + 1 = hm.ulHandleLast →
      allocateFrom hm (k + 1) u = some none := by
    intro k u positive reach
    rw [allocateFrom_skip hm 1 k (by omega)
      (fun j from_ within => full j (by omega) (by omega)) (fun j from_ within => by omega),
      allocateFrom, full _ (by omega) (by omega)]
    simp only [Bool.false_eq_true, if_false]
    rw [if_neg (show ¬ maxOs2HmHandles ≤ u + k + 1 by omega), if_pos reach]
  unfold startIndex
  split
  · next atEnd =>
    have below := upTo (hm.ulHandleLast - 2) 1 (Nat.le_refl 1) (by
      unfold maxOs2HmHandles at atEnd
      omega)
    have more := allocateFrom_mono hm _ (maxOs2HmHandles - (hm.ulHandleLast - 2 + 1)) below
    rwa [show hm.ulHandleLast - 2 + 1 + (maxOs2HmHandles - (hm.ulHandleLast - 2 + 1)) =
      maxOs2HmHandles by omega] at more
  · next notAtEnd =>
    have skip := allocateFrom_skip hm (hm.ulHandleLast + 2)
      (maxOs2HmHandles - 1 - (hm.ulHandleLast + 1)) (show hm.ulHandleLast + 1 + _ < _ by omega)
      (fun j from_ within => full j (by omega) (by omega)) (fun j from_ within => by omega)
    rw [show maxOs2HmHandles - 1 - (hm.ulHandleLast + 1) + (hm.ulHandleLast + 2) =
      maxOs2HmHandles by omega] at skip
    rw [skip, show hm.ulHandleLast + 1 + (maxOs2HmHandles - 1 - (hm.ulHandleLast + 1)) =
      maxOs2HmHandles - 1 by omega, allocateFrom, full _ (by omega) (by omega)]
    simp only [Bool.false_eq_true, if_false]
    rw [if_pos (show maxOs2HmHandles ≤ maxOs2HmHandles - 1 + 1 by omega)]
    split
    · rfl
    · next more =>
      have below := upTo (hm.ulHandleLast - 2) 1 (Nat.le_refl 1) (by omega)
      have mono := allocateFrom_mono hm _ 2 below
      rwa [show hm.ulHandleLast - 2 + 1 + 2 = hm.ulHandleLast + 1 by omega] at mono

theorem allocate_diverges {hm : HandleManager} (full : hm.Full) (none_ : hm.ulHandleLast = 0)
    (n : ℕ) {ulHandle : ℕ} (positive : 1 ≤ ulHandle) (inside : ulHandle < maxOs2HmHandles) :
    allocateFrom hm n ulHandle = none := by
  induction n generalizing ulHandle with
  | zero => rfl
  | succ n ih =>
    rw [allocateFrom, full _ positive inside]
    simp only [Bool.false_eq_true, if_false]
    rw [none_]
    split
    · rw [if_neg (by decide)]
      exact ih (Nat.le_refl 1) (by decide)
    · rw [if_neg (by omega)]
      exact ih (by omega) (by omega)

end Odin32.Handles
