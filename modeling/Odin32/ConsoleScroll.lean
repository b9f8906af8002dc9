import Odin32.ConsoleBuffer
import Mathlib.Data.Nat.ModEq

/-! # Scrolling the line table

A scroll recomputes the table from a running offset, for as many lines as the console window
has. That is a rotation of the table when the window is as high as the buffer and the offset
is the row of the first line. The offset is kept over a resize, which numbers the rows from
zero again, and over a scroll of more lines than there are, which leaves the table alone. -/

set_option autoImplicit false

namespace Odin32.Console

open Word ConsoleBuffer

/-- Line `k` shows row `k + r`, counted around. -/
structure ConsoleBuffer.Rotated (b : ConsoleBuffer) (r : ℕ) : Prop where
  size : b.sizeY ≤ 32767
  row : r < b.sizeY
  lines : ∀ k < b.sizeY, b.lines k = (k + r) % b.sizeY

/-- The lines of the table show each row of the storage once. -/
structure ConsoleBuffer.TableOk (b : ConsoleBuffer) : Prop where
  inside : ∀ k < b.sizeY, b.lines k < b.sizeY
  apart : ∀ j < b.sizeY, ∀ k < b.sizeY, b.lines j = b.lines k → j = k
  covers : ∀ row < b.sizeY, ∃ k < b.sizeY, b.lines k = row

/-- What is asked of a scroll by `n` lines. -/
structure ScrollOk (b : ConsoleBuffer) (n : ℕ) (r : ConsoleBuffer × List Access) : Prop where
  entries : ∀ line, .entry line ∈ r.2 → line < b.sizeY
  moved : ∀ k, k + n < b.sizeY → r.1.lines k = b.lines (k + n) ∧
    ∀ column < b.sizeX, r.1.storage (r.1.lines k) column = b.storage (b.lines (k + n)) column
  blanks : ∀ k < b.sizeY, b.sizeY - min n b.sizeY ≤ k →
    ∀ column < b.sizeX, r.1.storage (r.1.lines k) column = b.blank

/-- What happens to a buffer and its window. -/
inductive Event where
  | scrollUp (ulLines : ℕ)
  | resize (x y : ℕ) (mem : Bool) (row column : ℕ)
  | windowSize (y : ℕ)

def event (g : ConsoleGlobals) (b : ConsoleBuffer) : Event → ConsoleGlobals × ConsoleBuffer
  | .scrollUp ulLines => (g, (iConsoleBufferScrollUp g b ulLines).1)
  | .resize x y mem row column => (g, b.setConsoleScreenBufferSize g x y mem row column)
  | .windowSize y => ({ g with windowY := y }, b)

def Event.Sized : Event → Prop
  | .resize x y _ _ _ => 1 ≤ x ∧ x ≤ 32767 ∧ 1 ≤ y ∧ y ≤ 32767
  | _ => True

/-- The table is sound after each event, and each scroll did what is asked of it. -/
def RunRotates : ConsoleGlobals → ConsoleBuffer → List Event → Prop
  | _, b, [] => b.TableOk
  | g, b, e :: events => b.TableOk ∧
      (∀ n, e = .scrollUp n → ScrollOk b n (iConsoleBufferScrollUp g b n)) ∧
      RunRotates (event g b e).1 (event g b e).2 events

/-- A scroll by less than the whole buffer needs a window of the height of the buffer, and an
offset that is the row of the first line. -/
def EventFits (g : ConsoleGlobals) (b : ConsoleBuffer) : Event → Prop
  | .scrollUp n => n < b.sizeY → g.windowY = b.sizeY ∧ b.lines 0 = b.ulScrollLineOffset
  | _ => True

def EventsFit : ConsoleGlobals → ConsoleBuffer → List Event → Prop
  | _, _, [] => True
  | g, b, e :: events => EventFits g b e ∧ EventsFit (event g b e).1 (event g b e).2 events

/-! ## Filling -/

theorem fillPairs_apply (blank : Cell) (n : ℕ) (row : Row) (column : ℕ) :
    fillPairs blank n row column = if column < 2 * n then blank else row column := by
  induction n with
  | zero => rfl
  | succ n ih =>
    rw [fillPairs]
    by_cases odd : column = 2 * n + 1
    · rw [odd, Function.update_self, if_pos (by omega)]
    · rw [Function.update_of_ne odd]
      by_cases even : column = 2 * n
      · rw [even, Function.update_self, if_pos (by omega)]
      · rw [Function.update_of_ne even, ih]
        by_cases below : column < 2 * n
        · rw [if_pos below, if_pos (by omega)]
        · rw [if_neg below, if_neg (by omega)]

theorem fillLine_apply (blank : Cell) (row : Row) (size column : ℕ) :
    iConsoleBufferFillLine blank row size column = if column < size then blank else row column := by
  unfold iConsoleBufferFillLine
  split
  · by_cases last : column = 2 * (size / 2)
    · rw [last, Function.update_self, if_pos (by omega)]
    · rw [Function.update_of_ne last, fillPairs_apply]
      by_cases below : column < 2 * (size / 2)
      · rw [if_pos below, if_pos (by omega)]
      · rw [if_neg below, if_neg (by omega)]
  · rw [fillPairs_apply]
    have even : 2 * (size / 2) = size := by omega
    rw [even]

theorem fillLines_other {blank : Cell} {lines : ℕ → ℕ} {size count line row : ℕ}
    (storage : ℕ → Row) (off : ∀ i < count, lines (line + i) ≠ row) :
    fillLines blank lines size count line storage row = storage row := by
  induction count generalizing line storage with
  | zero => rfl
  | succ count ih =>
    have here : row ≠ lines line := fun same => off 0 (by omega) same.symm
    rw [fillLines, ih]
    · exact Function.update_of_ne here ..
    · intro i less same
      exact off (i + 1) (by omega) (by rw [← same]; congr 1; omega)

theorem fillLines_blank {blank : Cell} {lines : ℕ → ℕ} {size count line i column : ℕ}
    (storage : ℕ → Row) (less : i < count) (inside : column < size)
    (apart : ∀ j < count, ∀ k < count, lines (line + j) = lines (line + k) → j = k) :
    fillLines blank lines size count line storage (lines (line + i)) column = blank := by
  induction count generalizing line storage i with
  | zero => omega
  | succ count ih =>
    rw [fillLines]
    cases i with
    | zero =>
      rw [fillLines_other]
      · rw [Nat.add_zero, Function.update_self, fillLine_apply, if_pos inside]
      · intro j less' same
        have := apart (j + 1) (by omega) 0 (by omega) (by rw [← same]; congr 1; omega)
        omega
    | succ i =>
      have shift : line + (i + 1) = line + 1 + i := by omega
      rw [shift]
      apply ih _ (by omega)
      intro j lessj k lessk same
      have := apart (j + 1) (by omega) (k + 1) (by omega) (by
        rw [show line + (j + 1) = line + 1 + j by omega, same]
        congr 1
        omega)
      omega

/-! ## Rotations -/

section Rotations

variable {b : ConsoleBuffer} {r : ℕ}

theorem ConsoleBuffer.Rotated.tableOk (rotated : b.Rotated r) : b.TableOk := by
  have positive : 0 < b.sizeY := Nat.lt_of_le_of_lt (Nat.zero_le r) rotated.row
  constructor
  case inside =>
    intro k less
    rw [rotated.lines k less]
    exact Nat.mod_lt _ positive
  case apart =>
    intro j lessj k lessk same
    rw [rotated.lines j lessj, rotated.lines k lessk] at same
    have cancelled : j ≡ k [MOD b.sizeY] := Nat.ModEq.add_right_cancel' r same
    exact cancelled.eq_of_lt_of_lt lessj lessk
  case covers =>
    intro row less
    have inside : (row + (b.sizeY - r)) % b.sizeY < b.sizeY := Nat.mod_lt _ positive
    refine ⟨_, inside, ?_⟩
    have whole : row + (b.sizeY - r) + r = row + b.sizeY := by
      have := rotated.row
      omega
    rw [rotated.lines _ inside, Nat.mod_add_mod, whole, Nat.add_mod_right, Nat.mod_eq_of_lt less]

theorem scrollUp_rotated (rotated : b.Rotated r) {g : ConsoleGlobals} {n : ℕ}
    (fits : EventFits g b (.scrollUp n)) :
    ∃ r', (iConsoleBufferScrollUp g b n).1.Rotated r' ∧
      ∀ k, k + n < b.sizeY → (iConsoleBufferScrollUp g b n).1.lines k = b.lines (k + n) := by
  have positive : 0 < b.sizeY := Nat.lt_of_le_of_lt (Nat.zero_le r) rotated.row
  by_cases less : n < b.sizeY
  · obtain ⟨window, first⟩ := fits less
    have offset : b.ulScrollLineOffset = r := by
      rw [← first, rotated.lines 0 positive, Nat.zero_add, Nat.mod_eq_of_lt rotated.row]
    have sum : add32 b.ulScrollLineOffset n = r + n := by
      have := rotated.size
      have := rotated.row
      rw [offset, add32_of_lt (by omega)]
    have lines : ∀ k < b.sizeY,
        (iConsoleBufferScrollUp g b n).1.lines k = (k + (r + n) % b.sizeY) % b.sizeY := by
      intro k inside
      unfold iConsoleBufferScrollUp
      simp only [if_pos less, window, if_pos inside, sum]
    refine ⟨(r + n) % b.sizeY, ⟨rotated.size, Nat.mod_lt _ positive, lines⟩, ?_⟩
    intro k inside
    rw [lines k (by omega), rotated.lines (k + n) inside, Nat.add_mod_mod]
    congr 1
    omega
  · have lines : (iConsoleBufferScrollUp g b n).1.lines = b.lines := by
      unfold iConsoleBufferScrollUp
      simp only [if_neg less, Nat.not_lt_zero, if_false]
    refine ⟨r, ⟨rotated.size, rotated.row, ?_⟩, fun k inside => absurd inside (by omega)⟩
    intro k inside
    rw [lines]
    exact rotated.lines k inside

theorem scrollUp_ok (rotated : b.Rotated r) {g : ConsoleGlobals} {n : ℕ}
    (fits : EventFits g b (.scrollUp n)) : ScrollOk b n (iConsoleBufferScrollUp g b n) := by
  obtain ⟨r', rotated', moved⟩ := scrollUp_rotated rotated fits
  have apart : ∀ j < b.sizeY, ∀ k < b.sizeY, (iConsoleBufferScrollUp g b n).1.lines j =
      (iConsoleBufferScrollUp g b n).1.lines k → j = k := rotated'.tableOk.apart
  have storage : (iConsoleBufferScrollUp g b n).1.storage =
      fillLines b.blank (iConsoleBufferScrollUp g b n).1.lines b.sizeX (min n b.sizeY)
        (b.sizeY - min n b.sizeY) b.storage := rfl
  constructor
  case entries =>
    intro line mem
    rcases List.mem_append.mp mem with entry | cell
    · obtain ⟨k, below, eq⟩ := List.mem_map.mp entry
      cases eq
      rw [List.mem_range] at below
      by_cases less : n < b.sizeY
      · rw [if_pos less, (fits less).1] at below
        exact below
      · rw [if_neg less] at below
        omega
    · obtain ⟨i, -, inLine⟩ := List.mem_flatMap.mp cell
      obtain ⟨column, -, eq⟩ := List.mem_map.mp inLine
      cases eq
  case moved =>
    intro k inside
    refine ⟨moved k inside, ?_⟩
    intro column _
    rw [storage, fillLines_other]
    · rw [moved k inside]
    · intro i less same
      have := apart _ (by omega) k (by omega) same
      omega
  case blanks =>
    intro k inside low column left
    obtain ⟨i, rfl⟩ : ∃ i, k = b.sizeY - min n b.sizeY + i := ⟨k - (b.sizeY - min n b.sizeY), by omega⟩
    rw [storage]
    apply fillLines_blank b.storage (by omega) left
    intro j lessj l lessl same
    have := apart _ (by omega) _ (by omega) same
    omega

end Rotations

/-! ## Runs -/

theorem resize_rotated {g : ConsoleGlobals} {b : ConsoleBuffer} {x y row column : ℕ}
    (sized : 1 ≤ x ∧ x ≤ 32767 ∧ 1 ≤ y ∧ y ≤ 32767) :
    (b.setConsoleScreenBufferSize g x y true row column).Rotated 0 := by
  have some_cell : y * (x * 2 + 4) ≠ 0 := Nat.mul_ne_zero (by omega) (by omega)
  unfold setConsoleScreenBufferSize
  rw [if_neg some_cell, if_neg (not_not_intro rfl)]
  refine ⟨sized.2.2.2, sized.2.2.1, ?_⟩
  intro k less
  exact (Nat.mod_eq_of_lt less).symm

theorem event_rotated {g : ConsoleGlobals} {b : ConsoleBuffer} {r : ℕ} (rotated : b.Rotated r)
    {e : Event} (sized : e.Sized) (fits : EventFits g b e) :
    ∃ r', (event g b e).2.Rotated r' := by
  cases e with
  | scrollUp n =>
    obtain ⟨r', rotated', -⟩ := scrollUp_rotated rotated fits
    exact ⟨r', rotated'⟩
  | resize x y mem row column =>
    cases mem with
    | true => exact ⟨0, resize_rotated sized⟩
    | false =>
      have some_cell : y * (x * 2 + 4) ≠ 0 :=
        Nat.mul_ne_zero (Nat.ne_of_gt sized.2.2.1) (by omega)
      refine ⟨r, ?_⟩
      change (b.setConsoleScreenBufferSize g x y false row column).Rotated r
      unfold setConsoleScreenBufferSize
      rw [if_neg some_cell, if_pos Bool.false_ne_true]
      exact rotated
  | windowSize y => exact ⟨r, rotated⟩

theorem run_rotates_from {g : ConsoleGlobals} {b : ConsoleBuffer} {r : ℕ} (rotated : b.Rotated r)
    (events : List Event) (sized : ∀ e ∈ events, e.Sized) (fits : EventsFit g b events) :
    RunRotates g b events := by
  induction events generalizing g b r with
  | nil => exact rotated.tableOk
  | cons e events ih =>
    obtain ⟨r', next⟩ := event_rotated rotated (sized e (List.mem_cons_self ..)) fits.1
    refine ⟨rotated.tableOk, ?_, ih next (fun f mem => sized f (List.mem_cons_of_mem e mem)) fits.2⟩
    rintro n rfl
    exact scrollUp_ok rotated fits.1

/-- In every run whose scrolls fit, the table shows each row once, and each scroll moves the
lines and blanks the last ones. -/
theorem run_rotates (g : ConsoleGlobals) (x y : ℕ)
    (size : 1 ≤ x ∧ x ≤ 32767 ∧ 1 ≤ y ∧ y ≤ 32767) (events : List Event)
    (sized : ∀ e ∈ events, e.Sized) (fits : EventsFit g (newBuffer g x y) events) :
    RunRotates g (newBuffer g x y) events :=
  run_rotates_from (resize_rotated size) events sized fits

theorem run_rotates_scrolling :
    RunRotates ⟨3, 8, false⟩ (newBuffer ⟨3, 8, false⟩ 4 3)
      [.scrollUp 1, .scrollUp 2, .scrollUp 3] := by
  refine run_rotates ⟨3, 8, false⟩ 4 3 (by decide) _ ?_ ?_
  · intro e mem
    simp only [List.mem_cons, List.not_mem_nil, or_false] at mem
    rcases mem with rfl | rfl | rfl <;> trivial
  · exact ⟨fun _ => by decide, fun _ => by decide, fun less => absurd less (by decide), trivial⟩

/-- A window of two lines on a buffer of three: after a scroll two lines show one row. -/
theorem lowWindow_not_rotates : ¬ ∀ (g : ConsoleGlobals) (x y : ℕ),
    1 ≤ x ∧ x ≤ 32767 ∧ 1 ≤ y ∧ y ≤ 32767 → ∀ events : List Event, (∀ e ∈ events, e.Sized) →
    RunRotates g (newBuffer g x y) events := by
  intro all
  have run := all ⟨2, 8, false⟩ 4 3 (by decide) [.scrollUp 1] (by
    intro e mem
    rw [List.mem_singleton.mp mem]
    trivial)
  have same := run.2.2.apart 1 (by decide) 2 (by decide) (by decide)
  cases same

end Odin32.Console
