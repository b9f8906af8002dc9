import Mathlib.Data.Nat.Notation
import Mathlib.Tactic.Common

/-! # Places of a grid in row-major order

The places of a grid of lines are counted line by line. What is counted from a place on is
given by the number of steps, so a walk that goes on to the next column, or from the end of a
line to the start of the next one, visits the places of the first steps. -/

set_option autoImplicit false

namespace Odin32.RowMajor

/-- The line and the column of the place `k` steps behind another one. -/
def place (width line column k : ℕ) : ℕ × ℕ :=
  ((line * width + column + k) / width, (line * width + column + k) % width)

/-- How many places there are from one on. -/
def rest (width height line column : ℕ) : ℕ := (height - line) * width - column

variable {width height line column : ℕ}

theorem place_zero (inside : column < width) : place width line column 0 = (line, column) := by
  have pos : 0 < width := Nat.zero_lt_of_lt inside
  rw [place, Nat.add_zero, Nat.mul_comm line]
  rw [Nat.mul_add_div pos, Nat.mul_add_mod, Nat.div_eq_of_lt inside, Nat.mod_eq_of_lt inside]
  rfl

theorem place_next (k : ℕ) :
    place width line column (k + 1) = place width line (column + 1) k := by
  rw [place, place, show line * width + column + (k + 1) = line * width + (column + 1) + k by omega]

/-- Behind the end of a line the next line starts. -/
theorem place_wrap (ends : column + 1 = width) (k : ℕ) :
    place width line column (k + 1) = place width (line + 1) 0 k := by
  have same : line * width + column + (k + 1) = (line + 1) * width + 0 + k := by
    rw [Nat.succ_mul]
    omega
  rw [place, place, same]

theorem place_inj {j k : ℕ} (eq : place width line column j = place width line column k) :
    j = k := by
  obtain ⟨lines, columns⟩ := Prod.mk.inj eq
  have same : line * width + column + j = line * width + column + k := by
    rw [← Nat.div_add_mod (line * width + column + j) width, lines, columns, Nat.div_add_mod]
  omega

theorem rest_pos (inside : column < width) (below : line < height) :
    0 < rest width height line column := by
  have one : 1 * width ≤ (height - line) * width := Nat.mul_le_mul_right _ (by omega)
  rw [rest]
  omega

theorem rest_next : rest width height line (column + 1) = rest width height line column - 1 :=
  rfl

theorem rest_wrap (ends : column + 1 = width) (below : line < height) :
    rest width height (line + 1) 0 = rest width height line column - 1 := by
  obtain ⟨n, rfl⟩ : ∃ n, height = line + 1 + n := ⟨height - (line + 1), by omega⟩
  rw [rest, rest, Nat.add_sub_cancel_left, show line + 1 + n - line = n + 1 by omega, Nat.succ_mul]
  omega

theorem rest_last (ends : column + 1 = width) (bottom : line + 1 = height) :
    rest width height line column = 1 := by
  rw [rest, ← bottom, Nat.add_sub_cancel_left, Nat.one_mul]
  omega

/-- The places that are left are in the grid. -/
theorem place_inside (inside : column < width) {k : ℕ}
    (lt : k < rest width height line column) :
    (place width line column k).1 < height ∧ (place width line column k).2 < width := by
  have pos : 0 < width := Nat.zero_lt_of_lt inside
  refine ⟨(Nat.div_lt_iff_lt_mul pos).mpr ?_, Nat.mod_lt _ pos⟩
  have split : (height - line) * width = height * width - line * width := Nat.sub_mul ..
  rw [rest, split] at lt
  omega

end Odin32.RowMajor
