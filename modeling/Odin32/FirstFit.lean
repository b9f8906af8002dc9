import Mathlib.Order.Nat
import Mathlib.Data.List.Basic
import Mathlib.Tactic.Common

/-! # Filling free space from below

Space as a predicate on units. Areas of a fixed width that are taken one after the other, always
the lowest, are the slots: a slot starts a multiple of the width above the start of its run of
free units. -/

set_option autoImplicit false

namespace Odin32.FirstFit

variable {free : ℕ → Prop} {w : ℕ}

/-- All units of an area are free. -/
def Area (free : ℕ → Prop) (start n : ℕ) : Prop := ∀ u, start ≤ u → u < start + n → free u

theorem Area.sub {start n start' n' : ℕ} (area : Area free start n) (above : start ≤ start')
    (below : start' + n' ≤ start + n) : Area free start' n' := by
  intro u le lt
  exact area u (by omega) (by omega)

theorem Area.append {start n m : ℕ} (left : Area free start n) (right : Area free (start + n) m) :
    Area free start (n + m) := by
  intro u le lt
  by_cases inside : u < start + n
  · exact left u le inside
  · exact right u (by omega) (by omega)

section runs

variable (free) [DecidablePred free]

/-- The number of free units directly below a unit. -/
def runBelow : ℕ → ℕ
  | 0 => 0
  | u + 1 => if free u then runBelow u + 1 else 0

theorem runBelow_le (u : ℕ) : runBelow free u ≤ u := by
  induction u with
  | zero => exact le_rfl
  | succ u ih =>
    rw [runBelow]
    split_ifs
    · exact Nat.succ_le_succ ih
    · exact Nat.zero_le _

theorem runBelow_area (u : ℕ) : Area free (u - runBelow free u) (runBelow free u) := by
  induction u with
  | zero => exact fun v _ lt => absurd lt (by simp [runBelow])
  | succ u ih =>
    intro v le lt
    rw [runBelow] at le lt
    have short := runBelow_le free u
    by_cases here : free u
    · rw [if_pos here] at le lt
      by_cases last : v = u
      · rwa [last]
      · exact ih v (by omega) (by omega)
    · rw [if_neg here] at le lt
      omega

variable {free}

theorem runBelow_add {start n : ℕ} (area : Area free start n) :
    runBelow free (start + n) = runBelow free start + n := by
  induction n with
  | zero => rfl
  | succ n ih =>
    have last : free (start + n) := area _ (by omega) (by omega)
    rw [← Nat.add_assoc, runBelow, if_pos last, ih (area.sub le_rfl (by omega))]
    rfl

/-- A place that filling with areas of `w` units comes to. -/
structure Slot (free : ℕ → Prop) [DecidablePred free] (w start : ℕ) : Prop where
  area : Area free start w
  even : runBelow free start % w = 0

theorem Slot.apart {s t : ℕ} (slot : Slot free w s) (slot' : Slot free w t) (lt : s < t) :
    s + w ≤ t := by
  by_contra near
  have between : Area free s (t - s) := slot.area.sub le_rfl (by omega)
  have run := runBelow_add between
  rw [Nat.add_sub_cancel' lt.le] at run
  have even := slot'.even
  rw [run, Nat.add_mod, slot.even, Nat.zero_add, Nat.mod_mod, Nat.mod_eq_of_lt (by omega)] at even
  omega

/-- The first unit of a large enough area is in a slot. -/
theorem exists_slot (pos : 0 < w) {start : ℕ} (area : Area free start w) :
    ∃ s, Slot free w s ∧ s ≤ start ∧ start < s + w := by
  have short := runBelow_le free start
  have rest := Nat.mod_lt (runBelow free start) pos
  have split := Nat.mod_add_div (runBelow free start) w
  have whole : Area free (start - runBelow free start) (runBelow free start + w) :=
    (runBelow_area free start).append (by rwa [Nat.sub_add_cancel short])
  refine ⟨start - runBelow free start % w, ⟨whole.sub (by omega) (by omega), ?_⟩,
    by omega, by omega⟩
  have last : Area free (start - runBelow free start % w) (runBelow free start % w) :=
    whole.sub (by omega) (by omega)
  have run := runBelow_add last
  rw [Nat.sub_add_cancel (by omega)] at run
  have even : runBelow free (start - runBelow free start % w) =
      w * (runBelow free start / w) := by omega
  rw [even, Nat.mul_mod_right]

end runs

/-! ## What is left over -/

/-- The unit is free, and in no slot that starts below `s`. -/
def Rest (free : ℕ → Prop) [DecidablePred free] (w s u : ℕ) : Prop :=
  free u ∧ ∀ t, Slot free w t → t < s → ¬ (t ≤ u ∧ u < t + w)

variable [DecidablePred free]

theorem rest_zero (u : ℕ) : Rest free w 0 u ↔ free u :=
  ⟨fun rest => rest.1, fun here => ⟨here, fun _ _ lt => absurd lt (Nat.not_lt_zero _)⟩⟩

theorem Slot.rest {s t : ℕ} (slot : Slot free w t) (above : s ≤ t) : Area (Rest free w s) t w := by
  intro u le lt
  refine ⟨slot.area u le lt, fun t' slot' lower inside => ?_⟩
  have := slot'.apart slot (lower.trans_le above)
  omega

/-- The units behind a slot are as free as they were. -/
theorem Slot.rest_iff {s u : ℕ} (slot : Slot free w s) (above : s ≤ u) :
    Rest free w s u ↔ free u := by
  refine ⟨fun rest => rest.1, fun here => ⟨here, fun t slot' lower inside => ?_⟩⟩
  have := slot'.apart slot lower
  omega

/-- The lowest area that is left is the next slot. -/
theorem rest_lowest (pos : 0 < w) {s a : ℕ} (area : Area (Rest free w s) a w)
    (lowest : ∀ b, Area (Rest free w s) b w → a ≤ b) :
    Slot free w a ∧ s ≤ a ∧ ∀ t, Slot free w t → t < a → t < s := by
  obtain ⟨t, slot, le, lt⟩ := exists_slot pos fun u le lt => (area u le lt).1
  have above : s ≤ t := by
    by_contra lower
    exact (area a le_rfl (by omega)).2 t slot (not_le.1 lower) ⟨le, lt⟩
  obtain rfl : a = t := le_antisymm (lowest t (slot.rest above)) le
  refine ⟨slot, above, fun t slot' below => ?_⟩
  by_contra notLower
  exact absurd (lowest t (slot'.rest (not_lt.1 notLower))) (not_le.2 below)

/-- Between two slots nothing changes. -/
theorem rest_next {s a u : ℕ} (above : s ≤ a) (next : ∀ t, Slot free w t → t < a → t < s) :
    Rest free w a u ↔ Rest free w s u :=
  and_congr_right fun _ => forall_congr' fun t => forall_congr' fun slot =>
    ⟨fun out lower => out (lower.trans_le above), fun out lower => out (next t slot lower)⟩

/-- Taking the next slot. -/
theorem rest_succ {s a u : ℕ} (slot : Slot free w a) (above : s ≤ a)
    (next : ∀ t, Slot free w t → t < a → t < s) :
    Rest free w (a + 1) u ↔ Rest free w s u ∧ ¬ (a ≤ u ∧ u < a + w) := by
  constructor
  · rintro ⟨here, out⟩
    refine ⟨⟨here, fun t slot' lower => out t slot' (by omega)⟩, out a slot (by omega)⟩
  · rintro ⟨⟨here, out⟩, away⟩
    refine ⟨here, fun t slot' lower => ?_⟩
    rcases (Nat.le_of_lt_succ lower).lt_or_eq with below | rfl
    · exact out t slot' (next t slot' below)
    · exact away

/-- The unit below a slot is not left over. -/
theorem Slot.not_rest_below (pos : 0 < w) {s u : ℕ} (slot : Slot free w s) (is : u + 1 = s) :
    ¬ Rest free w s u := by
  subst is
  rintro ⟨here, out⟩
  have run : runBelow free (u + 1) = runBelow free u + 1 := by rw [runBelow, if_pos here]
  have long : w ≤ runBelow free (u + 1) := by
    by_contra short
    have even := slot.even
    rw [Nat.mod_eq_of_lt (not_le.1 short)] at even
    omega
  have short := runBelow_le free (u + 1)
  have area : Area free (u + 1 - w) w :=
    (runBelow_area free (u + 1)).sub (by omega) (by omega)
  have even : runBelow free (u + 1 - w) % w = 0 := by
    have step := runBelow_add area
    rw [Nat.sub_add_cancel (by omega)] at step
    have := slot.even
    rwa [step, Nat.add_mod_right] at this
  exact out (u + 1 - w) ⟨area, even⟩ (by omega) ⟨by omega, by omega⟩

/-- What is left below a slot does not reach into it. -/
theorem Slot.below_of_area (pos : 0 < w) {s start n : ℕ} (slot : Slot free w s)
    (area : Area (Rest free w s) start n) (lower : start < s) : start + n ≤ s := by
  by_contra reaches
  exact slot.not_rest_below pos (u := s - 1) (by omega) (area (s - 1) (by omega) (by omega))

end Odin32.FirstFit
