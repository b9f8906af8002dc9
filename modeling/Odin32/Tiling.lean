import Mathlib.Data.Nat.Notation
import Mathlib.Data.List.Count
import Mathlib.Data.List.Perm.Basic
import Mathlib.Algebra.BigOperators.Group.Finset.Piecewise
import Mathlib.Order.Interval.Finset.Nat
import Mathlib.Algebra.GroupWithZero.Nat
import Mathlib.Tactic.Common

/-! # Tilings of a range of addresses

Pieces of any kind that start at `lo` and end before `hi` tile a range when every address of the
range lies in one piece and no piece has an address outside. How often an address is covered is a
count over the pieces, so cutting a piece and joining two neighbours leave a tiling as it is,
whatever the order the pieces are listed in. -/

set_option autoImplicit false

namespace Odin32.Tiling

variable {β : Type} (lo hi : β → ℕ)

/-- How many of the pieces cover an address. -/
def cover (bs : List β) (x : ℕ) : ℕ := bs.countP fun b => decide (lo b ≤ x ∧ x < hi b)

structure Tiles (first last : ℕ) (bs : List β) : Prop where
  exact : ∀ x, cover lo hi bs x = if first ≤ x ∧ x < last then 1 else 0
  proper : ∀ b ∈ bs, lo b < hi b

/-- Pieces without a common address. -/
def Apart (b c : β) : Prop := hi b ≤ lo c ∨ hi c ≤ lo b

variable {lo hi}

theorem cover_cons (b : β) (bs : List β) (x : ℕ) :
    cover lo hi (b :: bs) x = cover lo hi bs x + if lo b ≤ x ∧ x < hi b then 1 else 0 := by
  simp only [cover, List.countP_cons, decide_eq_true_eq]

variable {first last : ℕ} {bs cs : List β} {b c d : β}

theorem Tiles.perm (tiles : Tiles lo hi first last bs) (same : bs.Perm cs) :
    Tiles lo hi first last cs :=
  ⟨fun x => (same.countP_eq _).symm.trans (tiles.exact x),
    fun b there => tiles.proper b (same.mem_iff.2 there)⟩

theorem tiles_one (start : lo b = first) (stop : hi b = last) (proper : first < last) :
    Tiles lo hi first last [b] where
  exact x := by
    rw [cover_cons, start, stop]
    exact Nat.zero_add _
  proper c there := by
    rw [List.mem_singleton.1 there, start, stop]
    exact proper

theorem Tiles.covered (tiles : Tiles lo hi first last bs) (there : b ∈ bs) {x : ℕ}
    (inside : lo b ≤ x ∧ x < hi b) : first ≤ x ∧ x < last := by
  by_contra outside
  have none := tiles.exact x
  rw [if_neg outside, cover, List.countP_eq_zero] at none
  exact none b there (decide_eq_true inside)

theorem Tiles.inside (tiles : Tiles lo hi first last bs) (there : b ∈ bs) :
    first ≤ lo b ∧ hi b ≤ last := by
  have proper := tiles.proper b there
  have low := tiles.covered there ⟨Nat.le_refl _, proper⟩
  have high := @Tiles.covered _ _ _ _ _ _ _ tiles there (hi b - 1) ⟨by omega, by omega⟩
  exact ⟨low.1, by omega⟩

theorem Tiles.apart (tiles : Tiles lo hi first last (b :: c :: bs)) : Apart lo hi b c := by
  by_contra meet
  rw [Apart, not_or, Nat.not_le, Nat.not_le] at meet
  have properB := tiles.proper b List.mem_cons_self
  have properC := tiles.proper c (List.mem_cons_of_mem _ List.mem_cons_self)
  have twice := tiles.exact (max (lo b) (lo c))
  rw [cover_cons, cover_cons, if_pos (by omega), if_pos (by omega)] at twice
  split_ifs at twice
  omega

theorem Tiles.apart_of_mem (tiles : Tiles lo hi first last (b :: bs)) (there : c ∈ bs) :
    Apart lo hi b c := by
  obtain ⟨front, back, rfl⟩ := List.append_of_mem there
  exact (tiles.perm (List.perm_middle.cons b)).apart

theorem Tiles.start_ne (tiles : Tiles lo hi first last (b :: bs)) (there : c ∈ bs) :
    lo c ≠ lo b := by
  have properB := tiles.proper b List.mem_cons_self
  have properC := tiles.proper c (List.mem_cons_of_mem _ there)
  have apart := tiles.apart_of_mem there
  unfold Apart at apart
  omega

theorem tiles_cut (start : lo c = lo b) (meet : hi c = lo d) (stop : hi d = hi b)
    (properC : lo c < hi c) (properD : lo d < hi d) :
    Tiles lo hi first last (b :: bs) ↔ Tiles lo hi first last (c :: d :: bs) := by
  have same : ∀ x, cover lo hi (b :: bs) x = cover lo hi (c :: d :: bs) x := by
    intro x
    rw [cover_cons, cover_cons, cover_cons]
    split_ifs <;> omega
  constructor
  · intro tiles
    refine ⟨fun x => (same x).symm.trans (tiles.exact x), fun e there => ?_⟩
    rcases List.mem_cons.1 there with rfl | there
    · exact properC
    · rcases List.mem_cons.1 there with rfl | there
      · exact properD
      · exact tiles.proper e (List.mem_cons_of_mem _ there)
  · intro tiles
    refine ⟨fun x => (same x).trans (tiles.exact x), fun e there => ?_⟩
    rcases List.mem_cons.1 there with rfl | there
    · omega
    · exact tiles.proper e (List.mem_cons_of_mem _ (List.mem_cons_of_mem _ there))

/-! ## Lengths -/

theorem sum_interval {a b n : ℕ} (h : b ≤ n) :
    ∑ x ∈ Finset.range n, (if a ≤ x ∧ x < b then 1 else 0) = b - a := by
  rw [← Finset.card_filter, ← Nat.card_Ico]
  congr 1
  ext x
  simp only [Finset.mem_filter, Finset.mem_range, Finset.mem_Ico]
  omega

theorem sum_cover (n : ℕ) (below : ∀ b ∈ bs, hi b ≤ n) :
    ∑ x ∈ Finset.range n, cover lo hi bs x = (bs.map fun b => hi b - lo b).sum := by
  induction bs with
  | nil => simp [cover]
  | cons b bs ih =>
    simp only [cover_cons, Finset.sum_add_distrib]
    rw [ih fun c there => below c (List.mem_cons_of_mem _ there),
      sum_interval (below b List.mem_cons_self), List.map_cons, List.sum_cons, Nat.add_comm]

/-- The pieces of a tiling are as long together as the range. -/
theorem Tiles.total (tiles : Tiles lo hi first last bs) :
    (bs.map fun b => hi b - lo b).sum = last - first := by
  rw [← sum_cover last fun b there => (tiles.inside there).2]
  simp only [tiles.exact]
  exact sum_interval (Nat.le_refl _)

end Odin32.Tiling
