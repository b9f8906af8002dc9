import Mathlib.Order.Nat
import Mathlib.Tactic.Common

/-! # Binary search

Binary search over the positions `1` to `n` of a table of which only the comparison of each entry
with the key is known. -/

set_option autoImplicit false

namespace Odin32.BinarySearch

/-- The loop, with both ends of what is left; the fuel bounds its rounds. -/
def search (diff : ℕ → Ordering) : ℕ → ℕ → ℕ → Option ℕ
  | 0, _, _ => none
  | n + 1, iStart, iEnd =>
    if iEnd < iStart then none
    else
      let i := (iEnd - iStart) / 2 + iStart
      match diff i with
      | .gt => search diff n iStart (i - 1)
      | .lt => search diff n (i + 1) iEnd
      | .eq => some i

/-- Entries below the key stand first, and entries above it last. -/
structure Ascends (diff : ℕ → Ordering) (n : ℕ) : Prop where
  below : ∀ i j, 1 ≤ i → i ≤ j → j ≤ n → diff j = .lt → diff i = .lt
  above : ∀ i j, 1 ≤ i → i ≤ j → j ≤ n → diff i = .gt → diff j = .gt

variable {diff : ℕ → Ordering} {n : ℕ}

theorem search_some {rounds iStart iEnd i : ℕ} (found : search diff rounds iStart iEnd = some i) :
    iStart ≤ i ∧ i ≤ iEnd ∧ diff i = .eq := by
  induction rounds generalizing iStart iEnd with
  | zero => cases found
  | succ rounds ih =>
    rw [search] at found
    split_ifs at found with past
    dsimp only at found
    split at found
    · obtain ⟨low, high, here⟩ := ih found
      exact ⟨low, by omega, here⟩
    · obtain ⟨low, high, here⟩ := ih found
      exact ⟨by omega, high, here⟩
    · next here =>
      obtain rfl := Option.some.inj found
      exact ⟨by omega, by omega, here⟩

/-- Outside of what is left, no entry equals the key. -/
theorem search_none (ascends : Ascends diff n) {rounds iStart iEnd : ℕ}
    (missing : search diff rounds iStart iEnd = none) (enough : iEnd < iStart + rounds)
    (start : 1 ≤ iStart) (last : iEnd ≤ n)
    (before : ∀ i, 1 ≤ i → i < iStart → diff i ≠ .eq)
    (behind : ∀ i, iEnd < i → i ≤ n → diff i ≠ .eq) : ∀ i, 1 ≤ i → i ≤ n → diff i ≠ .eq := by
  induction rounds generalizing iStart iEnd with
  | zero =>
    intro i low high
    rcases lt_or_ge i iStart with lower | higher
    · exact before i low lower
    · exact behind i (by omega) high
  | succ rounds ih =>
    rw [search] at missing
    split_ifs at missing with past
    · intro i low high
      rcases lt_or_ge i iStart with lower | higher
      · exact before i low lower
      · exact behind i (by omega) high
    · dsimp only at missing
      split at missing
      · next greater =>
        refine ih missing (by omega) start (by omega) before fun i above high equal => ?_
        have := ascends.above _ i (by omega) (by omega) high greater
        rw [equal] at this
        cases this
      · next less =>
        refine ih missing (by omega) (by omega) last (fun i low above equal => ?_) behind
        have := ascends.below i _ low (by omega) (by omega) less
        rw [equal] at this
        cases this
      · cases missing

/-- The search finds an entry that equals the key where there is one. -/
theorem search_finds (ascends : Ascends diff n) :
    (∃ i, search diff (n + 1) 1 n = some i ∧ 1 ≤ i ∧ i ≤ n ∧ diff i = .eq) ∨
    (search diff (n + 1) 1 n = none ∧ ∀ i, 1 ≤ i → i ≤ n → diff i ≠ .eq) := by
  cases found : search diff (n + 1) 1 n with
  | some i => exact .inl ⟨i, rfl, search_some found⟩
  | none =>
    refine .inr ⟨rfl, search_none ascends found (by omega) le_rfl le_rfl ?_ ?_⟩
    · intro i low high
      omega
    · intro i low high
      omega

end Odin32.BinarySearch
