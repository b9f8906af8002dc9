import Mathlib.Data.List.Basic
import Mathlib.Data.List.Infix
import Mathlib.Order.Basic

/-! # Tables searched for a first match

A table is asked a sequence of questions. A question goes to the first entry that answers
it, and when there is none an entry is made for it at the end. What answers what may differ
from one question to the next. -/

set_option autoImplicit false

namespace Odin32.FirstMatch

variable {R Q : Type}

/-- The entry a question goes to, and the table after it. -/
def ask (hit : R → Q → Bool) (make : Q → R) (table : List R) (q : Q) : ℕ × List R :=
  match table.findIdx? fun r => hit r q with
  | some i => (i, table)
  | none => (table.length, table ++ [make q])

variable (hit : ℕ → R → Q → Bool) (make : Q → R) (qs : ℕ → Q)

/-- The table before question `n`. -/
def table : ℕ → List R
  | 0 => []
  | n + 1 => (ask (hit n) make (table n) (qs n)).2

/-- The entry question `n` goes to. -/
def index (n : ℕ) : ℕ := (ask (hit n) make (table hit make qs n) (qs n)).1

variable {hit make qs}

theorem ask_of_hit {hit : R → Q → Bool} {make : Q → R} {table : List R} {q : Q}
    {i : ℕ} (found : table.findIdx? (fun r => hit r q) = some i) :
    ask hit make table q = (i, table) := by
  rw [ask, found]

theorem ask_of_none {hit : R → Q → Bool} {make : Q → R} {table : List R} {q : Q}
    (none_there : ∀ r ∈ table, hit r q = false) :
    ask hit make table q = (table.length, table ++ [make q]) := by
  rw [ask, List.findIdx?_eq_none_iff.2 none_there]

/-- Either an entry answers that is already there, or one is made at the end. -/
theorem ask_cases (hit : R → Q → Bool) (make : Q → R) (table : List R) (q : Q) :
    (∃ i, ∃ inside : i < table.length, hit table[i] q = true ∧
      (∀ k (there : k < table.length), k < i → hit table[k] q = false) ∧
      ask hit make table q = (i, table)) ∨
    (∀ r ∈ table, hit r q = false) ∧ ask hit make table q = (table.length, table ++ [make q]) := by
  cases found : table.findIdx? fun r => hit r q with
  | some i =>
    obtain ⟨inside, hits, first⟩ := List.findIdx?_eq_some_iff_getElem.1 found
    exact .inl ⟨i, inside, hits, fun k _ before => by simpa using first k before,
      ask_of_hit found⟩
  | none =>
    have none_there := List.findIdx?_eq_none_iff.1 found
    exact .inr ⟨none_there, ask_of_none none_there⟩

theorem table_front_succ (n : ℕ) : table hit make qs n <+: table hit make qs (n + 1) := by
  rw [table]
  obtain ⟨i, -, -, -, asked⟩ | ⟨-, asked⟩ := ask_cases (hit n) make (table hit make qs n) (qs n)
  · rw [asked]
  · rw [asked]
    exact List.prefix_append _ _

theorem table_front {m n : ℕ} (h : m ≤ n) : table hit make qs m <+: table hit make qs n := by
  induction n, h using Nat.le_induction with
  | base => exact List.prefix_rfl
  | succ n _ ih => exact ih.trans (table_front_succ n)

theorem index_lt (n : ℕ) : index hit make qs n < (table hit make qs (n + 1)).length := by
  rw [index, table]
  obtain ⟨i, inside, -, -, asked⟩ | ⟨-, asked⟩ :=
    ask_cases (hit n) make (table hit make qs n) (qs n)
  · rw [asked]
    exact inside
  · rw [asked]
    simp

theorem index_lt_of_lt {j n : ℕ} (h : j < n) :
    index hit make qs j < (table hit make qs n).length :=
  (index_lt j).trans_le (table_front h).length_le

/-- Each entry was made for a question, and all questions before that went to entries in
front of it. -/
theorem exists_maker {n o : ℕ} (h : o < (table hit make qs n).length) :
    ∃ i < n, index hit make qs i = o ∧ (table hit make qs n)[o] = make (qs i) ∧
      ∀ k < i, index hit make qs k < o := by
  induction n with
  | zero => exact absurd h (Nat.not_lt_zero o)
  | succ n ih =>
    by_cases before : o < (table hit make qs n).length
    · obtain ⟨i, hi, at_o, made, first⟩ := ih before
      refine ⟨i, hi.trans n.lt_succ_self, at_o, ?_, first⟩
      rw [← made]
      exact ((table_front_succ n).getElem before).symm
    · obtain ⟨i, inside, -, -, asked⟩ | ⟨-, asked⟩ :=
        ask_cases (hit n) make (table hit make qs n) (qs n)
      · rw [table, asked] at h
        exact absurd h before
      · have at_end : o = (table hit make qs n).length := by
          rw [table, asked, List.length_append, List.length_singleton] at h
          omega
        refine ⟨n, n.lt_succ_self, ?_, ?_, fun k hk => at_end ▸ index_lt_of_lt hk⟩
        · rw [index, asked, at_end]
        · simp only [table, asked, at_end, List.getElem_concat_length]

/-- Where no question is answered by what an earlier one made, each makes an entry. -/
theorem table_of_apart {n : ℕ}
    (apart : ∀ i j, i < j → j < n → hit j (make (qs i)) (qs j) = false) :
    table hit make qs n = (List.range n).map (fun i => make (qs i)) := by
  induction n with
  | zero => rfl
  | succ n ih =>
    have before := ih fun i j hi hj => apart i j hi (hj.trans n.lt_succ_self)
    rw [table, before, ask_of_none, List.range_succ, List.map_append]
    · rfl
    · intro r hr
      obtain ⟨i, hi, rfl⟩ := List.mem_map.1 hr
      exact apart i n (List.mem_range.1 hi) n.lt_succ_self

end Odin32.FirstMatch
