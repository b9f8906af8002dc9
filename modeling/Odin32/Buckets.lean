import Mathlib.Data.List.Basic
import Mathlib.Data.List.Nodup
import Mathlib.Data.List.Perm.Basic
import Mathlib.Logic.Function.Basic

/-! # Tables of buckets

Entries with keys in a number of buckets, each entry in the bucket its key hashes to. A table
and a list hold the same where every key has the same entries in the same order in both; the
order of entries with different keys is not kept when the buckets change. -/

set_option autoImplicit false

namespace Odin32.Buckets

variable {ε κ : Type} [DecidableEq κ] {key : ε → κ} {l l' : List ε} {k : κ}

/-! ## Lists with the same entries for every key -/

variable (key) in
/-- The entries for a key. -/
def named (k : κ) (l : List ε) : List ε := l.filter fun e => decide (key e = k)

variable (key) in
def SameByKey (l l' : List ε) : Prop := ∀ k, named key k l = named key k l'

theorem named_append (k : κ) (l l' : List ε) :
    named key k (l ++ l') = named key k l ++ named key k l' := List.filter_append ..

theorem named_singleton_of_ne {e : ε} (ne : key e ≠ k) : named key k [e] = [] := by
  simp [named, ne]

theorem SameByKey.refl (l : List ε) : SameByKey key l l := fun _ => rfl

theorem SameByKey.trans {l'' : List ε} (same : SameByKey key l l') (same' : SameByKey key l' l'') :
    SameByKey key l l'' := fun k => (same k).trans (same' k)

theorem SameByKey.append {r r' : List ε} (same : SameByKey key l l')
    (same' : SameByKey key r r') : SameByKey key (l ++ r) (l' ++ r') := by
  intro k
  rw [named_append, named_append, same k, same' k]

theorem SameByKey.perm (same : SameByKey key l l') : l.Perm l' := by
  classical
  refine List.perm_iff_count.mpr fun e => ?_
  have counted : ∀ r : List ε, (named key (key e) r).count e = r.count e := fun r =>
    List.count_filter (by simp)
  rw [← counted l, ← counted l', same (key e)]

/-- The first entry for a key is the same. -/
theorem SameByKey.find? (same : SameByKey key l l') (k : κ) :
    (l.find? fun e => decide (key e = k)) = l'.find? fun e => decide (key e = k) := by
  rw [← List.head?_filter, ← List.head?_filter]
  exact congrArg List.head? (same k)

/-- The first entry for one of the keys goes. -/
theorem named_eraseP (k k' : κ) (l : List ε) :
    named key k' (l.eraseP fun e => decide (key e = k)) =
      if k' = k then (named key k l).tail else named key k' l := by
  induction l with
  | nil =>
    split_ifs <;> rfl
  | cons e l ih =>
    by_cases here : key e = k
    · rw [List.eraseP_cons_of_pos (by simpa using here)]
      by_cases eq : k' = k
      · subst eq
        rw [if_pos rfl, named, named, List.filter_cons_of_pos (by simpa using here), List.tail_cons]
      · rw [if_neg eq, named, named,
          List.filter_cons_of_neg (by simpa using fun same => eq (same.symm.trans here))]
    · rw [List.eraseP_cons_of_neg (by simpa using here)]
      by_cases eq : k' = k
      · subst eq
        rw [if_pos rfl] at ih ⊢
        rw [named, named, List.filter_cons_of_neg (by simpa using here),
          List.filter_cons_of_neg (by simpa using here)]
        exact ih
      · rw [if_neg eq] at ih ⊢
        rw [← List.singleton_append, named_append, ih, ← named_append, List.singleton_append]

theorem SameByKey.eraseP (same : SameByKey key l l') (k : κ) :
    SameByKey key (l.eraseP fun e => decide (key e = k))
      (l'.eraseP fun e => decide (key e = k)) := by
  intro k'
  rw [named_eraseP, named_eraseP, same k, same k']

/-! ## Buckets -/

/-- The entries of the first `m` buckets. -/
def all (m : ℕ) (b : ℕ → List ε) : List ε := (List.range m).flatMap b

variable (key) in
/-- Every entry is in the bucket of its key. -/
def Placed (hash : κ → ℕ) (m : ℕ) (b : ℕ → List ε) : Prop :=
  ∀ i, i < m → ∀ e ∈ b i, hash (key e) = i

variable {hash : κ → ℕ} {m : ℕ} {b : ℕ → List ε}

theorem mem_all {e : ε} : e ∈ all m b ↔ ∃ i, i < m ∧ e ∈ b i := by
  simp [all]

theorem named_flatMap_of_notMem {is : List ℕ}
    (off : ∀ i ∈ is, ∀ e ∈ b i, key e ≠ k) : named key k (is.flatMap b) = [] := by
  refine List.filter_eq_nil_iff.mpr fun e mem => ?_
  obtain ⟨i, at_i, mem⟩ := List.mem_flatMap.mp mem
  simpa using off i at_i e mem

/-- A key has its entries in its bucket. -/
theorem named_all (placed : Placed key hash m b) (lt : hash k < m) :
    named key k (all m b) = named key k (b (hash k)) := by
  obtain ⟨l₁, l₂, split⟩ := List.append_of_mem (List.mem_range.mpr lt)
  have nodup : (List.range m).Nodup := List.nodup_range
  have inside : ∀ i ∈ List.range m, i < m := fun i => List.mem_range.mp
  rw [split] at nodup inside
  have apart := (List.nodup_cons.mp (List.nodup_middle.mp nodup)).1
  have off : ∀ i ∈ l₁ ++ l₂, ∀ e ∈ b i, key e ≠ k := by
    rintro i mem e at_e rfl
    have more : i ∈ l₁ ++ hash (key e) :: l₂ := by
      rcases List.mem_append.mp mem with left | right
      · exact List.mem_append_left _ left
      · exact List.mem_append_right _ (List.mem_cons_of_mem _ right)
    rw [placed i (inside i more) e at_e] at apart
    exact apart mem
  rw [all, split, List.flatMap_append, List.flatMap_cons, named_append, named_append,
    named_flatMap_of_notMem fun i mem => off i (List.mem_append_left l₂ mem),
    named_flatMap_of_notMem fun i mem => off i (List.mem_append_right l₁ mem),
    List.nil_append, List.append_nil]

/-- The entry comes to the end of its bucket. -/
def insert (key : ε → κ) (hash : κ → ℕ) (b : ℕ → List ε) (e : ε) : ℕ → List ε :=
  Function.update b (hash (key e)) (b (hash (key e)) ++ [e])

/-- The first entry for a key goes. -/
def erase (key : ε → κ) (hash : κ → ℕ) (b : ℕ → List ε) (k : κ) : ℕ → List ε :=
  Function.update b (hash k) ((b (hash k)).eraseP fun e => decide (key e = k))

omit [DecidableEq κ] in
theorem Placed.insert (placed : Placed key hash m b) (e : ε) :
    Placed key hash m (insert key hash b e) := by
  intro i lt e' mem
  rw [Buckets.insert] at mem
  by_cases eq : i = hash (key e)
  · subst eq
    rw [Function.update_self, List.mem_append, List.mem_singleton] at mem
    rcases mem with old | rfl
    · exact placed _ lt e' old
    · rfl
  · rw [Function.update_of_ne eq] at mem
    exact placed i lt e' mem

theorem Placed.erase (placed : Placed key hash m b) (k : κ) :
    Placed key hash m (erase key hash b k) := by
  intro i lt e mem
  rw [Buckets.erase] at mem
  by_cases eq : i = hash k
  · subst eq
    rw [Function.update_self] at mem
    exact placed _ lt e (List.mem_of_mem_eraseP mem)
  · rw [Function.update_of_ne eq] at mem
    exact placed i lt e mem

theorem insert_same (inside : ∀ k, hash k < m) (placed : Placed key hash m b) (e : ε) :
    SameByKey key (all m (insert key hash b e)) (all m b ++ [e]) := by
  intro k
  rw [named_append, named_all (placed.insert e) (inside k), named_all placed (inside k),
    Buckets.insert]
  by_cases eq : hash k = hash (key e)
  · rw [eq, Function.update_self, named_append]
  · rw [Function.update_of_ne eq, named_singleton_of_ne fun same => eq (by rw [same]),
      List.append_nil]

theorem erase_same (inside : ∀ k, hash k < m) (placed : Placed key hash m b) (k : κ) :
    SameByKey key (all m (erase key hash b k))
      ((all m b).eraseP fun e => decide (key e = k)) := by
  intro k'
  rw [named_all (placed.erase k) (inside k'), named_eraseP, named_all placed (inside k),
    named_all placed (inside k'), Buckets.erase]
  by_cases eq : hash k' = hash k
  · rw [eq, Function.update_self, named_eraseP]
  · rw [Function.update_of_ne eq, if_neg fun same => eq (by rw [same])]

/-- A search of the bucket is a search of the whole table. -/
theorem find?_bucket (placed : Placed key hash m b) (lt : hash k < m) :
    ((b (hash k)).find? fun e => decide (key e = k)) =
      (all m b).find? fun e => decide (key e = k) := by
  rw [← List.head?_filter, ← List.head?_filter]
  exact congrArg List.head? (named_all placed lt).symm

omit [DecidableEq κ] in
theorem placed_empty : Placed key hash m fun _ => [] :=
  fun _ _ _ mem => absurd mem List.not_mem_nil

theorem all_empty (m : ℕ) : all m (fun _ => ([] : List ε)) = [] := by
  simp [all]

/-- Entries come one after the other. -/
theorem foldl_insert_same (inside : ∀ k, hash k < m) (placed : Placed key hash m b)
    (es : List ε) :
    Placed key hash m (es.foldl (insert key hash) b) ∧
      SameByKey key (all m (es.foldl (insert key hash) b)) (all m b ++ es) := by
  induction es generalizing b with
  | nil => exact ⟨placed, by rw [List.append_nil]; exact SameByKey.refl _⟩
  | cons e es ih =>
    obtain ⟨placed', same⟩ := ih (placed.insert e)
    refine ⟨placed', same.trans ?_⟩
    have first := (insert_same inside placed e).append (SameByKey.refl es)
    rwa [List.append_assoc, List.singleton_append] at first

end Odin32.Buckets
