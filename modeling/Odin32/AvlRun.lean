import Odin32.AvlOps
import Mathlib.Logic.Function.Basic

/-! # Runs of AVL operations against a table

The abstract component is a table from keys to nodes. A run of `AVLInsert` and
`AVLRemove` refines it exactly as long as every descent fits the slot stack; the
Fibonacci trees show that the stack is too small for the announced number of
nodes. -/

set_option autoImplicit false

namespace Odin32.AvlRun
open Odin32.RankedTree Odin32.Avl Odin32.AvlRebalance Odin32.AvlOps

inductive Op (κ ν : Type) where
  | insert (key : κ) (val : ν)
  | remove (key : κ)
deriving DecidableEq, Repr

inductive Answer (κ ν : Type) where
  | inserted (rc : Bool)
  | removed (node : Option (κ × ν))
deriving DecidableEq, Repr

def Op.key {κ ν : Type} : Op κ ν → κ
  | .insert key _ => key
  | .remove key => key

variable {κ ν : Type} [LinearOrder κ]

def step (t : Tree κ ν) : Op κ ν → Option (Tree κ ν × Answer κ ν)
  | .insert key val => (avlInsert t key val).map fun p => (p.1, .inserted p.2)
  | .remove key => (avlRemove t key).map fun p => (p.1, .removed p.2)

def run : List (Op κ ν) → Tree κ ν → Option (Tree κ ν × List (Answer κ ν))
  | [], t => some (t, [])
  | op :: ops, t => do
    let (t', a) ← step t op
    let (t'', as) ← run ops t'
    some (t'', a :: as)

/-! ## The table a run stands for -/

abbrev Table (κ ν : Type) := κ → Option ν

def tableStep (m : Table κ ν) : Op κ ν → Table κ ν
  | .insert key val => Function.update m key (some val)
  | .remove key => Function.update m key none

def tableAnswer (m : Table κ ν) : Op κ ν → Answer κ ν
  | .insert _ _ => .inserted true
  | .remove key => .removed ((m key).map fun val => (key, val))

def table : List (Op κ ν) → Table κ ν → Table κ ν
  | [], m => m
  | op :: ops, m => table ops (tableStep m op)

def tableAnswers : List (Op κ ν) → Table κ ν → List (Answer κ ν)
  | [], _ => []
  | op :: ops, m => tableAnswer m op :: tableAnswers ops (tableStep m op)

/-- Only keys that are not in the table are inserted. -/
def Fresh : List (Op κ ν) → Table κ ν → Prop
  | [], _ => True
  | op :: ops, m => (match op with
    | .insert key _ => m key = none
    | .remove _ => True) ∧ Fresh ops (tableStep m op)

def Holds (t : Tree κ ν) (m : Table κ ν) : Prop := ∀ k v, (k, v) ∈ entries t ↔ m k = some v

omit [LinearOrder κ] in
theorem holds_not_mem {t : Tree κ ν} {m : Table κ ν} (hm : Holds t m) {key : κ} :
    key ∉ keys t ↔ m key = none := by
  constructor
  · intro hnot
    rcases hv : m key with - | val
    · rfl
    · exact absurd (List.mem_map_of_mem (f := Prod.fst) ((hm key val).mpr hv)) hnot
  · intro hnone hmem
    obtain ⟨⟨k, v⟩, he, rfl⟩ := List.mem_map.mp hmem
    simp [(hm k v).mp he] at hnone

/-! ## Room for a run -/

/-- The slots of the path stack that an operation uses. -/
def slots (t : Tree κ ν) : Op κ ν → ℕ
  | .insert key _ => insertSlots key t
  | .remove key => removeSlots key t

/-- Every operation of the run finds room on the slot stack for its descent. -/
def Fits : List (Op κ ν) → Tree κ ν → Prop
  | [], _ => True
  | op :: ops, t => slots t op ≤ avlMaxHeight ∧ ∀ t' a, step t op = some (t', a) → Fits ops t'

theorem step_full {t : Tree κ ν} {op : Op κ ν} (h : avlMaxHeight < slots t op) :
    step t op = none := by
  cases op with
  | insert key val => simp [step, insert_none val h]
  | remove key => simp [step, remove_none h]

theorem step_holds {t : Tree κ ν} {m : Table κ ν} {op : Op κ ν} {ops : List (Op κ ν)}
    (ht : Avl t) (hm : Holds t m) (hf : Fresh (op :: ops) m) (hfit : slots t op ≤ avlMaxHeight) :
    ∃ t', step t op = some (t', tableAnswer m op) ∧ Avl t' ∧ Holds t' (tableStep m op) := by
  cases op with
  | insert key val =>
    have hnew := (holds_not_mem hm).mpr hf.1
    obtain ⟨t', pre, post, hins, ht', hent, hent'⟩ := insert_spec ht val hnew hfit
    refine ⟨t', by simp [step, hins, tableAnswer], ht', fun k v => ?_⟩
    have hold := hm k v
    rw [hent, List.mem_append] at hold
    rw [hent', List.mem_append, List.mem_cons, Prod.mk.injEq]
    by_cases hk : k = key
    · subst hk
      rw [hf.1] at hold
      simp only [tableStep, Function.update_self]
      grind
    · simp only [tableStep, Function.update_of_ne hk, ← hold]
      grind
  | remove key =>
    rcases hv : m key with - | val
    · refine ⟨t, ?_, ht, fun k v => ?_⟩
      · simp [step, remove_absent ht ((holds_not_mem hm).mpr hv) hfit, tableAnswer, hv]
      · by_cases hk : k = key
        · subst hk
          simp [tableStep, hm k v, hv]
        · simp [tableStep, Function.update_of_ne hk, hm k v]
    · obtain ⟨t', pre, post, hrem, ht', hent, hent'⟩ :=
        remove_found ht ((hm key val).mpr hv) hfit
      refine ⟨t', by simp [step, hrem, tableAnswer, hv], ht', fun k v => ?_⟩
      have hnodup := keys_nodup ht.ordered
      have hold := hm k v
      rw [hent, List.mem_append, List.mem_cons, Prod.mk.injEq] at hold
      rw [hent', List.mem_append]
      by_cases hk : k = key
      · subst hk
        simp only [keys, hent, List.map_append, List.map_cons, List.nodup_append,
          List.nodup_cons, List.mem_cons] at hnodup
        obtain ⟨-, ⟨hpost, -⟩, hpre⟩ := hnodup
        simp only [tableStep, Function.update_self, reduceCtorEq, iff_false, not_or]
        exact ⟨fun h => hpre _ (List.mem_map_of_mem h) _ (Or.inl rfl) rfl,
          fun h => hpost (List.mem_map_of_mem h)⟩
      · simp only [tableStep, Function.update_of_ne hk, ← hold]
        grind

/-- What the tree has to be after a run from the empty one: an AVL tree that
holds the inserted keys less the removed ones, every removal having returned the
node that held its key. -/
def StaysAvl (ops : List (Op κ ν)) : Prop :=
  ∃ t, run ops .nil = some (t, tableAnswers ops fun _ => none) ∧
    Ordered t ∧ Ranked t ∧ Balanced t ∧ Holds t (table ops fun _ => none)

theorem run_holds {ops : List (Op κ ν)} {t : Tree κ ν} {m : Table κ ν}
    (ht : Avl t) (hm : Holds t m) (hf : Fresh ops m) (hfit : Fits ops t) :
    ∃ t', run ops t = some (t', tableAnswers ops m) ∧ Avl t' ∧ Holds t' (table ops m) := by
  induction ops generalizing t m with
  | nil => exact ⟨t, rfl, ht, hm⟩
  | cons op ops ih =>
    obtain ⟨t', hs, ht', hm'⟩ := step_holds ht hm hf hfit.1
    obtain ⟨t'', hr, ht'', hm''⟩ := ih ht' hm' hf.2 (hfit.2 _ _ hs)
    exact ⟨t'', by simp [run, hs, hr, tableAnswers], ht'', hm''⟩

theorem fits_of_run {ops : List (Op κ ν)} {t : Tree κ ν} (h : run ops t ≠ none) : Fits ops t := by
  induction ops generalizing t with
  | nil => trivial
  | cons op ops ih =>
    constructor
    · by_contra hfull
      exact h (by simp [run, step_full (not_le.mp hfull)])
    · intro t' a hs
      refine ih fun hnone => h ?_
      simp [run, hs, hnone]

theorem run_staysAvl_iff (ops : List (Op κ ν)) (hf : Fresh ops fun _ => none) :
    StaysAvl ops ↔ Fits ops .nil := by
  constructor
  · rintro ⟨t, hr, -⟩
    exact fits_of_run (by simp [hr])
  · intro hfit
    obtain ⟨t, hr, ht, hm⟩ :=
      run_holds avl_nil (fun k v => by simp) hf hfit
    exact ⟨t, hr, ht.ordered, ht.ranked, ht.balanced, hm⟩

theorem replaced_root_staysAvl :
    StaysAvl [Op.insert 2 (), .insert 1 (), .insert 3 (), .remove 2, .remove 2] :=
  (run_staysAvl_iff _ (by simp [Fresh, tableStep, Function.update])).mpr
    (fits_of_run (by decide))

end Odin32.AvlRun
