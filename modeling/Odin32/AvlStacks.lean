import Odin32.AvlWalk
import Odin32.AvlFibonacci

/-! # How high a tree the path stacks carry

No operation needs more stack entries than the tree is high, and a removal of the
deepest node needs that many. So the array of `AVL_MAX_HEIGHT` entries carries
every operation on exactly the trees of at most that height; trees of fewer than
17710 nodes are never higher, and the Fibonacci tree of that size is. -/

set_option autoImplicit false

namespace Odin32.AvlStacks
open Odin32.RankedTree Odin32.Avl Odin32.AvlOps Odin32.AvlRun Odin32.AvlWalk
open Odin32.AvlFibonacci

variable {κ ν : Type}

theorem leastSlots_lt_height (k : κ) (v : ν) (h : ℕ) (l r : Tree κ ν) :
    leastSlots (.node k v h l r) < height (.node k v h l r) := by
  induction r generalizing k v h l with
  | nil => simp [leastSlots]
  | node rk rv rh rl rr _ ih =>
    have := ih rk rv rh rl
    simp only [leastSlots, height_node] at this ⊢
    omega

theorem walkDepth_le_height (fFromLeft : Bool) (t : Tree κ ν) :
    walkDepth fFromLeft t ≤ height t := by
  induction t with
  | nil => simp [walkDepth]
  | node k v h l r ihl ihr =>
    cases fFromLeft <;> simp only [walkDepth, height_node, if_true, Bool.false_eq_true, if_false] <;>
      omega

variable [LinearOrder κ]

theorem insertSlots_le_height (key : κ) (t : Tree κ ν) : insertSlots key t ≤ height t := by
  induction t with
  | nil => simp [insertSlots]
  | node k v h l r ihl ihr =>
    simp only [insertSlots, height_node]
    split_ifs <;> omega

theorem removeSlots_le_height (key : κ) (t : Tree κ ν) : removeSlots key t ≤ height t := by
  induction t with
  | nil => simp [removeSlots]
  | node k v h l r ihl ihr =>
    by_cases he : k = key
    · cases l with
      | nil => simp [removeSlots, he]
      | node lk lv lh ll lr =>
        have hleast := leastSlots_lt_height lk lv lh ll lr
        simp only [removeSlots, he, if_true, height_node] at hleast ⊢
        omega
    · simp only [removeSlots, he, if_false, height_node]
      split_ifs <;> omega

theorem searchSlots_le_height (key : κ) (t : Tree κ ν) : searchSlots key t ≤ height t := by
  induction t with
  | nil => simp [searchSlots]
  | node k v h l r ihl ihr =>
    simp only [searchSlots, height_node]
    split_ifs <;> omega

/-- The removal of the deepest node has a search path as long as the tree is high. -/
theorem exists_removeSlots_eq_height {t : Tree κ ν} (ho : Ordered t) (hne : t ≠ .nil) :
    ∃ key ∈ keys t, removeSlots key t = height t := by
  induction t with
  | nil => exact absurd rfl hne
  | node k v h l r ihl ihr =>
    obtain ⟨hol, hor, hlk, hkr⟩ := ordered_node.mp ho
    by_cases hside : height r ≤ height l
    · by_cases hl : l = .nil
      · subst hl
        obtain rfl : r = .nil := height_eq_zero.mp (by simpa using hside)
        exact ⟨k, by simp [keys], by simp [removeSlots]⟩
      · obtain ⟨key, hmem, hslots⟩ := ihl hol hl
        have hlt := hlk key hmem
        refine ⟨key, by simp_all [keys], ?_⟩
        simp [removeSlots, ne_of_gt hlt, hlt, hslots, hside]
    · have hr : r ≠ .nil := fun hr => by simp [hr] at hside
      obtain ⟨key, hmem, hslots⟩ := ihr hor hr
      have hgt := hkr key hmem
      refine ⟨key, by simp_all [keys], ?_⟩
      simp [removeSlots, ne_of_lt hgt, not_lt_of_gt hgt, hslots, le_of_lt (not_le.mp hside)]

/-- The stacks carry every operation on a tree: none stores a slot beyond the
`AVL_MAX_HEIGHT` entries, whatever the key, the direction, the callback and the
number of calls. -/
structure Suffices (t : Tree κ ν) : Prop where
  insert : ∀ key val, avlInsert t key val ≠ none
  remove : ∀ key, avlRemove t key ≠ none
  getWithAdjecentNodes : ∀ key, avlGetWithAdjecentNodes t key ≠ none
  doWithAll : ∀ {σ : Type} (fFromLeft : ℤ) (pfnCallBack : κ × ν → σ → ℕ × σ) (pvParam : σ),
    avlDoWithAll t fFromLeft pfnCallBack pvParam ≠ none
  enumTree : ∀ (fFromLeft : ℤ) (n : ℕ), enumTree t fFromLeft n ≠ none

theorem insert_ne_none {t : Tree κ ν} (ho : Ordered t) (key : κ) (val : ν)
    (hfit : insertSlots key t ≤ avlMaxHeight) : avlInsert t key val ≠ none := by
  obtain ⟨path, hs, -⟩ := insertSlot_spec key [] ho (by simpa using hfit)
  simp [avlInsert, hs]

theorem remove_ne_none {t : Tree κ ν} (ho : Ordered t) (key : κ)
    (hfit : removeSlots key t ≤ avlMaxHeight) : avlRemove t key ≠ none := by
  obtain ⟨stack, s, hs, hlen, -⟩ := removeSlot_spec key [] ho (by simpa using hfit)
  rw [List.append_nil] at hs
  cases s with
  | nil => simp [avlRemove, hs]
  | node k v h l r =>
    cases l with
    | nil => simp [avlRemove, hs]
    | node lk lv lh ll lr =>
      simp only [belowSlots] at hlen
      obtain ⟨e, he, le, path, hwalk, -⟩ :=
        leftLeast_spec (stack.length + 1) lk lv lh ll lr [] (by simp only [List.length_nil]; omega)
      simp [avlRemove, hs, hwalk, show stack.length + 1 < avlMaxHeight by omega]

theorem suffices_of_height {t : Tree κ ν} (ho : Ordered t) (hle : height t ≤ avlMaxHeight) :
    Suffices t where
  insert key val := insert_ne_none ho key val (le_trans (insertSlots_le_height key t) hle)
  remove key := remove_ne_none ho key (le_trans (removeSlots_le_height key t) hle)
  getWithAdjecentNodes key :=
    getWithAdjecentNodes_ne_none (le_trans (searchSlots_le_height key t) hle)
  doWithAll fFromLeft pfnCallBack pvParam := by
    rw [doWithAll_eq pfnCallBack pvParam (le_trans (walkDepth_le_height _ t) hle)]
    exact Option.some_ne_none _
  enumTree fFromLeft n := by
    rw [enumTree_eq n (le_trans (walkDepth_le_height _ t) hle)]
    exact Option.some_ne_none _

theorem height_of_suffices {t : Tree κ ν} (ho : Ordered t) (hs : Suffices t) :
    height t ≤ avlMaxHeight := by
  by_contra hhigh
  have hne : t ≠ .nil := fun hnil => by simp [hnil] at hhigh
  obtain ⟨key, -, hslots⟩ := exists_removeSlots_eq_height ho hne
  exact hs.remove key (remove_none (by rw [hslots]; exact not_le.mp hhigh))

/-- A run that came to its end has left an ordered and balanced tree. -/
theorem run_avl {ops : List (Op κ ν)} {t : Tree κ ν} {as : List (Answer κ ν)}
    (hf : Fresh ops fun _ => none) (hrun : run ops .nil = some (t, as)) : Avl t := by
  have hfit : Fits ops (.nil : Tree κ ν) := fits_of_run (by simp [hrun])
  obtain ⟨t', hrun', ht', -⟩ := run_holds avl_nil (fun k v => by simp) hf hfit
  rw [hrun] at hrun'
  obtain rfl : t = t' := by simpa using congrArg (Option.map Prod.fst) hrun'
  exact ht'

theorem run_suffices_iff (ops : List (Op κ ν)) (t : Tree κ ν) (as : List (Answer κ ν))
    (hf : Fresh ops fun _ => none) (hrun : run ops .nil = some (t, as)) :
    Suffices t ↔ height t ≤ avlMaxHeight :=
  ⟨height_of_suffices (run_avl hf hrun).ordered, suffices_of_height (run_avl hf hrun).ordered⟩

theorem inserted_suffices : Suffices
    (.node 2 () 2 (.node 1 () 1 .nil .nil) (.node 3 () 1 .nil .nil) : Tree ℕ Unit) :=
  (run_suffices_iff [.insert 1 (), .insert 2 (), .insert 3 ()] _
    [.inserted true, .inserted true, .inserted true]
    (by simp [Fresh, tableStep, Function.update]) (by decide)).mpr (by decide)

theorem fibTree_walkDepth (n b : ℕ) : walkDepth true (fibTree n b) = n := by
  induction n using Nat.twoStepInduction generalizing b with
  | zero => rfl
  | one => rfl
  | more n ih1 ih2 =>
    simp only [fibTree, walkDepth, if_true, ih1, ih2]
    omega

theorem fibTree_deep : avlMaxHeight < walkDepth (decide ((1 : ℤ) ≠ 0)) (fibTree 20 1) := by
  rw [show decide ((1 : ℤ) ≠ 0) = true by decide, fibTree_walkDepth]
  exact Nat.lt_succ_self 19

/-- Insertions that fit the slot stack build the tree of 17710 nodes. -/
theorem exists_fibonacci_run : ∃ (ops : List (Op ℕ Unit)) (as : List (Answer ℕ Unit)),
    Fresh ops (fun _ => none) ∧ (∀ op ∈ ops, op.key < 2 ^ 32) ∧
      run ops .nil = some (fibTree 20 1, as) ∧ (entries (fibTree 20 1)).length ≤ 2 ^ 16 := by
  have hheight : height (fibTree 20 1) ≤ avlMaxHeight + 1 := by
    rw [fibTree_height]
    exact Nat.le_of_eq rfl
  have hfib : Nat.fib (20 + 2) = 17711 := by norm_num
  have hkeys := fibTree_keys 20 1
  have hlen := fibTree_length 20 1
  rw [hfib] at hkeys hlen
  obtain ⟨⟨as, hrun⟩, hperm⟩ := buildOrder_spec _ rfl (fibTree_ordered 20 1)
    (fibTree_ranked 20 1) (fibTree_balanced 20 1) hheight
  generalize buildOrder (entries (fibTree 20 1)).length (fibTree 20 1) = es at hrun hperm
  have hnodup : (es.map Prod.fst).Nodup :=
    (hperm.map Prod.fst).nodup_iff.mpr (keys_nodup (fibTree_ordered 20 1))
  have hfresh : Fresh (inserts es) (fun _ => none) := fresh_inserts hnodup fun _ _ => rfl
  refine ⟨inserts es, as, hfresh, fun op hop => ?_, hrun, by omega⟩
  obtain ⟨e, he, rfl⟩ := List.mem_map.mp hop
  have := hkeys e.1 (List.mem_map_of_mem (hperm.mem_iff.mp he))
  simp only [Op.key]
  omega

/-- The tree of 17710 nodes that insertions build and no enumeration from the left
gets through. -/
theorem fibonacciTree_not_suffices :
    ¬ ∀ (ops : List (Op ℕ Unit)) (t : Tree ℕ Unit) (as : List (Answer ℕ Unit)),
      Fresh ops (fun _ => none) → (∀ op ∈ ops, op.key < 2 ^ 32) →
        run ops .nil = some (t, as) → (entries t).length ≤ 2 ^ 16 → Suffices t := by
  intro hall
  obtain ⟨ops, as, hfresh, hsmall, hrun, hlen⟩ := exists_fibonacci_run
  have hs := hall ops _ as hfresh hsmall hrun hlen
  exact hs.doWithAll 1 (fun _ _ => (0, ())) () (doWithAll_overrun (fun _ _ => rfl) () fibTree_deep)

end Odin32.AvlStacks
