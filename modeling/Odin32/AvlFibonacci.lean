import Odin32.AvlRun
import Mathlib.Tactic.NormNum.NatFib

/-! # Deep AVL trees are reachable

Taking the deepest leaf off an AVL tree leaves an AVL tree, and inserting it again
restores the tree without a rotation. So every AVL tree whose height fits the slot
stack is the result of inserting its keys in a suitable order; among them is the
Fibonacci tree of height twenty, on which the next insertion overruns the stack. -/

set_option autoImplicit false

namespace Odin32.AvlFibonacci
open Odin32.RankedTree Odin32.Avl Odin32.AvlRebalance Odin32.AvlOps Odin32.AvlRun

variable {κ ν : Type}

/-- The deepest leaf of a tree, the leftmost one of the higher side, and the tree
without it, its heights kept up to date. -/
def takeDeepest : Tree κ ν → Option ((κ × ν) × Tree κ ν)
  | .nil => none
  | .node k v _ l r =>
    if height r ≤ height l then
      match takeDeepest l with
      | none => some ((k, v), .nil)
      | some (e, l') => some (e, .node k v (max (height l') (height r) + 1) l' r)
    else
      match takeDeepest r with
      | none => some ((k, v), .nil)
      | some (e, r') => some (e, .node k v (max (height l) (height r') + 1) l r')

/-- The order in which inserting the entries of a tree rebuilds it. -/
def buildOrder : ℕ → Tree κ ν → List (κ × ν)
  | 0, _ => []
  | n + 1, t =>
    match takeDeepest t with
    | none => []
    | some (e, t') => buildOrder n t' ++ [e]

theorem takeDeepest_none {t : Tree κ ν} : takeDeepest t = none ↔ t = .nil := by
  cases t with
  | nil => simp [takeDeepest]
  | node k v h l r =>
    simp only [takeDeepest, reduceCtorEq, iff_false]
    split_ifs
    · cases takeDeepest l <;> simp
    · cases takeDeepest r <;> simp

/-- The tree without its deepest leaf is ranked and balanced, at most one level
lower, and has the same entries but one. -/
theorem takeDeepest_spec {t t' : Tree κ ν} {e : κ × ν} (ht : takeDeepest t = some (e, t'))
    (hr : Ranked t) (hb : Balanced t) :
    Ranked t' ∧ Balanced t' ∧ height t' ≤ height t ∧ height t ≤ height t' + 1 ∧
      ∃ pre post, entries t = pre ++ e :: post ∧ entries t' = pre ++ post := by
  induction t generalizing t' with
  | nil => simp [takeDeepest] at ht
  | node k v h l r ihl ihr =>
    obtain ⟨hrank, hrl, hrr⟩ := hr
    obtain ⟨b1, b2, hbl, hbr⟩ := hb
    simp only [takeDeepest] at ht
    split_ifs at ht with hside
    · rcases hl : takeDeepest l with - | ⟨e', l'⟩
      · obtain rfl := takeDeepest_none.mp hl
        obtain rfl : r = .nil := height_eq_zero.mp (by simpa using hside)
        obtain ⟨rfl, rfl⟩ : (k, v) = e ∧ .nil = t' := by simpa [hl] using ht
        exact ⟨trivial, trivial, by simp, by simp, [], [], by simp, by simp⟩
      · obtain ⟨rfl, rfl⟩ : e' = e ∧ _ = t' := by simpa [hl] using ht
        obtain ⟨hr', hb', h1, h2, pre, post, he, he'⟩ := ihl hl hrl hbl
        refine ⟨⟨rfl, hr', hrr⟩, ⟨by omega, by omega, hb', hbr⟩, ?_, ?_,
          pre, post ++ (k, v) :: entries r, by simp [he], by simp [he']⟩
        all_goals simp only [height_node]; omega
    · rcases hrt : takeDeepest r with - | ⟨e', r'⟩
      · obtain rfl := takeDeepest_none.mp hrt
        simp at hside
      · obtain ⟨rfl, rfl⟩ : e' = e ∧ _ = t' := by simpa [hrt] using ht
        obtain ⟨hr', hb', h1, h2, pre, post, he, he'⟩ := ihr hrt hrr hbr
        refine ⟨⟨rfl, hrl, hr'⟩, ⟨by omega, by omega, hbl, hb'⟩, ?_, ?_,
          entries l ++ (k, v) :: pre, post, by simp [he], by simp [he']⟩
        all_goals simp only [height_node]; omega

variable [LinearOrder κ]

omit [LinearOrder κ] in
/-- One slot of a rebalancing that meets no imbalance. -/
theorem rebalance_level {k : κ} {v : ν} {h h' : ℕ} {l r : Tree κ ν}
    (f : Frame κ ν) (s : Tree κ ν) (hfill : f.fill s = .node k v h' l r)
    (hr : Ranked (.node k v h l r)) (hb : Balanced (.node k v h l r)) (hh : h < 256)
    (stack : List (Frame κ ν)) :
    avlRebalance (f :: stack) s =
      if h = h' then plug stack (.node k v h l r) else avlRebalance stack (.node k v h l r) := by
  obtain ⟨hrank, hrl, hrr⟩ := hr
  rw [avlRebalance, hfill, rebalanceNode_level hrl hrr hb.1 hb.2.1 (by omega), ← hrank]
  by_cases heq : h = h' <;> simp [heq]

/-- Rebalancing after the deepest leaf came back needs no rotation: it stops where
the height did not change, and otherwise hands the old subtree to the next slot. -/
theorem insert_deepest {t t' : Tree κ ν} {e : κ × ν} (ht : takeDeepest t = some (e, t'))
    (ho : Ordered t) (hr : Ranked t) (hb : Balanced t) (stack : List (Frame κ ν))
    (hfit : stack.length + height t ≤ avlMaxHeight + 1) :
    ∃ path, avlInsertSlot e.1 t' stack = some (path ++ stack) ∧
      avlRebalance (path ++ stack) (.node e.1 e.2 1 .nil .nil) =
        if height t = height t' then plug stack t else avlRebalance stack t := by
  induction t generalizing t' stack with
  | nil => simp [takeDeepest] at ht
  | node k v h l r ihl ihr =>
    obtain ⟨hol, hor, hlk, hkr⟩ := ordered_node.mp ho
    have hrank := hr.1
    have hsmall : h < 256 := by
      simp only [height_node, avlMaxHeight] at hfit; omega
    simp only [height_node] at hfit
    simp only [takeDeepest] at ht
    split_ifs at ht with hside
    · rcases hl : takeDeepest l with - | ⟨e', l'⟩
      · obtain rfl := takeDeepest_none.mp hl
        obtain rfl : r = .nil := height_eq_zero.mp (by simpa using hside)
        obtain ⟨rfl, rfl⟩ : (k, v) = e ∧ .nil = t' := by simpa [hl] using ht
        obtain rfl : h = 1 := by simpa using hrank
        exact ⟨[], rfl, by simp⟩
      · obtain ⟨rfl, rfl⟩ : e' = e ∧ _ = t' := by simpa [hl] using ht
        obtain ⟨-, -, h1, h2, pre, post, he, -⟩ := takeDeepest_spec hl hr.2.1 hb.2.2.1
        have hlpos : height l ≠ 0 := fun h0 => by simp [height_eq_zero.mp h0] at he
        have hlt : e'.1 < k := hlk _ (List.mem_map_of_mem (by rw [he]; simp))
        set h' := max (height l') (height r) + 1 with hh'
        obtain ⟨path, hs, hreb⟩ := ihl hl hol hr.2.1 hb.2.2.1 (⟨.left, k, v, h', r⟩ :: stack)
          (by simp only [List.length_cons]; omega)
        refine ⟨path ++ [⟨.left, k, v, h', r⟩], ?_, ?_⟩
        · simpa [avlInsertSlot, show stack.length < avlMaxHeight by omega, hlt] using hs
        · rw [List.append_assoc, List.singleton_append, hreb,
            rebalance_level ⟨.left, k, v, h', r⟩ l rfl hr hb hsmall]
          have hplug : height l = height l' →
              plug (⟨.left, k, v, h', r⟩ :: stack) l = plug stack (.node k v h l r) := by
            intro heq
            rw [hrank, heq]; rfl
          simp only [height_node, ← hrank, ← hh']
          by_cases heq : height l = height l'
          · rw [if_pos heq, if_pos (by rw [hrank, heq]), hplug heq]
          · rw [if_neg heq]
    · rcases hrt : takeDeepest r with - | ⟨e', r'⟩
      · obtain rfl := takeDeepest_none.mp hrt
        simp at hside
      · obtain ⟨rfl, rfl⟩ : e' = e ∧ _ = t' := by simpa [hrt] using ht
        obtain ⟨-, -, h1, h2, pre, post, he, -⟩ := takeDeepest_spec hrt hr.2.2 hb.2.2.2
        have hrpos : height r ≠ 0 := fun h0 => by simp [height_eq_zero.mp h0] at he
        have hgt : ¬ e'.1 < k :=
          not_lt.mpr (le_of_lt (hkr _ (List.mem_map_of_mem (by rw [he]; simp))))
        set h' := max (height l) (height r') + 1 with hh'
        obtain ⟨path, hs, hreb⟩ := ihr hrt hor hr.2.2 hb.2.2.2 (⟨.right, k, v, h', l⟩ :: stack)
          (by simp only [List.length_cons]; omega)
        refine ⟨path ++ [⟨.right, k, v, h', l⟩], ?_, ?_⟩
        · simpa [avlInsertSlot, show stack.length < avlMaxHeight by omega, hgt] using hs
        · rw [List.append_assoc, List.singleton_append, hreb,
            rebalance_level ⟨.right, k, v, h', l⟩ r rfl hr hb hsmall]
          have hplug : height r = height r' →
              plug (⟨.right, k, v, h', l⟩ :: stack) r = plug stack (.node k v h l r) := by
            intro heq
            rw [hrank, heq]; rfl
          simp only [height_node, ← hrank, ← hh']
          by_cases heq : height r = height r'
          · rw [if_pos heq, if_pos (by rw [hrank, heq]), hplug heq]
          · rw [if_neg heq]

theorem avlInsert_deepest {t t' : Tree κ ν} {e : κ × ν} (ht : takeDeepest t = some (e, t'))
    (ho : Ordered t) (hr : Ranked t) (hb : Balanced t) (hfit : height t ≤ avlMaxHeight + 1) :
    avlInsert t' e.1 e.2 = some (t, true) := by
  obtain ⟨path, hs, hreb⟩ := insert_deepest ht ho hr hb [] (by simpa using hfit)
  rw [List.append_nil] at hs hreb
  simp only [avlInsert, hs, hreb, plug, avlRebalance, ite_self]

/-! ## Building a tree -/

def inserts (es : List (κ × ν)) : List (Op κ ν) := es.map fun e => .insert e.1 e.2

theorem run_append (xs ys : List (Op κ ν)) (t : Tree κ ν) :
    run (xs ++ ys) t = (run xs t).bind fun p =>
      (run ys p.1).map fun q => (q.1, p.2 ++ q.2) := by
  induction xs generalizing t with
  | nil => simp [run]
  | cons op xs ih =>
    simp only [List.cons_append, run, ih, Option.bind_eq_bind]
    rcases step t op with - | ⟨t', a⟩
    · rfl
    · rcases h1 : run xs t' with - | ⟨u, as⟩
      · simp [h1]
      · rcases h2 : run ys u with - | ⟨w, bs⟩ <;> simp [h1, h2]

theorem run_snoc_none {xs : List (Op κ ν)} (op : Op κ ν) {t u : Tree κ ν}
    {as : List (Answer κ ν)} (hx : run xs t = some (u, as)) (hop : step u op = none) :
    run (xs ++ [op]) t = none := by
  simp [run_append, hx, run, hop]

theorem buildOrder_spec (n : ℕ) {t : Tree κ ν} (hn : (entries t).length = n) (ho : Ordered t)
    (hr : Ranked t) (hb : Balanced t) (hfit : height t ≤ avlMaxHeight + 1) :
    (∃ as, run (inserts (buildOrder n t)) .nil = some (t, as)) ∧
      (buildOrder n t).Perm (entries t) := by
  induction n generalizing t with
  | zero =>
    have : t = .nil := by cases t <;> simp_all
    subst this
    exact ⟨⟨[], rfl⟩, by simp [buildOrder]⟩
  | succ n ih =>
    rcases htd : takeDeepest t with - | ⟨e, t'⟩
    · simp [takeDeepest_none.mp htd] at hn
    · obtain ⟨hr', hb', h1, -, pre, post, he, he'⟩ := takeDeepest_spec htd hr hb
      have hlen : (entries t').length = n := by
        rw [he, List.length_append, List.length_cons] at hn
        rw [he', List.length_append]
        omega
      have ho' : Ordered t' := ordered_sublist ho (by
        rw [he, he']; exact (List.sublist_cons_self _ _).append_left _)
      obtain ⟨⟨as, hrun⟩, hperm⟩ := ih hlen ho' hr' hb' (by omega)
      have hins := avlInsert_deepest htd ho hr hb hfit
      refine ⟨⟨as ++ [.inserted true], ?_⟩, ?_⟩
      · simp only [buildOrder, htd, inserts, List.map_append, List.map_cons, List.map_nil,
          run_append]
        rw [inserts] at hrun
        simp [hrun, run, step, hins]
      · simp only [buildOrder, htd, he]
        rw [he'] at hperm
        exact ((List.perm_append_singleton _ _).trans (hperm.cons e)).trans
          List.perm_middle.symm

theorem fresh_inserts {es : List (κ × ν)} (hnd : (es.map Prod.fst).Nodup) {m : Table κ ν}
    (hm : ∀ e ∈ es, m e.1 = none) : Fresh (inserts es) m := by
  induction es generalizing m with
  | nil => trivial
  | cons e es ih =>
    simp only [List.map_cons, List.nodup_cons] at hnd
    refine ⟨hm e (by simp), ih hnd.2 fun e' he' => ?_⟩
    have hne : e'.1 ≠ e.1 := fun heq => hnd.1 (heq ▸ List.mem_map_of_mem he')
    simpa [tableStep, Function.update_of_ne hne] using hm e' (by simp [he'])

/-- An AVL tree of the greatest height that fits is the result of inserting its
keys, and a new key below a full path then has no result. -/
theorem overrun_of_full {t : Tree κ ν} (ho : Ordered t) (hr : Ranked t) (hb : Balanced t)
    (hfit : height t ≤ avlMaxHeight + 1) {key : κ} (val : ν) (hnew : key ∉ keys t)
    (hfull : avlMaxHeight < insertSlots key t) :
    Fresh (inserts (buildOrder (entries t).length t ++ [(key, val)])) (fun _ => none) ∧
      ¬ StaysAvl (inserts (buildOrder (entries t).length t ++ [(key, val)])) := by
  obtain ⟨⟨as, hrun⟩, hperm⟩ := buildOrder_spec _ rfl ho hr hb hfit
  constructor
  · refine fresh_inserts ?_ fun _ _ => rfl
    rw [List.map_append, List.nodup_append]
    refine ⟨(hperm.map Prod.fst).nodup_iff.mpr (keys_nodup ho), by simp, ?_⟩
    intro a ha c hc heq
    obtain rfl : c = key := by simpa using hc
    rw [heq] at ha
    exact hnew ((hperm.map Prod.fst).mem_iff.mp ha)
  · rintro ⟨u, hstay, -⟩
    have hnone := run_snoc_none (.insert key val) hrun (by rw [step, insert_none val hfull]; rfl)
    rw [inserts, List.map_append, ← inserts, List.map_singleton, hnone] at hstay
    exact absurd hstay (Option.some_ne_none _).symm

/-! ## The Fibonacci trees -/

/-- The sparsest AVL tree of a height, its keys numbered from `b`. -/
def fibTree : ℕ → ℕ → Tree ℕ Unit
  | 0, _ => .nil
  | 1, b => .node b () 1 .nil .nil
  | n + 2, b =>
    .node (b + (Nat.fib (n + 3) - 1)) () (n + 2) (fibTree (n + 1) b)
      (fibTree n (b + Nat.fib (n + 3)))

theorem fibTree_height (n b : ℕ) : height (fibTree n b) = n := by
  induction n using Nat.twoStepInduction generalizing b with
  | zero => rfl
  | one => rfl
  | more n ih1 ih2 => simp [fibTree, ih1, ih2]

theorem fibTree_ranked (n b : ℕ) : Ranked (fibTree n b) := by
  induction n using Nat.twoStepInduction generalizing b with
  | zero => trivial
  | one => exact ⟨rfl, trivial, trivial⟩
  | more n ih1 ih2 =>
    exact ⟨by simp [fibTree_height], ih2 b, ih1 _⟩

theorem fibTree_balanced (n b : ℕ) : Balanced (fibTree n b) := by
  induction n using Nat.twoStepInduction generalizing b with
  | zero => trivial
  | one => exact ⟨by simp, by simp, trivial, trivial⟩
  | more n ih1 ih2 =>
    exact ⟨by simp [fibTree_height], by simp [fibTree_height]; omega, ih2 b, ih1 _⟩

theorem fibTree_length (n b : ℕ) : (entries (fibTree n b)).length + 1 = Nat.fib (n + 2) := by
  induction n using Nat.twoStepInduction generalizing b with
  | zero => rfl
  | one => rfl
  | more n ih1 ih2 =>
    have h1 := ih1 (b + Nat.fib (n + 3))
    have h2 : (entries (fibTree (n + 1) b)).length + 1 = Nat.fib (n + 3) := ih2 b
    have hfib : Nat.fib (n + 2 + 2) = Nat.fib (n + 2) + Nat.fib (n + 3) := Nat.fib_add_two
    simp only [fibTree, entries_node, List.length_append, List.length_cons]
    omega

theorem fibTree_keys (n b : ℕ) :
    ∀ k ∈ keys (fibTree n b), b ≤ k ∧ k + 1 < b + Nat.fib (n + 2) := by
  induction n using Nat.twoStepInduction generalizing b with
  | zero => simp [fibTree, keys]
  | one => simp [fibTree, keys, Nat.fib]
  | more n ih1 ih2 =>
    have hfib : Nat.fib (n + 2 + 2) = Nat.fib (n + 2) + Nat.fib (n + 3) := Nat.fib_add_two
    have hpos : 0 < Nat.fib (n + 3) := Nat.fib_pos.mpr (by omega)
    have hpos' : 0 < Nat.fib (n + 2) := Nat.fib_pos.mpr (by omega)
    intro k hk
    simp only [fibTree, keys, entries_node, List.map_append, List.map_cons, List.mem_append,
      List.mem_cons] at hk
    rcases hk with hk | rfl | hk
    · have := ih2 b k hk
      change b ≤ k ∧ k + 1 < b + Nat.fib (n + 3) at this
      omega
    · omega
    · have := ih1 _ k hk
      omega

theorem fibTree_ordered (n b : ℕ) : Ordered (fibTree n b) := by
  induction n using Nat.twoStepInduction generalizing b with
  | zero => exact List.Pairwise.nil
  | one => exact List.pairwise_singleton _ _
  | more n ih1 ih2 =>
    refine ordered_node.mpr ⟨ih2 b, ih1 _, fun k hk => ?_, fun k hk => ?_⟩
    · have := fibTree_keys (n + 1) b k hk
      change b ≤ k ∧ k + 1 < b + Nat.fib (n + 3) at this
      omega
    · have := fibTree_keys n _ k hk
      have hpos : 0 < Nat.fib (n + 3) := Nat.fib_pos.mpr (by omega)
      omega

theorem fibTree_insertSlots (n : ℕ) {key b : ℕ} (hkey : key < b) :
    insertSlots key (fibTree n b) = n := by
  induction n using Nat.twoStepInduction generalizing b with
  | zero => rfl
  | one => simp [fibTree, insertSlots, hkey]
  | more n _ ih2 =>
    simp [fibTree, insertSlots, show key < b + (Nat.fib (n + 3) - 1) by omega, ih2 hkey]

/-- The insertions that build the Fibonacci tree of height twenty with keys from
one on, followed by the insertion of the key zero. -/
def fibonacciInserts : List (Op ℕ Unit) :=
  inserts (buildOrder (entries (fibTree 20 1)).length (fibTree 20 1) ++ [(0, ())])

theorem fibonacciInserts_perm :
    (buildOrder (entries (fibTree 20 1)).length (fibTree 20 1)).Perm (entries (fibTree 20 1)) :=
  (buildOrder_spec _ rfl (fibTree_ordered 20 1) (fibTree_ranked 20 1) (fibTree_balanced 20 1)
    (by rw [fibTree_height]; exact Nat.le_of_eq rfl)).2

theorem fibonacciInserts_overrun :
    (∀ op ∈ fibonacciInserts, op.key < 2 ^ 32) ∧ fibonacciInserts.length ≤ 2 ^ 16 ∧
      Fresh fibonacciInserts (fun _ => none) ∧ ¬ StaysAvl fibonacciInserts := by
  have hfib : Nat.fib (20 + 2) = 17711 := by norm_num
  have hkeys := fibTree_keys 20 1
  rw [hfib] at hkeys
  refine ⟨?_, ?_, ?_⟩
  · intro op hop
    simp only [fibonacciInserts, inserts, List.map_append, List.mem_append, List.mem_map,
      List.mem_singleton] at hop
    rcases hop with ⟨e, he, rfl⟩ | ⟨e, rfl, rfl⟩
    · have := hkeys e.1 (List.mem_map_of_mem (fibonacciInserts_perm.mem_iff.mp he))
      simp only [Op.key]
      omega
    · simp [Op.key]
  · calc fibonacciInserts.length = (entries (fibTree 20 1)).length + 1 := by
          simp [fibonacciInserts, inserts, fibonacciInserts_perm.length_eq]
      _ = Nat.fib (20 + 2) := fibTree_length 20 1
      _ ≤ 2 ^ 16 := by rw [hfib]; norm_num
  · refine overrun_of_full (fibTree_ordered 20 1) (fibTree_ranked 20 1) (fibTree_balanced 20 1)
      ?_ () ?_ ?_
    · rw [fibTree_height]; exact Nat.le_of_eq rfl
    · intro hzero
      exact absurd (hkeys 0 hzero).1 (by omega)
    · rw [fibTree_insertSlots 20 Nat.zero_lt_one]
      exact Nat.lt_succ_self 19

end Odin32.AvlFibonacci
