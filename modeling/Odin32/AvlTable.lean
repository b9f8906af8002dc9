import Odin32.AvlOps
import Odin32.AvlSearch
import Mathlib.Data.List.Perm.Basic

/-! # AVL trees as tables

What the callers of the trees use: an operation that has a result leaves an AVL tree, and its
entries, in whatever order, with one more, one less or one changed. A node's key and data are
changed in place where the order allows the new key. -/

set_option autoImplicit false

namespace Odin32.AvlTable
open Odin32.RankedTree Odin32.Avl Odin32.AvlOps Odin32.AvlSearch

variable {κ ν : Type} [LinearOrder κ] {t t' : Tree κ ν} {key : κ} {val : ν}

theorem insert_perm (ht : Avl t) (hnew : key ∉ keys t) {rc : Bool}
    (done : avlInsert t key val = some (t', rc)) :
    Avl t' ∧ (entries t').Perm ((key, val) :: entries t) := by
  have room : insertSlots key t ≤ avlMaxHeight := by
    by_contra full
    rw [insert_none val (not_le.1 full)] at done
    cases done
  obtain ⟨t'', pre, post, inserted, avl, old, new⟩ := insert_spec ht val hnew room
  obtain ⟨rfl, -⟩ := Prod.mk.inj (Option.some.inj (inserted.symm.trans done))
  refine ⟨avl, ?_⟩
  rw [old, new]
  exact List.perm_middle

theorem remove_room {gone : Option (κ × ν)} (done : avlRemove t key = some (t', gone)) :
    removeSlots key t ≤ avlMaxHeight := by
  by_contra full
  rw [remove_none (not_le.1 full)] at done
  cases done

theorem remove_perm (ht : Avl t) (there : (key, val) ∈ entries t) {gone : Option (κ × ν)}
    (done : avlRemove t key = some (t', gone)) :
    gone = some (key, val) ∧ Avl t' ∧ (entries t).Perm ((key, val) :: entries t') := by
  obtain ⟨t'', pre, post, removed, avl, old, new⟩ := remove_found ht there (remove_room done)
  obtain ⟨rfl, rfl⟩ := Prod.mk.inj (Option.some.inj (removed.symm.trans done))
  refine ⟨rfl, avl, ?_⟩
  rw [old, new]
  exact List.perm_middle

theorem remove_cases (ht : Avl t) {gone : Option (κ × ν)}
    (done : avlRemove t key = some (t', gone)) :
    (gone = none ∧ t' = t ∧ key ∉ keys t) ∨
      ∃ val, gone = some (key, val) ∧ (key, val) ∈ entries t := by
  by_cases there : key ∈ keys t
  · obtain ⟨⟨k, val⟩, member, rfl⟩ := List.mem_map.1 there
    exact Or.inr ⟨val, (remove_perm ht member done).1, member⟩
  · rw [remove_absent ht there (remove_room done)] at done
    obtain ⟨rfl, rfl⟩ := Prod.mk.inj (Option.some.inj done)
    exact Or.inl ⟨rfl, rfl, there⟩

theorem get_some {e : κ × ν} (found : avlGet key t = some e) : e.1 = key ∧ e ∈ entries t := by
  induction t with
  | nil => cases found
  | node k v h l r ihl ihr =>
    rw [avlGet] at found
    split_ifs at found with here less
    · obtain rfl := Option.some.inj found
      exact ⟨here, by simp⟩
    · have := ihl found
      exact ⟨this.1, by simp [this.2]⟩
    · have := ihr found
      exact ⟨this.1, by simp [this.2]⟩

theorem get_none (ho : Ordered t) (missing : avlGet key t = none) : key ∉ keys t := by
  induction t with
  | nil => exact List.not_mem_nil
  | node k v h l r ihl ihr =>
    obtain ⟨hol, hor, hlk, hkr⟩ := ordered_node.1 ho
    rw [avlGet] at missing
    intro there
    have cases : key ∈ keys l ∨ key = k ∨ key ∈ keys r := by
      simpa [keys] using there
    split_ifs at missing with here less
    · rcases cases with left | rfl | right
      · exact ihl hol missing left
      · exact here rfl
      · exact absurd (hkr key right) (not_lt.2 (le_of_lt less))
    · rcases cases with left | rfl | right
      · exact less (hlk key left)
      · exact here rfl
      · exact ihr hor missing right

theorem get_of_mem (ht : Avl t) (there : (key, val) ∈ entries t) :
    avlGet key t = some (key, val) := by
  cases found : avlGet key t with
  | none => exact absurd (List.mem_map_of_mem there) (get_none ht.ordered found)
  | some e =>
    obtain ⟨k, v⟩ := e
    obtain ⟨rfl, member⟩ := get_some found
    rw [val_unique ht.ordered member there]

/-! ## A node changed in place -/

/-- The node found at a key, its height and its subtrees kept, for another key and other data. -/
def avlReplace (key key' : κ) (val' : ν) : Tree κ ν → Tree κ ν
  | .nil => .nil
  | .node k v h l r =>
    if k = key then .node key' val' h l r
    else if key < k then .node k v h (avlReplace key key' val' l) r
    else .node k v h l (avlReplace key key' val' r)

theorem height_replace (key' : κ) (val' : ν) (t : Tree κ ν) :
    height (avlReplace key key' val' t) = height t := by
  induction t with
  | nil => rfl
  | node k v h l r ihl ihr =>
    rw [avlReplace]
    split_ifs <;> simp [ihl, ihr]

theorem ranked_replace (key' : κ) (val' : ν) (ranked : Ranked t) :
    Ranked (avlReplace key key' val' t) := by
  induction t with
  | nil => trivial
  | node k v h l r ihl ihr =>
    obtain ⟨rank, left, right⟩ := ranked
    rw [avlReplace]
    split_ifs
    · exact ⟨rank, left, right⟩
    · exact ⟨by rw [height_replace]; exact rank, ihl left, right⟩
    · exact ⟨by rw [height_replace]; exact rank, left, ihr right⟩

theorem balanced_replace (key' : κ) (val' : ν) (balanced : Balanced t) :
    Balanced (avlReplace key key' val' t) := by
  induction t with
  | nil => trivial
  | node k v h l r ihl ihr =>
    obtain ⟨low, high, left, right⟩ := balanced
    rw [avlReplace]
    split_ifs
    · exact ⟨low, high, left, right⟩
    · exact ⟨by rw [height_replace]; exact low, by rw [height_replace]; exact high,
        ihl left, right⟩
    · exact ⟨by rw [height_replace]; exact low, by rw [height_replace]; exact high,
        left, ihr right⟩

theorem entries_replace (key' : κ) (val' : ν) (ho : Ordered t) (there : (key, val) ∈ entries t) :
    ∃ pre post, entries t = pre ++ (key, val) :: post ∧
      entries (avlReplace key key' val' t) = pre ++ (key', val') :: post := by
  induction t with
  | nil => exact absurd there List.not_mem_nil
  | node k v h l r ihl ihr =>
    obtain ⟨hol, hor, hlk, hkr⟩ := ordered_node.1 ho
    have cases : (key, val) ∈ entries l ∨ (key, val) = (k, v) ∨ (key, val) ∈ entries r := by
      simpa using there
    rw [avlReplace]
    rcases cases with left | same | right
    · have less := hlk key (List.mem_map_of_mem left)
      rw [if_neg (ne_of_gt less), if_pos less]
      obtain ⟨pre, post, old, new⟩ := ihl hol left
      exact ⟨pre, post ++ (k, v) :: entries r, by simp [old], by simp [new]⟩
    · obtain ⟨rfl, rfl⟩ := Prod.mk.inj same
      rw [if_pos rfl]
      exact ⟨entries l, entries r, rfl, rfl⟩
    · have less := hkr key (List.mem_map_of_mem right)
      rw [if_neg (ne_of_lt less), if_neg (not_lt.2 (le_of_lt less))]
      obtain ⟨pre, post, old, new⟩ := ihr hor right
      exact ⟨entries l ++ (k, v) :: pre, post, by simp [old], by simp [new]⟩

/-- In place of a node comes one whose key lies between the same neighbours. -/
theorem replace_perm (ht : Avl t) {key' : κ} (val' : ν) (there : (key, val) ∈ entries t)
    (below : ∀ k ∈ keys t, k < key → k < key') (above : ∀ k ∈ keys t, key < k → key' < k) :
    Avl (avlReplace key key' val' t) ∧ ∃ es, (entries t).Perm ((key, val) :: es) ∧
      (entries (avlReplace key key' val' t)).Perm ((key', val') :: es) := by
  obtain ⟨pre, post, old, new⟩ := entries_replace key' val' ht.ordered there
  have ordered := ht.ordered
  refine ⟨⟨?_, ranked_replace _ _ ht.ranked, balanced_replace _ _ ht.balanced, ?_⟩,
    pre ++ post, ?_, ?_⟩
  · simp only [Ordered, keys, old, new, List.map_append, List.map_cons, List.pairwise_append,
      List.pairwise_cons, List.mem_cons, forall_eq_or_imp] at ordered below above ⊢
    obtain ⟨front, ⟨later, back⟩, across⟩ := ordered
    refine ⟨front, ⟨fun k member => above k ?_ (later k member), back⟩, fun k member => ⟨?_, ?_⟩⟩
    · exact List.mem_append_right _ (List.mem_cons_of_mem _ member)
    · exact below k (List.mem_append_left _ member) (across k member).1
    · exact (across k member).2
  · rw [height_replace]
    exact ht.height_le
  · rw [old]
    exact List.perm_middle
  · rw [new]
    exact List.perm_middle

theorem replace_same_key (ht : Avl t) (val' : ν) (there : (key, val) ∈ entries t) :
    Avl (avlReplace key key val' t) ∧ ∃ es, (entries t).Perm ((key, val) :: es) ∧
      (entries (avlReplace key key val' t)).Perm ((key, val') :: es) :=
  replace_perm ht val' there (fun _ _ less => less) fun _ _ less => less

end Odin32.AvlTable
