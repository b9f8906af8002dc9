import Odin32.AvlRebalance

/-! # Inserting into and removing from an AVL tree

With room on the slot stack, `AVLInsert` of a new key places one entry into the
list of entries and `AVLRemove` takes one out; both leave an AVL tree. Without
room neither has a result. -/

set_option autoImplicit false

namespace Odin32.AvlOps
open Odin32.RankedTree Odin32.Avl Odin32.AvlRebalance

variable {κ ν : Type} [LinearOrder κ]

/-- A search tree whose heights are recorded and balanced, no higher than a
descent over a full slot stack can make it. -/
structure Avl (t : Tree κ ν) : Prop where
  ordered : Ordered t
  ranked : Ranked t
  balanced : Balanced t
  height_le : height t ≤ avlMaxHeight + 1

theorem avl_nil : Avl (.nil : Tree κ ν) :=
  ⟨List.Pairwise.nil, trivial, trivial, Nat.zero_le _⟩

/-! ## Descents -/

theorem insertSlot_spec (key : κ) {t : Tree κ ν} (stack : List (Frame κ ν)) (ho : Ordered t)
    (hfit : stack.length + insertSlots key t ≤ avlMaxHeight) :
    ∃ path, avlInsertSlot key t stack = some (path ++ stack) ∧
      path.length = insertSlots key t ∧ plug path .nil = t ∧
      (∀ e ∈ before path, e.1 ≤ key) ∧ ∀ e ∈ after path, key < e.1 := by
  induction t generalizing stack with
  | nil => exact ⟨[], rfl, rfl, rfl, by simp [before], by simp [after]⟩
  | node k v h l r ihl ihr =>
    obtain ⟨hol, hor, hlk, hkr⟩ := ordered_node.mp ho
    simp only [insertSlots] at hfit
    have hroom : stack.length < avlMaxHeight := by omega
    by_cases hk : key < k
    · simp only [hk, if_true] at hfit
      obtain ⟨path, hs, hlen, hplug, hb, ha⟩ :=
        ihl (⟨.left, k, v, h, r⟩ :: stack) hol (by simp only [List.length_cons]; omega)
      refine ⟨path ++ [⟨.left, k, v, h, r⟩], ?_, ?_, ?_, ?_, ?_⟩
      · simp [avlInsertSlot, hroom, hk, hs]
      · simp [insertSlots, hk, hlen]
      · rw [plug_append, hplug]; rfl
      · intro e he
        exact hb e (by simpa [before_append, before] using he)
      · intro e he
        simp only [after_append, after, List.append_nil, List.mem_append, List.mem_cons] at he
        rcases he with he | rfl | he
        · exact ha e he
        · exact hk
        · exact lt_trans hk (hkr e.1 (List.mem_map_of_mem he))
    · simp only [hk, if_false] at hfit
      obtain ⟨path, hs, hlen, hplug, hb, ha⟩ :=
        ihr (⟨.right, k, v, h, l⟩ :: stack) hor (by simp only [List.length_cons]; omega)
      have hkk : k ≤ key := not_lt.mp hk
      refine ⟨path ++ [⟨.right, k, v, h, l⟩], ?_, ?_, ?_, ?_, ?_⟩
      · simp [avlInsertSlot, hroom, hk, hs]
      · simp [insertSlots, hk, hlen]
      · rw [plug_append, hplug]; rfl
      · intro e he
        simp only [before_append, before, List.nil_append, List.mem_append, List.mem_singleton]
          at he
        rcases he with (he | rfl) | he
        · exact le_trans (le_of_lt (hlk e.1 (List.mem_map_of_mem he))) hkk
        · exact hkk
        · exact hb e he
      · intro e he
        exact ha e (by simpa [after_append, after] using he)

theorem insertSlot_none (key : κ) {t : Tree κ ν} (stack : List (Frame κ ν))
    (hroom : stack.length ≤ avlMaxHeight)
    (hfull : avlMaxHeight < stack.length + insertSlots key t) :
    avlInsertSlot key t stack = none := by
  induction t generalizing stack with
  | nil => simp [insertSlots] at hfull; omega
  | node k v h l r ihl ihr =>
    by_cases hs : stack.length < avlMaxHeight
    · by_cases hk : key < k
      · simp only [insertSlots, hk, if_true] at hfull
        simpa [avlInsertSlot, hs, hk] using
          ihl (⟨.left, k, v, h, r⟩ :: stack) (by simp only [List.length_cons]; omega)
            (by simp only [List.length_cons]; omega)
      · simp only [insertSlots, hk, if_false] at hfull
        simpa [avlInsertSlot, hs, hk] using
          ihr (⟨.right, k, v, h, l⟩ :: stack) (by simp only [List.length_cons]; omega)
            (by simp only [List.length_cons]; omega)
    · simp [avlInsertSlot, hs]

/-- What the search of `AVLRemove` needs beyond the slots above the node found. -/
def belowSlots : Tree κ ν → ℕ
  | .nil => 0
  | .node _ _ _ .nil _ => 1
  | .node _ _ _ (.node lk lv lh ll lr) _ => max 1 (leastSlots (.node lk lv lh ll lr)) + 1

theorem removeSlot_spec (key : κ) {t : Tree κ ν} (stack : List (Frame κ ν)) (ho : Ordered t)
    (hfit : stack.length + removeSlots key t ≤ avlMaxHeight) :
    ∃ path s, avlRemoveSlot key t stack = some (s, path ++ stack) ∧
      path.length + belowSlots s = removeSlots key t ∧ plug path s = t ∧
      ((s = .nil ∧ key ∉ keys t) ∨ ∃ v h l r, s = .node key v h l r) := by
  induction t generalizing stack with
  | nil => exact ⟨[], .nil, rfl, rfl, rfl, Or.inl ⟨rfl, by simp [keys]⟩⟩
  | node k v h l r ihl ihr =>
    obtain ⟨hol, hor, hlk, hkr⟩ := ordered_node.mp ho
    have hroom : stack.length < avlMaxHeight := by simp only [removeSlots] at hfit; omega
    by_cases he : k = key
    · subst he
      refine ⟨[], .node k v h l r, by simp [avlRemoveSlot, hroom], ?_, rfl, Or.inr ⟨v, h, l, r, rfl⟩⟩
      cases l <;> simp [belowSlots, removeSlots]
    · by_cases hk : key < k
      · simp only [removeSlots, he, hk, if_true, if_false] at hfit
        obtain ⟨path, s, hs, hlen, hplug, hcase⟩ :=
          ihl (⟨.left, k, v, h, r⟩ :: stack) hol (by simp only [List.length_cons]; omega)
        refine ⟨path ++ [⟨.left, k, v, h, r⟩], s, ?_, ?_, ?_, ?_⟩
        · simp [avlRemoveSlot, hroom, he, hk, hs]
        · simp only [List.length_append, List.length_singleton, removeSlots, he, hk, if_true,
            if_false]
          omega
        · rw [plug_append, hplug]; rfl
        · refine hcase.imp_left fun hboth => ⟨hboth.1, ?_⟩
          have hnot := hboth.2
          intro hmem
          simp only [keys, entries_node, List.map_append, List.map_cons, List.mem_append,
            List.mem_cons] at hmem
          rcases hmem with hmem | rfl | hmem
          · exact hnot hmem
          · exact he rfl
          · exact absurd (hkr key hmem) (not_lt.mpr (le_of_lt hk))
      · simp only [removeSlots, he, hk, if_false] at hfit
        obtain ⟨path, s, hs, hlen, hplug, hcase⟩ :=
          ihr (⟨.right, k, v, h, l⟩ :: stack) hor (by simp only [List.length_cons]; omega)
        refine ⟨path ++ [⟨.right, k, v, h, l⟩], s, ?_, ?_, ?_, ?_⟩
        · simp [avlRemoveSlot, hroom, he, hk, hs]
        · simp only [List.length_append, List.length_singleton, removeSlots, he, hk, if_false]
          omega
        · rw [plug_append, hplug]; rfl
        · refine hcase.imp_left fun hboth => ⟨hboth.1, ?_⟩
          have hnot := hboth.2
          intro hmem
          simp only [keys, entries_node, List.map_append, List.map_cons, List.mem_append,
            List.mem_cons] at hmem
          rcases hmem with hmem | rfl | hmem
          · exact hk (hlk key hmem)
          · exact he rfl
          · exact hnot hmem

omit [LinearOrder κ] in
theorem leftLeast_spec (cEntries : ℕ) (k : κ) (v : ν) (h : ℕ) (l r : Tree κ ν)
    (slots : List (Frame κ ν))
    (hfit : cEntries + slots.length + leastSlots (.node k v h l r) ≤ avlMaxHeight) :
    ∃ e he le path, avlLeftLeast cEntries (.node k v h l r) slots = some (e, le, path ++ slots) ∧
      path.length = leastSlots (.node k v h l r) ∧
      plug path (.node e.1 e.2 he le .nil) = .node k v h l r ∧ after path = [] := by
  induction r generalizing k v h l slots with
  | nil => exact ⟨(k, v), h, l, [], rfl, rfl, rfl, rfl⟩
  | node rk rv rh rl rr _ ihr =>
    simp only [leastSlots] at hfit
    obtain ⟨e, he, le, path, hs, hlen, hplug, ha⟩ :=
      ihr rk rv rh rl (⟨.right, k, v, h, l⟩ :: slots) (by simp only [List.length_cons]; omega)
    have hroom : cEntries + slots.length < avlMaxHeight := by omega
    refine ⟨e, he, le, path ++ [⟨.right, k, v, h, l⟩], ?_, ?_, ?_, ?_⟩
    · simp [avlLeftLeast, hroom, hs]
    · simp [leastSlots, hlen]
    · rw [plug_append, hplug]; rfl
    · simp [after_append, after, ha]

omit [LinearOrder κ] in
theorem leftLeast_none (cEntries : ℕ) (k : κ) (v : ν) (h : ℕ) (l r : Tree κ ν)
    (slots : List (Frame κ ν)) (hroom : cEntries + slots.length ≤ avlMaxHeight)
    (hfull : avlMaxHeight < cEntries + slots.length + leastSlots (.node k v h l r)) :
    avlLeftLeast cEntries (.node k v h l r) slots = none := by
  induction r generalizing k v h l slots with
  | nil => simp only [leastSlots] at hfull; omega
  | node rk rv rh rl rr _ ihr =>
    simp only [leastSlots] at hfull
    by_cases hs : cEntries + slots.length < avlMaxHeight
    · simpa [avlLeftLeast, hs] using ihr rk rv rh rl (⟨.right, k, v, h, l⟩ :: slots)
        (by simp only [List.length_cons]; omega) (by simp only [List.length_cons]; omega)
    · simp [avlLeftLeast, hs]

/-- A search that runs out of slots either traps itself or ends at a node whose
left subtree is too deep for the rest of the stack. -/
theorem removeSlot_full (key : κ) {t : Tree κ ν} (stack : List (Frame κ ν))
    (hroom : stack.length ≤ avlMaxHeight)
    (hfull : avlMaxHeight < stack.length + removeSlots key t) :
    avlRemoveSlot key t stack = none ∨
      ∃ path k v h lk lv lh ll lr r,
        avlRemoveSlot key t stack = some (.node k v h (.node lk lv lh ll lr) r, path) ∧
        path.length < avlMaxHeight ∧
        avlMaxHeight < path.length + belowSlots (.node k v h (.node lk lv lh ll lr) r) := by
  induction t generalizing stack with
  | nil => simp only [removeSlots] at hfull; omega
  | node k v h l r ihl ihr =>
    by_cases hs : stack.length < avlMaxHeight
    · by_cases he : k = key
      · cases l with
        | nil => simp only [removeSlots, he, if_true] at hfull; omega
        | node lk lv lh ll lr =>
          refine Or.inr ⟨stack, k, v, h, lk, lv, lh, ll, lr, r, ?_, hs, ?_⟩
          · simp [avlRemoveSlot, hs, he]
          · simpa [belowSlots, removeSlots, he] using hfull
      · by_cases hk : key < k
        · simp only [removeSlots, he, hk, if_true, if_false] at hfull
          simpa [avlRemoveSlot, hs, he, hk] using ihl (⟨.left, k, v, h, r⟩ :: stack)
            (by simp only [List.length_cons]; omega) (by simp only [List.length_cons]; omega)
        · simp only [removeSlots, he, hk, if_false] at hfull
          simpa [avlRemoveSlot, hs, he, hk] using ihr (⟨.right, k, v, h, l⟩ :: stack)
            (by simp only [List.length_cons]; omega) (by simp only [List.length_cons]; omega)
    · exact Or.inl (by simp [avlRemoveSlot, hs])

/-! ## The operations -/

omit [LinearOrder κ] in
/-- A frame may change its entry without its path losing soundness. -/
theorem sound_swap {n : ℕ} {fs gs : List (Frame κ ν)} {f f' : Frame κ ν}
    (hrank : f'.rank = f.rank) (hother : f'.other = f.other) (hs : Sound n (fs ++ f :: gs)) :
    Sound n (fs ++ f' :: gs) := by
  induction fs generalizing n with
  | nil =>
    simp only [List.nil_append, Sound] at hs ⊢
    rwa [hrank, hother]
  | cons g fs ih =>
    obtain ⟨h1, h2, h3, h4, h5, h6⟩ := hs
    exact ⟨h1, h2, h3, h4, h5, ih h6⟩

omit [LinearOrder κ] in
theorem topHeight_swap {n : ℕ} {fs gs : List (Frame κ ν)} {f f' : Frame κ ν}
    (hrank : f'.rank = f.rank) : topHeight n (fs ++ f' :: gs) = topHeight n (fs ++ f :: gs) := by
  induction fs generalizing n with
  | nil => simp [topHeight, hrank]
  | cons g fs ih => exact ih

theorem insert_spec {t : Tree κ ν} (ht : Avl t) {key : κ} (val : ν) (hnew : key ∉ keys t)
    (hfit : insertSlots key t ≤ avlMaxHeight) :
    ∃ t' pre post, avlInsert t key val = some (t', true) ∧ Avl t' ∧
      entries t = pre ++ post ∧ entries t' = pre ++ (key, val) :: post := by
  obtain ⟨path, hs, hlen, hplug, hb, ha⟩ := insertSlot_spec key [] ht.ordered (by simpa using hfit)
  rw [List.append_nil] at hs
  have hent : entries t = before path ++ after path := by
    rw [← hplug, entries_plug]; simp
  obtain ⟨-, -, hsound⟩ := sound_of_plug path (t := .nil)
    (by rw [hplug]; exact ht.ranked) (by rw [hplug]; exact ht.balanced)
  have htop : topHeight 0 path = height t := by
    rw [← hplug]; exact (plug_sound hsound rfl trivial trivial).2.2.symm
  have hle := ht.height_le
  have hB : topHeight 0 path < 254 := by rw [htop]; simp only [avlMaxHeight] at hle; omega
  obtain ⟨hr, hbal, hent'⟩ := rebalance_sound (t := .node key val 1 .nil .nil) hsound
    (by simp [Ranked]) (by simp [RankedTree.Balanced]) (by simp) (by simp) hB
  have hheight := rebalance_height (d := 1) (t := .node key val 1 .nil .nil) hsound
    (by simp [Ranked]) (by simp [RankedTree.Balanced]) (by simp) (by simp) hB (Or.inr (by simp))
  have hord : Ordered (avlRebalance path (.node key val 1 .nil .nil)) := by
    have hpw : ((before path ++ after path).map Prod.fst).Pairwise (· < ·) := by
      rw [← hent]; exact ht.ordered
    simp only [Ordered, keys, hent', entries_node, entries_nil, List.nil_append, List.map_append,
      List.map_cons, List.append_assoc, List.singleton_append]
    simp only [List.map_append, List.pairwise_append] at hpw
    obtain ⟨hp1, hp2, hp3⟩ := hpw
    refine List.pairwise_append.mpr ⟨hp1, List.pairwise_cons.mpr ⟨?_, hp2⟩, ?_⟩
    · intro a hmem
      obtain ⟨e, he, rfl⟩ := List.mem_map.mp hmem
      exact ha e he
    · intro a hmem b hmemb
      rcases List.mem_cons.mp hmemb with rfl | hmemb
      · obtain ⟨e, he, rfl⟩ := List.mem_map.mp hmem
        refine lt_of_le_of_ne (hb e he) fun heq => hnew ?_
        rw [← heq, keys, hent]
        exact List.mem_map_of_mem (List.mem_append_left _ he)
      · exact hp3 a hmem b hmemb
  refine ⟨_, before path, after path, by simp [avlInsert, hs], ⟨hord, hr, hbal, ?_⟩, hent, ?_⟩
  · simp only [height_nil] at hheight
    omega
  · simpa using hent'

theorem insert_none {t : Tree κ ν} {key : κ} (val : ν)
    (hfull : avlMaxHeight < insertSlots key t) : avlInsert t key val = none := by
  simp [avlInsert, insertSlot_none key [] (Nat.zero_le _) (by simpa using hfull)]

omit [LinearOrder κ] in
/-- The slots of a removal below a node with a left child: the patched frame
separates the walk to the right-most node from the way to the node removed. -/
theorem remove_path {stack path : List (Frame κ ν)} {k : κ} {v : ν} {h he : ℕ} {e : κ × ν}
    {le l r : Tree κ ν} (hplug : plug path (.node e.1 e.2 he le .nil) = l)
    (hr : Ranked (plug stack (.node k v h l r))) (hb : Balanced (plug stack (.node k v h l r))) :
    Ranked le ∧ Balanced le ∧
      Sound (height le + 1) (path ++ ⟨.left, e.1, e.2, h, r⟩ :: stack) ∧
      topHeight (height le + 1) (path ++ ⟨.left, e.1, e.2, h, r⟩ :: stack) =
        height (plug stack (.node k v h l r)) := by
  have hwhole : plug (path ++ ⟨.left, k, v, h, r⟩ :: stack) (.node e.1 e.2 he le .nil) =
      plug stack (.node k v h l r) := by
    rw [plug_append, hplug]; rfl
  obtain ⟨hrn, hbn, hs⟩ := sound_of_plug _ (by rw [hwhole]; exact hr) (by rw [hwhole]; exact hb)
  have htop := (plug_sound hs rfl hrn hbn).2.2
  rw [hwhole] at htop
  simp only [height_node, height_nil, Nat.max_zero] at hs htop
  refine ⟨hrn.2.1, hbn.2.2.1, ?_, ?_⟩
  · exact sound_swap (f := ⟨.left, k, v, h, r⟩) rfl rfl hs
  · rw [htop]
    exact topHeight_swap rfl

theorem remove_found {t : Tree κ ν} (ht : Avl t) {key : κ} {val : ν}
    (hmem : (key, val) ∈ entries t) (hfit : removeSlots key t ≤ avlMaxHeight) :
    ∃ t' pre post, avlRemove t key = some (t', some (key, val)) ∧ Avl t' ∧
      entries t = pre ++ (key, val) :: post ∧ entries t' = pre ++ post := by
  obtain ⟨stack, s, hs, hlen, hplug, hcase⟩ :=
    removeSlot_spec key [] ht.ordered (by simpa using hfit)
  rw [List.append_nil] at hs
  rcases hcase with ⟨-, hnot⟩ | ⟨v, h, l, r, rfl⟩
  · exact absurd (List.mem_map_of_mem (f := Prod.fst) hmem) hnot
  have hent : entries t = (before stack ++ entries l) ++ (key, v) :: (entries r ++ after stack) := by
    rw [← hplug, entries_plug]; simp
  obtain rfl : v = val := val_unique ht.ordered (by rw [hent]; simp) hmem
  have hle := ht.height_le
  obtain ⟨hrn, hbn, hsound⟩ := sound_of_plug stack (t := .node key v h l r)
    (by rw [hplug]; exact ht.ranked) (by rw [hplug]; exact ht.balanced)
  have hsub : (before stack ++ entries l ++ (entries r ++ after stack)).Sublist (entries t) := by
    rw [hent]
    exact (List.sublist_cons_self _ _).append_left _
  cases l with
  | nil =>
    have htop : topHeight (height (.node key v h .nil r)) stack = height t := by
      rw [← hplug]; exact (plug_sound hsound rfl hrn hbn).2.2.symm
    simp only [height_node, height_nil, Nat.zero_max] at hsound htop
    have hB : topHeight (height r + 1) stack < 254 := by
      rw [htop]; simp only [avlMaxHeight] at hle; omega
    obtain ⟨hr, hbal, hent'⟩ := rebalance_sound hsound hrn.2.2 hbn.2.2.2 (by omega) (by omega) hB
    have hheight := rebalance_height (d := 0) hsound hrn.2.2 hbn.2.2.2 (by omega) (by omega) hB
      (Or.inl (by omega))
    refine ⟨avlRebalance stack r, before stack, entries r ++ after stack,
      by simp [avlRemove, hs], ⟨ordered_sublist ht.ordered ?_, hr, hbal, ?_⟩, by simpa using hent,
      by simpa using hent'⟩
    · rw [hent']; simpa using hsub
    · have : stack.length ≤ avlMaxHeight := by
        simp only [belowSlots] at hlen; omega
      omega
  | node lk lv lh ll lr =>
    simp only [belowSlots] at hlen
    obtain ⟨e, he, le, path, hwalk, hplen, hpplug, hafter⟩ :=
      leftLeast_spec (stack.length + 1) lk lv lh ll lr [] (by simp only [List.length_nil]; omega)
    rw [List.append_nil] at hwalk
    obtain ⟨hrl, hbl, hsnd, htop⟩ := remove_path hpplug
      (by rw [hplug]; exact ht.ranked) (by rw [hplug]; exact ht.balanced)
    rw [hplug] at htop
    have hB : topHeight (height le + 1) (path ++ ⟨.left, e.1, e.2, h, r⟩ :: stack) < 254 := by
      rw [htop]; simp only [avlMaxHeight] at hle; omega
    obtain ⟨hr, hbal, hent'⟩ := rebalance_sound hsnd hrl hbl (by omega) (by omega) hB
    have hheight := rebalance_height (d := 0) hsnd hrl hbl (by omega) (by omega) hB
      (Or.inl (by omega))
    have hleft : entries (.node lk lv lh ll lr) = before path ++ entries le ++ [e] := by
      rw [← hpplug, entries_plug, hafter]; simp
    have hroom : stack.length + 1 < avlMaxHeight := by omega
    rw [hleft] at hent hsub
    refine ⟨avlRebalance (path ++ ⟨.left, e.1, e.2, h, r⟩ :: stack) le,
      before stack ++ (before path ++ entries le ++ [e]), entries r ++ after stack,
      by simp [avlRemove, hs, hwalk, hroom], ⟨ordered_sublist ht.ordered ?_, hr, hbal, ?_⟩, hent, ?_⟩
    · rw [hent']
      simpa [before_append, after_append, before, after, hafter] using hsub
    · have : (path ++ ⟨.left, e.1, e.2, h, r⟩ :: stack).length ≤ avlMaxHeight := by
        simp only [List.length_append, List.length_cons]
        omega
      omega
    · rw [hent']
      simp [before_append, after_append, before, after, hafter]

theorem remove_absent {t : Tree κ ν} (ht : Avl t) {key : κ} (hnot : key ∉ keys t)
    (hfit : removeSlots key t ≤ avlMaxHeight) : avlRemove t key = some (t, none) := by
  obtain ⟨stack, s, hs, -, hplug, hcase⟩ :=
    removeSlot_spec key [] ht.ordered (by simpa using hfit)
  rcases hcase with ⟨rfl, -⟩ | ⟨v, h, l, r, rfl⟩
  · simp [avlRemove, hs]
  · refine absurd ?_ hnot
    rw [keys, ← hplug, entries_plug]
    simp

theorem remove_none {t : Tree κ ν} {key : κ} (hfull : avlMaxHeight < removeSlots key t) :
    avlRemove t key = none := by
  rcases removeSlot_full key [] (Nat.zero_le _) (by simpa using hfull) with
    hs | ⟨path, k, v, h, lk, lv, lh, ll, lr, r, hs, hroom, hbelow⟩
  · simp [avlRemove, hs]
  · simp only [belowSlots] at hbelow
    by_cases hlast : path.length + 1 < avlMaxHeight
    · have hwalk := leftLeast_none (path.length + 1) lk lv lh ll lr []
        (by simp only [List.length_nil]; omega) (by simp only [List.length_nil]; omega)
      simp [avlRemove, hs, hwalk]
    · simp only [avlRemove, hs, hlast, if_false]
      cases avlLeftLeast (path.length + 1) (.node lk lv lh ll lr) [] <;> rfl

end Odin32.AvlOps
