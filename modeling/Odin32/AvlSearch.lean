import Odin32.AvlStacks

/-! # What searches and walks find

The best fit is the least key above or the greatest below, the adjecent nodes stand
next to a key in the order of the tree, and both walks list the tree in order, as far
as the path stacks carry them. An enumeration takes its direction through a `char`. -/

set_option autoImplicit false

namespace Odin32.AvlSearch
open Odin32.RankedTree Odin32.Avl Odin32.AvlOps Odin32.AvlRun Odin32.AvlWalk
open Odin32.AvlStacks Odin32.AvlFibonacci

variable {κ ν : Type} [LinearOrder κ]

/-! ## Best fit -/

def Fits (fAbove : Bool) (key : κ) (e : κ × ν) : Prop := if fAbove then key ≤ e.1 else e.1 ≤ key

def Nearer (fAbove : Bool) (e e' : κ × ν) : Prop := if fAbove then e.1 ≤ e'.1 else e'.1 ≤ e.1

/-- The node with the nearest key on the side asked for, if there is any. -/
def IsBestFit (fAbove : Bool) (key : κ) (es : List (κ × ν)) : Option (κ × ν) → Prop
  | none => ∀ e ∈ es, ¬Fits fAbove key e
  | some e => e ∈ es ∧ Fits fAbove key e ∧ ∀ e' ∈ es, Fits fAbove key e' → Nearer fAbove e e'

/-- The node where the search last turned to the near side is the answer of a subtree
that has none. -/
theorem getBestFit_last (key : κ) (fAbove : Bool) (t : Tree κ ν) (last : Option (κ × ν)) :
    avlGetBestFit key fAbove t last = (avlGetBestFit key fAbove t none).or last := by
  induction t generalizing last with
  | nil => rfl
  | node k v h l r ihl ihr =>
    rw [avlGetBestFit, avlGetBestFit]
    split_ifs with he habove hlt hlt
    · rfl
    · rw [ihl (some (k, v)), Option.or_assoc]
      rfl
    · exact ihr last
    · rw [ihr (some (k, v)), Option.or_assoc]
      rfl
    · exact ihl last

section Turn

variable {fAbove : Bool} {key : κ} {es near far : List (κ × ν)} {e : κ × ν}
  {best : Option (κ × ν)}

theorem Nearer.trans {e₁ e₂ e₃ : κ × ν} (h₁ : Nearer fAbove e₁ e₂) (h₂ : Nearer fAbove e₂ e₃) :
    Nearer fAbove e₁ e₃ := by
  cases fAbove with
  | false => exact le_trans h₂ h₁
  | true => exact le_trans h₁ h₂

/-- A node that fits is the best one unless one on its near side fits. -/
theorem isBestFit_near (hmem : ∀ e', e' ∈ es ↔ e' ∈ near ∨ e' = e ∨ e' ∈ far)
    (hfit : Fits fAbove key e) (hnear : ∀ e' ∈ near, Nearer fAbove e' e)
    (hfar : ∀ e' ∈ far, Nearer fAbove e e') (hbest : IsBestFit fAbove key near best) :
    IsBestFit fAbove key es (best.or (some e)) := by
  have hfrom : ∀ e' ∈ es, e' ∈ near ∨ Nearer fAbove e e' := by
    intro e' he'
    rcases (hmem e').mp he' with he' | rfl | he'
    · exact .inl he'
    · exact .inr (by cases fAbove <;> exact le_refl e'.1)
    · exact .inr (hfar e' he')
  cases best with
  | none =>
    refine ⟨(hmem e).mpr (.inr (.inl rfl)), hfit, fun e' he' hfit' => ?_⟩
    exact (hfrom e' he').resolve_left fun he' => hbest e' he' hfit'
  | some b =>
    obtain ⟨hb, hfitb, hleast⟩ := hbest
    refine ⟨(hmem b).mpr (.inl hb), hfitb, fun e' he' hfit' => ?_⟩
    rcases hfrom e' he' with he' | he'
    · exact hleast e' he' hfit'
    · exact (hnear b hb).trans he'

/-- Where a node and all on its near side do not fit, the best one is on the far side. -/
theorem isBestFit_far (hmem : ∀ e', e' ∈ es ↔ e' ∈ near ∨ e' = e ∨ e' ∈ far)
    (hnot : ¬Fits fAbove key e) (hnear : ∀ e' ∈ near, ¬Fits fAbove key e')
    (hbest : IsBestFit fAbove key far best) : IsBestFit fAbove key es best := by
  have hfrom : ∀ e' ∈ es, Fits fAbove key e' → e' ∈ far := by
    intro e' he' hfit
    rcases (hmem e').mp he' with he' | rfl | he'
    · exact absurd hfit (hnear e' he')
    · exact absurd hfit hnot
    · exact he'
  cases best with
  | none => exact fun e' he' hfit => hbest e' (hfrom e' he' hfit) hfit
  | some b =>
    obtain ⟨hb, hfitb, hleast⟩ := hbest
    exact ⟨(hmem b).mpr (.inr (.inr hb)), hfitb,
      fun e' he' hfit => hleast e' (hfrom e' he' hfit) hfit⟩

end Turn

theorem getBestFit_spec (key : κ) (fAbove : Bool) {t : Tree κ ν} (ho : Ordered t) :
    IsBestFit fAbove key (entries t) (avlGetBestFit key fAbove t none) := by
  induction t with
  | nil => exact fun e he => absurd he List.not_mem_nil
  | node k v h l r ihl ihr =>
    obtain ⟨hol, hor, hlk, hkr⟩ := ordered_node.mp ho
    have hleft : ∀ e ∈ entries l, e.1 < k := fun e he => hlk _ (List.mem_map_of_mem he)
    have hright : ∀ e ∈ entries r, k < e.1 := fun e he => hkr _ (List.mem_map_of_mem he)
    have hmem : ∀ e, e ∈ entries (.node k v h l r) ↔ e ∈ entries l ∨ e = (k, v) ∨ e ∈ entries r :=
      fun e => by simp
    have hmem' : ∀ e, e ∈ entries (.node k v h l r) ↔ e ∈ entries r ∨ e = (k, v) ∨ e ∈ entries l :=
      fun e => by rw [hmem, ← or_assoc, or_comm, or_comm (a := e ∈ entries l)]
    rw [avlGetBestFit]
    by_cases he : k = key
    · subst he
      rw [if_pos rfl]
      refine ⟨by simp, by cases fAbove <;> exact le_refl k, fun e _ hfit => ?_⟩
      cases fAbove <;> exact hfit
    · rw [if_neg he]
      cases fAbove with
      | true =>
        rw [if_pos rfl]
        split_ifs with hlt
        · rw [getBestFit_last]
          exact isBestFit_near hmem (le_of_lt hlt) (fun e he => le_of_lt (hleft e he))
            (fun e he => le_of_lt (hright e he)) (ihl hol)
        · have hlow : k < key := lt_of_le_of_ne (not_lt.mp hlt) he
          exact isBestFit_far hmem (not_le.mpr hlow)
            (fun e he => not_le.mpr ((hleft e he).trans hlow)) (ihr hor)
      | false =>
        rw [if_neg Bool.false_ne_true]
        split_ifs with hlt
        · rw [getBestFit_last]
          exact isBestFit_near hmem' (le_of_lt hlt) (fun e he => le_of_lt (hright e he))
            (fun e he => le_of_lt (hleft e he)) (ihr hor)
        · have hhigh : key < k := lt_of_le_of_ne (not_lt.mp hlt) (Ne.symm he)
          exact isBestFit_far hmem' (not_le.mpr hhigh)
            (fun e he => not_le.mpr (hhigh.trans (hright e he))) (ihl hol)

/-! ## Adjecent nodes -/

omit [LinearOrder κ] in
theorem rightMost_eq (t : Tree κ ν) : rightMost t = (entries t).getLast? := by
  induction t using rightMost.induct with
  | case1 => rfl
  | case2 k v h l => simp [rightMost]
  | case3 k v h l rk rv rh rl rr ih =>
    have hne : entries (.node rk rv rh rl rr) ≠ [] := by simp
    rw [rightMost, ih, entries_node k, List.getLast?_append, List.getLast?_cons_of_ne_nil hne]
    cases hlast : (entries (.node rk rv rh rl rr)).getLast? with
    | none => exact absurd (List.getLast?_eq_none_iff.mp hlast) hne
    | some e => rfl

omit [LinearOrder κ] in
theorem leftMost_eq (t : Tree κ ν) : leftMost t = (entries t).head? := by
  induction t using leftMost.induct with
  | case1 => rfl
  | case2 k v h r => simp [leftMost]
  | case3 k v h lk lv lh ll lr r ih =>
    rw [leftMost, ih, entries_node, entries_node, List.head?_append]
    simp

/-- A key stands at one place of a tree. -/
theorem split_unique {t : Tree κ ν} (ho : Ordered t) {pre post pre' post' : List (κ × ν)}
    {key : κ} {val val' : ν} (h : entries t = pre ++ (key, val) :: post)
    (h' : entries t = pre' ++ (key, val') :: post') : pre = pre' ∧ val = val' ∧ post = post' := by
  have hpair : (pre ++ (key, val) :: post).Pairwise fun e e' => e.1 < e'.1 := by
    rw [← h]
    exact List.pairwise_map.mp ho
  obtain ⟨-, hpost, hpre⟩ := List.pairwise_append.mp hpair
  have hpre : (key, val') ∉ pre := fun hmem =>
    lt_irrefl key (hpre _ hmem _ List.mem_cons_self)
  have hpost : (key, val') ∉ post := fun hmem =>
    lt_irrefl key ((List.pairwise_cons.mp hpost).1 _ hmem)
  obtain ⟨hl, he, hr⟩ := (List.append_cons_inj_of_notMem hpre hpost).mp (h.symm.trans h')
  exact ⟨hl, congrArg Prod.snd he, hr⟩

/-- A search that fits the stack finds the node, and rewinding the nodes above it leads to its
neighbours. -/
theorem searchSlot_spec (key : κ) {t : Tree κ ν} (ho : Ordered t) (stack : List (κ × ν))
    (hfit : stack.length + searchSlots key t ≤ avlMaxHeight) {pre post : List (κ × ν)} {val : ν}
    (hent : entries t = pre ++ (key, val) :: post) :
    ∃ h l r above, avlSearchSlot key t stack = some (.node key val h l r, above ++ stack) ∧
      above.foldl (rewindNode key) (rightMost l, leftMost r) = (pre.getLast?, post.head?) := by
  induction t generalizing stack pre post with
  | nil => simp at hent
  | node k v h l r ihl ihr =>
    obtain ⟨hol, hor, hlk, hkr⟩ := ordered_node.mp ho
    have hleft : ∀ e ∈ entries l, e.1 < k := fun e he => hlk _ (List.mem_map_of_mem he)
    have hright : ∀ e ∈ entries r, k < e.1 := fun e he => hkr _ (List.mem_map_of_mem he)
    have hthere : (key, val) ∈ entries (.node k v h l r) := by simp [hent]
    rw [searchSlots] at hfit
    rw [avlSearchSlot]
    by_cases he : k = key
    · subst he
      obtain ⟨rfl, rfl, rfl⟩ := split_unique ho (entries_node k v h l r) hent
      rw [if_pos rfl]
      exact ⟨h, l, r, [], rfl, by rw [rightMost_eq, leftMost_eq]; rfl⟩
    · rw [if_neg he] at hfit ⊢
      rw [if_pos (show stack.length < avlMaxHeight by omega)]
      by_cases hlt : key < k
      · rw [if_pos hlt] at hfit ⊢
        have hin : (key, val) ∈ entries l := by
          rcases List.mem_append.mp hthere with hin | hin
          · exact hin
          · rcases List.mem_cons.mp hin with hin | hin
            · exact absurd (congrArg Prod.fst hin).symm he
            · exact absurd (hright _ hin) (not_lt.mpr hlt.le)
        obtain ⟨pre', post', hl⟩ := List.append_of_mem hin
        obtain ⟨rfl, -, rfl⟩ := split_unique ho (show entries (.node k v h l r) =
          pre' ++ (key, val) :: (post' ++ (k, v) :: entries r) by
            rw [entries_node, hl, List.append_assoc]; rfl) hent
        obtain ⟨h', l', r', above, hs, hfold⟩ := ihl hol ((k, v) :: stack)
          (by simp only [List.length_cons]; omega) hl
        refine ⟨h', l', r', above ++ [(k, v)], ?_, ?_⟩
        · rw [hs, List.append_assoc]
          rfl
        · -- the node is to the right of the key, and in front of it only those of `post'`
          rw [List.foldl_append, hfold]
          cases post' with
          | nil => simp [rewindNode, hlt, not_lt.mpr hlt.le]
          | cons e post' =>
            have hbelow := hleft e (by simp [hl])
            simp [rewindNode, hlt, not_lt.mpr hlt.le, not_lt.mpr hbelow.le]
      · rw [if_neg hlt] at hfit ⊢
        have hgt : k < key := lt_of_le_of_ne (not_lt.mp hlt) he
        have hin : (key, val) ∈ entries r := by
          rcases List.mem_append.mp hthere with hin | hin
          · exact absurd (hleft _ hin) hlt
          · rcases List.mem_cons.mp hin with hin | hin
            · exact absurd (congrArg Prod.fst hin).symm he
            · exact hin
        obtain ⟨pre', post', hr⟩ := List.append_of_mem hin
        obtain ⟨rfl, -, rfl⟩ := split_unique ho (show entries (.node k v h l r) =
          (entries l ++ (k, v) :: pre') ++ (key, val) :: post' by
            rw [entries_node, hr, List.append_assoc]; rfl) hent
        obtain ⟨h', l', r', above, hs, hfold⟩ := ihr hor ((k, v) :: stack)
          (by simp only [List.length_cons]; omega) hr
        refine ⟨h', l', r', above ++ [(k, v)], ?_, ?_⟩
        · rw [hs, List.append_assoc]
          rfl
        · rw [List.foldl_append, hfold]
          cases hlast : pre'.getLast? with
          | none =>
            obtain rfl := List.getLast?_eq_none_iff.mp hlast
            simp [rewindNode, hgt]
          | some e =>
            have habove := hright e (by simp [hr, List.mem_of_getLast? hlast])
            have hne : pre' ≠ [] := fun h => by simp [h] at hlast
            simp [rewindNode, hgt, not_lt.mpr hgt.le, not_lt.mpr habove.le, List.getLast?_append,
              List.getLast?_cons_of_ne_nil hne, hlast]

theorem searchSlot_full (key : κ) (t : Tree κ ν) (stack : List (κ × ν))
    (hheld : stack.length ≤ avlMaxHeight)
    (hfull : avlMaxHeight < stack.length + searchSlots key t) :
    avlSearchSlot key t stack = none := by
  induction t generalizing stack with
  | nil =>
    simp only [searchSlots] at hfull
    omega
  | node k v h l r ihl ihr =>
    rw [searchSlots] at hfull
    rw [avlSearchSlot]
    by_cases he : k = key
    · rw [if_pos he] at hfull
      omega
    · rw [if_neg he] at hfull ⊢
      by_cases hroom : stack.length < avlMaxHeight
      · rw [if_pos hroom]
        split_ifs at hfull ⊢
        · exact ihl _ hroom (by simp only [List.length_cons]; omega)
        · exact ihr _ hroom (by simp only [List.length_cons]; omega)
      · rw [if_neg hroom]

/-! ## All searches and walks of a tree -/

/-- Searches for a key and walks in a direction find what the order of the tree says. -/
structure Walks (t : Tree κ ν) (key : κ) (fFromLeft : ℤ) : Prop where
  ascending : (entries t).Pairwise fun e e' => e.1 < e'.1
  bestFit : ∀ fAbove : Bool, IsBestFit fAbove key (entries t) (avlGetBestFit key fAbove t none)
  adjecent : ∀ val pre post, entries t = pre ++ (key, val) :: post →
    avlGetWithAdjecentNodes t key = some (some (key, val), pre.getLast?, post.head?)
  /-- The callback sees the nodes in order, up to the first one it stops at. -/
  doWithAll : ∀ {σ : Type} (pfnCallBack : κ × ν → σ → ℕ × σ) (pvParam : σ),
    avlDoWithAll t fFromLeft pfnCallBack pvParam =
      some (visitAll pfnCallBack (listing (fFromLeft ≠ 0) t) pvParam)
  /-- The calls return the nodes in order, and then none. -/
  enumTree : ∀ n, enumTree t fFromLeft n =
    some ((List.range (n + 1)).map fun i => (listing (fFromLeft ≠ 0) t)[i]?)

/-- The direction that `AVLBeginEnumTree` keeps is the one it was given, or is the same. -/
def SameDirection (t : Tree κ ν) (fFromLeft : ℤ) : Prop :=
  fFromLeft = 0 ∨ fFromLeft % 256 ≠ 0 ∨ (entries t).length ≤ 1

theorem getWithAdjecentNodes_spec {key : κ} {t : Tree κ ν} (ho : Ordered t)
    (hfit : searchSlots key t ≤ avlMaxHeight) {pre post : List (κ × ν)} {val : ν}
    (hent : entries t = pre ++ (key, val) :: post) :
    avlGetWithAdjecentNodes t key = some (some (key, val), pre.getLast?, post.head?) := by
  obtain ⟨h, l, r, above, hs, hfold⟩ := searchSlot_spec key ho [] (by simpa using hfit) hent
  rw [avlGetWithAdjecentNodes, hs]
  simp only [List.append_nil, hfold]

omit [LinearOrder κ] in
theorem listing_of_length {t : Tree κ ν} (h : (entries t).length ≤ 1) (fFromLeft : Bool) :
    listing fFromLeft t = entries t := by
  cases fFromLeft with
  | true => rfl
  | false =>
    show (entries t).reverse = entries t
    cases hent : entries t with
    | nil => rfl
    | cons e es =>
      cases es with
      | nil => rfl
      | cons e' es => simp [hent] at h

omit [LinearOrder κ] in
/-- A first call returns the first node in the direction that was kept. -/
theorem enumTree_zero {t : Tree κ ν} {fFromLeft : ℤ} {nodes : List (Option (κ × ν))}
    (h : enumTree t fFromLeft 0 = some nodes) :
    nodes = [(listing (fFromLeft % 256 ≠ 0) t).head?] := by
  have hcall : AvlWalk.enumTree t fFromLeft 0 =
      (avlGetNextNodeLoop (fFromLeft % 256 ≠ 0) (pushNode t [])).map fun p => [p.2] := by
    unfold AvlWalk.enumTree avlBeginEnumTree avlGetNextNode
    cases avlGetNextNodeLoop (fFromLeft % 256 ≠ 0) (pushNode t []) <;> rfl
  rw [hcall] at h
  rcases getNextNodeLoop_spec (fFromLeft % 256 ≠ 0) (pushNode_held t) with
    ⟨hnone, -⟩ | ⟨stack', hs, -⟩
  · rw [hnone] at h
    cases h
  · rw [hs, pending_tree] at h
    exact (Option.some.inj h).symm

theorem sameDirection_of_enumTree {t : Tree κ ν} {fFromLeft : ℤ} (ho : Ordered t)
    (h : enumTree t fFromLeft 0 = some [(listing (fFromLeft ≠ 0) t)[0]?]) :
    SameDirection t fFromLeft := by
  by_contra hother
  obtain ⟨hleft, hcast, hlong⟩ : ¬fFromLeft = 0 ∧ ¬fFromLeft % 256 ≠ 0 ∧
      ¬(entries t).length ≤ 1 := by
    simpa only [SameDirection, not_or] using hother
  have hfirst := List.singleton_inj.mp (enumTree_zero h)
  rw [decide_eq_true hleft, decide_eq_false hcast] at hfirst
  -- the first node of the tree would be its last
  have hpair : (entries t).Pairwise fun e e' => e.1 < e'.1 := List.pairwise_map.mp ho
  cases hent : entries t with
  | nil => simp [hent] at hlong
  | cons e es =>
    cases es with
    | nil => simp [hent] at hlong
    | cons e' es =>
      have hlast : (entries t).reverse.head? = (entries t)[0]? := hfirst.symm
      rw [hent, List.head?_reverse, List.getLast?_cons_cons] at hlast
      rw [hent] at hpair
      exact lt_irrefl e.1 ((List.pairwise_cons.mp hpair).1 e (List.mem_of_getLast? hlast))

theorem walks_iff {t : Tree κ ν} (ho : Ordered t) (key : κ) (fFromLeft : ℤ) :
    Walks t key fFromLeft ↔ (key ∈ keys t → searchSlots key t ≤ avlMaxHeight) ∧
      walkDepth (fFromLeft ≠ 0) t ≤ avlMaxHeight ∧ SameDirection t fFromLeft := by
  constructor
  · intro hw
    refine ⟨fun hmem => ?_, ?_, sameDirection_of_enumTree ho (hw.enumTree 0)⟩
    · by_contra hfull
      obtain ⟨⟨k, val⟩, he, rfl⟩ := List.mem_map.mp hmem
      obtain ⟨pre, post, hent⟩ := List.append_of_mem he
      have hfound := hw.adjecent val pre post hent
      rw [avlGetWithAdjecentNodes,
        searchSlot_full k t [] (Nat.zero_le _) (by simpa using hfull)] at hfound
      cases hfound
    · by_contra hfull
      have hdone := hw.doWithAll (fun _ _ => (0, ())) ()
      rw [doWithAll_overrun (fun _ _ => rfl) () (not_le.mp hfull)] at hdone
      cases hdone
  · rintro ⟨hsearch, hwalk, hsame⟩
    refine ⟨List.pairwise_map.mp ho, fun fAbove => getBestFit_spec key fAbove ho, ?_,
      fun pfnCallBack pvParam => doWithAll_eq pfnCallBack pvParam hwalk, fun n => ?_⟩
    · intro val pre post hent
      exact getWithAdjecentNodes_spec ho (hsearch (by simp [keys, hent])) hent
    · rcases hsame with rfl | hcast | hshort
      · exact enumTree_eq n hwalk
      · have hleft : fFromLeft ≠ 0 := fun h => hcast (by simp [h])
        have hdir : decide (fFromLeft ≠ 0) = decide (fFromLeft % 256 ≠ 0) := by
          rw [decide_eq_true hleft, decide_eq_true hcast]
        rw [hdir] at hwalk ⊢
        exact enumTree_eq n hwalk
      · have hlow : walkDepth (fFromLeft % 256 ≠ 0) t ≤ avlMaxHeight := by
          cases t with
          | nil => exact Nat.zero_le _
          | node k v h l r =>
            obtain rfl : l = .nil := by
              cases l with
              | nil => rfl
              | node => simp at hshort; omega
            obtain rfl : r = .nil := by
              cases r with
              | nil => rfl
              | node => simp at hshort
            cases decide (fFromLeft % 256 ≠ 0) <;> exact show 1 ≤ avlMaxHeight by decide
        rw [enumTree_eq n hlow, listing_of_length hshort, listing_of_length hshort]

/-- On a tree that a run has left, searches and walks keep to the order of the tree exactly when
the stack of each is not longer than its array and the direction is not lost. -/
theorem run_walks_iff (ops : List (Op κ ν)) (t : Tree κ ν) (as : List (Answer κ ν)) (key : κ)
    (fFromLeft : ℤ) (hf : Fresh ops fun _ => none) (hrun : run ops .nil = some (t, as)) :
    Walks t key fFromLeft ↔ (key ∈ keys t → searchSlots key t ≤ avlMaxHeight) ∧
      walkDepth (fFromLeft ≠ 0) t ≤ avlMaxHeight ∧ SameDirection t fFromLeft :=
  walks_iff (run_avl hf hrun).ordered key fFromLeft

theorem inserted_walks : Walks
    (.node 2 () 2 (.node 1 () 1 .nil .nil) (.node 3 () 1 .nil .nil) : Tree ℕ Unit) 3 1 :=
  (run_walks_iff [.insert 1 (), .insert 2 (), .insert 3 ()] _
    [.inserted true, .inserted true, .inserted true] 3 1
    (by simp [Fresh, tableStep, Function.update]) (by decide)).mpr
    ⟨by decide, by decide, .inr (.inl (by decide))⟩

/-- The tree of 17710 nodes that insertions build is too high for a walk from the left. -/
theorem fibonacciTree_not_walks :
    ¬ ∀ (ops : List (Op ℕ Unit)) (t : Tree ℕ Unit) (as : List (Answer ℕ Unit)) (key : ℕ)
      (fFromLeft : ℤ), Fresh ops (fun _ => none) → (∀ op ∈ ops, op.key < 2 ^ 32) →
        run ops .nil = some (t, as) → Walks t key fFromLeft := by
  intro hall
  obtain ⟨ops, as, hfresh, hsmall, hrun, -⟩ := exists_fibonacci_run
  have hdone := (hall ops _ as 0 1 hfresh hsmall hrun).doWithAll (fun _ _ => (0, ())) ()
  rw [doWithAll_overrun (fun _ _ => rfl) () fibTree_deep] at hdone
  cases hdone

end Odin32.AvlSearch
