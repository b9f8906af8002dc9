import Odin32.AvlRun

/-! # Searching and walking an AVL tree

`AVLGetWithAdjecentNodes`, `AVLDoWithAll`, `AVLBeginEnumTree` and
`AVLGetNextNode`. A walk keeps the nodes whose turn is still to come on a stack of
`AVL_MAX_HEIGHT` entries with a flag each, pushes without an assertion, and has no
result when it would push beyond the array. The two mirrored loops of a walk are
one, for the child on the near side and the child on the far side. -/

set_option autoImplicit false

namespace Odin32.AvlWalk
open Odin32.RankedTree Odin32.Avl

variable {κ ν σ : Type}

def isNull : Tree κ ν → Bool
  | .nil => true
  | .node .. => false

/-! ## Adjecent nodes -/

def rightMost : Tree κ ν → Option (κ × ν)
  | .nil => none
  | .node k v _ _ .nil => some (k, v)
  | .node _ _ _ _ (.node rk rv rh rl rr) => rightMost (.node rk rv rh rl rr)

def leftMost : Tree κ ν → Option (κ × ν)
  | .nil => none
  | .node k v _ .nil _ => some (k, v)
  | .node _ _ _ (.node lk lv lh ll lr) _ => leftMost (.node lk lv lh ll lr)

section Adjecent

variable [LinearOrder κ]

/-- The search of `AVLGetWithAdjecentNodes`: the node found, or the empty tree, and
the nodes above it. -/
def avlSearchSlot (key : κ) : Tree κ ν → List (κ × ν) → Option (Tree κ ν × List (κ × ν))
  | .nil, stack => some (.nil, stack)
  | .node k v h l r, stack =>
    if k = key then some (.node k v h l r, stack)
    else if stack.length < avlMaxHeight then
      if key < k then avlSearchSlot key l ((k, v) :: stack)
      else avlSearchSlot key r ((k, v) :: stack)
    else none

def rewindNode (key : κ) (adjecent : Option (κ × ν) × Option (κ × ν)) (node : κ × ν) :
    Option (κ × ν) × Option (κ × ν) :=
  if node.1 < key ∧ adjecent.1.all fun e => decide (e.1 < node.1) then (some node, adjecent.2)
  else if key < node.1 ∧ adjecent.2.all fun e => decide (node.1 < e.1) then
    (adjecent.1, some node)
  else adjecent

def avlGetWithAdjecentNodes (tree : Tree κ ν) (key : κ) :
    Option (Option (κ × ν) × Option (κ × ν) × Option (κ × ν)) :=
  match avlSearchSlot key tree [] with
  | none => none
  | some (.nil, _) => some (none, none, none)
  | some (.node k v _ l r, stack) =>
    some (some (k, v), stack.foldl (rewindNode key) (rightMost l, leftMost r))

/-- How many nodes lie above the node with the key, or above the empty place the
search for it ends at. -/
def searchSlots (key : κ) : Tree κ ν → ℕ
  | .nil => 0
  | .node k _ _ l r =>
    if k = key then 0
    else (if key < k then searchSlots key l else searchSlots key r) + 1

theorem searchSlot_isSome (key : κ) (t : Tree κ ν) (stack : List (κ × ν))
    (hfit : stack.length + searchSlots key t ≤ avlMaxHeight) :
    (avlSearchSlot key t stack).isSome := by
  induction t generalizing stack with
  | nil => rfl
  | node k v h l r ihl ihr =>
    by_cases he : k = key
    · simp [avlSearchSlot, he]
    · simp only [searchSlots, he, if_false] at hfit
      have hroom : stack.length < avlMaxHeight := by omega
      by_cases hk : key < k
      · simp only [hk, if_true] at hfit
        simpa [avlSearchSlot, he, hroom, hk] using
          ihl ((k, v) :: stack) (by simp only [List.length_cons]; omega)
      · simp only [hk, if_false] at hfit
        simpa [avlSearchSlot, he, hroom, hk] using
          ihr ((k, v) :: stack) (by simp only [List.length_cons]; omega)

theorem getWithAdjecentNodes_ne_none {key : κ} {t : Tree κ ν}
    (hfit : searchSlots key t ≤ avlMaxHeight) : avlGetWithAdjecentNodes t key ≠ none := by
  have hs := searchSlot_isSome key t [] (by simpa using hfit)
  obtain ⟨⟨s, stack⟩, hs⟩ := Option.isSome_iff_exists.mp hs
  cases s <;> simp [avlGetWithAdjecentNodes, hs]

end Adjecent

/-! ## Walks -/

/-- A node on the stack of a walk with its flag. -/
structure Visit (κ ν : Type) where
  key : κ
  val : ν
  left : Tree κ ν
  right : Tree κ ν
  flag : ℕ
deriving DecidableEq, Repr

namespace Visit

def near (fFromLeft : Bool) (e : Visit κ ν) : Tree κ ν := if fFromLeft then e.left else e.right

def far (fFromLeft : Bool) (e : Visit κ ν) : Tree κ ν := if fFromLeft then e.right else e.left

def node (e : Visit κ ν) : κ × ν := (e.key, e.val)

end Visit

def pushNode : Tree κ ν → List (Visit κ ν) → List (Visit κ ν)
  | .nil, stack => stack
  | .node k v _ l r, stack => ⟨k, v, l, r, 0⟩ :: stack

/-- The rounds a walk has left at most. -/
def work (fFromLeft : Bool) : List (Visit κ ν) → ℕ
  | [] => 0
  | e :: stack =>
    (if e.flag = 0 then 2 * ((entries e.left).length + (entries e.right).length + 1)
      else 2 * (entries (e.far fFromLeft)).length + 1) + work fFromLeft stack

theorem work_pushNode (fFromLeft : Bool) (t : Tree κ ν) (stack : List (Visit κ ν)) :
    work fFromLeft (pushNode t stack) = 2 * (entries t).length + work fFromLeft stack := by
  cases t with
  | nil => simp [pushNode]
  | node k v h l r =>
    simp only [pushNode, work, if_true, entries_node, List.length_append, List.length_cons]
    omega

theorem work_near (fFromLeft : Bool) {e : Visit κ ν} (stack : List (Visit κ ν))
    (h : e.flag = 0) :
    work fFromLeft (pushNode (e.near fFromLeft) ({ e with flag := 1 } :: stack)) <
      work fFromLeft (e :: stack) := by
  cases fFromLeft <;>
    simp only [work_pushNode, work, h, Visit.near, Visit.far, if_true, one_ne_zero, if_false,
      Bool.false_eq_true] <;> omega

theorem work_far (fFromLeft : Bool) (e : Visit κ ν) (stack : List (Visit κ ν)) :
    work fFromLeft (pushNode (e.far fFromLeft) stack) < work fFromLeft (e :: stack) := by
  cases fFromLeft <;>
    simp only [work_pushNode, work, Visit.far, if_true, if_false, Bool.false_eq_true] <;>
    split_ifs <;> omega

def avlDoWithAllLoop (fFromLeft : Bool) (pfnCallBack : κ × ν → σ → ℕ × σ) :
    List (Visit κ ν) → σ → Option (ℕ × σ)
  | [], pvParam => some (0, pvParam)
  | e :: stack, pvParam =>
    if e.flag = 0 ∧ ¬ isNull (e.near fFromLeft) then
      if stack.length + 1 < avlMaxHeight then
        avlDoWithAllLoop fFromLeft pfnCallBack
          (pushNode (e.near fFromLeft) ({ e with flag := 1 } :: stack)) pvParam
      else none
    else
      let p := pfnCallBack e.node pvParam
      if p.1 ≠ 0 then some p
      else avlDoWithAllLoop fFromLeft pfnCallBack (pushNode (e.far fFromLeft) stack) p.2
termination_by stack => work fFromLeft stack
decreasing_by
  · exact work_near fFromLeft stack (And.left ‹_ ∧ _›)
  · exact work_far fFromLeft e stack

def avlDoWithAll (tree : Tree κ ν) (fFromLeft : ℤ) (pfnCallBack : κ × ν → σ → ℕ × σ)
    (pvParam : σ) : Option (ℕ × σ) :=
  avlDoWithAllLoop (fFromLeft ≠ 0) pfnCallBack (pushNode tree []) pvParam

/-- `AVLENUMDATA`: the direction as its `char` keeps it, and the stack. -/
structure AvlEnumData (κ ν : Type) where
  fFromLeft : Bool
  aEntries : List (Visit κ ν)
deriving DecidableEq, Repr

def avlGetNextNodeLoop (fFromLeft : Bool) :
    List (Visit κ ν) → Option (List (Visit κ ν) × Option (κ × ν))
  | [] => some ([], none)
  | e :: stack =>
    if e.flag = 0 ∧ ¬ isNull (e.near fFromLeft) then
      if stack.length + 1 < avlMaxHeight then
        avlGetNextNodeLoop fFromLeft
          (pushNode (e.near fFromLeft) ({ e with flag := 1 } :: stack))
      else none
    else if e.flag ≤ 1 then some ({ e with flag := 2 } :: stack, some e.node)
    else avlGetNextNodeLoop fFromLeft (pushNode (e.far fFromLeft) stack)
termination_by stack => work fFromLeft stack
decreasing_by
  · exact work_near fFromLeft stack (And.left ‹_ ∧ _›)
  · exact work_far fFromLeft e stack

def avlGetNextNode (pEnumData : AvlEnumData κ ν) :
    Option (AvlEnumData κ ν × Option (κ × ν)) :=
  (avlGetNextNodeLoop pEnumData.fFromLeft pEnumData.aEntries).map fun p =>
    ({ pEnumData with aEntries := p.1 }, p.2)

def avlBeginEnumTree (tree : Tree κ ν) (fFromLeft : ℤ) :
    Option (AvlEnumData κ ν × Option (κ × ν)) :=
  -- the cast to `char` drops all but the low byte
  avlGetNextNode ⟨fFromLeft % 256 ≠ 0, pushNode tree []⟩

/-- The answers to further calls of `AVLGetNextNode`. -/
def nextNodes : ℕ → AvlEnumData κ ν → Option (List (Option (κ × ν)))
  | 0, _ => some []
  | n + 1, pEnumData => do
    let (pEnumData', node) ← avlGetNextNode pEnumData
    let nodes ← nextNodes n pEnumData'
    some (node :: nodes)

/-- An enumeration of `n` calls after the first. -/
def enumTree (tree : Tree κ ν) (fFromLeft : ℤ) (n : ℕ) : Option (List (Option (κ × ν))) := do
  let (pEnumData, node) ← avlBeginEnumTree tree fFromLeft
  let nodes ← nextNodes n pEnumData
  some (node :: nodes)

/-! ## What a walk visits and holds -/

def listing (fFromLeft : Bool) (t : Tree κ ν) : List (κ × ν) :=
  if fFromLeft then entries t else (entries t).reverse

/-- The most entries a walk over a whole tree holds: only the nodes it still has to
come back to stay below the current one. -/
def walkDepth (fFromLeft : Bool) : Tree κ ν → ℕ
  | .nil => 0
  | .node _ _ _ l r =>
    if fFromLeft then max (walkDepth fFromLeft l + 1) (walkDepth fFromLeft r)
    else max (walkDepth fFromLeft r + 1) (walkDepth fFromLeft l)

/-- The nodes a stack still has to visit. -/
def pending (fFromLeft : Bool) : List (Visit κ ν) → List (κ × ν)
  | [] => []
  | e :: stack =>
    (if e.flag = 0 then listing fFromLeft (e.near fFromLeft) else []) ++
      (if e.flag ≤ 1 then [e.node] else []) ++ listing fFromLeft (e.far fFromLeft) ++
      pending fFromLeft stack

/-- What is left to visit fits the array. -/
def Room (fFromLeft : Bool) : List (Visit κ ν) → Prop
  | [] => True
  | e :: stack =>
    stack.length + (if e.flag = 0 then
      max (walkDepth fFromLeft (e.near fFromLeft) + 1) (walkDepth fFromLeft (e.far fFromLeft))
      else walkDepth fFromLeft (e.far fFromLeft)) ≤ avlMaxHeight ∧ Room fFromLeft stack

def visitAll (pfnCallBack : κ × ν → σ → ℕ × σ) : List (κ × ν) → σ → ℕ × σ
  | [], pvParam => (0, pvParam)
  | e :: es, pvParam =>
    let p := pfnCallBack e pvParam
    if p.1 ≠ 0 then p else visitAll pfnCallBack es p.2

theorem pending_pushNode (fFromLeft : Bool) (t : Tree κ ν) (stack : List (Visit κ ν)) :
    pending fFromLeft (pushNode t stack) = listing fFromLeft t ++ pending fFromLeft stack := by
  cases t with
  | nil => simp [pushNode, listing]
  | node k v h l r =>
    cases fFromLeft <;> simp [pushNode, pending, listing, Visit.near, Visit.far, Visit.node]

theorem room_pushNode {fFromLeft : Bool} {t : Tree κ ν} {stack : List (Visit κ ν)}
    (hheld : stack.length ≤ avlMaxHeight) :
    Room fFromLeft (pushNode t stack) ↔
      stack.length + walkDepth fFromLeft t ≤ avlMaxHeight ∧ Room fFromLeft stack := by
  cases t with
  | nil => simp [pushNode, walkDepth, hheld]
  | node k v h l r =>
    cases fFromLeft <;> simp [pushNode, Room, walkDepth, Visit.near, Visit.far]

theorem walkDepth_of_isNull (fFromLeft : Bool) {t : Tree κ ν} (h : isNull t = true) :
    walkDepth fFromLeft t = 0 ∧ listing fFromLeft t = [] := by
  cases t with
  | nil => cases fFromLeft <;> simp [walkDepth, listing]
  | node k v n l r => simp [isNull] at h

theorem walkDepth_pos (fFromLeft : Bool) {t : Tree κ ν} (h : ¬ isNull t = true) :
    0 < walkDepth fFromLeft t := by
  cases t with
  | nil => simp [isNull] at h
  | node k v n l r => cases fFromLeft <;> simp [walkDepth]

theorem pushNode_length_le (t : Tree κ ν) (stack : List (Visit κ ν)) :
    (pushNode t stack).length ≤ stack.length + 1 := by
  cases t <;> simp [pushNode]

/-- Pushing the child on the near side keeps what is pending and the room for it. -/
theorem near_spec (fFromLeft : Bool) {e : Visit κ ν} {stack : List (Visit κ ν)}
    (h : e.flag = 0) (hheld : stack.length + 1 ≤ avlMaxHeight) :
    pending fFromLeft (pushNode (e.near fFromLeft) ({ e with flag := 1 } :: stack)) =
        pending fFromLeft (e :: stack) ∧
      (Room fFromLeft (pushNode (e.near fFromLeft) ({ e with flag := 1 } :: stack)) ↔
        Room fFromLeft (e :: stack)) := by
  constructor
  · cases fFromLeft <;> simp [pending_pushNode, pending, h, Visit.near, Visit.far, Visit.node]
  · rw [room_pushNode (by simpa using hheld)]
    have hfar : ({ e with flag := 1 } : Visit κ ν).far fFromLeft = e.far fFromLeft := by
      cases fFromLeft <;> rfl
    simp only [Room, h, if_true, one_ne_zero, if_false, hfar, List.length_cons]
    constructor
    · rintro ⟨h1, h2, h3⟩
      exact ⟨by omega, h3⟩
    · rintro ⟨h1, h2⟩
      exact ⟨by omega, by omega, h2⟩

/-- Leaving a node whose near side is done keeps the room for what is pending. -/
theorem far_spec {fFromLeft : Bool} {e : Visit κ ν} {stack : List (Visit κ ν)}
    (h : ¬ (e.flag = 0 ∧ ¬ isNull (e.near fFromLeft)))
    (hheld : stack.length + 1 ≤ avlMaxHeight) :
    pending fFromLeft (e :: stack) =
        (if e.flag ≤ 1 then [e.node] else []) ++
          pending fFromLeft (pushNode (e.far fFromLeft) stack) ∧
      (Room fFromLeft (pushNode (e.far fFromLeft) stack) ↔ Room fFromLeft (e :: stack)) := by
  rw [room_pushNode (by omega), pending_pushNode]
  by_cases hflag : e.flag = 0
  · have hnull : isNull (e.near fFromLeft) = true := by
      by_contra hn
      exact h ⟨hflag, hn⟩
    obtain ⟨hdepth, hlist⟩ := walkDepth_of_isNull fFromLeft hnull
    refine ⟨by simp [pending, hflag, hlist], ?_⟩
    simp only [Room, hflag, if_true, hdepth]
    constructor
    · rintro ⟨h1, h2⟩
      exact ⟨by omega, h2⟩
    · rintro ⟨h1, h2⟩
      exact ⟨by omega, h2⟩
  · simp [pending, Room, hflag]

/-! ## The loops -/

theorem flag_pushNode {t : Tree κ ν} {stack : List (Visit κ ν)} {n : ℕ}
    (h : ∀ e ∈ stack, e.flag ≤ n) : ∀ e ∈ pushNode t stack, e.flag ≤ n := by
  cases t with
  | nil => exact h
  | node k v m l r => simpa [pushNode] using h

theorem doWithAllLoop_room {fFromLeft : Bool} {pfnCallBack : κ × ν → σ → ℕ × σ}
    {stack : List (Visit κ ν)} {pvParam : σ} (hheld : stack.length ≤ avlMaxHeight)
    (hflag : ∀ e ∈ stack, e.flag ≤ 1) (hroom : Room fFromLeft stack) :
    avlDoWithAllLoop fFromLeft pfnCallBack stack pvParam =
      some (visitAll pfnCallBack (pending fFromLeft stack) pvParam) := by
  induction stack, pvParam using avlDoWithAllLoop.induct fFromLeft pfnCallBack with
  | case1 pvParam => simp [avlDoWithAllLoop, pending, visitAll]
  | case2 e stack pvParam hnear hlt ih =>
    obtain ⟨hpend, hiff⟩ := near_spec fFromLeft hnear.1 (le_of_lt hlt)
    rw [avlDoWithAllLoop, if_pos hnear, if_pos hlt, ← hpend]
    refine ih ?_ ?_ (hiff.mpr hroom)
    · exact le_trans (pushNode_length_le _ _) hlt
    · refine flag_pushNode fun e' he' => ?_
      rcases List.mem_cons.mp he' with rfl | he'
      · exact le_refl 1
      · exact hflag e' (List.mem_cons_of_mem _ he')
  | case3 e stack pvParam hnear hfull =>
    -- the child would be stored beyond the array
    have hpos := walkDepth_pos fFromLeft hnear.2
    simp only [Room, hnear.1, if_true] at hroom
    omega
  | case4 e stack pvParam hnear p hstop =>
    obtain ⟨hpend, -⟩ := far_spec hnear (by simpa using hheld)
    rw [avlDoWithAllLoop, if_neg hnear, if_pos hstop, hpend,
      if_pos (hflag e List.mem_cons_self), List.singleton_append, visitAll, if_pos hstop]
  | case5 e stack pvParam hnear p hgo ih =>
    obtain ⟨hpend, hiff⟩ := far_spec hnear (by simpa using hheld)
    rw [avlDoWithAllLoop, if_neg hnear, if_neg hgo, hpend,
      if_pos (hflag e List.mem_cons_self), List.singleton_append, visitAll, if_neg hgo]
    refine ih ?_ ?_ (hiff.mpr hroom)
    · exact le_trans (pushNode_length_le _ _) hheld
    · exact flag_pushNode fun e' he' => hflag e' (List.mem_cons_of_mem _ he')

/-- A callback that never stops the walk lets it run into the end of the array. -/
theorem doWithAllLoop_full {fFromLeft : Bool} {pfnCallBack : κ × ν → σ → ℕ × σ}
    (hgo : ∀ e pvParam, (pfnCallBack e pvParam).1 = 0) {stack : List (Visit κ ν)}
    {pvParam : σ} (hheld : stack.length ≤ avlMaxHeight) (hroom : ¬ Room fFromLeft stack) :
    avlDoWithAllLoop fFromLeft pfnCallBack stack pvParam = none := by
  induction stack, pvParam using avlDoWithAllLoop.induct fFromLeft pfnCallBack with
  | case1 pvParam => exact absurd trivial hroom
  | case2 e stack pvParam hnear hlt ih =>
    obtain ⟨-, hiff⟩ := near_spec fFromLeft hnear.1 (le_of_lt hlt)
    rw [avlDoWithAllLoop, if_pos hnear, if_pos hlt]
    exact ih (le_trans (pushNode_length_le _ _) hlt) (fun h => hroom (hiff.mp h))
  | case3 e stack pvParam hnear hfull => rw [avlDoWithAllLoop, if_pos hnear, if_neg hfull]
  | case4 e stack pvParam hnear p hstop => exact absurd (hgo _ _) hstop
  | case5 e stack pvParam hnear p hgo ih =>
    obtain ⟨-, hiff⟩ := far_spec hnear (by simpa using hheld)
    rw [avlDoWithAllLoop, if_neg hnear, if_neg hgo]
    exact ih (le_trans (pushNode_length_le _ _) hheld) (fun h => hroom (hiff.mp h))

/-- One call of `AVLGetNextNode`: with room it returns the next pending node and
leaves the others, and it only overruns the array where there is no room. -/
theorem getNextNodeLoop_spec (fFromLeft : Bool) {stack : List (Visit κ ν)}
    (hheld : stack.length ≤ avlMaxHeight) :
    (avlGetNextNodeLoop fFromLeft stack = none ∧ ¬ Room fFromLeft stack) ∨
      ∃ stack', avlGetNextNodeLoop fFromLeft stack =
          some (stack', (pending fFromLeft stack).head?) ∧
        pending fFromLeft stack' = (pending fFromLeft stack).tail ∧
        stack'.length ≤ avlMaxHeight ∧ (Room fFromLeft stack' ↔ Room fFromLeft stack) := by
  induction stack using avlGetNextNodeLoop.induct fFromLeft with
  | case1 => exact Or.inr ⟨[], by simp [avlGetNextNodeLoop, pending], rfl, by simp, Iff.rfl⟩
  | case2 e stack hnear hlt ih =>
    obtain ⟨hpend, hiff⟩ := near_spec fFromLeft hnear.1 (le_of_lt hlt)
    rw [avlGetNextNodeLoop, if_pos hnear, if_pos hlt, ← hpend, ← hiff]
    exact ih (le_trans (pushNode_length_le _ _) hlt)
  | case3 e stack hnear hfull =>
    refine Or.inl ⟨by rw [avlGetNextNodeLoop, if_pos hnear, if_neg hfull], fun hroom => ?_⟩
    have hpos := walkDepth_pos fFromLeft hnear.2
    simp only [Room, hnear.1, if_true] at hroom
    omega
  | case4 e stack hnear hcenter =>
    obtain ⟨hpend, hiff⟩ := far_spec hnear (by simpa using hheld)
    have hfar : ({ e with flag := 2 } : Visit κ ν).far fFromLeft = e.far fFromLeft := by
      cases fFromLeft <;> rfl
    rw [pending_pushNode, if_pos hcenter] at hpend
    refine Or.inr ⟨{ e with flag := 2 } :: stack, ?_, ?_, hheld, ?_⟩
    · rw [avlGetNextNodeLoop, if_neg hnear, if_pos hcenter, hpend]
      rfl
    · rw [hpend]
      simp [pending, hfar]
    · rw [← hiff, room_pushNode (by simp only [List.length_cons] at hheld; omega)]
      simp [Room, hfar]
  | case5 e stack hnear hcenter ih =>
    obtain ⟨hpend, hiff⟩ := far_spec hnear (by simpa using hheld)
    rw [if_neg hcenter, List.nil_append] at hpend
    rw [avlGetNextNodeLoop, if_neg hnear, if_neg hcenter, hpend, ← hiff]
    exact ih (le_trans (pushNode_length_le _ _) hheld)

/-! ## Whole walks -/

theorem pushNode_held (t : Tree κ ν) : (pushNode t []).length ≤ avlMaxHeight :=
  le_trans (pushNode_length_le t []) (show 1 ≤ avlMaxHeight by decide)

theorem room_tree (fFromLeft : Bool) (t : Tree κ ν) :
    Room fFromLeft (pushNode t []) ↔ walkDepth fFromLeft t ≤ avlMaxHeight := by
  rw [room_pushNode (Nat.zero_le _)]
  simp [Room]

theorem pending_tree (fFromLeft : Bool) (t : Tree κ ν) :
    pending fFromLeft (pushNode t []) = listing fFromLeft t := by
  simp [pending_pushNode, pending]

/-- With room for the walk the callback sees the nodes in order until it stops. -/
theorem doWithAll_eq {t : Tree κ ν} {fFromLeft : ℤ} (pfnCallBack : κ × ν → σ → ℕ × σ)
    (pvParam : σ) (hfit : walkDepth (fFromLeft ≠ 0) t ≤ avlMaxHeight) :
    avlDoWithAll t fFromLeft pfnCallBack pvParam =
      some (visitAll pfnCallBack (listing (fFromLeft ≠ 0) t) pvParam) := by
  rw [avlDoWithAll, doWithAllLoop_room (pushNode_held t) ?_ ((room_tree _ t).mpr hfit),
    pending_tree]
  exact flag_pushNode (by simp)

theorem doWithAll_overrun {t : Tree κ ν} {fFromLeft : ℤ} {pfnCallBack : κ × ν → σ → ℕ × σ}
    (hgo : ∀ e pvParam, (pfnCallBack e pvParam).1 = 0) (pvParam : σ)
    (hfull : avlMaxHeight < walkDepth (fFromLeft ≠ 0) t) :
    avlDoWithAll t fFromLeft pfnCallBack pvParam = none :=
  doWithAllLoop_full hgo (pushNode_held t) fun h => not_le.mpr hfull ((room_tree _ t).mp h)

theorem nextNodes_eq (n : ℕ) (pEnumData : AvlEnumData κ ν)
    (hheld : pEnumData.aEntries.length ≤ avlMaxHeight)
    (hroom : Room pEnumData.fFromLeft pEnumData.aEntries) :
    nextNodes n pEnumData = some ((List.range n).map fun i =>
      (pending pEnumData.fFromLeft pEnumData.aEntries)[i]?) := by
  induction n generalizing pEnumData with
  | zero => rfl
  | succ n ih =>
    obtain ⟨d, stack⟩ := pEnumData
    rcases getNextNodeLoop_spec d hheld with
      ⟨-, hnone⟩ | ⟨stack', hs, hpend, hheld', hiff⟩
    · exact absurd hroom hnone
    · have hih := ih ⟨d, stack'⟩ hheld' (hiff.mpr hroom)
      simp only [hpend] at hih
      simp [nextNodes, avlGetNextNode, hs, hih, List.range_succ_eq_map, List.head?_eq_getElem?,
        Function.comp_def]

/-- With room for the walk the enumeration returns the nodes in order and then no
more. -/
theorem enumTree_eq {t : Tree κ ν} {fFromLeft : ℤ} (n : ℕ)
    (hfit : walkDepth (fFromLeft % 256 ≠ 0) t ≤ avlMaxHeight) :
    enumTree t fFromLeft n =
      some ((List.range (n + 1)).map fun i => (listing (fFromLeft % 256 ≠ 0) t)[i]?) := by
  have h := nextNodes_eq (n + 1) ⟨fFromLeft % 256 ≠ 0, pushNode t []⟩
    (pushNode_held t) ((room_tree _ t).mpr hfit)
  rw [pending_tree] at h
  exact h

end Odin32.AvlWalk
