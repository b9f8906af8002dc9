import Odin32.RankedTree

/-! # The AVL tree of Win32k

`AVLInsert`, `AVLRemove` and `AVLRebalance` over trees whose nodes carry a key,
the node they are embedded in and the height byte. The stack of pointer slots is
the list of frames from the current slot up to the root, its top first. An
operation has no result when a slot would be stored beyond the
`AVL_MAX_HEIGHT` entries of the stack: the assertion in front of the store traps,
and the one store without an assertion writes past the array. -/

set_option autoImplicit false

namespace Odin32.Avl
open Odin32.RankedTree

variable {κ ν : Type}

def avlMaxHeight : ℕ := 19

/-- The value an `unsigned char` keeps of a height. -/
def uch (n : ℕ) : ℕ := n % 256

def avlHeightOf (t : Tree κ ν) : ℕ := rankOf t

/-- One round of the loop of `AVLRebalance` on the node of the popped slot: the
new content of the slot, and whether the loop goes on. -/
def avlRebalanceNode : Tree κ ν → Tree κ ν × Bool
  | .nil => (.nil, false)
  | .node k v h l r =>
    let uchLeftHeight := avlHeightOf l
    let uchRightHeight := avlHeightOf r
    if uchRightHeight + 1 < uchLeftHeight then
      match l with
      | .nil => (.node k v h l r, false) -- no height to exceed: not taken
      | .node lk lv _ ll lr =>
        if avlHeightOf lr ≤ avlHeightOf ll then
          let uchHeight := uch (1 + avlHeightOf lr)
          (.node lk lv (uch (1 + uchHeight)) ll (.node k v uchHeight lr r), true)
        else
          match lr with
          | .nil => (.node k v h l r, false)
          | .node mk mv mh ml mr =>
            (.node mk mv uchLeftHeight (.node lk lv mh ll ml) (.node k v mh mr r), true)
    else if uchLeftHeight + 1 < uchRightHeight then
      match r with
      | .nil => (.node k v h l r, false)
      | .node rk rv _ rl rr =>
        if avlHeightOf rl ≤ avlHeightOf rr then
          let uchHeight := uch (1 + avlHeightOf rl)
          (.node rk rv (uch (1 + uchHeight)) (.node k v uchHeight l rl) rr, true)
        else
          match rl with
          | .nil => (.node k v h l r, false)
          | .node mk mv mh ml mr =>
            (.node mk mv uchRightHeight (.node k v mh l ml) (.node rk rv mh mr rr), true)
    else
      let uchHeight := uch (max uchLeftHeight uchRightHeight + 1)
      if uchHeight = h then (.node k v h l r, false) else (.node k v uchHeight l r, true)

def avlRebalance : List (Frame κ ν) → Tree κ ν → Tree κ ν
  | [], t => t
  | f :: stack, t =>
    match avlRebalanceNode (f.fill t) with
    | (t', true) => avlRebalance stack t'
    | (t', false) => plug stack t'

variable [LinearOrder κ]

/-- The descent of `AVLInsert`: the stack when the empty slot is reached. -/
def avlInsertSlot (key : κ) : Tree κ ν → List (Frame κ ν) → Option (List (Frame κ ν))
  | .nil, stack => some stack
  | .node k v h l r, stack =>
    if stack.length < avlMaxHeight then
      if key < k then avlInsertSlot key l (⟨.left, k, v, h, r⟩ :: stack)
      else avlInsertSlot key r (⟨.right, k, v, h, l⟩ :: stack)
    else none

def avlInsert (tree : Tree κ ν) (key : κ) (val : ν) : Option (Tree κ ν × Bool) :=
  match avlInsertSlot key tree [] with
  | none => none
  | some stack => some (avlRebalance stack (.node key val 1 .nil .nil), true)

/-- The search of `AVLRemove`: the node found, or the empty tree, and the stack
above it. -/
def avlRemoveSlot (key : κ) : Tree κ ν → List (Frame κ ν) → Option (Tree κ ν × List (Frame κ ν))
  | .nil, stack => some (.nil, stack)
  | .node k v h l r, stack =>
    if stack.length < avlMaxHeight then
      if k = key then some (.node k v h l r, stack)
      else if key < k then avlRemoveSlot key l (⟨.left, k, v, h, r⟩ :: stack)
      else avlRemoveSlot key r (⟨.right, k, v, h, l⟩ :: stack)
    else none

/-- The walk to the right-most node of the left subtree: that node's entry, its
left subtree and the slots pushed on the way, where `cEntries` are already on
the stack. -/
def avlLeftLeast (cEntries : ℕ) : Tree κ ν → List (Frame κ ν) →
    Option ((κ × ν) × Tree κ ν × List (Frame κ ν))
  | .nil, _ => none
  | .node k v _ l .nil, slots => some ((k, v), l, slots)
  | .node k v h l (.node rk rv rh rl rr), slots =>
    if cEntries + slots.length < avlMaxHeight then
      avlLeftLeast cEntries (.node rk rv rh rl rr) (⟨.right, k, v, h, l⟩ :: slots)
    else none

def avlRemove (tree : Tree κ ν) (key : κ) : Option (Tree κ ν × Option (κ × ν)) :=
  match avlRemoveSlot key tree [] with
  | none => none
  | some (.nil, _) => some (tree, none)
  | some (.node k v _ .nil r, stack) => some (avlRebalance stack r, some (k, v))
  | some (.node k v h (.node lk lv lh ll lr) r, stack) =>
    let iStackEntry := stack.length + 1
    match avlLeftLeast iStackEntry (.node lk lv lh ll lr) [] with
    | none => none
    | some (least, leastLeft, slots) =>
      -- `aEntries[iStackEntry]` is patched without an assertion
      if iStackEntry < avlMaxHeight then
        some (avlRebalance (slots ++ ⟨.left, least.1, least.2, h, r⟩ :: stack) leastLeft,
          some (k, v))
      else none

def avlGet (key : κ) : Tree κ ν → Option (κ × ν)
  | .nil => none
  | .node k v _ l r =>
    if k = key then some (k, v)
    else if key < k then avlGet key l
    else avlGet key r

def avlGetBestFit (key : κ) (fAbove : Bool) : Tree κ ν → Option (κ × ν) → Option (κ × ν)
  | .nil, last => last
  | .node k v _ l r, last =>
    if k = key then some (k, v)
    else if fAbove then
      if key < k then avlGetBestFit key fAbove l (some (k, v))
      else avlGetBestFit key fAbove r last
    else
      if k < key then avlGetBestFit key fAbove r (some (k, v))
      else avlGetBestFit key fAbove l last

/-! ## Slots a descent needs -/

/-- How many slots `AVLInsert` pushes on its way to the empty slot for a key. -/
def insertSlots (key : κ) : Tree κ ν → ℕ
  | .nil => 0
  | .node k _ _ l r => (if key < k then insertSlots key l else insertSlots key r) + 1

/-- How many slots the walk to the right-most node of a tree pushes. -/
def leastSlots : Tree κ ν → ℕ
  | .nil => 0
  | .node _ _ _ _ .nil => 0
  | .node _ _ _ _ (.node rk rv rh rl rr) => leastSlots (.node rk rv rh rl rr) + 1

/-- How many stack entries `AVLRemove` uses for a key, the patched one included. -/
def removeSlots (key : κ) : Tree κ ν → ℕ
  | .nil => 0
  | .node k _ _ l r =>
    (if k = key then (match l with
      | .nil => 0
      | .node lk lv lh ll lr => max 1 (leastSlots (.node lk lv lh ll lr)))
    else if key < k then removeSlots key l else removeSlots key r) + 1

end Odin32.Avl
