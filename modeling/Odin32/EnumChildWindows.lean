import Odin32.OrderedForest
import Mathlib.Data.Int.Notation
import Mathlib.Logic.Function.Basic

/-! # The enumeration of child windows

No window is made while the children are enumerated, so the lists of children are those of a
forest without the windows that were freed. The object that enumerates is kept by its caller.
A window that is destroyed loses its handle, and its children are destroyed with it. -/

set_option autoImplicit false

namespace Odin32.EnumChildWindows

open OrderedForest

abbrev Addr := ℕ

structure Desktop where
  forest : Forest Addr
  /-- `getOwner()` is not `NULL`. -/
  owned : Addr → Bool

structure State where
  /-- `IsWindowDestroyed()` -/
  destroyed : Addr → Bool
  freed : Addr → Bool
  /-- The references the enumeration holds. -/
  refCount : Addr → ℕ
  /-- How often the lock was entered and not left. -/
  lockCount : ℤ
  /-- The calls so far. -/
  called : List Addr

/-- What is outside: which windows a call destroys and what it returns, and which windows others
have references to. -/
structure Callback (d : Desktop) where
  destroys : State → Addr → Addr → Bool
  closed : ∀ {s child a c}, c ∈ d.forest.children a → destroys s child a = true →
    destroys s child c = true
  result : State → Addr → Bool
  others : State → Addr → Bool

variable {d : Desktop} (cb : Callback d)

def lock (s : State) : State := { s with lockCount := s.lockCount + 1 }

def unlock (s : State) : State := { s with lockCount := s.lockCount - 1 }

def addRef (s : State) (child : Addr) : State :=
  { s with refCount := Function.update s.refCount child (s.refCount child + 1) }

/-- `InterlockedDecrement(&refCount)` -/
def decrement (s : State) (child : Addr) : State :=
  { s with refCount := Function.update s.refCount child (s.refCount child - 1) }

/-- Whether a destroyed window has its last reference gone. -/
def deleted (s : State) (a : Addr) : Bool :=
  s.destroyed a && s.refCount a == 0 && !cb.others s a

def release (s : State) (child : Addr) : State :=
  let s := decrement s child
  if deleted cb s child then { s with freed := Function.update s.freed child true } else s

def wrapCallback2 (s : State) (child : Addr) : State × Bool :=
  let after : State := { s with
    destroyed := fun a => s.destroyed a || cb.destroys s child a
    called := s.called ++ [child] }
  ({ after with freed := fun a => s.freed a || deleted cb after a }, cb.result s child)

/-- The first window of a list that is still in it. -/
def firstOf (s : State) (l : List Addr) : Option Addr := l.find? fun a => !s.freed a

def getFirstChild (d : Desktop) (s : State) (window : Addr) : Option Addr :=
  firstOf s (d.forest.children window)

def getNextChild (d : Desktop) (s : State) (window child : Addr) : Option Addr :=
  firstOf s (following child (d.forest.children window))

/-- Where the callback has returned, and where the children of a child have been enumerated. -/
inductive Point where
  | callback (window : Addr) (prevchild : Option Addr) (child : Addr) (before after : State)
    (rc : Bool)
  | back (child : Addr) (s : State)

/-- The points on the way and what is returned; `none` for a read of an object that was freed. -/
structure Outcome where
  trace : List Point
  result : Option (Bool × State)

/-- More points before an outcome. -/
def Outcome.behind (points : List Point) (out : Outcome) : Outcome :=
  ⟨points ++ out.trace, out.result⟩

/-- `child = child->getNextChild()` -/
def goOn (d : Desktop) (window : Addr)
    (next : State → Option Addr → Option Addr → Option Outcome) (s : State) (child : Addr)
    (prevchild : Option Addr) : Option Outcome :=
  if s.freed child then some ⟨[], none⟩ else next s (getNextChild d s window child) prevchild

/-- What follows a callback that returned `TRUE`, with the loop for the rest of the steps. -/
def carryOn (next : Addr → State → Option Addr → Option Addr → Option Outcome) (window : Addr)
    (s : State) (child : Addr) (prevchild : Option Addr) : Option Outcome :=
  if s.destroyed child then
    match prevchild with
    | none => some ⟨[], some (true, unlock s)⟩
    | some prev => goOn d window (next window) s prev prevchild
  else if getFirstChild d s child = none then goOn d window (next window) s child (some child)
  else
    let held := lock (unlock (addRef s child))
    match next child held (getFirstChild d held child) none with
    | none => none
    | some ⟨trace, none⟩ => some ⟨trace, none⟩
    | some ⟨trace, some (false, s)⟩ => some ⟨trace, some (false, release cb s child)⟩
    | some ⟨trace, some (true, s)⟩ =>
      Option.map (Outcome.behind (trace ++ [.back child s]))
        (goOn d window (next window) (lock (release cb s child)) child (some child))

/-- The loop over the children of a window, with a bound on the number of the steps. -/
def loop : ℕ → Addr → State → Option Addr → Option Addr → Option Outcome
  | 0, _, _, _, _ => none
  | _ + 1, _, s, none, _ => some ⟨[], some (true, unlock s)⟩
  | fuel + 1, window, s, some child, prevchild =>
    if s.destroyed child || d.owned child then goOn d window (loop fuel window) s child prevchild
    else
      let held := unlock (addRef s child)
      let asked := wrapCallback2 cb held child
      let point := Point.callback window prevchild child held asked.1 asked.2
      if asked.2 = false then some ⟨[point], some (false, release cb asked.1 child)⟩
      else
        Option.map (Outcome.behind [point])
          (carryOn cb (loop fuel) window (lock (release cb asked.1 child)) child prevchild)

def enumChildWindows (fuel : ℕ) (s : State) (window : Addr) : Option Outcome :=
  loop cb fuel window (lock s) (getFirstChild d (lock s) window) none

/-! ## What it is for -/

/-- The windows the callback was called for. -/
def calls : List Point → List Addr
  | [] => []
  | .callback _ _ child _ _ _ :: trace => child :: calls trace
  | .back _ _ :: trace => calls trace

/-- What the callback answered. -/
def answers : List Point → List Bool
  | [] => []
  | .callback _ _ _ _ _ rc :: trace => rc :: answers trace
  | .back _ _ :: trace => answers trace

/-- `TRUE` if all answers are, and else `FALSE` right after the first answer that is. -/
def Answered (trace : List Point) : Bool → Prop
  | true => ∀ rc ∈ answers trace, rc = true
  | false => ∃ before, answers trace = before ++ [false] ∧ ∀ rc ∈ before, rc = true

/-- The window was not destroyed when the callback was called. -/
def Point.Alive : Point → Prop
  | .callback _ _ child before _ _ => before.destroyed child = false
  | .back _ _ => True

/-- The enumeration ended without a read of an object that was freed. -/
structure Right (d : Desktop) (s : State) (window : Addr) (out : Outcome) (rc : Bool)
    (s' : State) : Prop where
  result : out.result = some (rc, s')
  answered : Answered out.trace rc
  lockCount : s'.lockCount = s.lockCount
  alive : ∀ point ∈ out.trace, point.Alive
  once : (calls out.trace).Nodup
  below : ∀ a ∈ calls out.trace, d.forest.Below window a
  all : rc = true → ∀ a, d.forest.Below window a → d.owned a = false → s'.destroyed a = false →
    a ∈ calls out.trace
  destroyed : ∀ a, s.destroyed a = true → s'.destroyed a = true

/-- With enough steps there is this outcome. -/
def Ends (run : ℕ → Option Outcome) (out : Outcome) : Prop :=
  ∃ enough, ∀ fuel, enough ≤ fuel → run fuel = some out

def EnumEnds (s : State) (window : Addr) (out : Outcome) : Prop :=
  Ends (fun fuel => enumChildWindows cb fuel s window) out

def Promised (s : State) (window : Addr) : Prop :=
  ∃ out rc s', EnumEnds cb s window out ∧ Right d s window out rc s'

/-- The loop goes past the window. -/
def Skipped (d : Desktop) (s : State) (a : Addr) : Prop :=
  d.owned a = true ∨ s.destroyed a = true

/-- A window below one the loop goes past is one it would go past. -/
def Closed (d : Desktop) (top : Addr) (s : State) : Prop :=
  ∀ a c, d.forest.Below top a → Skipped d s a → c ∈ d.forest.children a → Skipped d s c

/-- Where the child was destroyed the sibling to go on from has not been freed, or nothing is
left to go on to. The child whose children were enumerated is not freed with the last reference. -/
def Point.Fits : Point → Prop
  | .callback window prevchild child _ after rc =>
    rc = true → after.destroyed child = true →
      match prevchild with
      | none => ∀ c ∈ following child (d.forest.children window), Skipped d after c
      | some prev => after.freed prev = false
  | .back child s =>
    s.destroyed child = true → 1 < s.refCount child ∨ cb.others (decrement s child) child = true

def RunFits (s : State) (window : Addr) : Prop :=
  Closed d window s ∧ ∀ out, EnumEnds cb s window out → ∀ point ∈ out.trace, point.Fits cb

/-- Only what was destroyed has been freed. -/
def State.Sound (s : State) : Prop := ∀ a, s.freed a = true → s.destroyed a = true

end Odin32.EnumChildWindows
