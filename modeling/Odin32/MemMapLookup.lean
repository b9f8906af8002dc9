import Odin32.MemMap
import Mathlib.Data.List.Pairwise
import Mathlib.Data.List.Basic

/-! # The list of views

The constructor of `Win32MemMapView` links a view in front of the first one with a higher
address, and `findMapByView` gives up at the first view above the address it looks for. Access
flags are compared as numbers, which tells whether all bits are there except for views that
have a flag above a missing one. -/

set_option autoImplicit false

namespace Odin32.MemMapLookup
open Odin32.Word
open Odin32.MemMap (fileMapCopy fileMapWrite fileMapRead fileMapWriteRead fileMapAllAccess
  memmapAccessRead memmapAccessWrite memmapAccessCopyonwrite)

def memmapAccessExecute : ℕ := 4

structure View where
  /-- Which object it is. -/
  self : ℕ
  pMapView : ℕ
  mOffset : ℕ
  mSize : ℕ
  mfAccess : ℕ
  mParentMap : ℕ
  mOwnerMap : Option ℕ
deriving DecidableEq, Repr

/-- What the constructor makes of `fdwAccess`, where `mfAccess` held `fresh`. -/
def viewAccess (fdwAccess fresh : ℕ) : ℕ :=
  match fdwAccess with
  | fileMapRead => memmapAccessRead
  | fileMapAllAccess | fileMapWrite | fileMapWriteRead => memmapAccessRead ||| memmapAccessWrite
  | fileMapCopy => memmapAccessRead ||| memmapAccessWrite ||| memmapAccessCopyonwrite
  | _ => fresh

/-- The insertion of the constructor. -/
def insertView (view : View) : List View → List View
  | [] => [view]
  | tmpview :: rest =>
    if view.pMapView < tmpview.pMapView then view :: tmpview :: rest
    else tmpview :: insertView view rest

/-- What the system answers a constructor: where the view lies, if there is memory for it, and
the object with what it happens to hold. -/
structure Os where
  pMapView : Option ℕ
  self : ℕ
  mfAccess : ℕ

inductive Op where
  | create (map offset size fdwAccess : ℕ) (owner : Option ℕ) (os : Os)
  | delete (self : ℕ)
  | deleteViews (map : ℕ)

/-- A constructor that fails leaves nothing in the list. -/
def step (mapviews : List View) : Op → List View
  | .create map offset size fdwAccess owner os =>
    match os.pMapView with
    | none => mapviews
    | some pMapView => insertView
        { self := os.self
          pMapView := pMapView
          mOffset := offset
          mSize := size
          mfAccess := viewAccess fdwAccess os.mfAccess
          mParentMap := map
          mOwnerMap := owner } mapviews
  | .delete self => mapviews.eraseP fun view => view.self = self
  | .deleteViews map => mapviews.filter fun view => view.mParentMap ≠ map

/-- The search of `findMapByView`. -/
def searchView (address accessType : ℕ) : List View → Option View
  | [] => none
  | view :: rest =>
    if view.pMapView ≤ address then
      if address < add32 view.pMapView view.mSize ∧ accessType ≤ view.mfAccess then some view
      else searchView address accessType rest
    else none

/-- The map and the offset in it. -/
def findMapByView (mapviews : List View) (address accessType : ℕ) : Option (ℕ × ℕ) :=
  (searchView address accessType mapviews).map fun view =>
    (view.mOwnerMap.getD view.mParentMap, add32 view.mOffset (address - view.pMapView))

/-! ## Views in their places -/

def View.Contains (view : View) (address : ℕ) : Prop :=
  view.pMapView ≤ address ∧ address < view.pMapView + view.mSize

instance (view : View) (address : ℕ) : Decidable (view.Contains address) :=
  inferInstanceAs (Decidable (_ ∧ _))

/-- All bits of the mask are set. -/
def View.Allows (view : View) (accessType : ℕ) : Prop := accessType &&& view.mfAccess = accessType

instance (view : View) (accessType : ℕ) : Decidable (view.Allows accessType) :=
  inferInstanceAs (Decidable (_ = _))

def View.Apart (view view' : View) : Prop :=
  view.pMapView + view.mSize ≤ view'.pMapView ∨ view'.pMapView + view'.mSize ≤ view.pMapView

/-- The address space does not wrap around inside of a view. -/
def View.Placed (view : View) : Prop := view.pMapView + view.mSize < 0x100000000

/-- The system gives a new view memory that no live view has. -/
def Op.Ok (mapviews : List View) : Op → Prop
  | .create _ _ size _ _ os => ∀ p ∈ os.pMapView, p + size < 0x100000000 ∧
    ∀ view ∈ mapviews, p + size ≤ view.pMapView ∨ view.pMapView + view.mSize ≤ p
  | .delete _ => True
  | .deleteViews _ => True

def run : List Op → List View → List View
  | [], mapviews => mapviews
  | op :: ops, mapviews => run ops (step mapviews op)

def RunOk : List Op → List View → Prop
  | [], _ => True
  | op :: ops, mapviews => op.Ok mapviews ∧ RunOk ops (step mapviews op)

def Sorted (mapviews : List View) : Prop := mapviews.Pairwise fun v v' => v.pMapView ≤ v'.pMapView

structure Inv (mapviews : List View) : Prop where
  sorted : Sorted mapviews
  apart : mapviews.Pairwise View.Apart
  placed : ∀ view ∈ mapviews, view.Placed

theorem inv_nil : Inv [] where
  sorted := List.Pairwise.nil
  apart := List.Pairwise.nil
  placed _ mem := absurd mem List.not_mem_nil

theorem Inv.sublist {mapviews less : List View} (inv : Inv mapviews)
    (sub : less.Sublist mapviews) : Inv less where
  sorted := inv.sorted.sublist sub
  apart := inv.apart.sublist sub
  placed view mem := inv.placed view (sub.subset mem)

theorem insertView_perm (view : View) (mapviews : List View) :
    (insertView view mapviews).Perm (view :: mapviews) := by
  induction mapviews with
  | nil => rfl
  | cons tmpview rest ih =>
    rw [insertView]
    split
    · rfl
    · exact (ih.cons tmpview).trans (List.Perm.swap view tmpview rest)

theorem mem_insertView {view v : View} {mapviews : List View} :
    v ∈ insertView view mapviews ↔ v = view ∨ v ∈ mapviews :=
  (insertView_perm view mapviews).mem_iff.trans List.mem_cons

theorem insertView_sorted (view : View) {mapviews : List View} (sorted : Sorted mapviews) :
    Sorted (insertView view mapviews) := by
  induction mapviews with
  | nil => exact List.pairwise_singleton _ view
  | cons tmpview rest ih =>
    obtain ⟨first, others⟩ := List.pairwise_cons.1 sorted
    rw [insertView]
    split
    · rename_i below
      refine List.pairwise_cons.2 ⟨fun v mem => ?_, sorted⟩
      rcases List.mem_cons.1 mem with rfl | mem
      · exact Nat.le_of_lt below
      · exact Nat.le_trans (Nat.le_of_lt below) (first v mem)
    · rename_i above
      refine List.pairwise_cons.2 ⟨fun v mem => ?_, ih others⟩
      rcases mem_insertView.1 mem with rfl | mem
      · exact Nat.le_of_not_lt above
      · exact first v mem

theorem Inv.insert {mapviews : List View} (inv : Inv mapviews) {view : View}
    (placed : view.Placed) (apart : ∀ v ∈ mapviews, view.Apart v) :
    Inv (insertView view mapviews) where
  sorted := insertView_sorted view inv.sorted
  apart := by
    have symm : ∀ {v v' : View}, v.Apart v' → v'.Apart v := fun apart => apart.symm
    exact ((insertView_perm view mapviews).pairwise_iff symm).2
      (List.pairwise_cons.2 ⟨apart, inv.apart⟩)
  placed v mem := by
    rcases mem_insertView.1 mem with rfl | mem
    · exact placed
    · exact inv.placed v mem

theorem step_inv {mapviews : List View} (inv : Inv mapviews) {op : Op} (ok : op.Ok mapviews) :
    Inv (step mapviews op) := by
  cases op with
  | create map offset size fdwAccess owner os =>
    rw [step]
    cases there : os.pMapView with
    | none => exact inv
    | some p =>
      obtain ⟨placed, apart⟩ := ok p there
      exact inv.insert placed apart
  | delete self => exact inv.sublist List.eraseP_sublist
  | deleteViews map => exact inv.sublist List.filter_sublist

theorem run_inv {ops : List Op} {mapviews : List View} (inv : Inv mapviews)
    (ok : RunOk ops mapviews) : Inv (run ops mapviews) := by
  induction ops generalizing mapviews with
  | nil => exact inv
  | cons op ops ih => exact ih (step_inv inv ok.1) ok.2

/-! ## The search -/

theorem searchView_spec {mapviews : List View} (inv : Inv mapviews) {address accessType : ℕ} :
    match searchView address accessType mapviews with
    | none => ∀ view ∈ mapviews, view.Contains address → view.mfAccess < accessType
    | some view => view ∈ mapviews ∧ view.Contains address ∧ accessType ≤ view.mfAccess := by
  induction mapviews with
  | nil => exact fun view mem => absurd mem List.not_mem_nil
  | cons head rest ih =>
    obtain ⟨first, -⟩ := List.pairwise_cons.1 inv.sorted
    have ends : add32 head.pMapView head.mSize = head.pMapView + head.mSize :=
      add32_of_lt (inv.placed head List.mem_cons_self)
    have behind := ih (inv.sublist (List.sublist_cons_self head rest))
    rw [searchView, ends]
    by_cases low : head.pMapView ≤ address
    · rw [if_pos low]
      by_cases hit : address < head.pMapView + head.mSize ∧ accessType ≤ head.mfAccess
      · rw [if_pos hit]
        exact ⟨List.mem_cons_self, ⟨low, hit.1⟩, hit.2⟩
      · rw [if_neg hit]
        cases found : searchView address accessType rest with
        | some view =>
          rw [found] at behind
          exact ⟨List.mem_cons_of_mem head behind.1, behind.2⟩
        | none =>
          rw [found] at behind
          intro view mem contains
          rcases List.mem_cons.1 mem with rfl | mem
          · exact Nat.lt_of_not_le fun flags => hit ⟨contains.2, flags⟩
          · exact behind view mem contains
    · -- all views from here on lie above the address
      rw [if_neg low]
      intro view mem contains
      have above : head.pMapView ≤ view.pMapView := by
        rcases List.mem_cons.1 mem with rfl | mem
        · exact Nat.le_refl _
        · exact first view mem
      exact absurd (Nat.le_trans above contains.1) low

instance : Std.Symm View.Apart := ⟨fun _ _ apart => apart.symm⟩

theorem Inv.unique {mapviews : List View} (inv : Inv mapviews) {view view' : View}
    (mem : view ∈ mapviews) (mem' : view' ∈ mapviews) {address : ℕ}
    (contains : view.Contains address) (contains' : view'.Contains address) : view = view' := by
  by_contra other
  have apart := inv.apart.forall mem mem' other
  unfold View.Contains at contains contains'
  unfold View.Apart at apart
  omega

/-- A lookup tells which view an address with an access is in, and where in the map. -/
structure LookupRight (mapviews : List View) (address accessType : ℕ) : Prop where
  found : (findMapByView mapviews address accessType).isSome ↔
    ∃ view ∈ mapviews, view.Contains address ∧ view.Allows accessType
  there : ∀ answer ∈ findMapByView mapviews address accessType,
    ∃ view ∈ mapviews, view.Contains address ∧
      answer = (view.mOwnerMap.getD view.mParentMap,
        add32 view.mOffset (address - view.pMapView))

/-- The flags of the view at the address are below the mask unless they have all its bits. -/
def FlagsTell (mapviews : List View) (address accessType : ℕ) : Prop :=
  ∀ view ∈ mapviews, view.Contains address → accessType ≤ view.mfAccess → view.Allows accessType

instance (mapviews : List View) (address accessType : ℕ) :
    Decidable (FlagsTell mapviews address accessType) :=
  inferInstanceAs (Decidable (∀ view ∈ mapviews, _ → _ → _))

theorem lookup_iff {mapviews : List View} (inv : Inv mapviews) (address accessType : ℕ) :
    LookupRight mapviews address accessType ↔ FlagsTell mapviews address accessType := by
  have spec := @searchView_spec mapviews inv address accessType
  constructor
  · intro right view mem contains flags
    have some_there : (findMapByView mapviews address accessType).isSome := by
      cases found : searchView address accessType mapviews with
      | none =>
        rw [found] at spec
        exact absurd flags (Nat.not_le_of_lt (spec view mem contains))
      | some v => rw [findMapByView, found]; rfl
    obtain ⟨v, mem', contains', allows⟩ := right.found.1 some_there
    rwa [inv.unique mem mem' contains contains']
  · intro tell
    cases found : searchView address accessType mapviews with
    | none =>
      rw [found] at spec
      have none_there : findMapByView mapviews address accessType = none := by
        rw [findMapByView, found]
        rfl
      refine ⟨?_, fun answer mem => ?_⟩
      · rw [none_there]
        refine iff_of_false (by decide) ?_
        rintro ⟨view, mem, contains, allows⟩
        have below : accessType ≤ view.mfAccess := by
          rw [← allows]
          exact Nat.and_le_right
        exact absurd below (Nat.not_le_of_lt (spec view mem contains))
      · rw [none_there] at mem
        cases mem
    | some view =>
      rw [found] at spec
      obtain ⟨mem, contains, flags⟩ := spec
      have this_there : findMapByView mapviews address accessType =
          some (view.mOwnerMap.getD view.mParentMap,
            add32 view.mOffset (address - view.pMapView)) := by
        rw [findMapByView, found]
        rfl
      refine ⟨?_, fun answer mem' => ?_⟩
      · rw [this_there]
        exact iff_of_true rfl ⟨view, mem, contains, tell view mem contains flags⟩
      · rw [this_there] at mem'
        exact ⟨view, mem, contains, (Option.some.inj mem').symm⟩

/-- In every list that a run leaves, a lookup is right exactly when the flags of the view at the
address tell as a number what their bits say. -/
theorem run_lookup_iff (ops : List Op) (address accessType : ℕ) (ok : RunOk ops []) :
    (Sorted (run ops []) ∧ LookupRight (run ops []) address accessType) ↔
      FlagsTell (run ops []) address accessType := by
  have inv := run_inv inv_nil ok
  rw [← lookup_iff inv address accessType]
  exact and_iff_right inv.sorted

def sampleOps : List Op :=
  [.create 1 0x10000 0x2000 fileMapWrite none ⟨some 0x300000, 11, 0⟩,
    .create 1 0 0x1000 fileMapRead (some 2) ⟨some 0x200000, 12, 0⟩,
    .delete 11,
    .create 1 0x20000 0x3000 fileMapAllAccess none ⟨some 0x201000, 13, 0⟩]

theorem sample_lookup : LookupRight (run sampleOps []) 0x201234 3 :=
  ((run_lookup_iff sampleOps 0x201234 3 (by simp [RunOk, sampleOps, Op.Ok, step, insertView])).2
    (by decide)).2

/-- A copy on write view is taken for one that can be executed. -/
theorem not_lookup_execute : ¬∀ (ops : List Op) (address accessType : ℕ), RunOk ops [] →
    Sorted (run ops []) ∧ LookupRight (run ops []) address accessType := fun all => by
  have right := (all [.create 1 0 0x1000 fileMapCopy none ⟨some 0x200000, 11, 0⟩] 0x200000
    memmapAccessExecute (by simp [RunOk, Op.Ok])).2
  obtain ⟨view, mem, -, allows⟩ := right.found.1 (by decide)
  rw [show run [Op.create 1 0 0x1000 fileMapCopy none ⟨some 0x200000, 11, 0⟩] [] =
    [⟨11, 0x200000, 0, 0x1000, 11, 1, none⟩] from rfl, List.mem_singleton] at mem
  rw [mem] at allows
  exact absurd allows (by decide)

end Odin32.MemMapLookup
