import Odin32.LxPages
import Mathlib.Data.List.Basic
import Mathlib.Data.List.GetD
import Mathlib.Data.List.Perm.Basic
import Mathlib.Order.Basic

/-! # Adding objects

`Pe2Lx::addObject` and the calls `init` makes, one for the headers and one for each
section. `paObjects` is the block of the C library slot by slot; a slot that was never
written holds what the library left in it. -/

set_option autoImplicit false

namespace Odin32.LxObjects
open Odin32.LxPages

def u16 (n : ℕ) : ℕ := n % 0x10000

/-- What `addObject` reads of the PE headers. -/
structure NtHeaders where
  numberOfSections : UInt16
  /-- `IMAGE_FILE_DLL` -/
  isDll : Bool

/-- What the C library answers to a request for slots: no memory, or a block with these
contents in its fresh slots. -/
abbrev Room := Option (ℕ → LxObject)

/-- The parameters of `addObject`. -/
structure Section where
  ulRVA : ℕ
  cbPhysical : ℕ
  cbVirtual : ℕ
  flFlags : ℕ
  offPEFile : ℕ
deriving DecidableEq

structure State where
  paObjects : List LxObject
  cObjects : ℕ
  cObjectsAllocated : ℕ
deriving DecidableEq

def State.init : State := ⟨[], 0, 0⟩

/-- The elements of `paObjects` that lie in its block. -/
def State.objects (st : State) : List LxObject := st.paObjects.take st.cObjects

def noObject : LxObject := ⟨0, 0, 0, 0, 0, false, false, 0, 0⟩

/-- `paObjects[i]`; beyond the block there is no object of ours. -/
def slot (paObjects : List LxObject) (i : ℕ) : LxObject := paObjects.getD i noObject

/-- The count of slots `addObject` asks for first. -/
def firstCount : Option NtHeaders → ℕ
  | none => 2
  | some pNtHdrs => u16 (pNtHdrs.numberOfSections.toNat + if pNtHdrs.isDll then 0 else 1)

/-- A free slot for the new object; `none` is `ERROR_NOT_ENOUGH_MEMORY`. -/
def allocate (pNtHdrs : Option NtHeaders) (room : Room) (st : State) : Option State :=
  if st.cObjectsAllocated = 0 then
    room.map fun fresh => { st with
      paObjects := (List.range (firstCount pNtHdrs)).map fresh
      cObjectsAllocated := firstCount pNtHdrs }
  else if st.cObjectsAllocated = st.cObjects then
    room.map fun fresh => { st with
      paObjects := st.paObjects ++ [fresh st.paObjects.length]
      cObjectsAllocated := u16 (st.cObjectsAllocated + 1) }
  else some st

/-- The loop that is to move the objects after the new one. It copies each slot from the
one behind it, the last one from the free slot. -/
def moveObjects (ulRVA : ℕ) : ℕ → List LxObject → ℕ × List LxObject
  | 0, paObjects => (0, paObjects)
  | i + 1, paObjects =>
    if ulRVA < (slot paObjects i).ulRVA then
      moveObjects ulRVA i (paObjects.set i (slot paObjects (i + 1)))
    else (i + 1, paObjects)

def newObject (s : Section) : LxObject where
  ulRVA := s.ulRVA
  cbPhysical := s.cbPhysical
  cbVirtual := s.cbVirtual
  flFlags := s.flFlags
  offTIBFix := 0
  fTIBFixObject := false
  fStackObject := false
  offPEFile := s.offPEFile
  offLXFile := 0

def addObject (pNtHdrs : Option NtHeaders) (room : Room) (st : State) (s : Section) :
    Option State :=
  (allocate pNtHdrs room st).map fun st =>
    let moved := moveObjects s.ulRVA st.cObjects st.paObjects
    { st with
      paObjects := moved.2.set moved.1 (newObject s)
      cObjects := u16 (st.cObjects + 1) }

/-- A sequence of calls, up to the first that fails. -/
def addObjects (pNtHdrs : Option NtHeaders) : (ℕ → Room) → State → List Section → Option State
  | _, st, [] => some st
  | rooms, st, s :: rest =>
    (addObject pNtHdrs (rooms 0) st s).bind fun st =>
      addObjects pNtHdrs (fun k => rooms (k + 1)) st rest

/-- What a sequence of sorted inserts into the empty array leaves. -/
structure SortedInsert (sections : List Section) (st : State) : Prop where
  sorted : st.objects.Pairwise fun a b => a.ulRVA ≤ b.ulRVA
  perm : st.objects.Perm (sections.map newObject)

/-- The block has room for what is counted, and its free slots hold `g`. -/
structure Holds (g : Option LxObject) (st : State) : Prop where
  empty : st.cObjectsAllocated = 0 → st.cObjects = 0
  length : st.cObjectsAllocated ≠ 0 → st.paObjects.length = st.cObjectsAllocated
  le : st.cObjects ≤ st.cObjectsAllocated
  free : ∀ i, st.cObjects ≤ i → i < st.cObjectsAllocated → ∀ o ∈ g, slot st.paObjects i = o

/-- The answer of the library leaves `g` in what it hands out. -/
def Leaves (g : Option LxObject) (room : Room) : Prop :=
  ∀ fresh ∈ room, ∀ o ∈ g, ∀ i, fresh i = o

theorem slot_append_last (a : List LxObject) (o : LxObject) : slot (a ++ [o]) a.length = o := by
  simp [slot]

theorem slot_set_of_ne {a : List LxObject} {i j : ℕ} (h : i ≠ j) (o : LxObject) :
    slot (a.set i o) j = slot a j := by
  simp [slot, List.getD_eq_getElem?_getD, List.getElem?_set_ne h]

theorem slot_mem_objects {st : State} {i : ℕ} (inside : i < st.cObjects)
    (fits : st.cObjects ≤ st.paObjects.length) : slot st.paObjects i ∈ st.objects := by
  have hi : i < st.paObjects.length := Nat.lt_of_lt_of_le inside fits
  rw [slot, List.getD_eq_getElem _ _ hi]
  exact List.mem_take_iff_getElem.2 ⟨i, by omega, rfl⟩

theorem exists_slot {st : State} {o : LxObject} (h : o ∈ st.objects) :
    ∃ i < st.cObjects, i < st.paObjects.length ∧ slot st.paObjects i = o := by
  obtain ⟨i, hi, rfl⟩ := List.mem_take_iff_getElem.1 h
  have hl : i < st.paObjects.length := by omega
  exact ⟨i, by omega, hl, List.getD_eq_getElem _ _ hl⟩

theorem length_moveObjects (ulRVA n : ℕ) (a : List LxObject) :
    (moveObjects ulRVA n a).2.length = a.length := by
  induction n generalizing a with
  | zero => rfl
  | succ n ih =>
    rw [moveObjects]
    split
    · rw [ih, List.length_set]
    · rfl

theorem moveObjects_fst_le (ulRVA n : ℕ) (a : List LxObject) : (moveObjects ulRVA n a).1 ≤ n := by
  induction n generalizing a with
  | zero => exact Nat.le_refl 0
  | succ n ih =>
    rw [moveObjects]
    split
    · exact Nat.le_trans (ih _) n.le_succ
    · exact Nat.le_refl _

theorem slot_moveObjects (ulRVA n : ℕ) (a : List LxObject) {j : ℕ} (h : n ≤ j) :
    slot (moveObjects ulRVA n a).2 j = slot a j := by
  induction n generalizing a with
  | zero => rfl
  | succ n ih =>
    rw [moveObjects]
    split
    · rw [ih _ (by omega), slot_set_of_ne (by omega)]
    · rfl

theorem moveObjects_of_last {ulRVA n : ℕ} {a : List LxObject}
    (last : ∀ i < n, (slot a i).ulRVA ≤ ulRVA) : moveObjects ulRVA n a = (n, a) := by
  cases n with
  | zero => rfl
  | succ n => rw [moveObjects, if_neg (Nat.not_lt.2 (last n n.lt_succ_self))]

theorem moveObjects_fst_lt {ulRVA n : ℕ} {a : List LxObject}
    (descends : ulRVA < (slot a n).ulRVA) : (moveObjects ulRVA (n + 1) a).1 < n + 1 := by
  rw [moveObjects, if_pos descends]
  exact Nat.lt_succ_of_le (moveObjects_fst_le _ _ _)

theorem moveObjects_stays {ulRVA n : ℕ} {a : List LxObject}
    (h : (moveObjects ulRVA n a).1 = n) : (moveObjects ulRVA n a).2 = a := by
  cases n with
  | zero => rfl
  | succ n =>
    rw [moveObjects] at h ⊢
    split
    · rename_i descends
      rw [if_pos descends] at h
      have := moveObjects_fst_le ulRVA n (a.set n (slot a (n + 1)))
      omega
    · rfl

theorem allocate_holds {pNtHdrs : Option NtHeaders} {room : Room} {g : Option LxObject}
    {st next : State} (holds : Holds g st) (leaves : Leaves g room)
    (first : firstCount pNtHdrs ≠ 0) (small : st.cObjects + 1 < 0x10000)
    (done : allocate pNtHdrs room st = some next) :
    Holds g next ∧ next.cObjects = st.cObjects ∧ next.cObjects < next.cObjectsAllocated ∧
      next.objects = st.objects := by
  unfold allocate at done
  split at done
  · rename_i none_yet
    obtain ⟨fresh, given, rfl⟩ := Option.map_eq_some_iff.1 done
    have empty := holds.empty none_yet
    refine ⟨⟨fun h => absurd h first, fun _ => by simp, by simp [empty], ?_⟩, rfl,
      by simpa [empty] using Nat.pos_of_ne_zero first, by simp [State.objects, empty]⟩
    intro i _ hi o ho
    have hi' : i < ((List.range (firstCount pNtHdrs)).map fresh).length := by simpa using hi
    simp only [slot]
    rw [List.getD_eq_getElem _ _ hi', List.getElem_map]
    exact leaves fresh given o ho _
  · rename_i some_yet
    have len := holds.length some_yet
    split at done
    · rename_i full
      obtain ⟨fresh, given, rfl⟩ := Option.map_eq_some_iff.1 done
      have grown : u16 (st.cObjectsAllocated + 1) = st.cObjectsAllocated + 1 :=
        Nat.mod_eq_of_lt (by omega)
      refine ⟨⟨fun h => by simp [grown] at h, fun _ => by simp [grown, len],
        by simp only [grown]; omega, ?_⟩, rfl, by simp only [grown]; omega, ?_⟩
      · intro i lo hi o ho
        have at_end : i = st.paObjects.length := by
          simp only [grown] at hi
          simp only at lo
          omega
        simp only
        rw [at_end, slot_append_last]
        exact leaves fresh given o ho _
      · simp only [State.objects]
        exact List.take_append_of_le_length (by omega)
    · obtain rfl := Option.some.inj done
      exact ⟨holds, rfl, by have := holds.le; omega, rfl⟩

theorem addObject_holds {pNtHdrs : Option NtHeaders} {room : Room} {g : Option LxObject}
    {st next : State} {s : Section} (holds : Holds g st) (leaves : Leaves g room)
    (first : firstCount pNtHdrs ≠ 0) (small : st.cObjects + 1 < 0x10000)
    (done : addObject pNtHdrs room st s = some next) :
    Holds g next ∧ next.cObjects = st.cObjects + 1 := by
  obtain ⟨mid, allocated, rfl⟩ := Option.map_eq_some_iff.1 done
  obtain ⟨kept, count, free, -⟩ := allocate_holds holds leaves first small allocated
  have counted : u16 (mid.cObjects + 1) = st.cObjects + 1 := by
    rw [count]
    exact Nat.mod_eq_of_lt small
  refine ⟨⟨fun h => absurd h (by simp only; omega), fun h => ?_, ?_, ?_⟩, counted⟩
  · simp only [List.length_set, length_moveObjects]
    exact kept.length h
  · simp only [counted]
    omega
  · intro i lo hi o ho
    have before := moveObjects_fst_le s.ulRVA mid.cObjects mid.paObjects
    simp only [counted] at lo
    simp only
    rw [slot_set_of_ne (by omega), slot_moveObjects _ _ _ (by omega)]
    exact kept.free i (by omega) hi o ho

theorem addObject_last {pNtHdrs : Option NtHeaders} {room : Room} {g : Option LxObject}
    {st next : State} {s : Section} (holds : Holds g st) (leaves : Leaves g room)
    (first : firstCount pNtHdrs ≠ 0) (small : st.cObjects + 1 < 0x10000)
    (last : ∀ o ∈ st.objects, o.ulRVA ≤ s.ulRVA)
    (done : addObject pNtHdrs room st s = some next) :
    next.objects = st.objects ++ [newObject s] := by
  obtain ⟨mid, allocated, rfl⟩ := Option.map_eq_some_iff.1 done
  obtain ⟨kept, count, free, same⟩ := allocate_holds holds leaves first small allocated
  have len := kept.length (by omega)
  have stays : moveObjects s.ulRVA mid.cObjects mid.paObjects = (mid.cObjects, mid.paObjects) := by
    refine moveObjects_of_last fun i hi => last _ ?_
    rw [← same]
    exact slot_mem_objects hi (by omega)
  have counted : u16 (mid.cObjects + 1) = mid.cObjects + 1 := Nat.mod_eq_of_lt (by omega)
  rw [← same]
  simp only [State.objects, stays, counted]
  rw [List.take_add_one, List.take_set_of_le (Nat.le_refl _), List.getElem?_set_self (by omega)]
  rfl

/-- Where the free slots hold `g`, it gets among the objects when one of them is moved,
and once it is there it stays. -/
theorem addObject_spoils {pNtHdrs : Option NtHeaders} {room : Room} {g : LxObject}
    {st next : State} {s : Section} (holds : Holds (some g) st) (leaves : Leaves (some g) room)
    (first : firstCount pNtHdrs ≠ 0) (small : st.cObjects + 1 < 0x10000)
    (spoilt : g ∈ st.objects ∨
      (st.objects.Pairwise fun a b => a.ulRVA ≤ b.ulRVA) ∧ ∃ o ∈ st.objects, s.ulRVA < o.ulRVA)
    (done : addObject pNtHdrs room st s = some next) : g ∈ next.objects := by
  obtain ⟨held, counted⟩ := addObject_holds holds leaves first small done
  have fits : next.cObjects ≤ next.paObjects.length := by
    have := held.length (fun h => by have := held.empty h; omega)
    have := held.le
    omega
  obtain ⟨mid, allocated, rfl⟩ := Option.map_eq_some_iff.1 done
  obtain ⟨kept, count, free, same⟩ := allocate_holds holds leaves first small allocated
  have len := kept.length (by omega)
  rw [← same] at spoilt
  simp only at counted
  -- The loop runs exactly when it ends in front of the free slot, which is then not written.
  rcases Nat.lt_or_eq_of_le (moveObjects_fst_le s.ulRVA mid.cObjects mid.paObjects) with
    moved | stays
  · have at_end := slot_mem_objects (i := mid.cObjects) (by simp only [counted]; omega) fits
    have garbage : slot ((moveObjects s.ulRVA mid.cObjects mid.paObjects).2.set
        (moveObjects s.ulRVA mid.cObjects mid.paObjects).1 (newObject s)) mid.cObjects = g := by
      rw [slot_set_of_ne (by omega), slot_moveObjects _ _ _ (Nat.le_refl _),
        kept.free _ (Nat.le_refl _) free g rfl]
    rwa [garbage] at at_end
  · rcases spoilt with there | ⟨sorted, o, mem, above⟩
    · obtain ⟨i, hi, -, rfl⟩ := exists_slot there
      have still := slot_mem_objects (i := i) (by simp only [counted]; omega) fits
      have same_slot : slot ((moveObjects s.ulRVA mid.cObjects mid.paObjects).2.set
          (moveObjects s.ulRVA mid.cObjects mid.paObjects).1 (newObject s)) i =
          slot mid.paObjects i := by
        rw [slot_set_of_ne (by omega), moveObjects_stays stays]
      rwa [same_slot] at still
    · obtain ⟨i, hi, hl, rfl⟩ := exists_slot mem
      obtain ⟨n, hn⟩ : ∃ n, mid.cObjects = n + 1 := Nat.exists_eq_succ_of_ne_zero (by omega)
      have hn' : n < mid.paObjects.length := by omega
      have ordered : (slot mid.paObjects i).ulRVA ≤ (slot mid.paObjects n).ulRVA := by
        rcases Nat.lt_or_eq_of_le (show i ≤ n by omega) with before | rfl
        · have := List.pairwise_iff_getElem.1 sorted i n (by simp [State.objects]; omega)
            (by simp [State.objects]; omega) before
          simpa [State.objects, slot, List.getD_eq_getElem, hl, hn'] using this
        · exact Nat.le_refl _
      rw [hn] at stays
      exact absurd stays (Nat.ne_of_lt (moveObjects_fst_lt (Nat.lt_of_lt_of_le above ordered)))

theorem length_objects_lt {pNtHdrs : Option NtHeaders} {room : Room} {st next : State}
    {s : Section} (done : addObject pNtHdrs room st s = some next) :
    next.objects.length < 0x10000 := by
  obtain ⟨mid, -, rfl⟩ := Option.map_eq_some_iff.1 done
  have : u16 (mid.cObjects + 1) < 0x10000 := Nat.mod_lt _ (by decide)
  simp only [State.objects, List.length_take]
  omega

theorem exists_addObjects (pNtHdrs : Option NtHeaders) (g : LxObject) (st : State)
    (sections : List Section) :
    ∃ next, addObjects pNtHdrs (fun _ => some fun _ => g) st sections = some next := by
  induction sections generalizing st with
  | nil => exact ⟨st, rfl⟩
  | cons s rest ih =>
    have given : ∃ mid, allocate pNtHdrs (some fun _ => g) st = some mid := by
      unfold allocate
      split
      · exact ⟨_, rfl⟩
      · split
        · exact ⟨_, rfl⟩
        · exact ⟨_, rfl⟩
    obtain ⟨mid, allocated⟩ := given
    rw [addObjects, addObject, allocated]
    exact ih _

theorem addObjects_ascending {pNtHdrs : Option NtHeaders} {rooms : ℕ → Room} {st next : State}
    {sections : List Section} (holds : Holds none st) (first : firstCount pNtHdrs ≠ 0)
    (small : st.cObjects + sections.length < 0x10000)
    (ascending : (st.objects ++ sections.map newObject).Pairwise fun a b => a.ulRVA ≤ b.ulRVA)
    (done : addObjects pNtHdrs rooms st sections = some next) :
    next.objects = st.objects ++ sections.map newObject := by
  induction sections generalizing rooms st with
  | nil => simpa using congrArg State.objects (Option.some.inj done).symm
  | cons s rest ih =>
    obtain ⟨mid, added, done⟩ := Option.bind_eq_some_iff.1 done
    rw [List.length_cons] at small
    have leaves : Leaves none (rooms 0) := fun _ _ _ h => absurd h (by simp)
    obtain ⟨kept, counted⟩ := addObject_holds holds leaves first (by omega) added
    have put : mid.objects = st.objects ++ [newObject s] :=
      addObject_last holds leaves first (by omega)
        (fun o ho => (List.pairwise_append.1 ascending).2.2 o ho (newObject s) (by simp)) added
    have whole : mid.objects ++ rest.map newObject =
        st.objects ++ (s :: rest).map newObject := by
      rw [put]
      simp
    rw [← whole]
    exact ih kept (by omega) (by rwa [whole]) done

/-- Once the objects are spoilt, or where the RVAs yet to come descend, `g` is among the
objects at the end. -/
theorem addObjects_spoils {pNtHdrs : Option NtHeaders} {g : LxObject} {st next : State}
    {sections : List Section} (holds : Holds (some g) st) (first : firstCount pNtHdrs ≠ 0)
    (small : st.cObjects + sections.length < 0x10000)
    (spoilt : g ∈ st.objects ∨
      (st.objects.Pairwise fun a b => a.ulRVA ≤ b.ulRVA) ∧
      ¬(st.objects ++ sections.map newObject).Pairwise fun a b => a.ulRVA ≤ b.ulRVA)
    (done : addObjects pNtHdrs (fun _ => some fun _ => g) st sections = some next) :
    g ∈ next.objects := by
  induction sections generalizing st with
  | nil =>
    obtain rfl := Option.some.inj done
    rcases spoilt with there | ⟨sorted, unsorted⟩
    · exact there
    · exact absurd (by simpa using sorted) unsorted
  | cons s rest ih =>
    obtain ⟨mid, added, done⟩ := Option.bind_eq_some_iff.1 done
    rw [List.length_cons] at small
    have leaves : Leaves (some g) (some fun _ => g) := by
      intro fresh given o ho i
      rw [← Option.some.inj given]
      exact Option.some.inj ho
    obtain ⟨kept, counted⟩ := addObject_holds holds leaves first (by omega) added
    refine ih kept (by omega) ?_ done
    rcases spoilt with there | ⟨sorted, unsorted⟩
    · exact .inl (addObject_spoils holds leaves first (by omega) (.inl there) added)
    · by_cases last : ∀ o ∈ st.objects, o.ulRVA ≤ s.ulRVA
      · have put := addObject_last holds leaves first (by omega) last added
        right
        rw [put]
        refine ⟨List.pairwise_append.2 ⟨sorted, List.pairwise_singleton _ _, ?_⟩,
          by simpa using unsorted⟩
        simpa [newObject] using last
      · left
        simp only [not_forall, Nat.not_le, exists_prop] at last
        exact addObject_spoils holds leaves first (by omega) (.inr ⟨sorted, last⟩) added

theorem length_addObjects_lt {pNtHdrs : Option NtHeaders} {rooms : ℕ → Room} {st next : State}
    {sections : List Section} (few : st.objects.length < 0x10000)
    (done : addObjects pNtHdrs rooms st sections = some next) :
    next.objects.length < 0x10000 := by
  induction sections generalizing rooms st with
  | nil =>
    obtain rfl := Option.some.inj done
    exact few
  | cons s rest ih =>
    obtain ⟨mid, added, done⟩ := Option.bind_eq_some_iff.1 done
    exact ih (length_objects_lt added) done

theorem addObjects_no_slots {pNtHdrs : Option NtHeaders} {rooms : ℕ → Room} {st next : State}
    {sections : List Section} (none_yet : st.cObjectsAllocated = 0) (empty : st.paObjects = [])
    (first : firstCount pNtHdrs = 0) (done : addObjects pNtHdrs rooms st sections = some next) :
    next.objects = [] := by
  induction sections generalizing rooms st with
  | nil =>
    obtain rfl := Option.some.inj done
    simp [State.objects, empty]
  | cons s rest ih =>
    obtain ⟨mid, added, done⟩ := Option.bind_eq_some_iff.1 done
    obtain ⟨fit, allocated, rfl⟩ := Option.map_eq_some_iff.1 added
    rw [allocate, if_pos none_yet] at allocated
    obtain ⟨fresh, -, rfl⟩ := Option.map_eq_some_iff.1 allocated
    refine ih first ?_ done
    rw [List.set_eq_nil_iff, ← List.length_eq_zero_iff, length_moveObjects, first]
    rfl

theorem holds_init (g : Option LxObject) : Holds g State.init where
  empty _ := rfl
  length h := absurd rfl h
  le := Nat.le_refl 0
  free i _ h := absurd h (Nat.not_lt_zero i)

/-- The calls insert sorted, whatever fresh slots hold, exactly when no RVA is below an
earlier one and the counts stay within their 16 bits. -/
theorem addObjects_sortedInsert_iff (pNtHdrs : Option NtHeaders) (sections : List Section) :
    (∀ rooms st, addObjects pNtHdrs rooms .init sections = some st → SortedInsert sections st) ↔
      sections = [] ∨
        (sections.Pairwise fun a b => a.ulRVA ≤ b.ulRVA) ∧
        firstCount pNtHdrs ≠ 0 ∧ sections.length < 0x10000 := by
  constructor
  · intro always
    rcases List.eq_nil_or_concat sections with rfl | ⟨front, last, rfl⟩
    · exact .inl rfl
    · right
      set sections := front.concat last with named
      -- A slot that no call writes: the objects passed in are no stack objects.
      let g : LxObject := ⟨0, 0, 0, 0, 0, false, true, 0, 0⟩
      obtain ⟨st, done⟩ := exists_addObjects pNtHdrs g .init sections
      have inserted := always _ st done
      have few : sections.length < 0x10000 := by
        have := length_addObjects_lt (by simp [State.init, State.objects]) done
        rwa [inserted.perm.length_eq, List.length_map] at this
      have first : firstCount pNtHdrs ≠ 0 := by
        intro none_there
        have := inserted.perm.length_eq
        rw [addObjects_no_slots rfl rfl none_there done] at this
        simp [named] at this
      refine ⟨?_, first, few⟩
      by_contra descends
      have spoilt : g ∈ st.objects := by
        refine addObjects_spoils (holds_init _) first (by simpa [State.init] using few)
          (.inr ⟨by simp [State.init, State.objects], ?_⟩) done
        simpa [State.init, State.objects, List.pairwise_map, newObject] using descends
      obtain ⟨s, -, made⟩ := List.mem_map.1 (inserted.perm.mem_iff.1 spoilt)
      simp [newObject, g] at made
  · rintro (rfl | ⟨ascending, first, few⟩) rooms st done
    · obtain rfl := Option.some.inj done
      exact ⟨by simp [State.init, State.objects], by simp [State.init, State.objects]⟩
    · have sorted : (sections.map newObject).Pairwise fun a b => a.ulRVA ≤ b.ulRVA := by
        simpa [List.pairwise_map, newObject] using ascending
      have put := addObjects_ascending (holds_init none) first (by simpa [State.init] using few)
        (by simpa [State.init, State.objects] using sorted) done
      have same : st.objects = sections.map newObject := by
        simpa [State.init, State.objects] using put
      exact ⟨by rwa [same], by rw [same]⟩

/-- A file whose second section lies below its first. -/
def swapped : List Section :=
  [⟨0, 0x400, 0x400, 0x2001, 0⟩, ⟨0x2000, 0x200, 0x200, 0x2003, 0x600⟩,
    ⟨0x1000, 0x200, 0x200, 0x2005, 0x400⟩]

theorem swapped_not_sortedInsert :
    ¬∀ pNtHdrs sections rooms st, addObjects pNtHdrs rooms .init sections = some st →
      SortedInsert sections st := by
  intro always
  have lost := (always (some ⟨2, false⟩) swapped (fun _ => some fun _ => noObject) _ rfl).perm
  revert lost
  decide +kernel

end Odin32.LxObjects
