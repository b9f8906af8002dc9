import Odin32.Buckets
import Odin32.HashtableLookup
import Odin32.LinearListRun
import Mathlib.NumberTheory.Bertrand

/-! # Runs of the hash table

The slots are buckets of entries. Resizing moves the entries of a slot in their order, so that
the oldest entry with a name stays in front of the others with that name. Without slots no name
can be looked for, and `clear` leaves no slots. -/

set_option autoImplicit false

namespace Odin32.HashtableLookup

open LinearList Buckets LinkedList

/-! ## Hash codes -/

theorem hashLoop_some {iRing : ℕ} (pos : 0 < iRing) (ts : List UInt8) {h : ℕ} (lt : h < iRing) :
    ∃ h', hashLoop iRing h ts = some h' ∧ h' < iRing := by
  induction ts generalizing h with
  | nil => exact ⟨h, rfl, lt⟩
  | cons t ts ih =>
    rw [hashLoop, if_neg (Nat.ne_of_gt pos)]
    exact ih (Nat.mod_lt _ pos)

def hashOf (iRing : ℕ) (pszName : Name) : ℕ := (hashcode iRing pszName).getD 0

theorem hashcode_eq {iRing : ℕ} (pos : 0 < iRing) (pszName : Name) :
    hashcode iRing pszName = some (hashOf iRing pszName) := by
  obtain ⟨h, eq, -⟩ := hashLoop_some pos pszName.bytes pos
  rw [hashOf, hashcode, eq]
  rfl

theorem hashOf_lt {iRing : ℕ} (pos : 0 < iRing) (pszName : Name) :
    hashOf iRing pszName < iRing := by
  obtain ⟨h, eq, lt⟩ := hashLoop_some pos pszName.bytes pos
  rw [hashOf, hashcode, eq]
  exact lt

theorem hashcode_zero (pszName : Name) : hashcode 0 pszName = none := by
  cases bytes : pszName.bytes with
  | nil => exact absurd bytes pszName.cons
  | cons t ts =>
    rw [hashcode, bytes]
    rfl

/-! ## The size of the array -/

theorem oddLoop_of_prime {p sqr : ℕ} (prime : p.Prime) (lt : sqr < p) (fuel : ℕ) {n : ℕ}
    (low : 1 < n) : n + 2 * fuel ≤ oddLoop p sqr fuel n ∨ sqr < oddLoop p sqr fuel n := by
  induction fuel generalizing n with
  | zero => exact Or.inl (Nat.le_refl n)
  | succ fuel ih =>
    rw [oddLoop]
    by_cases behind : n ≤ sqr
    · have indivisible : p % n ≠ 0 := by
        intro divides
        rcases (Nat.dvd_prime prime).mp (Nat.dvd_of_mod_eq_zero divides) with one | whole <;> omega
      rw [if_pos ⟨behind, indivisible⟩]
      rcases ih (n := n + 2) (by omega) with far | done
      · exact Or.inl (by omega)
      · exact Or.inr done
    · rw [if_neg fun both => behind both.1]
      exact Or.inr (by omega)

theorem primeLoop_some {p sqr : ℕ} (prime : p.Prime) (lt : sqr < p) {fuel x : ℕ} (k : ℕ)
    (reach : x + 2 * k = p) (enough : k < fuel) :
    ∃ y, primeLoop sqr fuel x = some y ∧ x ≤ y := by
  induction k generalizing x fuel with
  | zero =>
    obtain ⟨fuel, rfl⟩ := Nat.exists_eq_succ_of_ne_zero (Nat.ne_of_gt enough)
    obtain rfl : x = p := by omega
    have done : sqr < oddLoop x sqr sqr 3 := by
      rcases oddLoop_of_prime prime lt sqr (n := 3) (by omega) with far | done <;> omega
    exact ⟨x, by rw [primeLoop, if_pos done], Nat.le_refl x⟩
  | succ k ih =>
    obtain ⟨fuel, rfl⟩ := Nat.exists_eq_succ_of_ne_zero (Nat.ne_of_gt (Nat.zero_lt_of_lt enough))
    rw [primeLoop]
    by_cases done : sqr < oddLoop x sqr sqr 3
    · exact ⟨x, if_pos done, Nat.le_refl x⟩
    · obtain ⟨y, found, le⟩ := ih (x := x + 2) (by omega) (Nat.lt_of_succ_lt_succ enough)
      exact ⟨y, by rw [if_neg done, found], by omega⟩

theorem nextPrime_some (x : ℕ) : ∃ p, nextPrime x = some p ∧ 0 < p := by
  by_cases small : x < 2
  · exact ⟨2, if_pos small, by decide⟩
  by_cases three : x = 3
  · exact ⟨3, by rw [nextPrime, if_neg small, if_pos three], by decide⟩
  obtain ⟨y, eq, odd, low⟩ : ∃ y, (if x % 2 = 0 then x + 1 else x) = y ∧ y % 2 = 1 ∧ 3 ≤ y := by
    split_ifs
    · exact ⟨x + 1, rfl, by omega, by omega⟩
    · exact ⟨x, rfl, by omega, by omega⟩
  rw [nextPrime, if_neg small, if_neg three, eq]
  obtain ⟨p, prime, gt, le⟩ := Nat.exists_prime_lt_and_le_two_mul y (by omega)
  have oddPrime : p % 2 = 1 := prime.eq_two_or_odd.resolve_left (by omega)
  have root : Nat.sqrt y + 1 < p := by
    have := Nat.sqrt_lt_self (n := y) (by omega)
    omega
  obtain ⟨z, found, least⟩ := primeLoop_some prime root (x := y) ((p - y) / 2)
    (by omega) (show (p - y) / 2 < y by omega)
  exact ⟨z, found, by omega⟩

/-! ## Lists of a slot -/

abbrev Element := Addr × HASHTABLEENTRY

def nameOf (e : Element) : Name := e.2.pszName

/-- A list entry for every hash table entry. -/
def Lists (cells : Entries Addr) (l : List Element) : Prop :=
  List.Forall₂ (fun x e => x.2 = e.1) cells l

def SlotHolds : Option (CLinearList Addr) → List Element → Prop
  | none, l => l = []
  | some list, l => ∃ cells, Holds list cells ∧ Lists cells l

def SlotsHold (parrLists : Slots) (m : ℕ) (b : ℕ → List Element) : Prop :=
  ∀ i, i < m → ∃ slot, parrLists[i]? = some slot ∧ SlotHolds slot (b i)

/-- No list has an entry at an address. -/
def FreeIn (parrLists : Slots) (a : Addr) : Prop :=
  ∀ list, some list ∈ parrLists → list.heap a = none

theorem setNext_kept {ω : Type} {heap heap' : Heap ω} {p : Addr} {link : Option Addr}
    (set : setNext heap p link = some heap') {a : Addr} (free : heap a = none) :
    heap' a = none := by
  obtain ⟨e, here, rfl⟩ := Option.map_eq_some_iff.mp set
  rw [Function.update_of_ne, free]
  rintro rfl
  exact absurd (here.symm.trans free) (by simp)

theorem addLast_kept {ω : Type} {list list' : CLinearList ω} {p : ω} {new a : Addr}
    (added : list.addLast p (some new) = some list') (ne : a ≠ new) (free : list.heap a = none) :
    list'.heap a = none := by
  have free' : ∀ e, Function.update list.heap new (some e) a = none := fun e => by
    rw [Function.update_of_ne ne, free]
  rw [CLinearList.addLast] at added
  cases last : list.pLast with
  | none =>
    rw [last] at added
    rw [← Option.some.inj added]
    exact free' _
  | some q =>
    rw [last] at added
    obtain ⟨e, -, rest⟩ := Option.bind_eq_some_iff.mp added
    obtain ⟨heap', set, done⟩ := Option.bind_eq_some_iff.mp rest
    rw [← Option.some.inj done]
    exact setNext_kept set (free' _)

theorem slotHolds_list {slot : Option (CLinearList Addr)} {l : List Element}
    (holds : SlotHolds slot l) :
    ∃ cells, Holds (slot.getD CLinearList.new) cells ∧ Lists cells l := by
  cases slot with
  | none =>
    obtain rfl : l = [] := holds
    exact ⟨[], holds_new, List.Forall₂.nil⟩
  | some list => exact holds

theorem addToSlot_spec {parrLists : Slots} {m : ℕ} {b : ℕ → List Element}
    (holds : SlotsHold parrLists m b) {h : ℕ} (lt : h < m) {pLLE : Addr}
    (free : FreeIn parrLists pLLE) (e : Element) :
    ∃ parrLists', addToSlot parrLists h e.1 pLLE = some parrLists' ∧
      SlotsHold parrLists' m (Function.update b h (b h ++ [e])) ∧
      ∀ a, a ≠ pLLE → FreeIn parrLists a → FreeIn parrLists' a := by
  obtain ⟨slot, here, slotHolds⟩ := holds h lt
  obtain ⟨cells, ⟨repr, enough⟩, lists⟩ := slotHolds_list slotHolds
  have inside : h < parrLists.length := (List.getElem?_eq_some_iff.mp here).1
  have freeSlot : ∀ a, FreeIn parrLists a → (slot.getD CLinearList.new).heap a = none := by
    intro a freeAt
    cases slot with
    | none => rfl
    | some list => exact freeAt list (List.mem_of_getElem? here)
  obtain ⟨list', added, repr', more⟩ := addLast_spec repr (freeSlot pLLE free) e.1
  refine ⟨parrLists.set h (some list'), ?_, fun i below => ?_, fun a ne freeAt list mem => ?_⟩
  · simp only [addToSlot, here, Option.bind_eq_bind, Option.bind_some, added]
    rfl
  · by_cases eq : i = h
    · subst eq
      refine ⟨some list', List.getElem?_set_self inside, cells ++ [(pLLE, e.1)], ⟨repr', ?_⟩, ?_⟩
      · rw [more, List.length_append, List.length_singleton]
        exact Nat.succ_le_succ enough
      · rw [Function.update_self]
        exact List.rel_append lists (List.Forall₂.cons rfl List.Forall₂.nil)
    · obtain ⟨slot', there, holds'⟩ := holds i below
      refine ⟨slot', ?_, ?_⟩
      · rw [List.getElem?_set_ne (Ne.symm eq), there]
      · rwa [Function.update_of_ne eq]
  · rcases List.mem_or_eq_of_mem_set mem with old | new
    · exact freeAt list old
    · rw [Option.some.inj new]
      exact addLast_kept added ne (freeSlot a freeAt)

theorem findFrom_spec {entries : Entry} {list : CLinearList Addr} {cells : Entries Addr}
    {l : List Element} (pszName : Name) (lists : Lists cells l)
    (live : ∀ e ∈ l, entries e.1 = some e.2) {fuel : ℕ} {head : Option Addr}
    (chain : Chain LinearListEntry.pNext list.heap head (cells.map Prod.fst))
    (objects : ∀ x ∈ cells, (list.heap x.1).map LinearListEntry.pObject = some x.2)
    (enough : cells.length ≤ fuel) :
    ((∀ e ∈ l, nameOf e ≠ pszName) ∧ findFrom entries list pszName fuel head = some none) ∨
      ∃ c₁ x c₂ l₁ e l₂, cells = c₁ ++ x :: c₂ ∧ l = l₁ ++ e :: l₂ ∧ Lists c₁ l₁ ∧ Lists c₂ l₂ ∧
        (∀ e' ∈ l₁, nameOf e' ≠ pszName) ∧ nameOf e = pszName ∧
        findFrom entries list pszName fuel head = some (some (x.1, e.1, e.2)) := by
  induction lists generalizing fuel head with
  | nil =>
    obtain rfl : head = none := chain
    refine Or.inl ⟨fun e mem => absurd mem List.not_mem_nil, ?_⟩
    cases fuel <;> rfl
  | @cons x e cells l object lists ih =>
    obtain ⟨rfl, cell, at_x, tail⟩ := chain
    obtain ⟨fuel, rfl⟩ : ∃ k, fuel = k + 1 :=
      Nat.exists_eq_succ_of_ne_zero (Nat.ne_of_gt (Nat.lt_of_lt_of_le (Nat.succ_pos _) enough))
    have pObject := objects x (List.mem_cons_self ..)
    rw [at_x] at pObject
    have pObject' : cell.pObject = e.1 := (Option.some.inj pObject).trans object
    have here := live e (List.mem_cons_self ..)
    by_cases eq : nameOf e = pszName
    · have both : e.2.pszName.bytes.head? = pszName.bytes.head? ∧ e.2.pszName = pszName :=
        ⟨congrArg (fun name => name.bytes.head?) eq, eq⟩
      refine Or.inr ⟨[], x, cells, [], e, l, rfl, rfl, List.Forall₂.nil, lists,
        fun e' mem => absurd mem List.not_mem_nil, eq, ?_⟩
      simp only [findFrom, at_x, pObject', here, Option.bind_eq_bind, Option.bind_some,
        if_pos both]
      rfl
    · have differs : ¬ (e.2.pszName.bytes.head? = pszName.bytes.head? ∧ e.2.pszName = pszName) :=
        fun both => eq both.2
      have next : findFrom entries list pszName (fuel + 1) (some x.1) =
          findFrom entries list pszName fuel cell.pNext := by
        simp only [findFrom, at_x, pObject', here, Option.bind_eq_bind, Option.bind_some,
          if_neg differs]
      rw [next]
      rcases ih (fun e' mem => live e' (List.mem_cons_of_mem e mem)) tail
        (fun y mem => objects y (List.mem_cons_of_mem x mem)) (Nat.le_of_succ_le_succ enough) with
        ⟨absent, none⟩ | ⟨c₁, y, c₂, l₁, e', l₂, rfl, rfl, lists₁, lists₂, before, is, found⟩
      · exact Or.inl ⟨List.forall_mem_cons.mpr ⟨eq, absent⟩, none⟩
      · exact Or.inr ⟨x :: c₁, y, c₂, e :: l₁, e', l₂, rfl, rfl, List.Forall₂.cons object lists₁,
          lists₂, List.forall_mem_cons.mpr ⟨eq, before⟩, is, found⟩

/-! ## Clearing -/

theorem freeAll_some {ω : Type} {heap : Heap ω} {head : Option Addr} {cells : List Addr}
    (chain : Chain LinearListEntry.pNext heap head cells) (fuel : ℕ)
    (enough : cells.length ≤ fuel) : ∃ heap', CLinearList.freeAll fuel heap head = some heap' := by
  induction cells generalizing heap head fuel with
  | nil =>
    obtain rfl : head = none := chain
    exact ⟨heap, by cases fuel <;> rfl⟩
  | cons a rest ih =>
    have off := (List.nodup_cons.mp chain.nodup).1
    obtain ⟨rfl, e, here, tail⟩ := chain
    obtain ⟨fuel, rfl⟩ : ∃ k, fuel = k + 1 :=
      Nat.exists_eq_succ_of_ne_zero (Nat.ne_of_gt (Nat.lt_of_lt_of_le (Nat.succ_pos _) enough))
    obtain ⟨heap', freed⟩ := ih (tail.update_of_notMem off none) fuel
      (Nat.le_of_succ_le_succ enough)
    exact ⟨heap', by simp only [CLinearList.freeAll, here, Option.bind_eq_bind, Option.bind_some,
      freed]⟩

theorem clear_some {ω : Type} {list : CLinearList ω} {cells : Entries ω}
    (holds : Holds list cells) :
    ∃ list', list.clear = some list' ∧ list'.pFirst = none := by
  obtain ⟨heap', freed⟩ := freeAll_some holds.1.forward list.allocated
    (by simpa using holds.2)
  refine ⟨{ list with pFirst := none, pLast := none, heap := heap' }, ?_, rfl⟩
  simp only [CLinearList.clear, freed, Option.bind_eq_bind, Option.bind_some]
  rfl

/-- The lists of the slots can be cleared. -/
def Clearable (parrLists : Slots) (m : ℕ) : Prop :=
  ∀ i, i < m → ∃ slot, parrLists[i]? = some slot ∧
    ∀ list, slot = some list → ∃ list', list.clear = some list' ∧ list'.pFirst = none

theorem SlotsHold.clearable {parrLists : Slots} {m : ℕ} {b : ℕ → List Element}
    (holds : SlotsHold parrLists m b) : Clearable parrLists m := by
  intro i lt
  obtain ⟨slot, here, slotHolds⟩ := holds i lt
  refine ⟨slot, here, ?_⟩
  rintro list rfl
  obtain ⟨cells, holds, -⟩ := slotHolds
  exact clear_some holds

theorem clear_of_empty {ω : Type} {list : CLinearList ω} (empty : list.pFirst = none) :
    ∃ list', list.clear = some list' ∧ list'.pFirst = none := by
  have freed : CLinearList.freeAll list.allocated list.heap list.pFirst = some list.heap := by
    rw [empty]
    cases list.allocated <;> rfl
  refine ⟨{ list with pFirst := none, pLast := none, heap := list.heap }, ?_, rfl⟩
  simp only [CLinearList.clear, freed, Option.bind_eq_bind, Option.bind_some]
  rfl

theorem clearSlots_some {m : ℕ} (is : List ℕ) (inside : ∀ i ∈ is, i < m) {parrLists : Slots}
    (clearable : Clearable parrLists m) :
    ∃ parrLists', is.foldlM clearSlot parrLists = some parrLists' := by
  induction is generalizing parrLists with
  | nil => exact ⟨parrLists, rfl⟩
  | cons i is ih =>
    obtain ⟨slot, here, can⟩ := clearable i (inside i (List.mem_cons_self ..))
    have inside' := fun j mem => inside j (List.mem_cons_of_mem i mem)
    have within : i < parrLists.length := (List.getElem?_eq_some_iff.mp here).1
    rw [List.foldlM_cons]
    cases slot with
    | none =>
      obtain ⟨parrLists', rest⟩ := ih inside' clearable
      refine ⟨parrLists', ?_⟩
      simp only [clearSlot, here, Option.bind_eq_bind, Option.bind_some]
      exact rest
    | some list =>
      obtain ⟨list', cleared, empty⟩ := can list rfl
      have clearable' : Clearable (parrLists.set i (some list')) m := by
        intro j lt
        by_cases eq : j = i
        · subst eq
          refine ⟨some list', List.getElem?_set_self within, ?_⟩
          rintro _ ⟨⟩
          exact clear_of_empty empty
        · rw [List.getElem?_set_ne (Ne.symm eq)]
          exact clearable j lt
      obtain ⟨parrLists', rest⟩ := ih inside' clearable'
      refine ⟨parrLists', ?_⟩
      simp only [clearSlot, here, cleared, Option.bind_eq_bind, Option.bind_some]
      exact rest

/-! ## Resizing -/

/-- The new array while entries are moved into it. -/
structure Moving (iNewSize : ℕ) (mem : ℕ → Addr) (made : Slots × ℕ) (b : ℕ → List Element) :
    Prop where
  slots : SlotsHold made.1 iNewSize b
  free : ∀ k, made.2 ≤ k → FreeIn made.1 (mem k)

variable {iNewSize : ℕ} {mem : ℕ → Addr} {made : Slots × ℕ} {b : ℕ → List Element}

theorem moving_new : Moving iNewSize mem (List.replicate iNewSize none, 0) fun _ => [] where
  slots i lt := ⟨none, List.getElem?_replicate_of_lt lt, rfl⟩
  free k _ list mem := absurd (List.eq_of_mem_replicate mem) (by simp)

theorem moveEntries_spec (pos : 0 < iNewSize) (distinct : Function.Injective mem)
    {entries : Entry} {list : CLinearList Addr} {cells : Entries Addr} {l : List Element}
    (lists : Lists cells l) (live : ∀ e ∈ l, entries e.1 = some e.2) {fuel : ℕ}
    {head : Option Addr}
    (chain : Chain LinearListEntry.pNext list.heap head (cells.map Prod.fst))
    (objects : ∀ x ∈ cells, (list.heap x.1).map LinearListEntry.pObject = some x.2)
    (enough : cells.length ≤ fuel) (moving : Moving iNewSize mem made b) :
    ∃ made', moveEntries entries list iNewSize mem fuel head made = some made' ∧
      Moving iNewSize mem made' (l.foldl (Buckets.insert nameOf (hashOf iNewSize)) b) := by
  induction lists generalizing fuel head made b with
  | nil =>
    obtain rfl : head = none := chain
    exact ⟨made, by cases fuel <;> rfl, moving⟩
  | @cons x e cells l object lists ih =>
    obtain ⟨rfl, cell, at_x, tail⟩ := chain
    obtain ⟨fuel, rfl⟩ : ∃ k, fuel = k + 1 :=
      Nat.exists_eq_succ_of_ne_zero (Nat.ne_of_gt (Nat.lt_of_lt_of_le (Nat.succ_pos _) enough))
    have pObject := objects x (List.mem_cons_self ..)
    rw [at_x] at pObject
    have pObject' : cell.pObject = e.1 := (Option.some.inj pObject).trans object
    have here := live e (List.mem_cons_self ..)
    obtain ⟨parrNew, moved⟩ := made
    obtain ⟨parrNew', added, slots, kept⟩ := addToSlot_spec moving.slots
      (hashOf_lt pos e.2.pszName) (moving.free moved (Nat.le_refl moved)) e
    have moving' : Moving iNewSize mem (parrNew', moved + 1)
        (Buckets.insert nameOf (hashOf iNewSize) b e) := by
      refine ⟨slots, fun k le => kept _ (fun same => ?_) (moving.free k (Nat.le_of_succ_le le))⟩
      have eq := distinct same
      have le' : moved + 1 ≤ k := le
      omega
    obtain ⟨made', rest, done⟩ := ih (fun e' mem => live e' (List.mem_cons_of_mem e mem)) tail
      (fun y mem => objects y (List.mem_cons_of_mem x mem)) (Nat.le_of_succ_le_succ enough) moving'
    refine ⟨made', ?_, done⟩
    simp only [moveEntries, at_x, pObject', here, hashcode_eq pos, added, Option.bind_eq_bind,
      Option.bind_some]
    exact rest

theorem moveSlots_spec (pos : 0 < iNewSize) (distinct : Function.Injective mem) {s : State}
    {old : ℕ → List Element} (holds : SlotsHold s.parrLists s.iSize old)
    (live : ∀ i, i < s.iSize → ∀ e ∈ old i, s.entries e.1 = some e.2) (is : List ℕ)
    (inside : ∀ i ∈ is, i < s.iSize) (moving : Moving iNewSize mem made b) :
    ∃ made', is.foldlM (moveSlot s iNewSize mem) made = some made' ∧ Moving iNewSize mem made'
      ((is.flatMap old).foldl (Buckets.insert nameOf (hashOf iNewSize)) b) := by
  induction is generalizing made b with
  | nil => exact ⟨made, rfl, moving⟩
  | cons i is ih =>
    have lt := inside i (List.mem_cons_self ..)
    obtain ⟨slot, here, slotHolds⟩ := holds i lt
    rw [List.foldlM_cons, List.flatMap_cons, List.foldl_append]
    have inside' := fun j mem => inside j (List.mem_cons_of_mem i mem)
    cases slot with
    | none =>
      have empty : old i = [] := slotHolds
      rw [empty]
      obtain ⟨made', rest, done⟩ := ih inside' moving
      refine ⟨made', ?_, done⟩
      simp only [moveSlot, here, Option.bind_eq_bind, Option.bind_some]
      exact rest
    | some list =>
      obtain ⟨cells, listHolds, lists⟩ := slotHolds
      obtain ⟨made', moved, moving'⟩ := moveEntries_spec pos distinct lists (live i lt)
        listHolds.1.forward listHolds.1.objects listHolds.2 moving
      obtain ⟨list', cleared, -⟩ := clear_some listHolds
      obtain ⟨made'', rest, done⟩ := ih inside' moving'
      refine ⟨made'', ?_, done⟩
      simp only [moveSlot, here, moved, cleared, Option.bind_eq_bind, Option.bind_some]
      exact rest

/-! ## The table -/

/-- The entries `hs` are there, oldest first, in the buckets `b`. -/
structure Inv (s : State) (b : ℕ → List Element) (hs : List Element) : Prop where
  slots : SlotsHold s.parrLists s.iSize b
  live : ∀ e ∈ hs, s.entries e.1 = some e.2
  nodup : (hs.map Prod.fst).Nodup
  placed : Placed nameOf (hashOf s.iSize) s.iSize b
  same : SameByKey nameOf (all s.iSize b) hs
  count : s.iElements = hs.length

variable {s : State} {hs : List Element}

theorem Inv.live_bucket (inv : Inv s b hs) {i : ℕ} (lt : i < s.iSize) :
    ∀ e ∈ b i, s.entries e.1 = some e.2 := fun e mem =>
  inv.live e (inv.same.perm.subset (mem_all.mpr ⟨i, lt, mem⟩))

theorem inv_new (iInitialSize : ℕ) : Inv (State.new iInitialSize) (fun _ => []) [] where
  slots i lt := ⟨none, List.getElem?_replicate_of_lt lt, rfl⟩
  live e mem := absurd mem List.not_mem_nil
  nodup := List.nodup_nil
  placed := placed_empty
  same := by
    rw [all_empty]
    exact SameByKey.refl []
  count := rfl

theorem Inv.setSize0 (inv : Inv s b hs) (pos : 0 < iNewSize)
    (distinct : Function.Injective mem) :
    ∃ s' b', s.setSize0 iNewSize mem = some s' ∧ Inv s' b' hs := by
  by_cases eq : s.iSize = iNewSize
  · exact ⟨s, b, if_pos eq, inv⟩
  · obtain ⟨made, moved, moving⟩ := moveSlots_spec pos distinct inv.slots
      (fun i lt => inv.live_bucket lt) (List.range s.iSize) (fun i => List.mem_range.mp) moving_new
    have none : Placed nameOf (hashOf iNewSize) iNewSize (fun _ => []) := placed_empty
    obtain ⟨placed, same⟩ := foldl_insert_same (hashOf_lt pos) none (all s.iSize b)
    rw [all_empty, List.nil_append] at same
    refine ⟨{ s with iSize := iNewSize, parrLists := made.1 }, _, ?_,
      ⟨moving.slots, inv.live, inv.nodup, placed, same.trans inv.same, inv.count⟩⟩
    rw [State.setSize0, if_neg eq]
    simp only [moved, Option.bind_eq_bind, Option.bind_some]
    rfl

theorem Inv.setSize (inv : Inv s b hs) (iNewSize : ℤ) (distinct : Function.Injective mem) :
    ∃ s' b', s.setSize iNewSize mem = some s' ∧ Inv s' b' hs := by
  rw [State.setSize]
  by_cases grows : (s.iSize : ℤ) < iNewSize
  · obtain ⟨p, prime, pos⟩ := nextPrime_some iNewSize.toNat
    obtain ⟨s', b', sized, inv'⟩ := inv.setSize0 pos distinct
    refine ⟨s', b', ?_, inv'⟩
    rw [if_pos grows, prime]
    exact sized
  · exact ⟨s, b, if_neg grows, inv⟩

theorem Inv.addElement (inv : Inv s b hs) (pos : 0 < s.iSize) (pszName : Name)
    (pObject : Pointer) {pHTE pLLE : Addr} (fresh : s.entries pHTE = none)
    (free : FreeIn s.parrLists pLLE) :
    ∃ s' b', s.addElement pszName pObject pHTE pLLE = some s' ∧
      Inv s' b' (hs ++ [(pHTE, ⟨pszName, pObject⟩)]) := by
  obtain ⟨parrLists', added, slots, -⟩ :=
    addToSlot_spec inv.slots (hashOf_lt pos pszName) free (pHTE, ⟨pszName, pObject⟩)
  have off : ∀ e ∈ hs, e.1 ≠ pHTE := by
    rintro e mem rfl
    exact absurd ((inv.live e mem).symm.trans fresh) (by simp)
  refine ⟨⟨s.iSize, s.iElements + 1, parrLists',
    Function.update s.entries pHTE (some ⟨pszName, pObject⟩)⟩,
    Buckets.insert nameOf (hashOf s.iSize) b (pHTE, ⟨pszName, pObject⟩), ?_,
    ⟨slots, fun e mem => ?_, ?_, inv.placed.insert _, ?_, ?_⟩⟩
  · simp only [State.addElement, hashcode_eq pos, added, Option.bind_eq_bind, Option.bind_some]
    rfl
  · rcases List.mem_append.mp mem with old | new
    · simp only [Function.update_of_ne (off e old), inv.live e old]
    · rw [List.mem_singleton.mp new]
      exact Function.update_self ..
  · rw [List.map_append, List.map_singleton]
    refine List.nodup_append.mpr ⟨inv.nodup, List.nodup_singleton _, ?_⟩
    intro a mem a' mem' eq
    obtain ⟨e, at_e, rfl⟩ := List.mem_map.mp mem
    exact off e at_e (eq.trans (List.mem_singleton.mp mem'))
  · exact (insert_same (hashOf_lt pos) inv.placed _).trans (inv.same.append (SameByKey.refl _))
  · rw [inv.count, List.length_append, List.length_singleton, Nat.cast_add, Nat.cast_one]

theorem Inv.search (inv : Inv s b hs) (pos : 0 < s.iSize) (pszName : Name) :
    ∃ slot, s.parrLists[hashOf s.iSize pszName]? = some slot ∧
      ((hs.find? fun e => decide (nameOf e = pszName)) = none ∧
          (∀ list, slot = some list → find s list pszName = some none) ∨
        ∃ list cells c₁ x c₂ l₁ e l₂, slot = some list ∧ Holds list cells ∧
          cells = c₁ ++ x :: c₂ ∧ b (hashOf s.iSize pszName) = l₁ ++ e :: l₂ ∧ Lists c₁ l₁ ∧
          Lists c₂ l₂ ∧ (∀ e' ∈ l₁, nameOf e' ≠ pszName) ∧ nameOf e = pszName ∧
          find s list pszName = some (some (x.1, e.1, e.2)) ∧
          (hs.find? fun e => decide (nameOf e = pszName)) = some e) := by
  have lt := hashOf_lt pos pszName
  obtain ⟨slot, here, slotHolds⟩ := inv.slots _ lt
  refine ⟨slot, here, ?_⟩
  rw [← inv.same.find? pszName, ← find?_bucket inv.placed lt]
  cases slot with
  | none =>
    have empty : b (hashOf s.iSize pszName) = [] := slotHolds
    rw [empty]
    exact Or.inl ⟨rfl, fun list eq => absurd eq (by simp)⟩
  | some list =>
    obtain ⟨cells, holds, lists⟩ := slotHolds
    rcases findFrom_spec pszName lists (inv.live_bucket lt) holds.1.forward holds.1.objects
      holds.2 with ⟨absent, none⟩ | ⟨c₁, x, c₂, l₁, e, l₂, eq, split, lists₁, lists₂, before, is, found⟩
    · refine Or.inl ⟨List.find?_eq_none.mpr fun e mem => by simpa using absent e mem, ?_⟩
      rintro _ ⟨⟩
      exact none
    · refine Or.inr ⟨list, cells, c₁, x, c₂, l₁, e, l₂, rfl, holds, eq, split, lists₁, lists₂,
        before, is, found, ?_⟩
      rw [split, List.find?_append, List.find?_eq_none.mpr fun e mem => by simpa using before e mem,
        List.find?_cons_of_pos (by simpa using is)]
      rfl

theorem Inv.removeElement (inv : Inv s b hs) (pos : 0 < s.iSize) (pszName : Name) :
    ∃ s' b', s.removeElement pszName = some (s', ((hs.find? fun e =>
        decide (nameOf e = pszName)).map fun e => e.2.pObject).getD 0) ∧
      Inv s' b' (hs.eraseP fun e => decide (nameOf e = pszName)) := by
  have lt := hashOf_lt pos pszName
  obtain ⟨slot, here, ⟨absent, none⟩ | ⟨list, cells, c₁, x, c₂, l₁, e, l₂, rfl, holds, rfl, split,
    lists₁, lists₂, before, is, found, first⟩⟩ := inv.search pos pszName
  · rw [absent, List.eraseP_of_forall_not fun e mem => List.find?_eq_none.mp absent e mem]
    refine ⟨s, b, ?_, inv⟩
    cases slot with
    | none =>
      simp only [State.removeElement, hashcode_eq pos, here, Option.bind_eq_bind, Option.bind_some]
      rfl
    | some list =>
      simp only [State.removeElement, hashcode_eq pos, here, none list rfl, Option.bind_eq_bind,
        Option.bind_some]
      rfl
  · obtain ⟨list', removed, repr', kept⟩ := removeElement_spec holds.1
    have inside : hashOf s.iSize pszName < s.parrLists.length :=
      (List.getElem?_eq_some_iff.mp here).1
    obtain ⟨h₁, h₂, e', split', before', eq'⟩ : ∃ h₁ h₂ e', hs = h₁ ++ e' :: h₂ ∧
        (∀ a ∈ h₁, nameOf a ≠ pszName) ∧ e' = e := by
      obtain ⟨-, h₁, h₂, whole, off⟩ := List.find?_eq_some_iff_append.mp first
      exact ⟨h₁, h₂, e, whole, fun a mem => by simpa using off a mem, rfl⟩
    subst eq'
    have erased : (hs.eraseP fun e => decide (nameOf e = pszName)) = h₁ ++ h₂ := by
      rw [split', List.eraseP_append_right _ fun a mem => by simpa using before' a mem,
        List.eraseP_cons_of_pos (by simpa using is)]
    have nodup := inv.nodup
    rw [split', List.map_append, List.map_cons] at nodup
    have off : ∀ a ∈ h₁ ++ h₂, a.1 ≠ e'.1 := by
      intro a mem eq
      have fresh := (List.nodup_cons.mp (List.nodup_middle.mp nodup)).1
      rw [← List.map_append] at fresh
      exact fresh (eq ▸ List.mem_map_of_mem mem)
    refine ⟨⟨s.iSize, s.iElements - 1, s.parrLists.set (hashOf s.iSize pszName) (some list'),
      Function.update s.entries e'.1 Option.none⟩,
      Buckets.erase nameOf (hashOf s.iSize) b pszName, ?_,
      ⟨fun i below => ?_, fun a mem => ?_, ?_, inv.placed.erase pszName, ?_, ?_⟩⟩
    · rw [first]
      simp only [State.removeElement, hashcode_eq pos, here, found, removed, Option.bind_eq_bind,
        Option.bind_some]
      rfl
    · by_cases eq : i = hashOf s.iSize pszName
      · subst eq
        refine ⟨some list', List.getElem?_set_self inside, c₁ ++ c₂, ⟨repr', ?_⟩, ?_⟩
        · have enough := holds.2
          rw [kept]
          simp only [List.length_append, List.length_cons] at enough ⊢
          omega
        · rw [Buckets.erase, Function.update_self, split,
            List.eraseP_append_right _ fun a mem => by simpa using before a mem,
            List.eraseP_cons_of_pos (by simpa using is)]
          exact List.rel_append lists₁ lists₂
      · obtain ⟨slot', there, holds'⟩ := inv.slots i below
        refine ⟨slot', ?_, ?_⟩
        · rw [List.getElem?_set_ne (Ne.symm eq), there]
        · rwa [Buckets.erase, Function.update_of_ne eq]
    · rw [erased] at mem
      have old : a ∈ hs := by
        rw [split']
        rcases List.mem_append.mp mem with left | right
        · exact List.mem_append_left _ left
        · exact List.mem_append_right _ (List.mem_cons_of_mem _ right)
      simp only [Function.update_of_ne (off a mem), inv.live a old]
    · exact inv.nodup.sublist (List.Sublist.map _ List.eraseP_sublist)
    · exact (erase_same (hashOf_lt pos) inv.placed pszName).trans (inv.same.eraseP pszName)
    · rw [erased, inv.count, split']
      simp only [List.length_append, List.length_cons, Nat.cast_add, Nat.cast_one]
      ring

theorem Inv.getElement (inv : Inv s b hs) (pos : 0 < s.iSize) (pszName : Name) :
    s.getElement pszName = some (((hs.find? fun e =>
      decide (nameOf e = pszName)).map fun e => e.2.pObject).getD 0) := by
  obtain ⟨slot, here, ⟨absent, none⟩ | ⟨list, _, _, x, _, _, e, _, rfl, -, -, -, -, -, -, -, found,
    first⟩⟩ := inv.search pos pszName
  · rw [absent]
    cases slot with
    | none =>
      simp only [State.getElement, hashcode_eq pos, here, Option.bind_eq_bind, Option.bind_some]
      rfl
    | some list =>
      simp only [State.getElement, hashcode_eq pos, here, none list rfl, Option.bind_eq_bind,
        Option.bind_some]
      rfl
  · rw [first]
    simp only [State.getElement, hashcode_eq pos, here, found, Option.bind_eq_bind,
      Option.bind_some]
    rfl

theorem Inv.clear (inv : Inv s b hs) : ∃ s', s.clear = some s' ∧ Inv s' (fun _ => []) [] := by
  obtain ⟨parrLists', cleared⟩ := clearSlots_some (List.range s.iSize)
    (fun i => List.mem_range.mp) inv.slots.clearable
  refine ⟨⟨0, 0, parrLists', s.entries⟩, ?_, ⟨fun i lt => absurd lt (Nat.not_lt_zero i),
    fun e mem => absurd mem List.not_mem_nil, List.nodup_nil, placed_empty, ?_, rfl⟩⟩
  · simp only [State.clear, cleared, Option.bind_eq_bind, Option.bind_some]
    rfl
  · rw [all_empty]
    exact SameByKey.refl []

theorem Inv.entryCount (inv : Inv s b hs) : entryCount s = hs.length := by
  have counted : ∀ is : List ℕ, (∀ i ∈ is, i < s.iSize) →
      (is.map fun i => slotCount s.parrLists[i]?).sum = ((is.flatMap b).length : ℤ) := by
    intro is inside
    induction is with
    | nil => rfl
    | cons i is ih =>
      obtain ⟨slot, here, slotHolds⟩ := inv.slots i (inside i (List.mem_cons_self ..))
      rw [List.map_cons, List.sum_cons, List.flatMap_cons, List.length_append, Nat.cast_add,
        ih fun j mem => inside j (List.mem_cons_of_mem i mem), here]
      congr 1
      cases slot with
      | none =>
        have empty : b i = [] := slotHolds
        rw [empty]
        rfl
      | some list =>
        obtain ⟨cells, holds, lists⟩ := slotHolds
        rw [← lists.length_eq]
        exact holds.1.size
  rw [HashtableLookup.entryCount, counted _ fun i => List.mem_range.mp, ← inv.same.perm.length_eq]
  rfl

/-! ## Runs -/

/-- What is in an entry. -/
def pairOf (e : Element) : Name × Pointer := (e.2.pszName, e.2.pObject)

theorem objectOf_map (hs : List Element) (pszName : Name) : objectOf (hs.map pairOf) pszName =
    ((hs.find? fun e => decide (nameOf e = pszName)).map fun e => e.2.pObject).getD 0 := by
  rw [objectOf, List.find?_map, Option.map_map]
  rfl

variable {op : Op}

theorem step_spec (inv : Inv s b hs) (offered : Offered s op) (fits : StepFits s op) :
    ∃ s' b' hs', step s op = some (s', answerOf (hs.map pairOf) op) ∧ Inv s' b' hs' ∧
      hs'.map pairOf = after (hs.map pairOf) op := by
  cases op with
  | addElement pszName pObject pHTE pLLE =>
    obtain ⟨s', b', added, inv'⟩ :=
      inv.addElement (Nat.pos_of_ne_zero fits) pszName pObject offered.1 offered.2
    exact ⟨s', b', _, by rw [step, added]; rfl, inv', by rw [List.map_append]; rfl⟩
  | removeElement pszName =>
    obtain ⟨s', b', removed, inv'⟩ := inv.removeElement (Nat.pos_of_ne_zero fits) pszName
    refine ⟨s', b', _, ?_, inv', ?_⟩
    · rw [step, removed, answerOf, objectOf_map]
      rfl
    · rw [after, List.eraseP_map]
      rfl
  | getElement pszName =>
    refine ⟨s, b, hs, ?_, inv, rfl⟩
    rw [step, inv.getElement (Nat.pos_of_ne_zero fits), answerOf, objectOf_map]
    rfl
  | setSize iNewSize mem =>
    obtain ⟨s', b', sized, inv'⟩ := inv.setSize iNewSize offered
    exact ⟨s', b', hs, by rw [step, sized]; rfl, inv', rfl⟩
  | rehash mem =>
    obtain ⟨s', b', sized, inv'⟩ := inv.setSize s.iElements offered
    exact ⟨s', b', hs, by rw [step, State.rehash, sized]; rfl, inv', rfl⟩
  | clear =>
    obtain ⟨s', cleared, inv'⟩ := inv.clear
    exact ⟨s', _, [], by rw [step, cleared]; rfl, inv', rfl⟩

theorem step_none (unfit : ¬ StepFits s op) : step s op = none := by
  cases op with
  | addElement pszName pObject pHTE pLLE =>
    have empty : s.iSize = 0 := not_not.mp unfit
    rw [step, State.addElement, empty, hashcode_zero]
    rfl
  | removeElement pszName =>
    have empty : s.iSize = 0 := not_not.mp unfit
    rw [step, State.removeElement, empty, hashcode_zero]
    rfl
  | getElement pszName =>
    have empty : s.iSize = 0 := not_not.mp unfit
    rw [step, State.getElement, empty, hashcode_zero]
    rfl
  | setSize _ _ => exact absurd trivial unfit
  | rehash _ => exact absurd trivial unfit
  | clear => exact absurd trivial unfit

theorem runPromised_iff_from (ops : List Op) (inv : Inv s b hs) (offered : RunOffered s ops) :
    RunPromised s (hs.map pairOf) ops ↔ RunFits s ops := by
  induction ops generalizing s b hs with
  | nil => exact Iff.rfl
  | cons op ops ih =>
    by_cases fits : StepFits s op
    · obtain ⟨s', b', hs', stepped, inv', table⟩ := step_spec inv offered.1 fits
      have rest := ih inv' (offered.2 s' _ stepped)
      rw [table] at rest
      constructor
      · rintro ⟨t, stepped', -, -, later⟩
        obtain ⟨rfl, -⟩ := Prod.mk.inj (Option.some.inj (stepped.symm.trans stepped'))
        refine ⟨fits, fun t' answer again => ?_⟩
        obtain ⟨rfl, -⟩ := Prod.mk.inj (Option.some.inj (stepped.symm.trans again))
        exact rest.mp later
      · rintro ⟨-, later⟩
        refine ⟨s', stepped, ?_, ?_, rest.mpr (later s' _ stepped)⟩
        · rw [← table, List.length_map, inv'.count]
        · rw [← table, List.length_map, inv'.entryCount]
    · constructor
      · rintro ⟨s', stepped, -⟩
        exact absurd (stepped.symm.trans (step_none fits)) (by simp)
      · exact fun here => absurd here.1 fits

/-- The table is a map exactly over the runs that look for names only while it has slots. -/
theorem hashtableLookup_promised_iff (iInitialSize : ℕ) (ops : List Op)
    (offered : RunOffered (State.new iInitialSize) ops) :
    RunPromised (State.new iInitialSize) [] ops ↔ RunFits (State.new iInitialSize) ops :=
  runPromised_iff_from ops (inv_new iInitialSize) offered

def nameA : Name := ⟨[97], by simp, by simp⟩

/-- A name is entered and looked for; then the table is cleared and gets slots again. -/
def filledAndCleared : List Op :=
  [.addElement nameA 7 0 0, .getElement nameA, .clear, .setSize 3 id]

theorem filledAndCleared_offered : RunOffered (State.new 1) filledAndCleared := by
  refine ⟨⟨rfl, fun list mem => by simp [State.new] at mem⟩, ?_⟩
  rintro _ _ ⟨⟩
  refine ⟨trivial, ?_⟩
  rintro _ _ ⟨⟩
  refine ⟨trivial, ?_⟩
  rintro _ _ ⟨⟩
  exact ⟨Function.injective_id, fun _ _ _ => trivial⟩

theorem filledAndCleared_fits : RunFits (State.new 1) filledAndCleared := by
  refine ⟨Nat.one_ne_zero, ?_⟩
  rintro _ _ ⟨⟩
  refine ⟨Nat.one_ne_zero, ?_⟩
  rintro _ _ ⟨⟩
  refine ⟨trivial, ?_⟩
  rintro _ _ ⟨⟩
  exact ⟨trivial, fun _ _ _ => trivial⟩

theorem hashtableLookup_promised_filledAndCleared :
    RunPromised (State.new 1) [] filledAndCleared :=
  (hashtableLookup_promised_iff 1 filledAndCleared filledAndCleared_offered).mpr
    filledAndCleared_fits

/-- A name is looked for in a table that was cleared. -/
def clearedAndSearched : List Op := [.clear, .getElement nameA]

theorem clearedAndSearched_not_promised :
    ¬ ∀ (iInitialSize : ℕ) (ops : List Op), RunOffered (State.new iInitialSize) ops →
      RunPromised (State.new iInitialSize) [] ops := by
  intro all
  have offered : RunOffered (State.new 1) clearedAndSearched :=
    ⟨trivial, fun _ _ _ => ⟨trivial, fun _ _ _ => trivial⟩⟩
  have fits := (runPromised_iff_from clearedAndSearched (inv_new 1) offered).mp
    (all 1 clearedAndSearched offered)
  exact (fits.2 _ _ rfl).1 rfl

end Odin32.HashtableLookup
