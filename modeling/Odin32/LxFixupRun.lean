import Odin32.LxFixupTable
import Mathlib.Data.List.Forall2

/-! # Fixup records page by page

What a sequence of pages leaves in the two tables. Every call adds one record to the records
of its page; the last record that crosses the end of the page is repeated in front of the next
ones. The records say what the calls asked for unless the two flags for wide values exclude
each other. -/

set_option autoImplicit false

namespace Odin32.LxFixupRecords
open ByteMemory ByteTable Word LxNames LxPages LxFixups LxEntries

inductive Call where
  | offset (offSource ulTarget : ℕ)
  | ordImport (offSource ulModuleOrdinal ulFunctionOrdinal : ℕ) (pszModuleName : Option CStr)
  | nameImport (offSource ulModuleOrdinal : ℕ) (pszFnName : CStr) (pszModuleName : Option CStr)

def Call.offSource : Call → ℕ
  | .offset offSource _ => offSource
  | .ordImport offSource _ _ _ => offSource
  | .nameImport offSource _ _ _ => offSource

def Call.run (pe : PeImage) (opt : ImportOptions) (mem : Memory) (st : Fixups) :
    Call → Except Failure Fixups
  | .offset offSource ulTarget => add32OffsetFixup pe mem st offSource ulTarget
  | .ordImport offSource ulModuleOrdinal ulFunctionOrdinal pszModuleName =>
    add32OrdImportFixup opt mem st offSource ulModuleOrdinal ulFunctionOrdinal pszModuleName
  | .nameImport offSource ulModuleOrdinal pszFnName pszModuleName =>
    add32NameImportFixup opt mem st offSource ulModuleOrdinal pszFnName pszModuleName

structure Step where
  call : Call
  mem : Memory

structure Page where
  mem : Memory
  steps : List Step

def runSteps (pe : PeImage) (opt : ImportOptions) : List Step → Fixups → Except Failure Fixups
  | [], st => .ok st
  | s :: steps, st => do
    let next ← s.call.run pe opt s.mem st
    runSteps pe opt steps next

def runPages (pe : PeImage) (opt : ImportOptions) : List Page → Fixups → Except Failure Fixups
  | [], st => .ok st
  | p :: pages, st => do
    let entered ← addPageFixupEntry pe p.mem st false
    let next ← runSteps pe opt p.steps entered
    runPages pe opt pages next

/-- The pages of an image, with the final entry or still without it. -/
def makePages (pe : PeImage) (opt : ImportOptions) (pages : List Page) (final : Option Memory)
    (st : Fixups) : Except Failure Fixups := do
  let st ← runPages pe opt pages st
  match final with
  | none => .ok st
  | some mem => addPageFixupEntry pe mem st true

/-! ## What the calls ask for -/

inductive Referent where
  | address (ulTarget : ℕ)
  | ordinal (ulModuleOrdinal ulFunctionOrdinal : ℕ)
  | name (ulModuleOrdinal offFnName : ℕ)
deriving DecidableEq, Repr

structure Added where
  source : ℕ
  referent : Referent
deriving DecidableEq, Repr

/-- The referent of a call: the ordinal of the custom DLL where one stands in, and for a name
the offset that it gets in the table of names. -/
def Call.referent (opt : ImportOptions) (st : Fixups) : Call → Referent
  | .offset _ ulTarget => .address ulTarget
  | .ordImport _ ulModuleOrdinal ulFunctionOrdinal pszModuleName =>
    match customOrdinal opt pszModuleName (decimalText ulFunctionOrdinal) with
    | .ok (some ordinal) => .ordinal ulModuleOrdinal ordinal
    | _ => .ordinal ulModuleOrdinal ulFunctionOrdinal
  | .nameImport _ ulModuleOrdinal pszFnName pszModuleName =>
    match customOrdinal opt pszModuleName pszFnName.val with
    | .ok (some ordinal) => .ordinal ulModuleOrdinal ordinal
    | _ => .name ulModuleOrdinal (nextName st.names)

def addedSteps (pe : PeImage) (opt : ImportOptions) : List Step → Fixups → List Added
  | [], _ => []
  | s :: steps, st => ⟨s.call.offSource, s.call.referent opt st⟩ ::
    match s.call.run pe opt s.mem st with
    | .error _ => []
    | .ok next => addedSteps pe opt steps next

def addedPages (pe : PeImage) (opt : ImportOptions) : List Page → Fixups → List (List Added)
  | [], _ => []
  | p :: pages, st =>
    match addPageFixupEntry pe p.mem st false with
    | .error _ => []
    | .ok entered => addedSteps pe opt p.steps entered ::
      match runSteps pe opt p.steps entered with
      | .error _ => []
      | .ok next => addedPages pe opt pages next

namespace Added

/-- The four bytes of the fixup do not all lie in the page. -/
def crosses (a : Added) : Bool := decide (0x1000 - 4 < a.source)

/-- The arguments are an offset into a page, a module number of a word and `ULONG`s. -/
def InRange (a : Added) : Prop :=
  a.source < 0x1000 ∧ match a.referent with
    | .address ulTarget => ulTarget < 0x100000000
    | .ordinal m n => m ≤ 65535 ∧ n < 0x100000000
    | .name m n => m ≤ 65535 ∧ n < 0x100000000

/-- A module number of two bytes comes with an ordinal or an offset of two bytes. -/
def Narrow (a : Added) : Prop :=
  match a.referent with
  | .address _ => True
  | .ordinal m n => m ≤ 255 ∨ n ≤ 65535
  | .name m n => m ≤ 255 ∨ n ≤ 65535

instance : DecidablePred InRange
  | ⟨_, .address _⟩ => inferInstanceAs (Decidable (_ ∧ _))
  | ⟨_, .ordinal _ _⟩ => inferInstanceAs (Decidable (_ ∧ _ ∧ _))
  | ⟨_, .name _ _⟩ => inferInstanceAs (Decidable (_ ∧ _ ∧ _))

instance : DecidablePred Narrow
  | ⟨_, .address _⟩ => inferInstanceAs (Decidable True)
  | ⟨_, .ordinal _ _⟩ => inferInstanceAs (Decidable (_ ∨ _))
  | ⟨_, .name _ _⟩ => inferInstanceAs (Decidable (_ ∨ _))

/-- The record that the functions make. -/
def record (pe : PeImage) (a : Added) : Option Record :=
  match a.referent with
  | .address ulTarget => (targetOf pe ulTarget).map fun t =>
    ⟨.internal, decide (255 < t.1), decide (65535 < t.2), a.source, t.1, t.2⟩
  | .ordinal m n => some ⟨.ordinal, decide (255 < m), decide (m ≤ 255 ∧ 65535 < n), a.source, m, n⟩
  | .name m n => some ⟨.name, decide (255 < m), decide (m ≤ 255 ∧ 65535 < n), a.source, m, n⟩

end Added

/-- The offset into the object is that of the address. -/
def PeImage.Addresses (pe : PeImage) (number offset ulTarget : ℕ) : Prop :=
  0 < number ∧ ∃ o, pe.paObjects[number - 1]? = some o ∧
    add32 (add32 pe.ulImageBase o.ulRVA) offset = ulTarget

/-- A fixup means what was added, `shift` bytes ahead. -/
def Means (pe : PeImage) (added : Added × ℕ) (f : Fixup) : Prop :=
  f.source = (added.1.source : ℤ) - added.2 ∧ match added.1.referent with
    | .address ulTarget => ∃ number offset,
      f.target = .object number offset ∧ pe.Addresses number offset ulTarget
    | .ordinal m n => f.target = .ordinal m n
    | .name m n => f.target = .name m n

/-- What is to be read from each page: the fixups that cross the end of the page before, a page
further on, and those of the page. -/
def expected : List Added → List (List Added) → List (List (Added × ℕ))
  | _, [] => []
  | before, page :: pages =>
    (before.map (·, 0x1000) ++ page.map (·, 0)) :: expected (page.filter Added.crosses) pages

def Decodes (pe : PeImage) (st : Fixups) (added : List (List Added)) : Prop :=
  ∀ k page, (expected [] added)[k]? = some page →
    ∃ fixups, st.page k = some fixups ∧ List.Forall₂ (Means pe) page fixups

/-! ## One record -/

theorem short_of_lt {n : ℕ} (h : n < 0x8000) : short n = n := if_pos h

theorem seekObject_at {ulRVA i j : ℕ} {paObjects rest : List LxObject} {o : LxObject}
    (found : seekObject ulRVA i paObjects = (j, o :: rest)) :
    i ≤ j ∧ paObjects[j - i]? = some o := by
  induction paObjects generalizing i with
  | nil => cases found
  | cons o' rest' ih =>
    rw [seekObject] at found
    split at found
    · obtain ⟨below, at_j⟩ := ih found
      refine ⟨by omega, ?_⟩
      rw [show j - i = j - (i + 1) + 1 by omega, List.getElem?_cons_succ]
      exact at_j
    · cases found
      exact ⟨Nat.le_refl _, by simp⟩

theorem addresses_targetOf {pe : PeImage} {ulTarget number offset : ℕ}
    (found : targetOf pe ulTarget = some (number, offset)) (word : ulTarget < 0x100000000) :
    pe.Addresses number offset ulTarget ∧ number ≤ 65535 ∧ offset < 0x100000000 := by
  unfold targetOf at found
  split at found
  · cases found
  · rename_i above
    cases sought : seekObject (ulTarget - pe.ulImageBase) 0 pe.paObjects with
    | mk iObj rest =>
      cases rest with
      | nil => simp [sought] at found
      | cons o rest =>
        obtain ⟨-, at_obj⟩ := seekObject_at sought
        have small := (List.getElem?_eq_some_iff.1 at_obj).1
        have counted := pe.counted
        simp only [sought] at found
        split at found
        · obtain ⟨rfl, rfl⟩ := Prod.mk.inj (Option.some.inj found)
          -- all objects are one, which begins with the header
          obtain ⟨first, at_first⟩ : ∃ first, pe.paObjects.head? = some first := by
            cases named : pe.paObjects with
            | nil => simp [named] at small
            | cons first tail => exact ⟨first, rfl⟩
          have zero := pe.header first at_first
          refine ⟨⟨Nat.one_pos, first, ?_, ?_⟩, by omega, by omega⟩
          · rw [← at_first, List.head?_eq_getElem?]
          · rw [zero]
            unfold add32 u32
            omega
        · obtain ⟨rfl, rfl⟩ := Prod.mk.inj (Option.some.inj found)
          have rva := pe.words o (List.mem_of_getElem? at_obj)
          refine ⟨⟨Nat.succ_pos _, o, at_obj, ?_⟩, by omega, u32_lt _⟩
          unfold add32 sub32 u32
          omega

theorem mod_module {m : ℕ} (h : m ≤ 65535) :
    m % 0x100 ^ (if decide (255 < m) = true then 2 else 1) = m := by
  apply Nat.mod_eq_of_lt
  simp only [decide_eq_true_eq]
  split <;> omega

theorem mod_import {m n : ℕ} (h : n < 0x100000000) :
    n % 0x100 ^ (if decide (m ≤ 255 ∧ 65535 < n) = true then 4 else 2) = n ↔
      m ≤ 255 ∨ n ≤ 65535 := by
  simp only [decide_eq_true_eq]
  constructor
  · intro same
    by_contra wide
    rw [if_neg (by omega)] at same
    omega
  · intro narrow
    apply Nat.mod_eq_of_lt
    split <;> omega

theorem record_fields {pe : PeImage} {a : Added} {r : Record} (made : a.record pe = some r)
    (range : a.InRange) : r.soff = a.source ∧ r.objmod % 0x100 ^ r.cbMod = r.objmod ∧
      (r.target % 0x100 ^ r.cbTarget = r.target ↔ a.Narrow) := by
  obtain ⟨source, referent⟩ := a
  cases referent with
  | address ulTarget =>
    simp only [Added.record, Option.map_eq_some_iff] at made
    obtain ⟨⟨number, offset⟩, found, rfl⟩ := made
    obtain ⟨-, number_le, offset_lt⟩ := addresses_targetOf found range.2
    refine ⟨rfl, mod_module number_le, fun _ => trivial, fun _ => ?_⟩
    apply Nat.mod_eq_of_lt
    simp only [Record.cbTarget, decide_eq_true_eq]
    split <;> omega
  | ordinal m n =>
    obtain rfl := Option.some.inj made
    exact ⟨rfl, mod_module range.2.1, mod_import range.2.2⟩
  | name m n =>
    obtain rfl := Option.some.inj made
    exact ⟨rfl, mod_module range.2.1, mod_import range.2.2⟩

theorem means_iff {pe : PeImage} {a : Added} {r : Record} {soff shift : ℕ}
    (made : a.record pe = some r) (range : a.InRange)
    (source : short (soff % 0x10000) = (a.source : ℤ) - shift) :
    Means pe (a, shift) ({ r with soff := soff } : Record).fixup ↔ a.Narrow := by
  obtain ⟨-, objmod, target⟩ := record_fields made range
  have fixup : ({ r with soff := soff } : Record).fixup =
      ⟨(a.source : ℤ) - shift, r.ref.target r.objmod (r.target % 0x100 ^ r.cbTarget)⟩ := by
    rw [← source, ← objmod]
    simp only [Record.fixup, Record.cbMod, Nat.mod_mod]
    rfl
  rw [fixup, ← target, Means]
  obtain ⟨src, referent⟩ := a
  cases referent with
  | address ulTarget =>
    simp only [Added.record, Option.map_eq_some_iff] at made
    obtain ⟨⟨number, offset⟩, found, rfl⟩ := made
    obtain ⟨at_target, -⟩ := addresses_targetOf found range.2
    constructor
    · intro _
      exact target.2 trivial
    · intro whole
      exact ⟨rfl, number, offset, congrArg (Target.object number) whole, at_target⟩
  | ordinal m n =>
    obtain rfl := Option.some.inj made
    simp [RefType.target]
  | name m n =>
    obtain rfl := Option.some.inj made
    simp [RefType.target]

theorem means_page {pe : PeImage} {a : Added} {r : Record} (made : a.record pe = some r)
    (range : a.InRange) : Means pe (a, 0) r.fixup ↔ a.Narrow := by
  have soff := (record_fields made range).1
  have inside := range.1
  have source : short (r.soff % 0x10000) = (a.source : ℤ) - (0 : ℕ) := by
    rw [soff, short_of_lt (by omega)]
    omega
  exact means_iff made range source

theorem means_moved {pe : PeImage} {a : Added} {r : Record} (made : a.record pe = some r)
    (range : a.InRange) (crosses : a.crosses = true) :
    Means pe (a, 0x1000) r.moved.fixup ↔ a.Narrow := by
  have soff := (record_fields made range).1
  have inside := range.1
  have far := of_decide_eq_true crosses
  have source : short ((r.soff % 0x10000 + 0xf000) % 0x10000) = (a.source : ℤ) - (0x1000 : ℕ) := by
    rw [soff, short, if_neg (by omega)]
    omega
  exact means_iff made range source

/-! ## What is in the tables -/

/-- The pages have these records, and `cross` is kept for the next page. -/
structure Holds (st : Fixups) (pages : List (List Record)) (cross : Option Record) : Prop where
  table : st.records.Table st.offCurFixupRec (pages.flatten.flatMap Record.bytes)
  starts : st.paulFixupPageTable = (List.range pages.length).map fun k =>
    ((pages.take k).flatten.flatMap Record.bytes).length
  cross : st.pvCrossPageFixup = cross.map Record.bytes

theorem holds_init (fresh : Mem) (names : NameTable) : Holds (.init fresh names) [] none where
  table := Block.none_table fresh
  starts := rfl
  cross := rfl

theorem Holds.snoc_record {st next : Fixups} {pages : List (List Record)} {page : List Record}
    {cross cross' : Option Record} {r : Record} (holds : Holds st (pages ++ [page]) cross)
    (table : next.records.Table next.offCurFixupRec
      ((pages ++ [page]).flatten.flatMap Record.bytes ++ r.bytes))
    (same : next.paulFixupPageTable = st.paulFixupPageTable)
    (kept : next.pvCrossPageFixup = cross'.map Record.bytes) :
    Holds next (pages ++ [page ++ [r]]) cross' where
  table := by simpa using table
  starts := by
    rw [same, holds.starts, List.length_append, List.length_append]
    apply List.map_congr_left
    intro k hk
    have below := List.mem_range.1 hk
    rw [List.length_singleton] at below
    rw [List.take_append_of_le_length (by omega), List.take_append_of_le_length (by omega)]
  cross := kept

theorem Holds.snoc_page {st next : Fixups} {pages : List (List Record)} {page : List Record}
    {cross : Option Record} (holds : Holds st pages cross)
    (table : next.records.Table next.offCurFixupRec
      (pages.flatten.flatMap Record.bytes ++ page.flatMap Record.bytes))
    (entered : next.paulFixupPageTable = st.paulFixupPageTable ++ [st.offCurFixupRec])
    (free : next.pvCrossPageFixup = none) : Holds next (pages ++ [page]) none where
  table := by simpa using table
  starts := by
    rw [entered, holds.starts, List.length_append, List.length_singleton, List.range_succ,
      List.map_append, ← holds.table.length]
    congr 1
    · apply List.map_congr_left
      intro k hk
      have below := List.mem_range.1 hk
      rw [List.take_append_of_le_length (by omega)]
    · simp
  cross := free

theorem pageSlice_eq {st : Fixups} {pages : List (List Record)} {cross : Option Record}
    (holds : Holds st pages cross) {k : ℕ} {page : List Record} (at_k : pages[k]? = some page) :
    st.pageSlice k = page.flatMap Record.bytes := by
  have below := (List.getElem?_eq_some_iff.1 at_k).1
  have upto : pages.take (k + 1) = pages.take k ++ [page] := by
    rw [List.take_add_one, at_k]
    rfl
  have split : pages = pages.take k ++ [page] ++ pages.drop (k + 1) := by
    rw [← upto, List.take_append_drop]
  have start : st.paulFixupPageTable.getD k st.offCurFixupRec =
      ((pages.take k).flatten.flatMap Record.bytes).length := by
    rw [holds.starts, List.getD_eq_getElem?_getD, List.getElem?_map, List.getElem?_range below]
    rfl
  have next : st.paulFixupPageTable.getD (k + 1) st.offCurFixupRec =
      ((pages.take (k + 1)).flatten.flatMap Record.bytes).length := by
    by_cases more : k + 1 < pages.length
    · rw [holds.starts, List.getD_eq_getElem?_getD, List.getElem?_map, List.getElem?_range more]
      rfl
    · rw [holds.starts, List.getD_eq_default _ _ (by simpa using more), List.take_of_length_le
        (by omega), holds.table.length]
  have table := holds.table
  rw [split] at table
  simp only [List.flatten_append, List.flatMap_append, List.flatten_cons, List.flatten_nil,
    List.append_nil] at table
  have middle := table.slice_middle
  rw [Fixups.pageSlice, start, next, upto]
  simpa using middle

theorem page_eq {st : Fixups} {pages : List (List Record)} {cross : Option Record}
    (holds : Holds st pages cross) {k : ℕ} {page : List Record} (at_k : pages[k]? = some page) :
    st.page k = some (page.map Record.fixup) := by
  rw [Fixups.page, pageSlice_eq holds at_k]
  exact Record.decodeRecords_flatMap page (Nat.le_refl _)

/-! ## What the functions do to the tables -/

theorem allocated_eq {x : Option Block} {b : Block} (h : allocated x = .ok b) : x = some b := by
  cases x with
  | none => cases h
  | some b' => exact congrArg some (Except.ok.inj h)

theorem ok_of_bind {α β : Type} {x : Except Failure α} {f : α → Except Failure β} {r : β}
    (done : (x >>= f) = .ok r) : ∃ a, x = .ok a ∧ f a = .ok r := by
  cases x with
  | error e => cases done
  | ok a => exact ⟨a, rfl, done⟩

theorem pageTableRoom_eq {pe : PeImage} {room fLast : Bool} {st next : Fixups}
    (done : pageTableRoom pe room fLast st = .ok next) :
    ∃ n, next = { st with cFPTEAllocated := n } := by
  unfold pageTableRoom at done
  split at done
  · exact ⟨st.cFPTEAllocated, (Except.ok.inj done).symm⟩
  · split at done
    · simp only at done
      split at done
      · cases done
      · split at done
        · exact ⟨_, (Except.ok.inj done).symm⟩
        · cases done
    · cases done

theorem addPageFixupEntry_holds {pe : PeImage} {mem : Memory} {st next : Fixups}
    {pages : List (List Record)} {cross : Option Record} (holds : Holds st pages cross)
    (done : addPageFixupEntry pe mem st false = .ok next) :
    Holds next (pages ++ [cross.toList]) none := by
  obtain ⟨roomy, room, done⟩ := ok_of_bind done
  obtain ⟨n, rfl⟩ := pageTableRoom_eq room
  have kept := holds.cross
  cases cross with
  | none =>
    simp only [kept, Option.map_none] at done
    obtain rfl := Except.ok.inj done
    exact holds.snoc_page (by simpa using holds.table) rfl rfl
  | some r =>
    simp only [kept, Option.map_some, Bool.false_eq_true, if_false] at done
    obtain ⟨b, grown, done⟩ := ok_of_bind done
    obtain rfl := Except.ok.inj done
    have size := r.size_le
    have len := r.length_bytes
    obtain ⟨table, room, -⟩ := holds.table.allocateMore (by omega) (by omega) (allocated_eq grown)
    exact holds.snoc_page (by simpa using table.put room) rfl rfl

theorem addPageFixupEntry_last {pe : PeImage} {mem : Memory} {st next : Fixups}
    (done : addPageFixupEntry pe mem st true = .ok next) (k : ℕ) : next.page k = st.page k := by
  obtain ⟨roomy, room, done⟩ := ok_of_bind done
  obtain ⟨n, rfl⟩ := pageTableRoom_eq room
  cases kept : st.pvCrossPageFixup with
  | some record =>
    simp only [kept, if_true] at done
    cases done
  | none =>
    simp only [kept] at done
    obtain rfl := Except.ok.inj done
    have same : ∀ j, (st.paulFixupPageTable ++ [st.offCurFixupRec]).getD j st.offCurFixupRec =
        st.paulFixupPageTable.getD j st.offCurFixupRec := by
      intro j
      rcases Nat.lt_trichotomy j st.paulFixupPageTable.length with below | rfl | above
      · rw [List.getD_append _ _ _ _ below]
      · simp
      · rw [List.getD_eq_default _ _ (by simp; omega), List.getD_eq_default _ _ (by omega)]
    simp only [Fixups.page, Fixups.pageSlice, same]

/-- The record that a page keeps for the next one. -/
def crossing (cross : Option Record) (r : Record) : Option Record :=
  if 0x1000 - 4 < r.soff then some r.moved else cross

theorem commitFixup_holds {mem : Memory} {st next : Fixups} {b : Block} {names : NameTable}
    {pages : List (List Record)} {page : List Record} {cross : Option Record} {r : Record}
    (holds : Holds st (pages ++ [page]) cross)
    (table : b.Table st.offCurFixupRec ((pages ++ [page]).flatten.flatMap Record.bytes))
    (room : st.offCurFixupRec + 10 ≤ b.allocated)
    (done : commitFixup mem r.soff r.size { st with
      records := fillRecord r.flags r.soff r.objmod r.target st.offCurFixupRec b
      names := names } = .ok next) :
    Holds next (pages ++ [page ++ [r]]) (crossing cross r) := by
  have filled := r.fillRecord_table table room
  unfold commitFixup at done
  simp only at done
  split at done
  · rename_i far
    split at done
    · obtain rfl := Except.ok.inj done
      refine holds.snoc_record filled rfl ?_
      have written : slice (fillRecord r.flags r.soff r.objmod r.target st.offCurFixupRec b).bytes
          st.offCurFixupRec r.size = r.bytes := by
        have middle := (by simpa using filled :
          (fillRecord r.flags r.soff r.objmod r.target st.offCurFixupRec b).Table
            (st.offCurFixupRec + r.size)
            ((pages ++ [page]).flatten.flatMap Record.bytes ++ r.bytes ++ [])).slice_middle
        rwa [table.length, r.length_bytes] at middle
      simp only [written, crossing, if_pos far, Option.map_some, r.crossPageRecord_bytes]
    · cases done
  · rename_i near
    obtain rfl := Except.ok.inj done
    refine holds.snoc_record filled rfl ?_
    rw [crossing, if_neg near]
    exact holds.cross

theorem offsetFlags_eq (soff number offset : ℕ) :
    let r : Record :=
      ⟨.internal, decide (255 < number), decide (65535 < offset), soff, number, offset⟩
    offsetFlags number offset = (r.flags, r.size) := by
  by_cases big : 255 < number <;> by_cases far : 65535 < offset <;>
    simp [offsetFlags, big, far, Record.flags, RefType.flags, RefType.nrr, Record.size,
      Record.cbMod, Record.cbTarget]

theorem importFlags_eq (ref : RefType) (soff m n : ℕ) :
    let r : Record := ⟨ref, decide (255 < m), decide (m ≤ 255 ∧ 65535 < n), soff, m, n⟩
    importFlags ref.nrr m n = (r.flags, r.size) := by
  by_cases big : 255 < m
  · simp [importFlags, big, Nat.not_le.2 big, Record.flags, RefType.flags, Record.size,
      Record.cbMod, Record.cbTarget]
  · by_cases far : 65535 < n <;>
      simp [importFlags, big, far, Nat.not_lt.1 big, Record.flags, RefType.flags, Record.size,
        Record.cbMod, Record.cbTarget]

section Calls

variable {pe : PeImage} {opt : ImportOptions} {mem : Memory} {st next : Fixups}
  {pages : List (List Record)} {page : List Record} {cross : Option Record}

theorem grown_table {b : Block} (holds : Holds st (pages ++ [page]) cross)
    (grown : allocated (st.records.allocateMore (st.offCurFixupRec + 10) 0x1000 0x1000
      mem.records) = .ok b) :
    b.Table st.offCurFixupRec ((pages ++ [page]).flatten.flatMap Record.bytes) ∧
      st.offCurFixupRec + 10 ≤ b.allocated := by
  obtain ⟨table, room, -⟩ := holds.table.allocateMore (by omega) (by omega) (allocated_eq grown)
  exact ⟨table, room⟩

theorem add32OffsetFixup_holds {offSource ulTarget : ℕ}
    (holds : Holds st (pages ++ [page]) cross)
    (done : add32OffsetFixup pe mem st offSource ulTarget = .ok next) :
    ∃ r, (⟨offSource, .address ulTarget⟩ : Added).record pe = some r ∧
      Holds next (pages ++ [page ++ [r]]) (crossing cross r) := by
  obtain ⟨b, grown, done⟩ := ok_of_bind done
  obtain ⟨table, room⟩ := grown_table holds grown
  cases found : targetOf pe ulTarget with
  | none =>
    simp only [found] at done
    cases done
  | some t =>
    simp only [found, offsetFlags_eq offSource t.1 t.2] at done
    exact ⟨_, by simp only [Added.record, found, Option.map_some],
      commitFixup_holds (r := ⟨.internal, _, _, offSource, t.1, t.2⟩) holds table room done⟩

theorem addImportRecord_holds (ref : RefType) {offSource m n : ℕ} {b : Block} {names : NameTable}
    (holds : Holds st (pages ++ [page]) cross)
    (table : b.Table st.offCurFixupRec ((pages ++ [page]).flatten.flatMap Record.bytes))
    (room : st.offCurFixupRec + 10 ≤ b.allocated)
    (done : addImportRecord mem ref.nrr offSource m n b { st with names := names } = .ok next) :
    let r : Record := ⟨ref, decide (255 < m), decide (m ≤ 255 ∧ 65535 < n), offSource, m, n⟩
    Holds next (pages ++ [page ++ [r]]) (crossing cross r) := by
  simp only [addImportRecord, importFlags_eq ref offSource m n] at done
  exact commitFixup_holds (r := ⟨ref, _, _, offSource, m, n⟩) holds table room done

theorem addOrdinalRecord_holds {offSource m n : ℕ} (holds : Holds st (pages ++ [page]) cross)
    (done : addOrdinalRecord mem st offSource m n = .ok next) :
    ∃ r, (⟨offSource, .ordinal m n⟩ : Added).record pe = some r ∧
      Holds next (pages ++ [page ++ [r]]) (crossing cross r) := by
  obtain ⟨b, grown, done⟩ := ok_of_bind done
  obtain ⟨table, room⟩ := grown_table holds grown
  exact ⟨_, rfl, addImportRecord_holds .ordinal holds table room done⟩

theorem addNameRecord_holds {offSource m : ℕ} {pszFnName : CStr}
    (holds : Holds st (pages ++ [page]) cross)
    (done : addNameRecord mem st offSource m pszFnName = .ok next) :
    ∃ r, (⟨offSource, .name m (nextName st.names)⟩ : Added).record pe = some r ∧
      Holds next (pages ++ [page ++ [r]]) (crossing cross r) := by
  obtain ⟨b, grown, done⟩ := ok_of_bind done
  obtain ⟨table, room⟩ := grown_table holds grown
  cases named : addImportFunctionName mem.names st.names pszFnName with
  | error e =>
    simp only [named] at done
    cases done
  | ok p =>
    obtain ⟨offFnName, names⟩ := p
    obtain rfl : offFnName = nextName st.names := addImportFunctionName_fst named
    simp only [named] at done
    exact ⟨_, rfl, addImportRecord_holds .name holds table room done⟩

theorem Call.run_holds {call : Call} (holds : Holds st (pages ++ [page]) cross)
    (done : call.run pe opt mem st = .ok next) :
    ∃ r, (⟨call.offSource, call.referent opt st⟩ : Added).record pe = some r ∧
      Holds next (pages ++ [page ++ [r]]) (crossing cross r) := by
  cases call with
  | offset offSource ulTarget => exact add32OffsetFixup_holds holds done
  | ordImport offSource m n pszModuleName =>
    obtain ⟨custom, found, done⟩ := ok_of_bind done
    cases custom with
    | some ordinal =>
      simp only [Call.referent, found]
      exact addOrdinalRecord_holds holds done
    | none =>
      simp only [Call.referent, found]
      exact addOrdinalRecord_holds holds done
  | nameImport offSource m pszFnName pszModuleName =>
    obtain ⟨custom, found, done⟩ := ok_of_bind done
    cases custom with
    | some ordinal =>
      simp only [Call.referent, found]
      exact addOrdinalRecord_holds holds done
    | none =>
      simp only [Call.referent, found]
      exact addNameRecord_holds holds done

end Calls

end Odin32.LxFixupRecords
