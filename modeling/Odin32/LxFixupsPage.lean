import Mathlib.Tactic.IntervalCases
import Odin32.LxImageRead

/-! # Fixups of one page

On a page filled from the image, every entry of the relocation directory acts as a
patch of the bytes its fixup has on the page, and the loops of `applyFixups` are the
fold of these patches over all fixups of the module. -/

set_option autoImplicit false

namespace Odin32.LxFixupsPage
open Odin32.Word Odin32.ByteMemory Odin32.LxPages Odin32.LxFixups Odin32.LxImage
open Odin32.LxImageRead

/-- A fixup of one of the three types, inside the image. -/
structure Supported (pe : PeModule) (f : Fixup) : Prop where
  type : f.fType = imageRelBasedHighLow ∨ f.fType = imageRelBasedHigh ∨ f.fType = imageRelBasedLow
  inside : f.ulRVA + f.size ≤ imageEnd pe.paObjects

/-- A page of the image. -/
structure IsPage (pe : PeModule) (ulRVAPage : ℕ) : Prop where
  aligned : 0x1000 ∣ ulRVAPage
  inside : ulRVAPage + 0x1000 ≤ imageEnd pe.paObjects

/-- The offsets on a page at which a fixup has bytes. -/
def touched (ulRVAPage : ℕ) (f : Fixup) : Set ℕ :=
  { i | i < 0x1000 ∧ f.ulRVA ≤ ulRVAPage + i ∧ ulRVAPage + i < f.ulRVA + f.size }

theorem Supported.size {pe : PeModule} {f : Fixup} (h : Supported pe f) :
    (f.fType = imageRelBasedHighLow ∧ f.size = 4) ∨
    (f.fType = imageRelBasedHigh ∧ f.size = 2) ∨ (f.fType = imageRelBasedLow ∧ f.size = 2) := by
  rcases h.type with type | type | type
  · exact .inl ⟨type, by rw [Fixup.size, type]; rfl⟩
  · exact .inr (.inl ⟨type, by rw [Fixup.size, type]; rfl⟩)
  · exact .inr (.inr ⟨type, by rw [Fixup.size, type]; rfl⟩)

theorem Supported.size_le {pe : PeModule} {f : Fixup} (h : Supported pe f) :
    2 ≤ f.size ∧ f.size ≤ 4 := by
  rcases h.size with ⟨-, size⟩ | ⟨-, size⟩ | ⟨-, size⟩ <;> omega

/-! ## Targets -/

theorem resolveTarget_eq {pe : PeModule} (wf : WellFormed pe) (ul : ℕ) :
    resolveTarget pe ul = (objectAt pe (sub32 ul pe.ulImageBase)).map fun found =>
      sub32 (add32 (pe.oteBase found.1) (sub32 ul pe.ulImageBase)) found.2.ulRVA := by
  rw [resolveTarget, ← foundObject_eq_objectAt wf]
  rcases seekObject (sub32 ul pe.ulImageBase) 0 pe.paObjects with ⟨i, _ | ⟨o, rest⟩⟩
  · rfl
  · rfl

/-- All objects move by the same. -/
def Uniform (pe : PeModule) (delta : ℕ) : Prop :=
  if pe.fAllInOneObject then ∀ o, pe.paObjects.head? = some o → objectDelta pe 0 o = delta
  else ∀ k o, pe.paObjects[k]? = some o → objectDelta pe k o = delta

/-- When the loops may run with a value of `fDeltaOnly` for a page that moves by `delta`. -/
def Mode (pe : PeModule) (fDeltaOnly : Bool) (delta : ℕ) : Prop :=
  if fDeltaOnly then Uniform pe delta else pe.fAllInOneObject = false

theorem objectDelta_lt (pe : PeModule) (k : ℕ) (o : LxObject) :
    objectDelta pe k o < 0x100000000 := u32_lt _

theorem move_eq_add_delta {v base rva image : ℕ} (_ : rva < 0x100000000)
    (_ : image < 0x100000000) :
    sub32 (add32 base (sub32 v image)) rva = add32 v (sub32 (sub32 base rva) image) := by
  unfold sub32 add32 u32
  omega

theorem ulRVA_lt {pe : PeModule} (wf : WellFormed pe) {o : LxObject} (mem : o ∈ pe.paObjects) :
    o.ulRVA < 0x100000000 :=
  Nat.lt_of_le_of_lt (ulRVA_le_pagesEnd o) (wf.fits o mem)

theorem pointerValue_of_uniform {pe : PeModule} (wf : WellFormed pe) {delta v : ℕ}
    (uniform : Uniform pe delta) : pointerValue pe delta v = add32 v delta := by
  unfold pointerValue
  cases one : pe.fAllInOneObject with
  | true => rfl
  | false =>
    simp only [Uniform, one, Bool.false_eq_true, if_false] at uniform ⊢
    rcases found : objectAt pe (sub32 v pe.ulImageBase) with _ | ⟨k, o⟩
    · rfl
    · have get := objectAt_getElem found
      rw [← uniform k o get]
      exact move_eq_add_delta (ulRVA_lt wf (List.mem_of_getElem? get)) wf.imageBase

theorem resolveFixup_pointer {pe : PeModule} (wf : WellFormed pe) {fDeltaOnly : Bool}
    {delta v : ℕ} (mode : Mode pe fDeltaOnly delta) :
    (resolveFixup pe fDeltaOnly imageRelBasedHighLow v).getD (add32 v delta) =
      pointerValue pe delta v := by
  cases fDeltaOnly with
  | true => exact (pointerValue_of_uniform wf mode).symm
  | false =>
    have one : pe.fAllInOneObject = false := mode
    show (resolveTarget pe v).getD (add32 v delta) = pointerValue pe delta v
    rw [resolveTarget_eq wf, pointerValue, one]
    rcases objectAt pe (sub32 v pe.ulImageBase) with _ | ⟨k, o⟩
    · rfl
    · rfl

/-! ## One entry -/

/-- The value `applyFixup` computes for the second half of a fixup. -/
def valueFromBefore (pe : PeModule) (fDeltaOnly : Bool) (delta : ℕ) (f : Fixup) : ℕ :=
  let ul := word (image pe) f.ulRVA 4
  (resolveFixup pe fDeltaOnly f.fType ul).getD (addDelta f.fType ul delta 16)

/-- The value `applyFixup` computes for the first half of a fixup, from the bytes on
the page. -/
def valueIntoAfter (pe : PeModule) (fDeltaOnly : Bool) (delta : ℕ) (f : Fixup) (ul : ℕ) : ℕ :=
  (resolveFixup pe fDeltaOnly f.fType (word (image pe) f.ulRVA 4)).getD
    (addDelta f.fType ul delta 8)

/-- What an entry does to a page. -/
def pagePatch (pe : PeModule) (fDeltaOnly : Bool) (delta ulRVAPage : ℕ) (f : Fixup)
    (pvPage : Mem) : Mem :=
  if f.ulRVA < ulRVAPage + 0x1000 ∧ ulRVAPage < f.ulRVA + f.size then
    if f.ulRVA < ulRVAPage then
      copyBytes pvPage 0 (valueFromBefore pe fDeltaOnly delta f) (ulRVAPage - f.ulRVA)
        (f.ulRVA + f.size - ulRVAPage)
    else if ulRVAPage + 0x1000 < f.ulRVA + f.size then
      let n := ulRVAPage + 0x1000 - f.ulRVA
      copyBytes pvPage (f.ulRVA - ulRVAPage)
        (valueIntoAfter pe fDeltaOnly delta f (word pvPage (f.ulRVA - ulRVAPage) n)) 0 n
    else fixupCommon pe fDeltaOnly delta (f.ulRVA - ulRVAPage) f.fType pvPage
  else pvPage

section Entry

variable {pe : PeModule} {fDeltaOnly : Bool} {delta ulRVAPage virtualAddress typeOffset : ℕ}

theorem readAtRVA_word (wf : WellFormed pe) {r : ℕ} (h : r + 4 ≤ imageEnd pe.paObjects) :
    ∃ buffer, readAtRVA pe r 4 = .ok buffer ∧ word buffer 0 4 = word (image pe) r 4 := by
  obtain ⟨buffer, read, bytes⟩ := readAtRVA_ok wf h
  refine ⟨buffer, read, word_congr ?_⟩
  intro k hk
  rw [Nat.zero_add]
  exact bytes k hk

theorem fixupFromBefore_eq (wf : WellFormed pe) (page : IsPage pe ulRVAPage) {f : Fixup}
    {offFixup : ℕ} (hoff : f.ulRVA + 0x1000 = ulRVAPage + offFixup) (size : f.size ≤ 4)
    (before : f.ulRVA < ulRVAPage) (reach : ulRVAPage < f.ulRVA + f.size) (pvPage : Mem) :
    fixupFromBefore pe fDeltaOnly delta ulRVAPage offFixup f.fType pvPage =
      .ok (copyBytes pvPage 0 (valueFromBefore pe fDeltaOnly delta f) (ulRVAPage - f.ulRVA)
        (f.ulRVA + f.size - ulRVAPage)) := by
  have inside := page.inside
  have fits := imageEnd_lt (laid_of_wellFormed wf)
  have address : sub32 (add32 ulRVAPage offFixup) 0x1000 = f.ulRVA := by
    rw [add32_of_lt (by omega), sub32_of_le (by omega) (by omega)]
    omega
  have count : sub32 (add32 (acbFixupTypes f.fType) offFixup) 0x1000 =
      f.ulRVA + f.size - ulRVAPage := by
    show sub32 (add32 f.size offFixup) 0x1000 = f.ulRVA + f.size - ulRVAPage
    rw [add32_of_lt (by omega), sub32_of_le (by omega) (by omega)]
    omega
  obtain ⟨buffer, read, value⟩ := readAtRVA_word wf (r := f.ulRVA) (by omega)
  rw [fixupFromBefore, address, read, count,
    show 0x1000 - offFixup = ulRVAPage - f.ulRVA by omega]
  simp only [Except.map, value]
  rfl

theorem fixupIntoAfter_eq (wf : WellFormed pe) {f : Fixup} (supported : Supported pe f)
    {offFixup : ℕ} (hoff : f.ulRVA = ulRVAPage + offFixup) (inPage : offFixup < 0x1000)
    (pvPage : Mem) :
    fixupIntoAfter pe fDeltaOnly delta ulRVAPage offFixup f.fType pvPage =
      .ok (copyBytes pvPage (f.ulRVA - ulRVAPage)
        (valueIntoAfter pe fDeltaOnly delta f
          (word pvPage (f.ulRVA - ulRVAPage) (ulRVAPage + 0x1000 - f.ulRVA))) 0
        (ulRVAPage + 0x1000 - f.ulRVA)) := by
  have inside := supported.inside
  have fits := imageEnd_lt (laid_of_wellFormed wf)
  have offset : f.ulRVA - ulRVAPage = offFixup := by omega
  have count : ulRVAPage + 0x1000 - f.ulRVA = 0x1000 - offFixup := by omega
  rw [fixupIntoAfter, offset, count, valueIntoAfter, resolveFixup]
  by_cases resolve : (!fDeltaOnly && f.fType == imageRelBasedHighLow) = true
  · have size : f.size = 4 := by
      have : f.fType = imageRelBasedHighLow := by simp_all
      rw [Fixup.size, this]
      rfl
    have address : add32 ulRVAPage offFixup = f.ulRVA := by
      rw [add32_of_lt (by omega)]
      omega
    obtain ⟨buffer, read, value⟩ := readAtRVA_word wf (r := f.ulRVA) (by omega)
    simp only [if_pos resolve, address, read, Except.map, value]
  · simp only [if_neg resolve, Except.map]

theorem applyFixup_eq (wf : WellFormed pe) (page : IsPage pe ulRVAPage)
    (block : 0x1000 ∣ virtualAddress) (supported : Supported pe (fixupAt virtualAddress typeOffset))
    (pvPage : Mem) :
    applyFixup pe fDeltaOnly delta ulRVAPage virtualAddress typeOffset pvPage =
      .ok (pagePatch pe fDeltaOnly delta ulRVAPage (fixupAt virtualAddress typeOffset) pvPage) := by
  obtain ⟨f, hf⟩ : ∃ f, fixupAt virtualAddress typeOffset = f := ⟨_, rfl⟩
  have type : typeOffset / 0x1000 = f.fType := by rw [← hf]; rfl
  have start : virtualAddress + typeOffset % 0x1000 = f.ulRVA := by rw [← hf]; rfl
  rw [hf] at supported ⊢
  have hsize : acbFixupTypes f.fType = f.size := rfl
  have size := supported.size_le
  have inside := supported.inside
  have fits := imageEnd_lt (laid_of_wellFormed wf)
  have pageFits := page.inside
  obtain ⟨a, rfl⟩ := block
  obtain ⟨q, rfl⟩ := page.aligned
  have off_lt : typeOffset % 0x1000 < 0x1000 := Nat.mod_lt _ (by decide)
  have rva : add32 (typeOffset % 0x1000) (0x1000 * a) = f.ulRVA := by
    rw [add32_of_lt (by omega), Nat.add_comm]
    exact start
  have last : add32 f.ulRVA (f.size - 1) = f.ulRVA + (f.size - 1) := add32_of_lt (by omega)
  have fixupEnd : add32 f.ulRVA f.size = f.ulRVA + f.size := add32_of_lt (by omega)
  have pageEnd : add32 (0x1000 * q) 0x1000 = 0x1000 * q + 0x1000 := add32_of_lt (by omega)
  unfold applyFixup pagePatch
  simp only [type, rva, hsize, last, fixupEnd, pageEnd, cbFixupMax]
  by_cases touches : f.ulRVA < 0x1000 * q + 0x1000 ∧ 0x1000 * q < f.ulRVA + f.size
  · rw [if_pos (by omega), if_pos touches]
    by_cases before : f.ulRVA < 0x1000 * q
    · rw [if_pos before, if_pos before]
      exact fixupFromBefore_eq wf page (by omega) size.2 before touches.2 pvPage
    · rw [if_neg before, if_neg before]
      by_cases after : 0x1000 * q + 0x1000 < f.ulRVA + f.size
      · rw [if_pos after, if_pos after]
        exact fixupIntoAfter_eq wf supported (by omega) off_lt pvPage
      · rw [if_neg after, if_neg after, sub32_of_le (by omega) (by omega)]
  · rw [if_neg (by omega), if_neg touches]

end Entry

/-! ## Patches -/

theorem localOn_pagePatch (pe : PeModule) (fDeltaOnly : Bool) (delta ulRVAPage : ℕ) {f : Fixup}
    (supported : Supported pe f) :
    LocalOn (touched ulRVAPage f) (pagePatch pe fDeltaOnly delta ulRVAPage f) := by
  have size := supported.size_le
  unfold pagePatch
  by_cases touches : f.ulRVA < ulRVAPage + 0x1000 ∧ ulRVAPage < f.ulRVA + f.size
  · simp only [if_pos touches]
    by_cases before : f.ulRVA < ulRVAPage
    · simp only [if_pos before]
      have places : touched ulRVAPage f =
          { i | 0 ≤ i ∧ i < 0 + (f.ulRVA + f.size - ulRVAPage) } := by
        ext i
        simp only [touched, Set.mem_ofPred_eq]
        omega
      rw [places]
      exact localOn_copyBytes_const _ _ _ _
    simp only [if_neg before]
    by_cases after : ulRVAPage + 0x1000 < f.ulRVA + f.size
    · simp only [if_pos after]
      have places : touched ulRVAPage f = { i | f.ulRVA - ulRVAPage ≤ i ∧
          i < f.ulRVA - ulRVAPage + (ulRVAPage + 0x1000 - f.ulRVA) } := by
        ext i
        simp only [touched, Set.mem_ofPred_eq]
        omega
      rw [places]
      exact localOn_copyBytes_word _ _ (valueIntoAfter pe fDeltaOnly delta f)
    · simp only [if_neg after]
      have places : touched ulRVAPage f =
          { i | f.ulRVA - ulRVAPage ≤ i ∧ i < f.ulRVA - ulRVAPage + f.size } := by
        ext i
        simp only [touched, Set.mem_ofPred_eq]
        omega
      rw [places]
      rcases supported.size with ⟨type, hsize⟩ | ⟨type, hsize⟩ | ⟨type, hsize⟩
      · rw [hsize, type]
        exact localOn_copyBytes_word _ 4 fun ul =>
          (resolveFixup pe fDeltaOnly imageRelBasedHighLow ul).getD (add32 ul delta)
      · rw [hsize, type]
        exact localOn_copyBytes_word _ 2 fun ul => ul + delta / 2 ^ 16 % 0x10000
      · rw [hsize, type]
        exact localOn_copyBytes_word _ 2 fun ul => ul + delta % 0x10000
  · simp only [if_neg touches]
    have places : touched ulRVAPage f = ∅ := by
      ext i
      simp only [touched, Set.mem_ofPred_eq, Set.mem_empty_iff_false, iff_false]
      omega
    rw [places]
    exact LocalOn.id

theorem pagePatch_of_apart {pe : PeModule} {fDeltaOnly : Bool} {delta ulRVAPage : ℕ} {f : Fixup}
    (apart : f.ulRVA + f.size ≤ ulRVAPage ∨ ulRVAPage + 0x1000 ≤ f.ulRVA) (pvPage : Mem) :
    pagePatch pe fDeltaOnly delta ulRVAPage f pvPage = pvPage :=
  if_neg (by omega)

/-! ## The values on a page -/

section Values

variable {pe : PeModule} {fDeltaOnly : Bool} {delta ulRVAPage : ℕ} {f : Fixup}

theorem original_lt (pe : PeModule) {n : ℕ} (h : f.size = n) : f.original pe < 0x100 ^ n :=
  h ▸ word_lt _ _ _

theorem word_four_mod (pe : PeModule) (h : f.size ≤ 4) :
    word (image pe) f.ulRVA 4 % 0x100 ^ f.size = f.original pe := word_mod _ _ h

theorem fixupCommon_byte (wf : WellFormed pe) (mode : Mode pe fDeltaOnly delta)
    (hdelta : delta < 0x100000000) (supported : Supported pe f) {pvPage : Mem} {p i : ℕ}
    (hword : word pvPage p f.size = f.original pe) (hi : p ≤ i ∧ i < p + f.size) :
    fixupCommon pe fDeltaOnly delta p f.fType pvPage i =
      byteOf (fixupValue pe f.fType delta (f.original pe)) (i - p) := by
  rcases supported.size with ⟨type, size⟩ | ⟨type, size⟩ | ⟨type, size⟩
  · rw [size] at hword hi
    simp only [type, fixupCommon, fixupValue, hword]
    rw [copyBytes_of_mem hi, Nat.zero_add, resolveFixup_pointer wf mode]
  · rw [size] at hword hi
    simp only [type, fixupCommon, fixupValue, hword]
    rw [copyBytes_of_mem hi, Nat.zero_add,
      show delta / 2 ^ 16 % 0x10000 = delta / 0x10000 by omega]
  · rw [size] at hword hi
    simp only [type, fixupCommon, fixupValue, hword]
    rw [copyBytes_of_mem hi, Nat.zero_add]

theorem valueFromBefore_byte (wf : WellFormed pe) (mode : Mode pe fDeltaOnly delta)
    (supported : Supported pe f) {k : ℕ} (hk : k < f.size) :
    byteOf (valueFromBefore pe fDeltaOnly delta f) k =
      byteOf (fixupValue pe f.fType delta (f.original pe)) k := by
  have low := word_four_mod pe supported.size_le.2
  rcases supported.size with ⟨type, size⟩ | ⟨type, size⟩ | ⟨type, size⟩
  · have whole : word (image pe) f.ulRVA 4 = f.original pe := by rw [Fixup.original, size]
    simp only [valueFromBefore, type, fixupValue, addDelta, whole]
    rw [resolveFixup_pointer wf mode]
  · rw [size] at low hk
    simp only [valueFromBefore, type, fixupValue, addDelta]
    have plain : resolveFixup pe fDeltaOnly imageRelBasedHigh (word (image pe) f.ulRVA 4) = none := by
      simp [resolveFixup]
    rw [plain, Option.getD_none]
    apply byteOf_congr (n := 2) _ hk
    unfold add32 u32
    omega
  · rw [size] at low hk
    simp only [valueFromBefore, type, fixupValue, addDelta]
    have plain : resolveFixup pe fDeltaOnly imageRelBasedLow (word (image pe) f.ulRVA 4) = none := by
      simp [resolveFixup]
    rw [plain, Option.getD_none]
    apply byteOf_congr (n := 2) _ hk
    unfold add32 u32
    omega

theorem add32_mod_low {n : ℕ} (hn : n < 4) (v d : ℕ) :
    add32 (v % 0x100 ^ n) d % 0x100 ^ n = add32 v d % 0x100 ^ n := by
  unfold add32 u32
  interval_cases n <;> omega

/-- The first half of a fixup is right but for a `HIGH` one, which adds the delta
shifted by 8. -/
theorem valueIntoAfter_byte (wf : WellFormed pe) (mode : Mode pe fDeltaOnly delta)
    (supported : Supported pe f) {n k : ℕ} (hn : n < f.size) (hk : k < n) :
    byteOf (valueIntoAfter pe fDeltaOnly delta f (word (image pe) f.ulRVA n)) k =
      if f.fType = imageRelBasedHigh then byteOf (f.original pe + delta / 0x100) k
      else byteOf (fixupValue pe f.fType delta (f.original pe)) k := by
  have low : word (image pe) f.ulRVA n = f.original pe % 0x100 ^ n :=
    (word_mod _ _ (Nat.le_of_lt hn)).symm
  rw [low]
  rcases supported.size with ⟨type, size⟩ | ⟨type, size⟩ | ⟨type, size⟩
  · have whole : word (image pe) f.ulRVA 4 = f.original pe := by rw [Fixup.original, size]
    simp only [valueIntoAfter, type, fixupValue, addDelta, whole]
    rw [if_neg (by decide), ← resolveFixup_pointer wf mode]
    rcases resolveFixup pe fDeltaOnly imageRelBasedHighLow (f.original pe) with _ | target
    · exact byteOf_congr (add32_mod_low (by omega) _ _) hk
    · rfl
  · obtain rfl : n = 1 := by omega
    simp only [valueIntoAfter, type, addDelta, if_true]
    have plain : resolveFixup pe fDeltaOnly imageRelBasedHigh (word (image pe) f.ulRVA 4) = none := by
      simp [resolveFixup]
    rw [plain, Option.getD_none]
    apply byteOf_congr (n := 1) _ hk
    unfold add32 u32
    omega
  · obtain rfl : n = 1 := by omega
    simp only [valueIntoAfter, type, fixupValue, addDelta]
    have plain : resolveFixup pe fDeltaOnly imageRelBasedLow (word (image pe) f.ulRVA 4) = none := by
      simp [resolveFixup]
    rw [plain, Option.getD_none, if_neg (by decide)]
    apply byteOf_congr (n := 1) _ hk
    unfold add32 u32
    omega

/-- What a page gets for a byte of a fixup. -/
def pageByte (pe : PeModule) (delta ulRVAPage : ℕ) (f : Fixup) (k : ℕ) : UInt8 :=
  if ulRVAPage ≤ f.ulRVA ∧ ulRVAPage + 0x1000 < f.ulRVA + f.size ∧ f.fType = imageRelBasedHigh then
    byteOf (f.original pe + delta / 0x100) k
  else byteOf (fixupValue pe f.fType delta (f.original pe)) k

theorem pagePatch_byte (wf : WellFormed pe) (mode : Mode pe fDeltaOnly delta)
    (hdelta : delta < 0x100000000) (supported : Supported pe f) {pvPage : Mem}
    (filled : ∀ i < 0x1000, pvPage i = image pe (ulRVAPage + i)) {i : ℕ}
    (hi : i ∈ touched ulRVAPage f) :
    pagePatch pe fDeltaOnly delta ulRVAPage f pvPage i =
      pageByte pe delta ulRVAPage f (ulRVAPage + i - f.ulRVA) := by
  obtain ⟨inPage, low, high⟩ := hi
  have words : ∀ n, ulRVAPage ≤ f.ulRVA → f.ulRVA + n ≤ ulRVAPage + 0x1000 →
      word pvPage (f.ulRVA - ulRVAPage) n = word (image pe) f.ulRVA n := by
    intro n start fits
    apply word_congr
    intro k hk
    rw [filled _ (by omega), show ulRVAPage + (f.ulRVA - ulRVAPage + k) = f.ulRVA + k by omega]
  rw [pagePatch, if_pos (by omega), pageByte]
  by_cases before : f.ulRVA < ulRVAPage
  · rw [if_pos before, if_neg (by omega), copyBytes_of_mem (by omega),
      show ulRVAPage - f.ulRVA + (i - 0) = ulRVAPage + i - f.ulRVA by omega]
    exact valueFromBefore_byte wf mode supported (by omega)
  rw [if_neg before]
  by_cases after : ulRVAPage + 0x1000 < f.ulRVA + f.size
  · rw [if_pos after, copyBytes_of_mem (by omega), words _ (by omega) (by omega), Nat.zero_add,
      show i - (f.ulRVA - ulRVAPage) = ulRVAPage + i - f.ulRVA by omega,
      valueIntoAfter_byte wf mode supported (by omega) (by omega)]
    by_cases high : f.fType = imageRelBasedHigh
    · rw [if_pos high, if_pos ⟨by omega, after, high⟩]
    · rw [if_neg high, if_neg (by tauto)]
  · rw [if_neg after, if_neg (by tauto)]
    rw [fixupCommon_byte wf mode hdelta supported (words _ (by omega) (by omega)) (by omega),
      show i - (f.ulRVA - ulRVAPage) = ulRVAPage + i - f.ulRVA by omega]

end Values

end Odin32.LxFixupsPage
