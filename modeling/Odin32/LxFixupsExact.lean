import Odin32.LxFixupsRun

/-! # When page-wise relocation is whole-image relocation

The pages loaded one by one hold the relocated image exactly when both halves of
every fixup on two pages come out right. A `HIGH` fixup is the one that can fail on
its first page, where the delta is shifted by 8 and not by 16. -/

set_option autoImplicit false

namespace Odin32.LxFixupsExact
open Odin32.Word Odin32.ByteMemory Odin32.LxPages Odin32.LxFixups Odin32.LxImage
open Odin32.LxImageRead Odin32.LxFixupsPage Odin32.LxFixupsRun

/-! ## The bytes of the whole image -/

/-- Where a fixup has its bytes. -/
def places (f : Fixup) : Set ℕ := { r | f.ulRVA ≤ r ∧ r < f.ulRVA + f.size }

theorem localOn_applyWhole (pe : PeModule) (f : Fixup) :
    LocalOn (places f) (applyWhole pe f) :=
  localOn_copyBytes_word f.ulRVA f.size (fixupValue pe f.fType (deltaAt pe f.ulRVA))

theorem places_apart {pe : PeModule} (wf : WellFormed pe) :
    (fixups pe).Pairwise fun f f' => ∀ r ∈ places f, r ∉ places f' := by
  apply wf.fixupsApart.imp
  intro f f' apart r hr hr'
  have := hr.2
  have := hr'.1
  omega

/-- The value a fixup is to have. -/
def wholeValue (pe : PeModule) (f : Fixup) : ℕ :=
  fixupValue pe f.fType (deltaAt pe f.ulRVA) (f.original pe)

theorem wholeImage_of_mem {pe : PeModule} (wf : WellFormed pe) {f : Fixup} (mem : f ∈ fixups pe)
    {r : ℕ} (hr : r ∈ places f) : wholeImage pe r = byteOf (wholeValue pe f) (r - f.ulRVA) := by
  rw [wholeImage, foldl_apply_of_mem (fun f _ => localOn_applyWhole pe f) (places_apart wf) mem hr,
    applyWhole, copyBytes_of_mem hr, Nat.zero_add]
  rfl

theorem wholeImage_of_not_mem {pe : PeModule} {r : ℕ} (hr : ∀ f ∈ fixups pe, r ∉ places f) :
    wholeImage pe r = image pe r :=
  foldl_apply_of_not_mem (fun f _ => localOn_applyWhole pe f) hr _

/-- A page that has its bytes is a part of the whole image when each fixup on it has
there the bytes it is to have. -/
theorem isWhole_iff {pe : PeModule} (wf : WellFormed pe) {p : Page} {pvPage : Mem}
    (bytes : HasBytes pe (p.ulRVA pe) pvPage) :
    IsWhole pe p (.ok pvPage) ↔ ∀ f ∈ fixups pe, ∀ i ∈ touched (p.ulRVA pe) f,
      pageByte pe (deltaAt pe (p.ulRVA pe)) (p.ulRVA pe) f (p.ulRVA pe + i - f.ulRVA) =
        byteOf (wholeValue pe f) (p.ulRVA pe + i - f.ulRVA) := by
  constructor
  · rintro ⟨pvPage', same, whole⟩ f mem i on
    obtain rfl : pvPage = pvPage' := Except.ok.inj same
    rw [← (bytes i on.1).1 f mem on, whole i on.1]
    exact wholeImage_of_mem wf mem on.2
  · intro right
    refine ⟨pvPage, rfl, ?_⟩
    intro i hi
    by_cases fixup : ∃ f ∈ fixups pe, i ∈ touched (p.ulRVA pe) f
    · obtain ⟨f, mem, on⟩ := fixup
      rw [(bytes i hi).1 f mem on, right f mem i on]
      exact (wholeImage_of_mem wf mem on.2).symm
    · rw [(bytes i hi).2 (fun f mem on => fixup ⟨f, mem, on⟩)]
      apply (wholeImage_of_not_mem _).symm
      intro f mem hr
      exact fixup ⟨f, mem, hi, hr⟩

/-! ## The halves of a fixup on two pages -/

section Halves

variable {pe : PeModule} {f : Fixup}

/-- Both halves have the bytes they are to have. -/
def HalvesRight (pe : PeModule) (f : Fixup) : Prop :=
  (f.fType = imageRelBasedHigh → ∀ k < f.room,
    byteOf (f.original pe + deltaAt pe f.ulRVA / 0x100) k = byteOf (wholeValue pe f) k) ∧
  ∀ k, f.room ≤ k → k < f.size →
    byteOf (fixupValue pe f.fType (deltaAt pe (f.ulRVA + f.room)) (f.original pe)) k =
      byteOf (wholeValue pe f) k

theorem room_pos (f : Fixup) : 0 < f.room := by
  unfold Fixup.room
  omega

theorem upper_bytes_iff {x y n : ℕ} (hx : x < 0x100000000) (hy : y < 0x100000000)
    (hn : 0 < n ∧ n < 4) :
    (∀ k, n ≤ k → k < 4 → byteOf x k = byteOf y k) ↔ x / 0x100 ^ n = y / 0x100 ^ n := by
  have byte : ∀ k, byteOf x k = byteOf y k ↔ x / 0x100 ^ k % 0x100 = y / 0x100 ^ k % 0x100 :=
    fun k => byteOf_eq_iff
  constructor
  · intro same
    have third := (byte 3).mp (same 3 (by omega) (by decide))
    obtain ⟨hn, hn'⟩ := hn
    interval_cases n
    · have first := (byte 1).mp (same 1 (by decide) (by decide))
      have second := (byte 2).mp (same 2 (by decide) (by decide))
      omega
    · have second := (byte 2).mp (same 2 (by decide) (by decide))
      omega
    · omega
  · intro same k low high
    rw [byte]
    obtain ⟨j, rfl⟩ := Nat.exists_eq_add_of_le low
    rw [pow_add, ← Nat.div_div_eq_div_mul, ← Nat.div_div_eq_div_mul, same]

theorem deltaAt_of_one (one : pe.fAllInOneObject = true) (r r' : ℕ) :
    deltaAt pe r = deltaAt pe r' := by
  unfold deltaAt
  rw [one]
  rfl

theorem straddleOk_iff_halvesRight (supported : Supported pe f) (straddles : f.Straddles) :
    StraddleOk pe f ↔ HalvesRight pe f := by
  have room := room_pos f
  unfold Fixup.Straddles at straddles
  unfold StraddleOk HalvesRight wholeValue
  rcases supported.size with ⟨type, size⟩ | ⟨type, size⟩ | ⟨type, size⟩
  · rw [size] at straddles ⊢
    simp only [type, fixupValue, pointerValue]
    rw [and_iff_right (by intro h; exact absurd h (by decide))]
    cases one : pe.fAllInOneObject with
    | true => simp [deltaAt_of_one one (f.ulRVA + f.room) f.ulRVA]
    | false =>
      rcases objectAt pe (sub32 (f.original pe) pe.ulImageBase) with _ | ⟨k, o⟩
      · simp only [Bool.false_eq_true, if_false, forall_const]
        exact (upper_bytes_iff (add32_lt _ _) (add32_lt _ _) ⟨room, straddles⟩).symm
      · simp
  · have half : f.room = 1 := by omega
    rw [size, half] at *
    simp only [type, fixupValue, forall_const]
    have first : (∀ k < 1, byteOf (f.original pe + deltaAt pe f.ulRVA / 0x100) k =
        byteOf (f.original pe + deltaAt pe f.ulRVA / 0x10000) k) ↔
        deltaAt pe f.ulRVA / 0x100 % 0x100 = deltaAt pe f.ulRVA / 0x10000 % 0x100 := by
      simp only [Nat.lt_one_iff, forall_eq, byteOf_eq_iff, pow_zero, Nat.div_one]
      omega
    have second : ∀ x y : ℕ, (∀ k, 1 ≤ k → k < 2 → byteOf x k = byteOf y k) ↔
        x / 0x100 % 0x100 = y / 0x100 % 0x100 := by
      intro x y
      constructor
      · intro same
        simpa [byteOf_eq_iff] using same 1 (by decide) (by decide)
      · intro same k low high
        obtain rfl : k = 1 := by omega
        simpa [byteOf_eq_iff] using same
    rw [first, second]
  · have half : f.room = 1 := by omega
    rw [size, half] at *
    simp only [type, fixupValue]
    rw [and_iff_right (by intro h; exact absurd h (by decide))]
    constructor
    · intro same k low high
      obtain rfl : k = 1 := by omega
      rw [byteOf_eq_iff, pow_one]
      omega
    · intro same
      have := same 1 (by decide) (by decide)
      rw [byteOf_eq_iff, pow_one] at this
      omega

/-- On a page of the image every fixup has the bytes it is to have, if its halves are
right. -/
theorem pageByte_right {p : Page} (wf : WellFormed pe) (valid : p.Valid pe)
    (right : f.Straddles → HalvesRight pe f) {i : ℕ} (on : i ∈ touched (p.ulRVA pe) f)
    (supported : Supported pe f) :
    pageByte pe (deltaAt pe (p.ulRVA pe)) (p.ulRVA pe) f (p.ulRVA pe + i - f.ulRVA) =
      byteOf (wholeValue pe f) (p.ulRVA pe + i - f.ulRVA) := by
  obtain ⟨o, get, rva, page, deltas⟩ := isPage_of_valid wf valid
  have aligned := page.aligned
  obtain ⟨inPage, low, high⟩ := on
  have room : f.room = 0x1000 - f.ulRVA % 0x1000 := rfl
  have size := supported.size_le
  have base := deltas 0 (by decide)
  rw [Nat.add_zero] at base
  unfold pageByte
  by_cases starts : p.ulRVA pe ≤ f.ulRVA
  · have same : deltaAt pe f.ulRVA = deltaAt pe (p.ulRVA pe) := by
      have := deltas (f.ulRVA - p.ulRVA pe) (by omega)
      rw [Nat.add_sub_of_le starts] at this
      rw [this, base]
    split
    · next first =>
      rw [← same]
      exact (right (by unfold Fixup.Straddles; omega)).1 first.2.2 _ (by omega)
    · rw [← same]
      rfl
  · rw [if_neg (by omega)]
    have straddles : f.Straddles := by
      unfold Fixup.Straddles
      omega
    have second : p.ulRVA pe = f.ulRVA + f.room := by omega
    have := (right straddles).2 (p.ulRVA pe + i - f.ulRVA) (by omega) (by omega)
    rw [← second] at this
    exact this

theorem exists_page (wf : WellFormed pe) {r : ℕ} (loaded : Loaded pe r) :
    ∃ p : Page, p.Valid pe ∧ p.ulRVA pe = r / 0x1000 * 0x1000 := by
  unfold Loaded at loaded
  cases one : pe.fAllInOneObject with
  | true =>
    rw [one, if_pos rfl] at loaded
    obtain ⟨header, rest, objects, first⟩ := wf.header
    refine ⟨⟨0, r / 0x1000⟩, ?_, ?_⟩
    · unfold Page.Valid
      rw [one, if_pos rfl]
      exact ⟨rfl, by show 0x1000 * (r / 0x1000) < _; omega⟩
    · rw [Page.ulRVA, objects]
      show header.ulRVA + 0x1000 * (r / 0x1000) = r / 0x1000 * 0x1000
      omega
  | false =>
    rw [one, if_neg (by decide)] at loaded
    obtain ⟨o, mem, low, high⟩ := loaded
    obtain ⟨k, get⟩ := List.mem_iff_getElem?.mp mem
    have aligned := wf.aligned o mem
    unfold pagesEnd at high
    refine ⟨⟨k, (r - o.ulRVA) / 0x1000⟩, ?_, ?_⟩
    · unfold Page.Valid
      rw [one, if_neg (by decide)]
      exact ⟨o, get, by show (r - o.ulRVA) / 0x1000 < _; omega⟩
    · simp only [Page.ulRVA, get]
      omega

theorem halvesRight_of_pages (wf : WellFormed pe) (mem : f ∈ fixups pe) (straddles : f.Straddles)
    (pages : PagewiseIsWhole pe) : HalvesRight pe f := by
  have supported := supported_of_wellFormed wf mem
  have size := supported.size_le
  have room : f.room = 0x1000 - f.ulRVA % 0x1000 := rfl
  unfold Fixup.Straddles at straddles
  have onPage : ∀ p : Page, p.Valid pe → ∀ i ∈ touched (p.ulRVA pe) f,
      pageByte pe (deltaAt pe (p.ulRVA pe)) (p.ulRVA pe) f (p.ulRVA pe + i - f.ulRVA) =
        byteOf (wholeValue pe f) (p.ulRVA pe + i - f.ulRVA) := by
    intro p valid
    obtain ⟨pvPage, st', load, -, bytes⟩ := loadPage_spec wf (show FlagsHold pe {} from trivial) valid
    have one : (p, .ok pvPage) ∈ loadPages pe {} [p] := by
      rw [loadPages, load]
      exact List.mem_cons_self
    have whole := pages [p] (by simpa using valid) _ one
    exact (isWhole_iff wf bytes).mp whole f mem
  constructor
  · intro high k hk
    obtain ⟨p, valid, start⟩ := exists_page wf (wf.loaded f mem 0 (by omega))
    rw [Nat.add_zero] at start
    obtain ⟨o, get, rva, page, deltas⟩ := isPage_of_valid wf valid
    have same : deltaAt pe f.ulRVA = deltaAt pe (p.ulRVA pe) := by
      have base := deltas 0 (by decide)
      have := deltas (f.ulRVA - p.ulRVA pe) (by omega)
      rw [Nat.add_sub_of_le (by omega)] at this
      rw [this, ← base, Nat.add_zero]
    have right := onPage p valid (f.ulRVA + k - p.ulRVA pe) ⟨by omega, by omega, by omega⟩
    rw [pageByte, if_pos ⟨by omega, by omega, high⟩,
      show p.ulRVA pe + (f.ulRVA + k - p.ulRVA pe) - f.ulRVA = k by omega] at right
    rw [same]
    exact right
  · intro k low hk
    obtain ⟨p, valid, start⟩ := exists_page wf (wf.loaded f mem f.room straddles)
    have second : p.ulRVA pe = f.ulRVA + f.room := by omega
    have right := onPage p valid (k - f.room) ⟨by omega, by omega, by omega⟩
    rw [pageByte, if_neg (by omega), second,
      show f.ulRVA + f.room + (k - f.room) - f.ulRVA = k by omega] at right
    exact right

end Halves

/-! ## The exact condition -/

theorem straddleOk_of_pages {pe : PeModule} (wf : WellFormed pe) (pages : PagewiseIsWhole pe) :
    ∀ f ∈ fixups pe, f.Straddles → StraddleOk pe f := by
  intro f mem straddles
  apply (straddleOk_iff_halvesRight (supported_of_wellFormed wf mem) straddles).mpr
  exact halvesRight_of_pages wf mem straddles pages

/-- Loading the pages one by one, in any order, gives the whole-image relocation
exactly when every fixup on two pages meets the condition on its deltas. -/
theorem pagewiseIsWhole_iff {pe : PeModule} (wf : WellFormed pe) :
    PagewiseIsWhole pe ↔ ∀ f ∈ fixups pe, f.Straddles → StraddleOk pe f := by
  constructor
  · exact straddleOk_of_pages wf
  · intro ok ps valid r hr
    obtain ⟨pvPage, result, bytes⟩ := loadPages_spec wf (show FlagsHold pe {} from trivial) valid r hr
    have validPage : r.1.Valid pe := valid r.1 (loadPages_page_mem hr)
    rw [result]
    apply (isWhole_iff wf bytes).mpr
    intro f mem i on
    have supported := supported_of_wellFormed wf mem
    apply pageByte_right wf validPage _ on supported
    intro straddles
    exact (straddleOk_iff_halvesRight supported straddles).mp (ok f mem straddles)

/-- A header and a section of two pages with fixups at their border, in one object
placed at `place`. -/
def twoPages (place : ℕ) (typeOffset : List ℕ) : PeModule where
  paObjects := [{ ulRVA := 0, cbPhysical := 0x200, cbVirtual := 0x200 },
    { ulRVA := 0x1000, cbPhysical := 0x2000, cbVirtual := 0x2000, offPEFile := 0x400 }]
  fAllInOneObject := true
  ulImageBase := 0x400000
  pBaseRelocs := some [⟨0x1000, typeOffset⟩]
  oteBase _ := place
  file _ := 0

theorem twoPages_wellFormed {place e : ℕ} (hplace : place < 0x100000000)
    (he : e = 0x1FFF ∨ e = 0x3FFE) : WellFormed (twoPages place [e]) where
  header := ⟨_, _, rfl, rfl⟩
  aligned := by simp [twoPages]
  physical := by simp [twoPages]
  inFile := by simp [twoPages]
  fits := by simp [twoPages, pagesEnd, pagesFor]
  apart := by simp [twoPages, pagesEnd, pagesFor]
  imageBase := by simp [twoPages]
  placement _ := hplace
  blockAligned := by simp [twoPages]
  blockSorted := by simp [twoPages]
  types := by rcases he with rfl | rfl <;> simp [twoPages, fixups, fixupsOf, fixupAt]
  fixupsApart := by simp [twoPages, fixups, fixupsOf]
  loaded := by
    rcases he with rfl | rfl <;>
      · simp only [twoPages, fixups, fixupsOf, fixupAt, Fixup.size, Loaded, imageEnd, pagesEnd,
          pagesFor, acbFixupTypes, Option.getD_some, List.flatMap_cons, List.flatMap_nil,
          List.map_cons, List.map_nil, List.append_nil, List.mem_singleton, forall_eq, if_true]
        omega

/-- A pointer on two pages. -/
theorem twoPages_pointer : PagewiseIsWhole (twoPages 0x13450000 [0x3FFE]) := by
  apply (pagewiseIsWhole_iff (twoPages_wellFormed (by decide) (.inr rfl))).mpr
  intro f mem straddles
  obtain rfl : f = ⟨0x1FFE, 3⟩ := by simpa [twoPages, fixups, fixupsOf, fixupAt] using mem
  intro _
  rfl

/-- The upper half of a pointer on two pages, moved by `0x10000`: its first byte stays
as it is. -/
theorem twoPages_high_not_whole : ¬ ∀ pe, WellFormed pe → PagewiseIsWhole pe := by
  intro all
  have wf : WellFormed (twoPages 0x410000 [0x1FFF]) := twoPages_wellFormed (by decide) (.inl rfl)
  have mem : (⟨0x1FFF, 1⟩ : Fixup) ∈ fixups (twoPages 0x410000 [0x1FFF]) := by
    simp [twoPages, fixups, fixupsOf, fixupAt]
  have ok := straddleOk_of_pages wf (all _ wf) _ mem (Nat.lt_succ_self 1)
  exact absurd ok.1 (by decide)

end Odin32.LxFixupsExact
