import Odin32.LxFixupsPage

/-! # Pages loaded one after the other

The block loops fold the patches of all fixups over a page, the check at the first
page settles the two flags for good, and so every page of every sequence of loads
gets, for each byte, what the one fixup on it makes of the file bytes. -/

set_option autoImplicit false

namespace Odin32.LxFixupsRun
open Odin32.Word Odin32.ByteMemory Odin32.LxPages Odin32.LxFixups Odin32.LxImage
open Odin32.LxImageRead Odin32.LxFixupsPage

/-! ## The loops over the directory -/

section Loops

variable {pe : PeModule} (fDeltaOnly : Bool) (delta : ℕ) {ulRVAPage : ℕ}

/-- The patches of a list of fixups, one after the other. -/
def patchAll (pe : PeModule) (fDeltaOnly : Bool) (delta ulRVAPage : ℕ) (fs : List Fixup)
    (pvPage : Mem) : Mem :=
  fs.foldl (fun m f => pagePatch pe fDeltaOnly delta ulRVAPage f m) pvPage

theorem patchAll_append (fs gs : List Fixup) (pvPage : Mem) :
    patchAll pe fDeltaOnly delta ulRVAPage (fs ++ gs) pvPage =
      patchAll pe fDeltaOnly delta ulRVAPage gs
        (patchAll pe fDeltaOnly delta ulRVAPage fs pvPage) :=
  List.foldl_append

theorem patchAll_apart {fs : List Fixup}
    (apart : ∀ f ∈ fs, f.ulRVA + f.size ≤ ulRVAPage ∨ ulRVAPage + 0x1000 ≤ f.ulRVA)
    (pvPage : Mem) : patchAll pe fDeltaOnly delta ulRVAPage fs pvPage = pvPage := by
  induction fs with
  | nil => rfl
  | cons f fs ih =>
    rw [patchAll, List.foldl_cons, pagePatch_of_apart (apart f List.mem_cons_self)]
    exact ih fun g hg => apart g (List.mem_cons_of_mem f hg)

theorem applyEntries_eq (wf : WellFormed pe) (page : IsPage pe ulRVAPage) {virtualAddress : ℕ}
    (block : 0x1000 ∣ virtualAddress) {entries : List ℕ}
    (supported : ∀ e ∈ entries, Supported pe (fixupAt virtualAddress e)) (pvPage : Mem) :
    applyEntries pe fDeltaOnly delta ulRVAPage virtualAddress entries pvPage =
      .ok (patchAll pe fDeltaOnly delta ulRVAPage (entries.map (fixupAt virtualAddress)) pvPage) := by
  induction entries generalizing pvPage with
  | nil => rfl
  | cons e entries ih =>
    rw [applyEntries, applyFixup_eq wf page block (supported e List.mem_cons_self)]
    exact ih (fun e' he => supported e' (List.mem_cons_of_mem e he)) _

theorem fixupAt_ulRVA_lt (virtualAddress typeOffset : ℕ) :
    virtualAddress ≤ (fixupAt virtualAddress typeOffset).ulRVA ∧
      (fixupAt virtualAddress typeOffset).ulRVA < virtualAddress + 0x1000 := by
  have start : (fixupAt virtualAddress typeOffset).ulRVA = virtualAddress + typeOffset % 0x1000 := rfl
  omega

/-- The entries that are skipped in a block before the page have no byte on it: the
next entry of the block still starts before the page. -/
theorem patchAll_entriesFor {pbr : BaseRelocation} (aligned : 0x1000 ∣ ulRVAPage)
    (block : 0x1000 ∣ pbr.virtualAddress)
    (apart : (fixupsOf pbr).Pairwise fun f f' => f.ulRVA + f.size ≤ f'.ulRVA) (pvPage : Mem) :
    patchAll pe fDeltaOnly delta ulRVAPage
        ((entriesFor ulRVAPage pbr).map (fixupAt pbr.virtualAddress)) pvPage =
      patchAll pe fDeltaOnly delta ulRVAPage (fixupsOf pbr) pvPage := by
  unfold entriesFor
  split
  · next skip =>
    obtain ⟨before, many⟩ := skip
    have split : fixupsOf pbr =
        (pbr.typeOffset.take (pbr.typeOffset.length - 7)).map (fixupAt pbr.virtualAddress) ++
        (pbr.typeOffset.drop (pbr.typeOffset.length - 7)).map (fixupAt pbr.virtualAddress) := by
      rw [← List.map_append, List.take_append_drop]
      rfl
    have noneOnPage : ∀ f ∈ (pbr.typeOffset.take (pbr.typeOffset.length - 7)).map
        (fixupAt pbr.virtualAddress), f.ulRVA + f.size ≤ ulRVAPage ∨
          ulRVAPage + 0x1000 ≤ f.ulRVA := by
      intro f hf
      rw [split] at apart
      obtain ⟨e, he⟩ : ∃ e, e ∈ pbr.typeOffset.drop (pbr.typeOffset.length - 7) := by
        apply List.exists_mem_of_length_pos
        rw [List.length_drop]
        omega
      have follows := (List.pairwise_append.mp apart).2.2 f hf (fixupAt pbr.virtualAddress e)
        (List.mem_map_of_mem he)
      have := fixupAt_ulRVA_lt pbr.virtualAddress e
      omega
    rw [split, patchAll_append, patchAll_apart _ _ noneOnPage]
  · rfl

theorem applyBlocks_eq (wf : WellFormed pe) (page : IsPage pe ulRVAPage)
    {pbrs : List BaseRelocation} (aligned : ∀ b ∈ pbrs, 0x1000 ∣ b.virtualAddress)
    (sorted : pbrs.Pairwise fun b b' => b.virtualAddress < b'.virtualAddress)
    (supported : ∀ f ∈ pbrs.flatMap fixupsOf, Supported pe f)
    (apart : (pbrs.flatMap fixupsOf).Pairwise fun f f' => f.ulRVA + f.size ≤ f'.ulRVA)
    (pvPage : Mem) :
    applyBlocks pe fDeltaOnly delta ulRVAPage pbrs pvPage =
      .ok (patchAll pe fDeltaOnly delta ulRVAPage (pbrs.flatMap fixupsOf) pvPage) := by
  have fits := imageEnd_lt (laid_of_wellFormed wf)
  have pageFits := page.inside
  have pageAligned := page.aligned
  have pageEnd : add32 ulRVAPage 0x1000 = ulRVAPage + 0x1000 := add32_of_lt (by omega)
  induction pbrs generalizing pvPage with
  | nil => rfl
  | cons pbr rest ih =>
    have block := aligned pbr List.mem_cons_self
    have inBlock : ∀ f ∈ fixupsOf pbr,
        pbr.virtualAddress ≤ f.ulRVA ∧ f.ulRVA < pbr.virtualAddress + 0x1000 := by
      intro f hf
      obtain ⟨e, -, rfl⟩ := List.mem_map.mp hf
      exact fixupAt_ulRVA_lt _ _
    rw [List.flatMap_cons] at supported apart
    have supported' := fun f hf => supported f (List.mem_append_right _ hf)
    have rest_eq := fun pvPage => ih (fun b hb => aligned b (List.mem_cons_of_mem pbr hb))
      sorted.of_cons supported' (List.pairwise_append.mp apart).2.1 pvPage
    rw [applyBlocks, pageEnd, List.flatMap_cons, patchAll_append]
    by_cases go : 8 < cbBaseRelocs (pbr :: rest) ∧ pbr.virtualAddress < ulRVAPage + 0x1000
    · have blockEnd : add32 pbr.virtualAddress 0x1000 = pbr.virtualAddress + 0x1000 :=
        add32_of_lt (by omega)
      rw [if_pos go, blockEnd]
      by_cases near : ulRVAPage ≤ pbr.virtualAddress + 0x1000
      · have inEntries : ∀ e ∈ entriesFor ulRVAPage pbr,
            Supported pe (fixupAt pbr.virtualAddress e) := by
          intro e he
          apply supported
          apply List.mem_append_left
          apply List.mem_map_of_mem
          unfold entriesFor at he
          split at he
          · exact List.mem_of_mem_drop he
          · exact he
        rw [if_pos near, applyEntries_eq fDeltaOnly delta wf page block inEntries,
          patchAll_entriesFor fDeltaOnly delta pageAligned block (List.pairwise_append.mp apart).1]
        exact rest_eq _
      · rw [if_neg near]
        have noneOnPage : ∀ f ∈ fixupsOf pbr,
            f.ulRVA + f.size ≤ ulRVAPage ∨ ulRVAPage + 0x1000 ≤ f.ulRVA := by
          intro f hf
          have := inBlock f hf
          have := (supported f (List.mem_append_left _ hf)).size_le
          omega
        rw [patchAll_apart _ _ noneOnPage]
        exact rest_eq _
    · rw [if_neg go, ← patchAll_append]
      by_cases small : 8 < cbBaseRelocs (pbr :: rest)
      · -- this block and all later ones are behind the page
        have behind : ∀ f ∈ fixupsOf pbr ++ rest.flatMap fixupsOf,
            f.ulRVA + f.size ≤ ulRVAPage ∨ ulRVAPage + 0x1000 ≤ f.ulRVA := by
          intro f hf
          rcases List.mem_append.mp hf with hf | hf
          · have := inBlock f hf
            omega
          · obtain ⟨b, hb, hf⟩ := List.mem_flatMap.mp hf
            obtain ⟨e, -, rfl⟩ := List.mem_map.mp hf
            have later := List.rel_of_pairwise_cons sorted hb
            have := fixupAt_ulRVA_lt b.virtualAddress e
            omega
        rw [patchAll_apart _ _ behind]
      · -- only an empty block is left
        have sum : cbBaseRelocs (pbr :: rest) =
            8 + 2 * pbr.typeOffset.length + cbBaseRelocs rest := by
          simp [cbBaseRelocs, BaseRelocation.sizeOfBlock]
        have noEntries : pbr.typeOffset = [] := List.length_eq_zero_iff.mp (by omega)
        have noBlocks : rest = [] := by
          cases rest with
          | nil => rfl
          | cons b rest =>
            have : cbBaseRelocs (b :: rest) = 8 + 2 * b.typeOffset.length + cbBaseRelocs rest := by
              simp [cbBaseRelocs, BaseRelocation.sizeOfBlock]
            omega
        simp [noBlocks, fixupsOf, noEntries, patchAll]

end Loops

/-! ## The flags -/

/-- What the flags say about the module once they are set. -/
def FlagsHold (pe : PeModule) (st : FixupState) : Prop :=
  match st.fApplyFixups with
  | none => True
  | some false => Uniform pe 0
  | some true => if st.fDeltaOnly then ∃ delta, Uniform pe delta else pe.fAllInOneObject = false

theorem checkObjects_spec (pe : PeModule) (ulDelta i : ℕ) (paObjects : List LxObject)
    (fApply fDeltaOnly : Bool) :
    ∃ apply deltaOnly, checkObjects pe ulDelta i paObjects fApply fDeltaOnly =
        ⟨some apply, deltaOnly⟩ ∧
      (apply = false ↔ fApply = false ∧
        ∀ k o, paObjects[k]? = some o → objectDelta pe (i + k) o = 0) ∧
      (deltaOnly = true ↔ fDeltaOnly = true ∧
        ∀ k o, paObjects[k]? = some o → objectDelta pe (i + k) o = ulDelta) := by
  induction paObjects generalizing i fApply fDeltaOnly with
  | nil => exact ⟨fApply, fDeltaOnly, rfl, by simp, by simp⟩
  | cons o rest ih =>
    rw [checkObjects]
    have shift : ∀ d, (∀ k o', (o :: rest)[k]? = some o' → objectDelta pe (i + k) o' = d) ↔
        objectDelta pe i o = d ∧
          ∀ k o', rest[k]? = some o' → objectDelta pe (i + 1 + k) o' = d := by
      intro d
      constructor
      · intro all
        refine ⟨all 0 o rfl, ?_⟩
        intro k o' get
        rw [Nat.add_assoc, Nat.add_comm 1 k]
        exact all (k + 1) o' get
      · rintro ⟨first, all⟩ k o' get
        cases k with
        | zero =>
          obtain rfl : o = o' := by simpa using get
          exact first
        | succ k =>
          rw [Nat.add_comm k 1, ← Nat.add_assoc]
          exact all k o' get
    have same : sub32 (sub32 (pe.oteBase i) pe.ulImageBase) o.ulRVA = objectDelta pe i o := by
      unfold objectDelta sub32 u32
      omega
    rw [shift 0, shift ulDelta, same]
    by_cases go : (!fApply || fDeltaOnly) = true
    · obtain ⟨apply, deltaOnly, eq, happly, hdelta⟩ :=
        ih (i + 1) (fApply || objectDelta pe i o != 0) (fDeltaOnly && objectDelta pe i o == ulDelta)
      refine ⟨apply, deltaOnly, ?_, ?_, ?_⟩
      · rw [if_pos go]
        exact eq
      · rw [happly]
        simp only [Bool.or_eq_false_iff, bne_eq_false_iff_eq]
        tauto
      · rw [hdelta]
        simp only [Bool.and_eq_true, beq_iff_eq]
        tauto
    · -- an early end: both flags have their last values already
      have flags : fApply = true ∧ fDeltaOnly = false := by
        cases fApply <;> cases fDeltaOnly <;> simp at go ⊢
      refine ⟨fApply, fDeltaOnly, if_neg go, ?_, ?_⟩
      · simp [flags.1]
      · simp [flags.2]

theorem uniform_of_head {pe : PeModule} (one : pe.fAllInOneObject = true) {o : LxObject}
    (head : pe.paObjects.head? = some o) : Uniform pe (objectDelta pe 0 o) := by
  unfold Uniform
  rw [one, if_pos rfl]
  intro o' get
  rw [head] at get
  rw [Option.some.inj get]

theorem checkFixups_spec {pe : PeModule} (wf : WellFormed pe) {p : Page} (valid : p.Valid pe)
    {o : LxObject} (get : pe.paObjects[p.iObject]? = some o) :
    FlagsHold pe (checkFixups pe (objectDelta pe p.iObject o)) ∧
      (checkFixups pe (objectDelta pe p.iObject o)).fApplyFixups ≠ none := by
  obtain ⟨header, rest, objects, first⟩ := wf.header
  have head : pe.paObjects.head? = some header := by rw [objects]; rfl
  unfold checkFixups
  cases one : pe.fAllInOneObject with
  | true =>
    rw [if_pos rfl]
    refine ⟨?_, by simp⟩
    have uniform := uniform_of_head one head
    by_cases moved : pe.ulImageBase = pe.oteBase 0
    · have still : objectDelta pe 0 header = 0 := by
        have := wf.imageBase
        unfold objectDelta sub32 u32
        rw [moved, first] at *
        omega
      rw [still] at uniform
      simp only [moved, bne_self_eq_false]
      exact uniform
    · simp only [bne_iff_ne.mpr moved]
      exact ⟨_, uniform⟩
  | false =>
    rw [if_neg (by decide)]
    obtain ⟨apply, deltaOnly, eq, happly, hdelta⟩ :=
      checkObjects_spec pe (objectDelta pe p.iObject o) 0 pe.paObjects false true
    simp only [Nat.zero_add, true_and] at happly hdelta
    rw [eq]
    refine ⟨?_, by simp⟩
    cases apply with
    | false =>
      show Uniform pe 0
      unfold Uniform
      rw [one]
      exact happly.mp rfl
    | true =>
      cases deltaOnly with
      | false => exact one
      | true =>
        refine ⟨objectDelta pe p.iObject o, ?_⟩
        unfold Uniform
        rw [one]
        exact hdelta.mp rfl

/-! ## One page -/

theorem isPage_of_valid {pe : PeModule} (wf : WellFormed pe) {p : Page} (valid : p.Valid pe) :
    ∃ o, pe.paObjects[p.iObject]? = some o ∧ p.ulRVA pe = o.ulRVA + 0x1000 * p.index ∧
      IsPage pe (p.ulRVA pe) ∧
      ∀ i < 0x1000, deltaAt pe (p.ulRVA pe + i) = objectDelta pe p.iObject o := by
  have laid := laid_of_wellFormed wf
  unfold Page.Valid at valid
  cases one : pe.fAllInOneObject with
  | true =>
    rw [one, if_pos rfl] at valid
    obtain ⟨number, inside⟩ := valid
    obtain ⟨header, rest, objects, first⟩ := wf.header
    have get : pe.paObjects[p.iObject]? = some header := by rw [number, objects]; rfl
    have rva : p.ulRVA pe = header.ulRVA + 0x1000 * p.index := by rw [Page.ulRVA, get]
    have endAligned : 0x1000 ∣ imageEnd pe.paObjects := imageEnd_aligned wf.aligned
    refine ⟨header, get, rva, ⟨?_, ?_⟩, ?_⟩
    · rw [rva, first]
      omega
    · rw [rva, first]
      omega
    · intro i _
      rw [deltaAt, one, if_pos rfl, objects, number]
      rfl
  | false =>
    rw [one, if_neg (by decide)] at valid
    obtain ⟨o, get, inside⟩ := valid
    have mem := List.mem_of_getElem? get
    have rva : p.ulRVA pe = o.ulRVA + 0x1000 * p.index := by rw [Page.ulRVA, get]
    have pageEnd : p.ulRVA pe + 0x1000 ≤ pagesEnd o := by
      unfold pagesEnd
      omega
    refine ⟨o, get, rva, ⟨?_, ?_⟩, ?_⟩
    · have := wf.aligned o mem
      rw [rva]
      omega
    · exact Nat.le_trans pageEnd (pagesEnd_le_imageEnd laid mem)
    · intro i hi
      rw [deltaAt, one, if_neg (by decide), objectAt_of_pages wf get (by omega) (by omega)]

theorem supported_of_wellFormed {pe : PeModule} (wf : WellFormed pe) {f : Fixup}
    (mem : f ∈ fixups pe) : Supported pe f where
  type := wf.types f mem
  inside := by
    have size : 0 < f.size := by
      rcases wf.types f mem with type | type | type <;> rw [Fixup.size, type] <;> decide
    have last := wf.loaded f mem (f.size - 1) (by omega)
    unfold Loaded at last
    split at last
    · omega
    · obtain ⟨o, ho, -, high⟩ := last
      have := pagesEnd_le_imageEnd (laid_of_wellFormed wf) ho
      omega

/-- The bytes a loaded page has: for each fixup those it makes, and file bytes elsewhere. -/
def HasBytes (pe : PeModule) (ulRVAPage : ℕ) (pvPage : Mem) : Prop :=
  ∀ i < 0x1000,
    (∀ f ∈ fixups pe, i ∈ touched ulRVAPage f →
      pvPage i = pageByte pe (deltaAt pe ulRVAPage) ulRVAPage f (ulRVAPage + i - f.ulRVA)) ∧
    ((∀ f ∈ fixups pe, i ∉ touched ulRVAPage f) → pvPage i = image pe (ulRVAPage + i))

theorem pageByte_of_still {pe : PeModule} (wf : WellFormed pe) (still : Uniform pe 0)
    {ulRVAPage k : ℕ} {f : Fixup} (supported : Supported pe f) (hk : k < f.size) :
    pageByte pe 0 ulRVAPage f k = image pe (f.ulRVA + k) := by
  have original : byteOf (f.original pe) k = image pe (f.ulRVA + k) := byteOf_word _ _ hk
  unfold pageByte
  rw [← original]
  split
  · rfl
  · rcases supported.size with ⟨type, size⟩ | ⟨type, size⟩ | ⟨type, size⟩
    · rw [type]
      show byteOf (pointerValue pe 0 (f.original pe)) k = byteOf (f.original pe) k
      rw [pointerValue_of_uniform wf still]
      congr 1
      exact Nat.mod_eq_of_lt (original_lt pe size)
    · rw [type]
      rfl
    · rw [type]
      rfl

theorem touched_apart {pe : PeModule} (wf : WellFormed pe) (ulRVAPage : ℕ) :
    (fixups pe).Pairwise fun f f' => ∀ i ∈ touched ulRVAPage f, i ∉ touched ulRVAPage f' := by
  apply wf.fixupsApart.imp
  intro f f' apart i hi hi'
  obtain ⟨-, -, high⟩ := hi
  obtain ⟨-, low, -⟩ := hi'
  omega

theorem hasBytes_patchAll {pe : PeModule} (wf : WellFormed pe) {fDeltaOnly : Bool}
    {ulRVAPage : ℕ} (mode : Mode pe fDeltaOnly (deltaAt pe ulRVAPage))
    (hdelta : deltaAt pe ulRVAPage < 0x100000000) {pvPage : Mem}
    (filled : ∀ i < 0x1000, pvPage i = image pe (ulRVAPage + i)) :
    HasBytes pe ulRVAPage
      (patchAll pe fDeltaOnly (deltaAt pe ulRVAPage) ulRVAPage (fixups pe) pvPage) := by
  intro i hi
  have patches : ∀ f ∈ fixups pe, LocalOn (touched ulRVAPage f)
      (pagePatch pe fDeltaOnly (deltaAt pe ulRVAPage) ulRVAPage f) :=
    fun f mem => localOn_pagePatch pe fDeltaOnly _ ulRVAPage (supported_of_wellFormed wf mem)
  constructor
  · intro f mem on
    rw [patchAll, foldl_apply_of_mem patches (touched_apart wf ulRVAPage) mem on]
    exact pagePatch_byte wf mode hdelta (supported_of_wellFormed wf mem) filled on
  · intro off
    rw [patchAll, foldl_apply_of_not_mem patches off]
    exact filled i hi

theorem hasBytes_filled {pe : PeModule} (wf : WellFormed pe) {ulRVAPage : ℕ}
    (still : fixups pe = [] ∨ Uniform pe 0 ∧ deltaAt pe ulRVAPage = 0) {pvPage : Mem}
    (filled : ∀ i < 0x1000, pvPage i = image pe (ulRVAPage + i)) :
    HasBytes pe ulRVAPage pvPage := by
  intro i hi
  refine ⟨?_, fun _ => filled i hi⟩
  intro f mem on
  rcases still with none | ⟨uniform, zero⟩
  · rw [none] at mem
    exact absurd mem List.not_mem_nil
  · obtain ⟨-, low, high⟩ := on
    rw [zero, pageByte_of_still wf uniform (supported_of_wellFormed wf mem) (by omega),
      filled i hi, Nat.add_sub_of_le low]

theorem delta_eq_of_uniform {pe : PeModule} (wf : WellFormed pe) {delta : ℕ}
    (uniform : Uniform pe delta) {p : Page} (valid : p.Valid pe) {o : LxObject}
    (get : pe.paObjects[p.iObject]? = some o) : objectDelta pe p.iObject o = delta := by
  unfold Uniform at uniform
  unfold Page.Valid at valid
  cases one : pe.fAllInOneObject with
  | true =>
    rw [one, if_pos rfl] at uniform valid
    rw [valid.1] at get ⊢
    apply uniform o
    rw [← get, List.head?_eq_getElem?]
  | false =>
    rw [one, if_neg (by decide)] at uniform
    exact uniform p.iObject o get

theorem applyFixups_spec {pe : PeModule} (wf : WellFormed pe) {st : FixupState}
    (flags : FlagsHold pe st) {p : Page} (valid : p.Valid pe) {pvPage : Mem}
    (filled : ∀ i < 0x1000, pvPage i = image pe (p.ulRVA pe + i)) :
    ∃ pvPage' st', applyFixups pe st p.iObject
        (add32 (pe.oteBase p.iObject) (0x1000 * p.index)) pvPage = (.ok pvPage', st') ∧
      FlagsHold pe st' ∧ HasBytes pe (p.ulRVA pe) pvPage' := by
  obtain ⟨o, get, rva, page, deltas⟩ := isPage_of_valid wf valid
  have delta : deltaAt pe (p.ulRVA pe) = objectDelta pe p.iObject o := by
    have := deltas 0 (by decide)
    rwa [Nat.add_zero] at this
  have delta_lt : deltaAt pe (p.ulRVA pe) < 0x100000000 := by
    rw [delta]
    exact objectDelta_lt pe p.iObject o
  have stillBytes : Uniform pe 0 → HasBytes pe (p.ulRVA pe) pvPage := by
    intro uniform
    apply hasBytes_filled wf (.inr ⟨uniform, ?_⟩) filled
    rw [delta]
    exact delta_eq_of_uniform wf uniform valid get
  unfold applyFixups
  rcases relocs : pe.pBaseRelocs with _ | pbrs
  · have none : fixups pe = [] := by rw [fixups, relocs]; rfl
    exact ⟨pvPage, st, rfl, flags, hasBytes_filled wf (.inl none) filled⟩
  have all : pbrs.flatMap fixupsOf = fixups pe := by rw [fixups, relocs]; rfl
  by_cases off : st.fApplyFixups = some false
  · refine ⟨pvPage, st, if_pos off, flags, stillBytes ?_⟩
    rw [FlagsHold, off] at flags
    exact flags
  have pageRVA : sub32 (add32 o.ulRVA (add32 (pe.oteBase p.iObject) (0x1000 * p.index)))
      (pe.oteBase p.iObject) = p.ulRVA pe := by
    have inside := page.inside
    have fits := imageEnd_lt (laid_of_wellFormed wf)
    have place := wf.placement p.iObject
    rw [rva] at inside ⊢
    unfold sub32 add32 u32
    omega
  have flags' : ∃ st', st' = (if st.fApplyFixups = none then
      checkFixups pe (objectDelta pe p.iObject o) else st) ∧
      FlagsHold pe st' ∧ st'.fApplyFixups ≠ none := by
    refine ⟨_, rfl, ?_⟩
    split
    · exact checkFixups_spec wf valid get
    · next set => exact ⟨flags, set⟩
  obtain ⟨st', hst, flags', set⟩ := flags'
  have blocks : ∀ fDeltaOnly, Mode pe fDeltaOnly (deltaAt pe (p.ulRVA pe)) →
      ∃ pvPage', applyBlocks pe fDeltaOnly (objectDelta pe p.iObject o) (p.ulRVA pe) pbrs pvPage =
          .ok pvPage' ∧ HasBytes pe (p.ulRVA pe) pvPage' := by
    intro fDeltaOnly mode
    refine ⟨_, ?_, hasBytes_patchAll wf mode delta_lt filled⟩
    have sorted : pbrs.Pairwise fun b b' => b.virtualAddress < b'.virtualAddress := by
      have := wf.blockSorted
      rwa [relocs] at this
    have aligned : ∀ b ∈ pbrs, 0x1000 ∣ b.virtualAddress := by
      have := wf.blockAligned
      rwa [relocs] at this
    rw [applyBlocks_eq fDeltaOnly _ wf page aligned sorted
      (fun f hf => supported_of_wellFormed wf (all ▸ hf)) (all ▸ wf.fixupsApart), all, delta]
  simp only [if_neg off, get, ← hst, pageRVA]
  rcases value : st'.fApplyFixups with _ | apply
  · exact absurd value set
  cases apply with
  | false =>
    refine ⟨pvPage, st', if_pos rfl, flags', stillBytes ?_⟩
    rw [FlagsHold, value] at flags'
    exact flags'
  | true =>
    have holds := flags'
    rw [FlagsHold, value] at holds
    cases only : st'.fDeltaOnly with
    | true =>
      rw [only] at holds
      obtain ⟨d, uniform⟩ := holds
      have same := delta_eq_of_uniform wf uniform valid get
      obtain ⟨pvPage', eq, bytes⟩ := blocks true (by rw [delta, same]; exact uniform)
      exact ⟨pvPage', st', by simp [applyFixupsDelta, eq], flags', bytes⟩
    | false =>
      rw [only] at holds
      obtain ⟨pvPage', eq, bytes⟩ := blocks false holds
      exact ⟨pvPage', st', by simp [eq], flags', bytes⟩

/-! ## Sequences of pages -/

theorem loadPage_spec {pe : PeModule} (wf : WellFormed pe) {st : FixupState}
    (flags : FlagsHold pe st) {p : Page} (valid : p.Valid pe) :
    ∃ pvPage st', loadPage pe st p = (.ok pvPage, st') ∧
      FlagsHold pe st' ∧ HasBytes pe (p.ulRVA pe) pvPage := by
  obtain ⟨o, -, -, page, -⟩ := isPage_of_valid wf valid
  obtain ⟨buffer, read, filled⟩ := readAtRVA_ok wf page.inside
  unfold loadPage
  rw [read]
  exact applyFixups_spec wf flags valid filled

theorem loadPages_spec {pe : PeModule} (wf : WellFormed pe) {ps : List Page} {st : FixupState}
    (flags : FlagsHold pe st) (valid : ∀ p ∈ ps, p.Valid pe) :
    ∀ r ∈ loadPages pe st ps, ∃ pvPage, r.2 = .ok pvPage ∧ HasBytes pe (r.1.ulRVA pe) pvPage := by
  induction ps generalizing st with
  | nil => simp [loadPages]
  | cons p ps ih =>
    obtain ⟨pvPage, st', load, flags', bytes⟩ := loadPage_spec wf flags (valid p List.mem_cons_self)
    intro r hr
    rw [loadPages, load] at hr
    rcases List.mem_cons.mp hr with rfl | hr
    · exact ⟨pvPage, rfl, bytes⟩
    · exact ih flags' (fun q hq => valid q (List.mem_cons_of_mem p hq)) r hr

theorem loadPages_page_mem {pe : PeModule} {ps : List Page} {st : FixupState}
    {r : Page × Except ApiRet Mem} (hr : r ∈ loadPages pe st ps) : r.1 ∈ ps := by
  induction ps generalizing st with
  | nil => simp [loadPages] at hr
  | cons p ps ih =>
    rw [loadPages] at hr
    rcases List.mem_cons.mp hr with rfl | hr
    · exact List.mem_cons_self
    · exact List.mem_cons_of_mem p (ih hr)

end Odin32.LxFixupsRun
