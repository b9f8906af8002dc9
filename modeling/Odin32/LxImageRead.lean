import Odin32.LxImage

/-! # Reading the image

The object searches of the code find the object the image assigns to an RVA, and
`readAtRVA` delivers the bytes of the unrelocated image for every range up to the
image end. -/

set_option autoImplicit false

namespace Odin32.LxImageRead
open Odin32.Word Odin32.ByteMemory Odin32.LxPages Odin32.LxFixups Odin32.LxImage

/-- The part of well-formedness that is about the layout of the objects. -/
structure Laid (paObjects : List LxObject) : Prop where
  physical : ∀ o ∈ paObjects, o.cbPhysical ≤ o.cbVirtual
  inFile : ∀ o ∈ paObjects, o.offPEFile + o.cbPhysical < 0x100000000
  fits : ∀ o ∈ paObjects, pagesEnd o < 0x100000000
  apart : paObjects.Pairwise fun o o' => pagesEnd o ≤ o'.ulRVA

theorem laid_of_wellFormed {pe : PeModule} (wf : WellFormed pe) : Laid pe.paObjects :=
  ⟨wf.physical, wf.inFile, wf.fits, wf.apart⟩

theorem Laid.tail {o : LxObject} {rest : List LxObject} (laid : Laid (o :: rest)) : Laid rest where
  physical o' h := laid.physical o' (List.mem_cons_of_mem o h)
  inFile o' h := laid.inFile o' (List.mem_cons_of_mem o h)
  fits o' h := laid.fits o' (List.mem_cons_of_mem o h)
  apart := laid.apart.of_cons

theorem ulRVA_le_pagesEnd (o : LxObject) : o.ulRVA ≤ pagesEnd o := Nat.le_add_right _ _

theorem physicalEnd_le_pagesEnd {o : LxObject} (h : o.cbPhysical ≤ o.cbVirtual) :
    o.ulRVA + o.cbPhysical ≤ pagesEnd o := by
  unfold pagesEnd pagesFor
  omega

theorem objectLimit_last {o : LxObject} (h : pagesEnd o < 0x100000000) :
    objectLimit o [] = pagesEnd o := by
  unfold pagesEnd pagesFor at h
  have noWrap : o.cbVirtual + 0xfff < 0x100000000 := by omega
  show add32 (alignPage o.cbVirtual) o.ulRVA = o.ulRVA + 0x1000 * pagesFor o.cbVirtual
  unfold pagesFor alignPage
  rw [add32_of_lt noWrap, add32_of_lt (by omega)]
  omega

theorem pagesEnd_le_objectLimit {o : LxObject} {rest : List LxObject} (laid : Laid (o :: rest)) :
    pagesEnd o ≤ objectLimit o rest := by
  cases rest with
  | nil => exact Nat.le_of_eq (objectLimit_last (laid.fits o List.mem_cons_self)).symm
  | cons next rest => exact List.rel_of_pairwise_cons laid.apart List.mem_cons_self

/-! ## The searches -/

theorem seekObject_snd (r i j : ℕ) (paObjects : List LxObject) :
    (seekObject r i paObjects).2 = (seekObject r j paObjects).2 := by
  induction paObjects generalizing i j with
  | nil => rfl
  | cons o rest ih =>
    rw [seekObject, seekObject]
    split
    · exact ih (i + 1) (j + 1)
    · rfl

theorem seekObject_stop {r : ℕ} (i : ℕ) {o : LxObject} {rest : List LxObject}
    (h : r < objectLimit o rest) : seekObject r i (o :: rest) = (i, o :: rest) :=
  if_neg (Nat.not_le_of_gt h)

theorem seekObject_skip {r : ℕ} (i : ℕ) {o : LxObject} {rest : List LxObject}
    (h : objectLimit o rest ≤ r) : seekObject r i (o :: rest) = seekObject r (i + 1) rest :=
  if_pos h

theorem seekObject_resume {r r' : ℕ} (h : r ≤ r') (i : ℕ) (paObjects : List LxObject) :
    (seekObject r' 0 (seekObject r i paObjects).2).2 = (seekObject r' 0 paObjects).2 := by
  induction paObjects generalizing i with
  | nil => rfl
  | cons o rest ih =>
    by_cases skip : objectLimit o rest ≤ r
    · rw [seekObject_skip i skip, ih (i + 1), seekObject_skip 0 (Nat.le_trans skip h)]
      exact seekObject_snd r' 0 1 rest
    · rw [seekObject_stop i (Nat.lt_of_not_le skip)]

/-- What a search ends at, when the RVA is not below the first object and below the
image end. -/
theorem seekObject_found {r : ℕ} (i : ℕ) {o : LxObject} {rest : List LxObject}
    (laid : Laid (o :: rest)) (low : o.ulRVA ≤ r) (high : r < imageEnd (o :: rest)) :
    ∃ o' rest', (seekObject r i (o :: rest)).2 = o' :: rest' ∧ Laid (o' :: rest') ∧
      o'.ulRVA ≤ r ∧ r < objectLimit o' rest' ∧ imageEnd (o' :: rest') = imageEnd (o :: rest) := by
  induction rest generalizing o i with
  | nil =>
    have stop : r < objectLimit o [] := by
      rw [objectLimit_last (laid.fits o List.mem_cons_self)]
      exact high
    exact ⟨o, [], by rw [seekObject_stop i stop], laid, low, stop, rfl⟩
  | cons next rest ih =>
    by_cases skip : next.ulRVA ≤ r
    · rw [seekObject_skip i skip]
      exact ih (i + 1) laid.tail skip high
    · have stop : r < objectLimit o (next :: rest) := Nat.lt_of_not_le skip
      exact ⟨o, next :: rest, by rw [seekObject_stop i stop], laid, low, stop, rfl⟩

/-- The object a search ends at, with its index. -/
def foundObject : ℕ × List LxObject → Option (ℕ × LxObject)
  | (i, o :: _) => some (i, o)
  | (_, []) => none

theorem foundObject_seekObject {r : ℕ} (i : ℕ) {o : LxObject} {rest : List LxObject}
    (laid : Laid (o :: rest)) (low : o.ulRVA ≤ r) :
    foundObject (seekObject r i (o :: rest)) = objectFrom r i (o :: rest) := by
  induction rest generalizing o i with
  | nil =>
    rw [seekObject, objectLimit_last (laid.fits o List.mem_cons_self), objectFrom]
    by_cases skip : pagesEnd o ≤ r
    · rw [if_pos skip, if_neg (by omega)]
      rfl
    · rw [if_neg skip, if_pos (by omega)]
      rfl
  | cons next rest ih =>
    rw [objectFrom]
    by_cases skip : next.ulRVA ≤ r
    · rw [seekObject_skip i skip, if_pos skip]
      exact ih (i + 1) laid.tail skip
    · rw [seekObject_stop i (Nat.lt_of_not_le skip), if_neg skip, if_pos low]
      rfl

theorem foundObject_eq_objectAt {pe : PeModule} (wf : WellFormed pe) (r : ℕ) :
    foundObject (seekObject r 0 pe.paObjects) = objectAt pe r := by
  obtain ⟨o, rest, objects, first⟩ := wf.header
  have laid : Laid (o :: rest) := objects ▸ laid_of_wellFormed wf
  rw [objectAt, objects]
  exact foundObject_seekObject 0 laid (by omega)

theorem objectFrom_of_pages {r : ℕ} (i k : ℕ) {paObjects : List LxObject} {o : LxObject}
    (laid : Laid paObjects) (found : paObjects[k]? = some o)
    (low : o.ulRVA ≤ r) (high : r < pagesEnd o) :
    objectFrom r i paObjects = some (i + k, o) := by
  induction paObjects generalizing i k with
  | nil => simp at found
  | cons o' rest ih =>
    cases rest with
    | nil =>
      cases k with
      | zero =>
        obtain rfl : o' = o := by simpa using found
        rw [objectFrom, if_pos ⟨low, high⟩, Nat.add_zero]
      | succ k => simp at found
    | cons next rest =>
      rw [objectFrom]
      cases k with
      | zero =>
        obtain rfl : o' = o := by simpa using found
        have : pagesEnd o' ≤ next.ulRVA :=
          List.rel_of_pairwise_cons laid.apart List.mem_cons_self
        rw [if_neg (by omega), if_pos low, Nat.add_zero]
      | succ k =>
        rw [List.getElem?_cons_succ] at found
        -- the next object starts no later than the one of the page
        have : next.ulRVA ≤ o.ulRVA := by
          rcases List.mem_cons.mp (List.mem_of_getElem? found) with rfl | mem
          · exact Nat.le_refl _
          · exact Nat.le_trans (ulRVA_le_pagesEnd next)
              (List.rel_of_pairwise_cons laid.tail.apart mem)
        rw [if_pos (by omega), ih (i + 1) k laid.tail found, Nat.add_right_comm, Nat.add_assoc]

theorem objectAt_of_pages {pe : PeModule} (wf : WellFormed pe) {k r : ℕ} {o : LxObject}
    (found : pe.paObjects[k]? = some o) (low : o.ulRVA ≤ r) (high : r < pagesEnd o) :
    objectAt pe r = some (k, o) := by
  rw [objectAt, objectFrom_of_pages 0 k (laid_of_wellFormed wf) found low high, Nat.zero_add]

theorem objectFrom_getElem {r i k : ℕ} {paObjects : List LxObject} {o : LxObject}
    (h : objectFrom r i paObjects = some (k, o)) : i ≤ k ∧ paObjects[k - i]? = some o := by
  induction paObjects generalizing i with
  | nil => simp [objectFrom] at h
  | cons o' rest ih =>
    cases rest with
    | nil =>
      rw [objectFrom] at h
      split at h
      · obtain ⟨rfl, rfl⟩ : i = k ∧ o' = o := by simpa using h
        simp
      · simp at h
    | cons next rest =>
      rw [objectFrom] at h
      split at h
      · obtain ⟨le, found⟩ := ih h
        refine ⟨by omega, ?_⟩
        rw [show k - i = (k - (i + 1)) + 1 by omega, List.getElem?_cons_succ]
        exact found
      · split at h
        · obtain ⟨rfl, rfl⟩ : i = k ∧ o' = o := by simpa using h
          simp
        · simp at h

theorem objectAt_getElem {pe : PeModule} {r k : ℕ} {o : LxObject}
    (h : objectAt pe r = some (k, o)) : pe.paObjects[k]? = some o :=
  (objectFrom_getElem h).2

/-! ## The reader -/

/-- The byte of the image at an RVA whose search ended at these objects. -/
def byteFrom (file : Mem) (r : ℕ) : List LxObject → UInt8
  | [] => 0
  | o :: _ => if r < o.ulRVA + o.cbPhysical then file (o.offPEFile + (r - o.ulRVA)) else 0

theorem image_eq_byteFrom {pe : PeModule} (wf : WellFormed pe) (r : ℕ) :
    image pe r = byteFrom pe.file r (seekObject r 0 pe.paObjects).2 := by
  rw [image, ← foundObject_eq_objectAt wf r]
  rcases seekObject r 0 pe.paObjects with ⟨i, _ | ⟨o, rest⟩⟩
  · rfl
  · rfl

theorem imageEnd_lt {paObjects : List LxObject} (laid : Laid paObjects) :
    imageEnd paObjects < 0x100000000 := by
  induction paObjects with
  | nil => decide
  | cons o rest ih =>
    cases rest with
    | nil => exact laid.fits o List.mem_cons_self
    | cons next rest => exact ih laid.tail

theorem imageEnd_aligned {paObjects : List LxObject}
    (aligned : ∀ o ∈ paObjects, 0x1000 ∣ o.ulRVA) : 0x1000 ∣ imageEnd paObjects := by
  induction paObjects with
  | nil => decide
  | cons o rest ih =>
    cases rest with
    | nil =>
      have := aligned o List.mem_cons_self
      show 0x1000 ∣ pagesEnd o
      unfold pagesEnd
      omega
    | cons next rest => exact ih fun o' h => aligned o' (List.mem_cons_of_mem o h)

theorem pagesEnd_le_imageEnd {paObjects : List LxObject} (laid : Laid paObjects) {o : LxObject}
    (mem : o ∈ paObjects) : pagesEnd o ≤ imageEnd paObjects := by
  induction paObjects generalizing o with
  | nil => simp at mem
  | cons o' rest ih =>
    cases rest with
    | nil =>
      obtain rfl : o = o' := by simpa using mem
      exact Nat.le_refl _
    | cons next rest =>
      rcases List.mem_cons.mp mem with rfl | mem
      · have next_le := ih laid.tail List.mem_cons_self
        have : pagesEnd o ≤ next.ulRVA :=
          List.rel_of_pairwise_cons laid.apart List.mem_cons_self
        have := ulRVA_le_pagesEnd next
        exact Nat.le_trans (by omega) next_le
      · exact ih laid.tail mem

theorem readAtRVAFrom_ok (file : Mem) {rounds n r : ℕ} {o : LxObject} {rest : List LxObject}
    (laid : Laid (o :: rest)) (low : o.ulRVA ≤ r) (high : r + n ≤ imageEnd (o :: rest))
    (enough : n ≤ rounds) :
    ∃ buffer, readAtRVAFrom file rounds (o :: rest) r n = .ok buffer ∧
      ∀ i < n, buffer i = byteFrom file (r + i) (seekObject (r + i) 0 (o :: rest)).2 := by
  induction rounds generalizing n r o rest with
  | zero =>
    obtain rfl : n = 0 := by omega
    exact ⟨fun _ => 0, rfl, fun i h => absurd h (Nat.not_lt_zero i)⟩
  | succ rounds ih =>
    rw [readAtRVAFrom]
    by_cases done : n = 0
    · rw [if_pos done]
      exact ⟨fun _ => 0, rfl, fun i h => absurd h (by omega)⟩
    rw [if_neg done]
    obtain ⟨o', rest', search, laid', low', inside, same⟩ :=
      seekObject_found 0 laid low (by omega)
    have fits' := laid'.fits o' List.mem_cons_self
    have data := physicalEnd_le_pagesEnd (laid'.physical o' List.mem_cons_self)
    have inFile := laid'.inFile o' List.mem_cons_self
    have limit := pagesEnd_le_objectLimit laid'
    have endFits : imageEnd (o' :: rest') < 0x100000000 := imageEnd_lt laid'
    have dataEnd : add32 o'.ulRVA o'.cbPhysical = o'.ulRVA + o'.cbPhysical :=
      add32_of_lt (by omega)
    -- the RVA up to which this round can deliver
    obtain ⟨stop, hstop⟩ : ∃ stop, stop =
        (if r < o'.ulRVA + o'.cbPhysical then o'.ulRVA + o'.cbPhysical
          else objectLimit o' rest') := ⟨_, rfl⟩
    have stop_gt : r < stop := by
      rw [hstop]
      split <;> assumption
    have stop_le : stop ≤ objectLimit o' rest' := by
      rw [hstop]
      split
      · exact Nat.le_trans data limit
      · exact Nat.le_refl _
    have stop_lt : stop < 0x100000000 := by
      refine Nat.lt_of_le_of_lt stop_le ?_
      cases rest' with
      | nil => rw [objectLimit_last fits']; exact fits'
      | cons next rest' =>
        exact Nat.lt_of_le_of_lt (ulRVA_le_pagesEnd next)
          (laid'.fits next (by simp))
    have chunk : sub32 stop r = stop - r :=
      sub32_of_le (Nat.le_of_lt stop_gt) stop_lt
    have next : add32 r (min n (stop - r)) = r + min n (stop - r) := add32_of_lt (by omega)
    obtain ⟨tail, read, bytes⟩ := ih (n := n - min n (stop - r)) (r := r + min n (stop - r))
      laid' (by omega) (by rw [same]; omega) (by omega)
    rw [search]
    simp only [dataEnd, decide_eq_true_eq, ← hstop, chunk, next, read]
    refine ⟨_, rfl, ?_⟩
    intro i hi
    have resume := seekObject_resume (Nat.le_add_right r i) 0 (o :: rest)
    rw [search] at resume
    beta_reduce
    by_cases here : i < min n (stop - r)
    · rw [if_pos here, ← resume, seekObject_stop 0 (by omega), byteFrom]
      by_cases fPhysical : r < o'.ulRVA + o'.cbPhysical
      · rw [if_pos fPhysical] at hstop
        have offset : sub32 r o'.ulRVA = r - o'.ulRVA := sub32_of_le low' (by omega)
        have offFile : add32 (r - o'.ulRVA) o'.offPEFile = r - o'.ulRVA + o'.offPEFile :=
          add32_of_lt (by omega)
        rw [if_pos fPhysical, if_pos (by omega), offset, offFile]
        congr 1
        omega
      · rw [if_neg fPhysical, if_neg (by omega)]
    · rw [if_neg here, bytes _ (by omega),
        show r + min n (stop - r) + (i - min n (stop - r)) = r + i by omega, resume]

theorem readAtRVA_ok {pe : PeModule} (wf : WellFormed pe) {r n : ℕ}
    (h : r + n ≤ imageEnd pe.paObjects) :
    ∃ buffer, readAtRVA pe r n = .ok buffer ∧ ∀ i < n, buffer i = image pe (r + i) := by
  obtain ⟨o, rest, objects, first⟩ := wf.header
  have laid : Laid (o :: rest) := objects ▸ laid_of_wellFormed wf
  rw [objects] at h
  obtain ⟨buffer, read, bytes⟩ :=
    readAtRVAFrom_ok pe.file laid (by omega) h (Nat.le_refl n)
  refine ⟨buffer, ?_, ?_⟩
  · rw [readAtRVA, objects]
    exact read
  · intro i hi
    rw [bytes i hi, image_eq_byteFrom wf, objects]

end Odin32.LxImageRead
