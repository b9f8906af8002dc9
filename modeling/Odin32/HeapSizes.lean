import Odin32.HeapPointers

/-! # Sizes of both heaps

A block that is answered has the bytes that were asked for, inside its anchor and apart from all
other blocks in use. What is asked for is rounded up and has the bytes of headers, signatures and
safety added, in 32 bits. -/

set_option autoImplicit false

namespace Odin32.HeapSizes
open Odin32.HeapBlocks Odin32.FreeSize Odin32.Word
open Odin32.ResHeap (ResHeap)
open Odin32.SwpHeap (SwpHeap)

theorem le_align {n : ℕ} (fits : n + 3 < 0x100000000) : n ≤ align n 4 := by
  unfold align
  rw [add32_of_lt fits]
  omega

/-! ## The resident heap -/

section Resident

variable {debug : Bool} {a : ResHeap.Answers} {h h' : ResHeap} {op : ResHeap.Op} {cb pv : ℕ}

/-- The pointer is to at least `cb` bytes, in one anchor and apart from every other block. -/
structure ResHonoured (debug : Bool) (cb pv : ℕ) (h' : ResHeap) : Prop where
  size : cb ≤ ResHeap.resMsize debug pv h'
  inside : ∃ pha ∈ h'.anchors, pha.pha + ResHeap.cbHeapAnchor debug ≤ pv ∧
    pv + ResHeap.resMsize debug pv h' ≤ pha.last
  apart : ∃ b, ResHeap.InUse h' b ∧ pv = b.uData + ResHeap.cbHdr debug ∧
    ∀ c, ResHeap.InUse h' c → c ≠ b →
      pv + ResHeap.resMsize debug pv h' ≤ c.uData + ResHeap.cbHdr debug ∨
        c.uData + ResHeap.cbHdr debug + c.cbSize ≤ pv

theorem res_honoured {large : ℕ} (answered : ResHeap.Answered debug large h' pv)
    (enough : cb ≤ large) : ResHonoured debug cb pv h' := by
  obtain ⟨ok, pha, there, b, used, rfl, size⟩ := answered
  obtain ⟨-, low, high, -⟩ := ok.inside there used
  have msize := ResHeap.msize_of_mem ok there used
  refine ⟨by omega, ⟨pha, there, by omega, by omega⟩, b, ⟨pha, there, used⟩, rfl, ?_⟩
  rintro c ⟨other, thereC, usedC⟩ differ
  have apart := ok.blocks_apart there thereC used usedC differ
  unfold endOf at apart
  omega

/-- What is asked for and rounded up, with the safety bytes of the release layout. -/
def slack (debug : Bool) : ℕ := if debug then 3 else 19

/-- No rounding of a size wraps. -/
def ResFits (debug : Bool) : ResHeap.Op → ResHeap → Prop
  | .malloc cbSize, _ => cbSize + slack debug < 0x100000000
  | .realloc pv cbNew, h => cbNew + 3 < 0x100000000 ∧
      ∀ cb, ResHeap.forwarded debug pv cbNew h = some cb → cb + slack debug < 0x100000000
  | .free _, _ => True
  | .heapmin, _ => True

theorem le_request {cbSize : ℕ} (fits : cbSize + slack debug < 0x100000000) :
    cbSize ≤ ResHeap.request debug cbSize := by
  refine Nat.le_trans ?_ (Nat.le_max_left _ _)
  cases debug with
  | true => exact le_align fits
  | false =>
    have fits : cbSize + 19 < 0x100000000 := fits
    have sum : add32 cbSize 16 = cbSize + 16 := add32_of_lt (by omega)
    show cbSize ≤ align (add32 cbSize 16) 4
    rw [sum]
    exact Nat.le_trans (Nat.le_add_right _ _) (le_align (by omega))

theorem le_newSize {cbNew : ℕ} (fits : cbNew + 3 < 0x100000000) : cbNew ≤ ResHeap.newSize cbNew :=
  Nat.le_trans (le_align fits) (Nat.le_max_left _ _)

theorem forwarded_ge {cbNew : ℕ} (fits : cbNew + 3 < 0x100000000)
    (hands : ResHeap.forwarded debug pv cbNew h = some cb) : cbNew ≤ cb := by
  unfold ResHeap.forwarded at hands
  split at hands
  · split_ifs at hands
    split at hands
    · cases hands
    · obtain rfl := Option.some.inj hands
      exact le_newSize fits
  · split_ifs at hands
    obtain rfl := Option.some.inj hands
    exact Nat.le_refl _

theorem le_wanted {cbNew : ℕ} (fits : ResFits debug (.realloc pv cbNew) h) :
    cbNew ≤ ResHeap.wanted debug pv cbNew h := by
  unfold ResHeap.wanted
  cases hands : ResHeap.forwarded debug pv cbNew h with
  | none => exact le_newSize fits.1
  | some cb => exact Nat.le_trans (forwarded_ge fits.1 hands) (le_request (fits.2 cb hands))

/-- The size a call asks for. -/
def resAsked : ResHeap.Op → ℕ
  | .malloc cbSize => cbSize
  | .realloc _ cbNew => cbNew
  | .free _ => 0
  | .heapmin => 0

/-- No block is written over another, and what is answered is as large as was asked for. -/
structure ResHonours (debug : Bool) (a : ResHeap.Answers) (op : ResHeap.Op) (h : ResHeap) :
    Prop where
  defined : ∀ cbFree, ResHeap.step debug a op h ≠ .error (.overlap cbFree)
  honoured : ∀ h' pv, ResHeap.step debug a op h = .ok (h', some pv) →
    ResHonoured debug (resAsked op) pv h'

theorem res_answered {crowded : Prop} {large : ℕ}
    (returned : ResHeap.Returned debug h crowded large (.ok (h', some pv))) :
    ResHeap.Answered debug large h' pv := by
  cases returned with
  | block answered => exact answered

theorem res_honours (ok : ResHeap.HeapOk debug h) (sound : a.Sound h)
    (roomy : ResHeap.Uncrowded debug a op h) (fits : ResFits debug op h) :
    ResHonours debug a op h := by
  refine ⟨fun cbFree => ResHeap.step_not_overlap ok sound roomy, fun h' pv done => ?_⟩
  cases op with
  | malloc cbSize =>
    have returned := (ResHeap.rmalloc_spec ok sound cbSize).1
    have done : ResHeap.rmalloc debug a cbSize h = .ok (h', some pv) := done
    rw [done] at returned
    exact res_honoured (res_answered returned) (le_request fits)
  | realloc pv' cbNew =>
    have returned := ResHeap.rrealloc_spec ok sound pv' cbNew
    have done : ResHeap.rrealloc debug a pv' cbNew h = .ok (h', some pv) := done
    rw [done] at returned
    exact res_honoured (res_answered returned) (le_wanted fits)
  | free pv' =>
    have done : (ResHeap.rfree debug pv' h).map (fun heap => (heap, none)) =
      .ok (h', some pv) := done
    cases freed : ResHeap.rfree debug pv' h with
    | error trap =>
      rw [freed] at done
      cases done
    | ok heap =>
      rw [freed] at done
      cases done
  | heapmin => cases done

end Resident

/-! ## The swappable heap -/

section Swappable

variable {debug : Bool} {lost : List ℕ} {a : SwpHeap.Answers} {h h' : SwpHeap} {op : SwpHeap.Op}
variable {cb pv : ℕ}

structure SwpHonoured (debug : Bool) (cb pv : ℕ) (h' : SwpHeap) : Prop where
  size : cb ≤ SwpHeap.swpMsize debug pv h'
  inside : ∃ pha ∈ h'.anchors, pha.pvBlock ≤ pv ∧ pv + SwpHeap.swpMsize debug pv h' ≤ pha.last
  apart : ∃ b, SwpHeap.InUse h' b ∧ pv = b.uData + SwpHeap.cbSignature debug ∧
    ∀ c, SwpHeap.InUse h' c → c ≠ b →
      pv + SwpHeap.swpMsize debug pv h' ≤ c.uData ∨ c.uData + c.cbSize ≤ pv

theorem swp_honoured {accepts : SwpHeap.HeapAnchor → Memblock → Prop}
    (answered : SwpHeap.Answered debug lost accepts h' pv)
    (enough : ∀ pha b, accepts pha b → cb + SwpHeap.cbSignatures debug ≤ b.cbSize ∧
      pha.pvBlock < b.uData + SwpHeap.cbSignature debug) :
    SwpHonoured debug cb pv h' := by
  obtain ⟨ok, pha, there, b, used, rfl, accepted⟩ := answered
  obtain ⟨size, behind⟩ := enough pha b accepted
  obtain ⟨-, low, high, -⟩ := ok.inside there used
  have msize := SwpHeap.msize_of_mem ok there used behind
  have twice := SwpHeap.signature_le debug
  refine ⟨by omega, ⟨pha, there, by omega, by omega⟩, b, ⟨pha, there, used⟩, rfl, ?_⟩
  rintro c ⟨other, thereC, usedC⟩ differ
  have apart := ok.blocks_apart there thereC used usedC differ
  unfold endOf at apart
  omega

/-- The release layout hands out the block its anchor starts with. -/
def AnchorStart (debug : Bool) : SwpHeap.Op → SwpHeap → Prop
  | .malloc cbSize, h => debug = false ∧ SwpHeap.WholeFirst debug (SwpHeap.request debug cbSize) h
  | .realloc pv cbNew, h => debug = false ∧ ∃ cb, SwpHeap.forwarded debug pv cbNew h = some cb ∧
      SwpHeap.WholeFirst debug (SwpHeap.request debug cb) h
  | .free _, _ => False
  | .heapmin, _ => False

def swpAsked : SwpHeap.Op → ℕ
  | .malloc cbSize => cbSize
  | .realloc _ cbNew => cbNew
  | .free _ => 0
  | .heapmin => 0

def SwpHonours (debug : Bool) (a : SwpHeap.Answers) (op : SwpHeap.Op) (h : SwpHeap) : Prop :=
  ∀ h' pv, SwpHeap.step debug a op h = .ok (h', some pv) → SwpHonoured debug (swpAsked op) pv h'

/-- A size does not wrap when it is rounded up and gets its signatures. -/
def SizeFits (debug : Bool) (cb : ℕ) : Prop := cb + 3 + SwpHeap.cbSignatures debug < 0x100000000

/-- No rounding of a size wraps, and the block does not start its anchor without a signature. -/
def SwpFits (debug : Bool) : SwpHeap.Op → SwpHeap → Prop
  | .malloc cbSize, h => SizeFits debug cbSize ∧ ¬AnchorStart debug (.malloc cbSize) h
  | .realloc pv cbNew, h => SizeFits debug cbNew ∧
      (∀ cb, SwpHeap.forwarded debug pv cbNew h = some cb → SizeFits debug cb) ∧
      ¬AnchorStart debug (.realloc pv cbNew) h
  | .free _, _ => True
  | .heapmin, _ => True

theorem le_swpRequest (fits : SizeFits debug cb) :
    cb + SwpHeap.cbSignatures debug ≤ SwpHeap.request debug cb := by
  unfold SizeFits at fits
  have rounded := @le_align cb (by omega)
  have top : align cb 4 ≤ cb + 3 := by
    unfold align
    rw [add32_of_lt (by omega)]
    omega
  have sum : SwpHeap.request debug cb = align cb 4 + SwpHeap.cbSignatures debug :=
    add32_of_lt (by omega)
  omega

theorem swpForwarded_ge {cbNew : ℕ} (fits : SizeFits debug cbNew)
    (hands : SwpHeap.forwarded debug pv cbNew h = some cb) : cbNew ≤ cb := by
  unfold SwpHeap.forwarded at hands
  split at hands
  · split_ifs at hands
    split at hands
    · cases hands
    · obtain rfl := Option.some.inj hands
      exact Nat.le_trans (Nat.le_add_right _ _) (le_swpRequest fits)
  · split_ifs at hands
    obtain rfl := Option.some.inj hands
    exact Nat.le_refl _

theorem swp_answered {starved plain : Prop} {accepts : SwpHeap.HeapAnchor → Memblock → Prop}
    (returned : SwpHeap.Returned debug lost h starved plain accepts (.ok (h', some pv)))
    (plain_ : plain) : SwpHeap.Answered debug lost accepts h' pv := by
  cases returned with
  | block fed answered => exact answered plain_

/-- A block in use lies behind the start of its anchor, or it starts the first anchor that has room
for it. -/
theorem behind_of_start {large : ℕ} {pha : SwpHeap.HeapAnchor} {b : Memblock}
    (start : pha.pvBlock < b.uData + SwpHeap.cbSignature debug ∨ SwpHeap.WholeFirst debug large h)
    (low : pha.pvBlock ≤ b.uData)
    (elsewhere : ¬(debug = false ∧ SwpHeap.WholeFirst debug large h)) :
    pha.pvBlock < b.uData + SwpHeap.cbSignature debug := by
  rcases start with behind | whole
  · exact behind
  · cases debug with
    | false => exact absurd ⟨rfl, whole⟩ elsewhere
    | true => exact Nat.lt_of_le_of_lt low (Nat.lt_add_of_pos_right (by decide))

theorem answered_low {accepts : SwpHeap.HeapAnchor → Memblock → Prop}
    (answered : SwpHeap.Answered debug lost accepts h' pv) :
    SwpHeap.Answered debug lost (fun pha b => accepts pha b ∧ pha.pvBlock ≤ b.uData) h' pv := by
  obtain ⟨ok, pha, there, b, used, pointer, accepted⟩ := answered
  exact ⟨ok, pha, there, b, used, pointer, accepted, (ok.inside there used).2.1⟩

theorem swp_honours (ok : SwpHeap.HeapOk debug lost h) (sound : a.Sound h)
    (proper : SwpHeap.Proper debug op h) (fits : SwpFits debug op h) : SwpHonours debug a op h := by
  intro h' pv done
  cases op with
  | malloc cbSize =>
    have returned := SwpHeap.smalloc_spec ok sound cbSize
    have done : SwpHeap.smalloc debug a cbSize h = .ok (h', some pv) := done
    rw [done] at returned
    refine swp_honoured (answered_low (swp_answered returned proper)) fun pha b accepted => ⟨?_, ?_⟩
    · exact Nat.le_trans (le_swpRequest fits.1) accepted.1.size
    · exact behind_of_start accepted.1.start accepted.2 fits.2
  | realloc pv' cbNew =>
    have returned := SwpHeap.srealloc_spec ok sound pv' cbNew
    have done : SwpHeap.srealloc debug a pv' cbNew h = .ok (h', some pv) := done
    rw [done] at returned
    obtain ⟨size, forward, elsewhere⟩ := fits
    refine swp_honoured (answered_low (swp_answered returned proper)) fun pha b accepted => ⟨?_, ?_⟩
    · rcases accepted.1.size with here | ⟨cb, hands, there⟩
      · exact Nat.le_trans (le_swpRequest size) here
      · have more := swpForwarded_ge size hands
        exact Nat.le_trans (Nat.le_trans (Nat.add_le_add_right more _)
          (le_swpRequest (forward cb hands))) there
    · rcases accepted.1.start with behind | ⟨cb, hands, whole⟩
      · exact behind
      · exact behind_of_start (.inr whole) accepted.2
          fun first => elsewhere ⟨first.1, cb, hands, first.2⟩
  | free pv' =>
    have done : (SwpHeap.sfree debug pv' h).map (fun heap => (heap, none)) =
      .ok (h', some pv) := done
    cases freed : SwpHeap.sfree debug pv' h with
    | error trap =>
      rw [freed] at done
      cases done
    | ok heap =>
      rw [freed] at done
      cases done
  | heapmin => cases done

end Swappable

/-- In every state of a run, the resident heap's whatever its sizes were, and the swappable heap's
with sizes that did not wrap. -/
theorem sizes_honoured (debug : Bool) :
    (∀ meets h a op, ResHeap.Reached debug meets h → a.Sound h →
      ResHeap.Uncrowded debug a op h → ResFits debug op h → ResHonours debug a op h) ∧
    ∀ h a op, SwpHeap.Reached debug (SwpHeap.Proper debug) h → a.Sound h →
      SwpHeap.Proper debug op h → SwpFits debug op h → SwpHonours debug a op h := by
  constructor
  · intro meets h a op reached sound roomy fits
    exact res_honours (ResHeap.reached_ok reached) sound roomy fits
  · intro h a op reached sound proper fits
    obtain ⟨lost, ok⟩ := SwpHeap.reached_ok reached
    exact swp_honours ok sound proper fits

/-- Eight bytes of each heap as it is made. -/
theorem sizes_honoured_eight :
    ResHonours false (ResHeap.blockAnswers 0x200000) (.malloc 8) ResHeap.sampleHeap ∧
      SwpHonours false SwpHeap.noAnswers (.malloc 8) SwpHeap.sampleHeap := by
  have roomy : ¬ResHeap.MallocCrowded false (ResHeap.blockAnswers 0x200000) 8
    ResHeap.sampleHeap := by decide +kernel
  have fits : SizeFits false 8 := by
    unfold SizeFits
    decide
  refine ⟨(sizes_honoured false).1 _ _ _ _ (ResHeap.sampleHeap_reached fun _ _ _ => True)
    ResHeap.secondBlock_sound roomy (by show 8 + 19 < 0x100000000; decide),
    (sizes_honoured false).2 _ _ _ (SwpHeap.sampleHeap_reached false _) (SwpHeap.noAnswers_sound _)
      HeapPointers.usedHeap_proper ⟨fits, ?_⟩⟩
  rintro ⟨-, front, pha, back, b, cut, -, best, -, whole⟩
  have alone : front = [] ∧ pha = SwpHeap.sampleAnchor ∧ back = [] := by
    cases front with
    | nil =>
      obtain ⟨rfl, rfl⟩ := List.cons.inj cut
      exact ⟨rfl, rfl, rfl⟩
    | cons p front =>
      have short := congrArg List.length cut
      rw [List.cons_append, List.length_cons, List.length_append, List.length_cons] at short
      have one : SwpHeap.sampleHeap.anchors.length = 1 := rfl
      omega
  obtain ⟨rfl, rfl, rfl⟩ := alone
  have block : bestFit (SwpHeap.request false 8) SwpHeap.sampleAnchor.trees =
      some ⟨0x10028, 0x100000, 0x40000⟩ := by decide +kernel
  obtain rfl := Option.some.inj (block.symm.trans best)
  exact absurd whole (by decide)

/-- `rmalloc` of all but 16 bytes of the address space answers a block of 16 bytes. -/
theorem sizes_not_honoured :
    ¬((∀ debug h a op, ResHeap.Reached debug (fun _ _ _ => True) h → a.Sound h →
      ResHonours debug a op h) ∧
    ∀ debug h a op, SwpHeap.Reached debug SwpHeap.AnyCall h → a.Sound h →
      SwpHonours debug a op h) := by
  intro always
  have honours := always.1 false ResHeap.sampleHeap (ResHeap.blockAnswers 0x200000)
    (.malloc 0xfffffff0) (ResHeap.sampleHeap_reached fun _ _ _ => True) ResHeap.secondBlock_sound
  have small : (ResHeap.step false (ResHeap.blockAnswers 0x200000) (.malloc 0xfffffff0)
      ResHeap.sampleHeap).map (fun r => r.2.map fun pv => ResHeap.resMsize false pv r.1) =
        .ok (some 16) := by
    decide +kernel
  cases done : ResHeap.step false (ResHeap.blockAnswers 0x200000) (.malloc 0xfffffff0)
      ResHeap.sampleHeap with
  | error trap =>
    rw [done] at small
    cases small
  | ok r =>
    obtain ⟨h', ret⟩ := r
    rw [done] at small
    cases ret with
    | none => cases small
    | some pv =>
      have size : ResHeap.resMsize false pv h' = 16 := Option.some.inj (Except.ok.inj small)
      have enough := (honours.honoured h' pv done).size
      have asked : resAsked (.malloc 0xfffffff0) = 0xfffffff0 := rfl
      omega

end Odin32.HeapSizes
